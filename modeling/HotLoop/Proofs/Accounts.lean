import HotLoop.Proofs.Failure

namespace HotLoop

namespace Cache

variable {c : Cache} {t : Trace} {bound : Int64}

def lost (before after : Cache) : Nat := before.order.countP fun key => (after.get? key).isNone

theorem length_added (c : Cache) (t : Trace) :
    (c.added t).order.length + (if c.get? t.key = none then 0 else 1) = c.order.length + 1 := by
  by_cases hnew : c.get? t.key = none
  · simp [order_added hnew, hnew]
  · simp [order_added_of_cached hnew, hnew]

namespace Ordered

theorem lost_self (h : c.Ordered) : c.lost c = 0 := by
  rw [lost, List.countP_eq_zero]
  intro key hkey
  obtain ⟨t, ht⟩ := h.exists_get? hkey
  simp [ht]

theorem lost_insert (h : c.Ordered) (bound : Int64) (t : Trace) :
    c.lost (c.insert bound t).1 = (c.insert bound t).2 := by
  obtain ⟨_, hcount, hget⟩ := (h.added t).trim bound
  obtain ⟨front, hsplit⟩ := exists_append_latest bound (c.added t).order
  have hkept : ∀ key ∈ latest bound (c.added t).order, ¬((c.insert bound t).1.get? key).isNone := by
    intro key hkey
    obtain ⟨u, hu⟩ := (h.added t).exists_get? ((latest_sublist _ _).mem hkey)
    rw [insert_eq, hget, if_pos hkey, hu]
    exact Bool.false_ne_true
  have hfront : ∀ key ∈ front, ((c.insert bound t).1.get? key).isNone := by
    intro key hkey
    have hnodup := (h.added t).nodup
    rw [hsplit] at hnodup
    rw [insert_eq, hget, if_neg]
    · rfl
    · intro hlast
      exact (List.nodup_append.mp hnodup).2.2 key hkey key hlast rfl
  have hlost : c.lost (c.insert bound t).1 =
      (c.added t).order.countP fun key => ((c.insert bound t).1.get? key).isNone := by
    by_cases hnew : c.get? t.key = none
    · have hlast : t.key ∈ latest bound (c.added t).order := by
        rw [order_added hnew]
        exact mem_latest_concat bound c.order t.key
      rw [order_added hnew, List.countP_append, lost, List.countP_singleton, if_neg (hkept _ hlast), Nat.add_zero]
    · rw [lost, order_added_of_cached hnew]
  have hdropped : (c.insert bound t).2 = front.length := by
    have hlength := congrArg List.length hsplit
    rw [List.length_append] at hlength
    rw [insert_eq, hcount]
    omega
  calc c.lost (c.insert bound t).1
    _ = (front ++ latest bound (c.added t).order).countP fun key => ((c.insert bound t).1.get? key).isNone := by
      rw [hlost, ← hsplit]
    _ = front.length := by
      rw [List.countP_append, List.countP_eq_length.mpr hfront, List.countP_eq_zero.mpr hkept, Nat.add_zero]
    _ = (c.insert bound t).2 := hdropped.symm

theorem size_insert (h : c.Ordered) (bound : Int64) (t : Trace) :
    (c.insert bound t).1.size + (c.insert bound t).2 + (if c.get? t.key = none then 0 else 1) = c.size + 1 := by
  obtain ⟨horder, hcount, _⟩ := (h.added t).trim bound
  have hle := (latest_sublist bound (c.added t).order).length_le
  have hadded := length_added c t
  have hbefore : c.size = c.order.length := h.size_eq
  have hafter : (c.insert bound t).1.size = (c.insert bound t).1.order.length := (h.insert bound t).size_eq
  rw [hbefore, hafter, insert_eq, horder, hcount]
  omega

end Ordered

end Cache

inductive Charge
  | visit
  | rejection
  | miss
  | start
  | finish
  | abort
  | replay
  | guardFailure
  | error
  | install
  | replacement
  | eviction
deriving DecidableEq, Repr

inductive Statistic
  | visits
  | recordings
  | replays
  | guardFailures
  | faults
  | finished
  | aborted
  | installed
  | evicted
  | hits
  | totalVisits
  | hotEvents
  | resets

def Statistic.charge : Statistic → Charge
  | visits => .visit
  | recordings | hotEvents | resets => .start
  | replays | hits => .replay
  | guardFailures => .guardFailure
  | faults => .error
  | finished => .finish
  | aborted => .abort
  | installed => .install
  | evicted => .eviction
  | totalVisits => .miss

namespace Engine

def statistic (e : Engine) : Statistic → UInt64
  | .visits => e.visits
  | .recordings => e.recordings
  | .replays => e.replays
  | .guardFailures => e.guardFailures
  | .faults => e.faults
  | .finished => e.tracer.recordings
  | .aborted => e.tracer.aborted
  | .installed => e.tracer.installed
  | .evicted => e.tracer.evicted
  | .hits => e.tracer.hits
  | .totalVisits => e.tracer.profiler.totalVisits
  | .hotEvents => e.tracer.profiler.hotEvents
  | .resets => e.tracer.profiler.resets

/-- The charges account for what became of an engine, and they balance. -/
structure Charged (e : Engine) (charges : List Charge) (e' : Engine) : Prop where
  statistics : ∀ k, e'.statistic k = e.statistic k + UInt64.ofNat (charges.count k.charge)
  cached : e'.tracer.cache.size + charges.count .eviction + charges.count .replacement =
    e.tracer.cache.size + charges.count .finish + charges.count .install
  visits : charges.count .visit = charges.count .miss + charges.count .replay + charges.count .rejection
  starts : charges.count .start = charges.count .finish + charges.count .abort
  misses : charges.count .start ≤ charges.count .miss
  guards : charges.count .guardFailure ≤ charges.count .replay
  errors : charges.count .error ≤ charges.count .visit

variable {e e' e'' : Engine} {charges more : List Charge}

theorem Answer.errors_le (answer : Answer) : answer.errors ≤ 1 := by
  cases answer <;> simp [errors]

theorem Charged.trans (h : e.Charged charges e') (h' : e'.Charged more e'') : e.Charged (charges ++ more) e'' := by
  obtain ⟨hstatistics, hcached, hvisits, hstarts, hmisses, hguards, herrors⟩ := h
  obtain ⟨hstatistics', hcached', hvisits', hstarts', hmisses', hguards', herrors'⟩ := h'
  constructor
  case statistics =>
    intro k
    rw [hstatistics', hstatistics, UInt64.add_assoc, ← UInt64.ofNat_add, List.count_append]
  all_goals
    simp only [List.count_append]
    omega

theorem Charged.nil (hstatistics : ∀ k, e'.statistic k = e.statistic k)
    (hcache : e'.tracer.cache.size = e.tracer.cache.size) : e.Charged [] e' := by
  refine ⟨fun k => ?_, hcache, rfl, rfl, Nat.le_refl _, Nat.le_refl _, Nat.le_refl _⟩
  rw [hstatistics]
  exact (UInt64.add_zero _).symm

end Engine

theorem Profiler.hotEvents_visit (p : Profiler) (key : LoopKey) :
    (p.visit key).2.hotEvents = if (p.visit key).1 then p.hotEvents + 1 else p.hotEvents := by
  simp [visit]

@[simp] theorem Profiler.totalVisits_visit (p : Profiler) (key : LoopKey) :
    (p.visit key).2.totalVisits = p.totalVisits + 1 := rfl

@[simp] theorem Profiler.resets_visit (p : Profiler) (key : LoopKey) : (p.visit key).2.resets = p.resets := rfl

theorem Tracer.ordered_install {t : Tracer} (h : t.cache.Ordered) (u : Trace) : (t.install u).cache.Ordered := by
  unfold install
  split
  · exact h
  · exact h.insert _ u

def Tracer.installs : Tracer → List Trace → List (Tracer × Trace)
  | _, [] => []
  | t, u :: us => (t, u) :: installs (t.install u) us

namespace Act

def rejections : Act → Nat
  | visited c => if c.key? = none then 1 else 0
  | _ => 0

def errors : Act → Nat
  | visited c => c.visit.elim 0 fun v => v.answer.errors
  | _ => 0

def installs : Act → Nat
  | warmed _ traces => traces.countP fun u => !u.instrs.isEmpty
  | _ => 0

def replacements : Act → Nat
  | warmed e traces =>
    (e.tracer.installs traces).countP fun s => !s.2.instrs.isEmpty && (s.1.cache.get? s.2.key).isSome
  | _ => 0

def evictions : Act → Nat
  | visited c => c.visit.elim 0 fun v => c.engine.tracer.cache.lost v.engine.tracer.cache
  | warmed e traces => total (fun s => s.1.cache.lost (s.1.install s.2).cache) (e.tracer.installs traces)
  | _ => 0

end Act

structure Logs (charges : List Charge) (acts : List Act) : Prop where
  visits : charges.count .visit = total Act.visits acts
  rejections : charges.count .rejection = total Act.rejections acts
  errors : charges.count .error = total Act.errors acts
  installs : charges.count .install = total Act.installs acts
  replacements : charges.count .replacement = total Act.replacements acts
  evictions : charges.count .eviction = total Act.evictions acts

theorem Logs.cons {charges more : List Charge} {acts : List Act} {a : Act} (h : Logs charges acts)
    (ha : Logs more [a]) : Logs (charges ++ more) (a :: acts) := by
  have htotal : ∀ f, total f (a :: acts) = total f acts + total f [a] := by
    intro f
    simp [total, Nat.add_comm]
  constructor <;> rw [List.count_append, htotal]
  · rw [h.visits, ha.visits]
  · rw [h.rejections, ha.rejections]
  · rw [h.errors, ha.errors]
  · rw [h.installs, ha.installs]
  · rw [h.replacements, ha.replacements]
  · rw [h.evictions, ha.evictions]

namespace Call

open Engine (Visit)

variable {c : Call} {v : Visit}

theorem logs_visited {charges : List Charge} (hv : c.visit = some v) (hvisit : charges.count .visit = 1)
    (hrejection : charges.count .rejection = if c.key? = none then 1 else 0)
    (herror : charges.count .error = v.answer.errors) (hinstall : charges.count .install = 0)
    (hreplacement : charges.count .replacement = 0)
    (heviction : charges.count .eviction = c.engine.tracer.cache.lost v.engine.tracer.cache) :
    Logs charges [.visited c] := by
  constructor
  · exact hvisit
  · exact hrejection
  · simpa [total, Act.errors, hv] using herror
  · exact hinstall
  · exact hreplacement
  · simpa [total, Act.evictions, hv] using heviction

theorem Effect.charged (h : c.Effect v) (hv : c.visit = some v) (hordered : c.engine.tracer.cache.Ordered)
    (enabled : c.engine.options.disabled = false) (idle : c.engine.tracer.recording = none)
    (answered : (Act.visited c).crashes = false) :
    ∃ charges, c.engine.Charged charges v.engine ∧ Logs charges [.visited c] := by
  have hhot := c.engine.tracer.profiler.hotEvents_visit
  have hkept := hordered.lost_self
  cases h with
  | disabled off => cases enabled.symm.trans off
  | broken breaks => cases answered.symm.trans breaks.crashes
  | back busy | elsewhere _ busy => cases idle.symm.trans busy
  | refused found known err =>
    refine ⟨[.visit, .rejection, .error], ⟨?_, rfl, rfl, rfl, by decide, by decide, by decide⟩, ?_⟩
    · intro k
      cases k <;> simp [Engine.statistic, Statistic.charge]
    · apply logs_visited hv <;> simp [found, Engine.Answer.errors, hkept]
  | cold found _ uncached rare known =>
    refine ⟨[.visit, .miss], ⟨?_, rfl, rfl, rfl, by decide, by decide, by decide⟩, ?_⟩
    · intro k
      cases k <;> simp [Engine.statistic, Statistic.charge, hhot, rare]
    · apply logs_visited hv <;> simp [found, Engine.Answer.errors, hkept]
  | @hot _ key starts known trace records answer _ =>
    have hfound := starts.found
    have often := starts.often
    have herrors := answer.errors_le
    obtain ⟨_, _, hpublish⟩ := Engine.publish_eq _ trace
    rw [hpublish] at hv ⊢
    cases trace with
    | none =>
      refine ⟨[.visit, .miss, .start, .abort] ++ List.replicate answer.errors .error, ?_, ?_⟩
      · constructor
        case statistics =>
          intro k
          cases k <;> simp [Engine.statistic, Statistic.charge, hhot, often, Tracer.ended, begun,
            Tracer.beginRecording, Profiler.reset, List.count_replicate]
        case cached => simp [Tracer.ended, begun, Tracer.beginRecording, List.count_replicate]
        all_goals simp [List.count_replicate, herrors]
      · apply logs_visited hv <;> simp [hfound, Tracer.ended, begun, Tracer.beginRecording, hkept, List.count_replicate]
    | some u =>
      -- the loop was not cached when its recording started, so the trace takes the place of no other
      have hnew : c.engine.tracer.cache.get? u.key = none := uncached_of_published (.inl ((records u).mp rfl))
      have hsize := hordered.size_insert c.engine.tracer.maxTraces u
      have hlost := hordered.lost_insert c.engine.tracer.maxTraces u
      rw [if_pos hnew] at hsize
      refine ⟨[.visit, .miss, .start, .finish] ++ List.replicate answer.errors .error ++
        List.replicate (c.engine.tracer.cache.insert c.engine.tracer.maxTraces u).2 .eviction, ?_, ?_⟩
      · constructor
        case statistics =>
          intro k
          cases k <;> simp [Engine.statistic, Statistic.charge, hhot, often, Tracer.ended, begun,
            Tracer.insert, Tracer.beginRecording, Profiler.reset, List.count_replicate]
        case cached =>
          simpa [Tracer.ended, begun, Tracer.insert, Tracer.beginRecording, List.count_replicate] using hsize
        all_goals simp [List.count_replicate, herrors]
      · apply logs_visited hv <;>
          simp [hfound, Tracer.ended, begun, Tracer.insert, Tracer.beginRecording, hlost, List.count_replicate]
  | @cached _ _ found hit known failed answer _ =>
    have herrors := answer.errors_le
    have hguard := failed.toNat_le
    refine ⟨[.visit, .replay] ++ List.replicate failed.toNat .guardFailure ++ List.replicate answer.errors .error,
      ?_, ?_⟩
    · constructor
      case statistics =>
        intro k
        cases k <;> simp [Engine.statistic, Statistic.charge, Engine.replayed, List.count_replicate]
        cases failed <;> simp
      all_goals simp [List.count_replicate, herrors, hguard]
    · apply logs_visited hv <;> simp [found, hkept, List.count_replicate]

end Call

namespace Engine

variable {e : Engine} {o : Options} {session : Session} {acts : List Act}

theorem logs_installed {charges : List Charge} {u : Trace} (hvisit : charges.count .visit = 0)
    (hrejection : charges.count .rejection = 0) (herror : charges.count .error = 0)
    (hinstall : charges.count .install = if u.instrs.isEmpty then 0 else 1)
    (hreplacement : charges.count .replacement =
      if u.instrs.isEmpty ∨ e.tracer.cache.get? u.key = none then 0 else 1)
    (heviction : charges.count .eviction = e.tracer.cache.lost (e.tracer.install u).cache) :
    Logs charges [.warmed e [u]] := by
  constructor
  case installs => simp [total, Act.installs, hinstall, List.countP_singleton]
  case replacements =>
    cases hget : e.tracer.cache.get? u.key <;>
      simp [total, Act.replacements, Tracer.installs, hreplacement, hget, List.countP_singleton]
  case evictions => simpa [total, Act.evictions, Tracer.installs] using heviction
  all_goals assumption

theorem charged_install (hordered : e.tracer.cache.Ordered) (u : Trace) :
    ∃ charges, e.Charged charges (e.warm [u]) ∧ Logs charges [.warmed e [u]] := by
  by_cases hempty : u.instrs.isEmpty = true
  · have hsame : e.tracer.install u = e.tracer := if_pos hempty
    refine ⟨[], ?_, ?_⟩
    · apply Charged.nil
      · intro k
        cases k <;> simp [statistic, warm, hsame]
      · simp [warm, hsame]
    · apply logs_installed <;> simp [hempty, hsame, hordered.lost_self]
  · have hinserted : e.tracer.install u = { e.tracer.insert u with installed := e.tracer.installed + 1 } :=
      if_neg hempty
    have hsize := hordered.size_insert e.tracer.maxTraces u
    have hlost := hordered.lost_insert e.tracer.maxTraces u
    refine ⟨.install :: List.replicate (if e.tracer.cache.get? u.key = none then 0 else 1) .replacement ++
      List.replicate (e.tracer.cache.insert e.tracer.maxTraces u).2 .eviction, ?_, ?_⟩
    · constructor
      case statistics =>
        intro k
        cases k <;> simp [statistic, Statistic.charge, warm, hinserted, Tracer.insert, List.count_replicate]
      case cached => simpa [warm, hinserted, Tracer.insert, List.count_replicate] using hsize
      all_goals simp [List.count_replicate]
    · apply logs_installed <;> simp [hempty, hinserted, Tracer.insert, hlost, List.count_replicate]

theorem logs_warmed_cons {charges more : List Charge} {u : Trace} {us : List Trace} (h : Logs charges [.warmed e [u]])
    (hmore : Logs more [.warmed (e.warm [u]) us]) : Logs (charges ++ more) [.warmed e (u :: us)] := by
  constructor <;> rw [List.count_append]
  · rw [h.visits, hmore.visits]
    rfl
  · rw [h.rejections, hmore.rejections]
    rfl
  · rw [h.errors, hmore.errors]
    rfl
  · rw [h.installs, hmore.installs]
    simp [total, Act.installs, List.countP_cons, Nat.add_comm]
  · rw [h.replacements, hmore.replacements]
    simp [total, Act.replacements, Tracer.installs, warm, List.countP_cons, Nat.add_comm]
  · rw [h.evictions, hmore.evictions]
    simp [total, Act.evictions, Tracer.installs, warm]

theorem charged_warm (hordered : e.tracer.cache.Ordered) (traces : List Trace) :
    ∃ charges, e.Charged charges (e.warm traces) ∧ Logs charges [.warmed e traces] := by
  induction traces generalizing e with
  | nil =>
    refine ⟨[], .nil (fun _ => rfl) rfl, ?_⟩
    constructor <;> rfl
  | cons u us ih =>
    obtain ⟨charges, hcharged, hlogs⟩ := charged_install hordered u
    obtain ⟨more, hmore, hlater⟩ := ih (e := e.warm [u]) (Tracer.ordered_install hordered u)
    exact ⟨charges ++ more, hcharged.trans hmore, logs_warmed_cons hlogs hlater⟩

theorem History.charged (h : History o session acts e) (unbroken : ∀ a ∈ acts, a.crashes = false)
    (enabled : o.disabled = false) : ∃ charges, (ofOptions o session).Charged charges e ∧ Logs charges acts := by
  induction h with
  | fresh =>
    refine ⟨[], .nil (fun _ => rfl) rfl, ?_⟩
    constructor <;> rfl
  | @attach _ e _ journal ih =>
    obtain ⟨charges, hcharged, hlogs⟩ := ih (List.forall_mem_cons.mp unbroken).2
    have hsame : e.Charged [] { e with journal } := .nil (fun k => by cases k <;> rfl) rfl
    refine ⟨charges ++ [], hcharged.trans hsame, hlogs.cons ?_⟩
    constructor <;> rfl
  | @forget _ e _ id ih =>
    obtain ⟨charges, hcharged, hlogs⟩ := ih (List.forall_mem_cons.mp unbroken).2
    have hsame : e.Charged [] (e.forget id) := .nil (fun k => by cases k <;> rfl) rfl
    refine ⟨charges ++ [], hcharged.trans hsame, hlogs.cons ?_⟩
    constructor <;> rfl
  | warm before traces ih =>
    obtain ⟨charges, hcharged, hlogs⟩ := ih (List.forall_mem_cons.mp unbroken).2
    obtain ⟨more, hmore, hwarmed⟩ := charged_warm before.settled.ordered traces
    exact ⟨charges ++ more, hcharged.trans hmore, hlogs.cons hwarmed⟩
  | visit before visited ih =>
    obtain ⟨answered, hearlier⟩ := List.forall_mem_cons.mp unbroken
    obtain ⟨charges, hcharged, hlogs⟩ := ih hearlier
    have hon := before.options_eq ▸ enabled
    obtain ⟨more, hmore, hvisited⟩ :=
      (Call.effect visited).charged visited before.settled.ordered hon (before.idle hearlier) answered
    exact ⟨charges ++ more, hcharged.trans hmore, hlogs.cons hvisited⟩

/-- The statistics account for every visit and for every trace. -/
theorem History.statistics_balance (h : History o session acts e) (unbroken : ∀ a ∈ acts, a.crashes = false)
    (enabled : o.disabled = false)
    (hvisits : total Act.visits acts < UInt64.size) (hinstalls : total Act.installs acts < UInt64.size)
    (hevictions : total Act.evictions acts < UInt64.size) :
    e.recordings.toNat = e.tracer.recordings.toNat + e.tracer.aborted.toNat ∧
      e.recordings = e.tracer.profiler.hotEvents ∧ e.recordings = e.tracer.profiler.resets ∧
      e.replays = e.tracer.hits ∧ e.guardFailures ≤ e.replays ∧
      e.visits.toNat = total Act.visits acts ∧
      e.visits.toNat = e.tracer.profiler.totalVisits.toNat + e.tracer.hits.toNat + total Act.rejections acts ∧
      e.faults.toNat = total Act.errors acts ∧
      e.tracer.cache.size + e.tracer.evicted.toNat ≤ e.tracer.recordings.toNat + e.tracer.installed.toNat ∧
      (total Act.replacements acts = 0 →
        e.tracer.cache.size + e.tracer.evicted.toNat = e.tracer.recordings.toNat + e.tracer.installed.toNat) := by
  obtain ⟨charges, hcharged, hlogs⟩ := h.charged unbroken enabled
  have hwords : ∀ k, e.statistic k = UInt64.ofNat (charges.count k.charge) := by
    intro k
    have hfresh : (ofOptions o session).statistic k = 0 := by cases k <;> rfl
    rw [hcharged.statistics, hfresh, UInt64.zero_add]
  obtain ⟨_, hcached, hvisited, hstarts, hmisses, hguards, herrors⟩ := hcharged
  have hempty : (ofOptions o session).tracer.cache.size = 0 := Std.HashMap.size_empty
  rw [hempty] at hcached
  rw [← hlogs.visits] at hvisits ⊢
  rw [← hlogs.installs] at hinstalls
  rw [← hlogs.evictions] at hevictions
  rw [← hlogs.rejections, ← hlogs.errors, ← hlogs.replacements]
  -- what is charged at most once a visit is bounded by the visits, so no counter has wrapped around
  have hbound : ∀ k : Statistic, charges.count k.charge < UInt64.size := by
    intro k
    cases k <;> simp only [Statistic.charge] <;> omega
  have hcount : ∀ k, (e.statistic k).toNat = charges.count k.charge := by
    intro k
    rw [hwords, UInt64.toNat_ofNat_of_lt' (hbound k)]
  have hstarted : e.recordings.toNat = charges.count .start := hcount .recordings
  have hfinished : e.tracer.recordings.toNat = charges.count .finish := hcount .finished
  have haborted : e.tracer.aborted.toNat = charges.count .abort := hcount .aborted
  have hreplays : e.replays.toNat = charges.count .replay := hcount .replays
  have hhits : e.tracer.hits.toNat = charges.count .replay := hcount .hits
  have hfailed : e.guardFailures.toNat = charges.count .guardFailure := hcount .guardFailures
  have hmissed : e.tracer.profiler.totalVisits.toNat = charges.count .miss := hcount .totalVisits
  have hseen : e.visits.toNat = charges.count .visit := hcount .visits
  have hinstalled : e.tracer.installed.toNat = charges.count .install := hcount .installed
  have hevicted : e.tracer.evicted.toNat = charges.count .eviction := hcount .evicted
  refine ⟨?_, ?_, ?_, ?_, ?_, hseen, ?_, hcount .faults, ?_, ?_⟩
  · omega
  · exact (hwords .recordings).trans (hwords .hotEvents).symm
  · exact (hwords .recordings).trans (hwords .resets).symm
  · exact (hwords .replays).trans (hwords .hits).symm
  · rw [UInt64.le_iff_toNat_le]
    omega
  · omega
  · omega
  · intro hreplaced
    omega

theorem History.statistics_balance_unreadable :
    ∃ v : Visit,
      History tightOptions default
        [.visited (unreadableCall full), .warmed (ofOptions tightOptions default) [stockTrace]] v.engine ∧
      v.engine.faults.toNat = 1 ∧
      v.engine.recordings.toNat = v.engine.tracer.recordings.toNat + v.engine.tracer.aborted.toNat ∧
      v.engine.tracer.cache.size + v.engine.tracer.evicted.toNat =
        v.engine.tracer.recordings.toNat + v.engine.tracer.installed.toNat := by
  let fresh := ofOptions tightOptions default
  obtain ⟨v, _, hv, hanswer, _⟩ := full_fails
  have hrun := full_history.visit (c := unreadableCall full) hv
  have hlost : full.tracer.cache.lost v.engine.tracer.cache ≤ 1 :=
    Nat.le_trans List.countP_le_length (full_history.settled.bounded (by decide))
  have hevictions : total Act.evictions [.visited (unreadableCall full), .warmed fresh [stockTrace]] ≤ 1 := by
    have hvisit : Act.evictions (.visited (unreadableCall full)) = full.tracer.cache.lost v.engine.tracer.cache := by
      simp only [Act.evictions, hv, Option.elim_some]
      rfl
    have hwarmed : Act.evictions (.warmed fresh [stockTrace]) = 0 := rfl
    simp only [total, hvisit, hwarmed]
    omega
  have herrors : total Act.errors [.visited (unreadableCall full), .warmed fresh [stockTrace]] = 1 := by
    simp only [total, Act.errors, hv, Option.elim_some, hanswer, Answer.errors]
  have hreplacements : total Act.replacements [.visited (unreadableCall full), .warmed fresh [stockTrace]] = 0 := by
    have hnone : fresh.tracer.cache.get? stockTrace.key = none := Std.HashMap.getElem?_empty
    simp [total, Act.replacements, Tracer.installs, hnone]
  have hunbroken : ∀ a ∈ [Act.visited (unreadableCall full), .warmed fresh [stockTrace]], a.crashes = false := by
    have hanswered : (Act.visited (unreadableCall full)).crashes = false := by
      rw [Act.crashes_visited hv, hanswer]
      rfl
    exact List.forall_mem_cons.mpr ⟨hanswered, by simp [Act.crashes]⟩
  obtain ⟨hrecordings, _, _, _, _, _, _, hfaults, _, hcached⟩ := statistics_balance hrun hunbroken rfl (by decide)
    (by decide) (Nat.lt_of_le_of_lt hevictions (by decide))
  exact ⟨v, hrun, hfaults.trans herrors, hrecordings, hcached hreplacements⟩

end Engine

end HotLoop
