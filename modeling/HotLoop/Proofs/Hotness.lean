import HotLoop.Proofs.Profile
import HotLoop.Proofs.Recognition

namespace HotLoop

def Call.action (c : Call) : Action :=
  match c.key? with
  | some key => (c.engine.tracer.handle key).1.action
  | none => .none

namespace Act

def starts : Act → Bool
  | visited c => c.action = .startTrace
  | _ => false

def misses (key : LoopKey) : Act → Bool
  | visited c => c.key? = some key && (c.engine.tracer.cache.get? key).isNone
  | _ => false

end Act

def missed (key : LoopKey) (acts : List Act) : Nat :=
  (acts.takeWhile fun a => !a.starts).countP (Act.misses key)

theorem missed_of_starts {a : Act} (h : a.starts = true) (key : LoopKey) (acts : List Act) :
    missed key (a :: acts) = 0 := by
  simp [missed, h]

theorem missed_of_not_starts {a : Act} (h : a.starts = false) (key : LoopKey) (acts : List Act) :
    missed key (a :: acts) = missed key acts + if a.misses key then 1 else 0 := by
  simp [missed, h, List.countP_cons]

theorem missed_le_visits (key : LoopKey) (acts : List Act) : missed key acts ≤ total Act.visits acts := by
  induction acts with
  | nil => exact Nat.le_refl 0
  | cons a acts ih =>
    rw [total]
    cases hstarts : a.starts with
    | true =>
      rw [missed_of_starts hstarts]
      exact Nat.zero_le _
    | false =>
      rw [missed_of_not_starts hstarts]
      cases a with
      | visited c =>
        simp only [Act.visits]
        split <;> omega
      | warmed | forgot | attached => simpa [Act.misses, Act.visits] using ih

namespace Call

open Engine (Visit)

variable {c : Call} {v : Visit} {key : LoopKey} {t : Trace}

theorem action_cached (found : c.key? = some key) (hit : c.engine.tracer.cache.get? key = some t) :
    c.action = .trace t := by
  simp only [action, found, Tracer.handle_cached hit]

theorem action_busy {r : Recording} (busy : c.engine.tracer.recording = some r) (found : c.key? = some key)
    (uncached : c.engine.tracer.cache.get? key = none) : c.action = .none := by
  simp only [action, found, Tracer.handle_busy busy uncached]
  split <;> rfl

theorem action_uncached (idle : c.engine.tracer.recording = none) (found : c.key? = some key)
    (uncached : c.engine.tracer.cache.get? key = none) :
    c.action = if (c.engine.tracer.profiler.visit key).1 then .startTrace else .none := by
  simp only [action, found, Tracer.handle_uncached idle uncached]
  split <;> rfl

theorem misses_of_uncached (found : c.key? = some key) (uncached : c.engine.tracer.cache.get? key = none)
    (k : LoopKey) : (Act.visited c).misses k = decide (k = key) := by
  by_cases hk : k = key
  · simp [Act.misses, found, hk, uncached]
  · simp [Act.misses, found, hk, Ne.symm hk]

theorem misses_of_cached (found : c.key? = some key) (hit : c.engine.tracer.cache.get? key = some t) (k : LoopKey) :
    (Act.visited c).misses k = false := by
  by_cases hk : key = k
  · simp [Act.misses, ← hk, hit]
  · simp [Act.misses, found, hk]

theorem Starts.action_eq {p : ProgramRef} (h : c.Starts p key) : c.action = .startTrace := by
  rw [action_uncached h.idle h.found h.uncached, h.often]
  rfl

theorem Effect.of_action (h : c.Effect v) (found : c.key? = some key) :
    (c.action = .startTrace → v.engine.recordings = c.engine.recordings + 1 ∧ v.engine.replays = c.engine.replays) ∧
    (∀ t, c.action = .trace t →
      v.engine.recordings = c.engine.recordings ∧ v.engine.replays = c.engine.replays + 1 ∧
        v.engine.tracer.profiler = c.engine.tracer.profiler) ∧
    (c.action = .none →
      v.engine.recordings = c.engine.recordings ∧ v.engine.replays = c.engine.replays ∧
        v.answer = .ok c.pc c.cell) := by
  cases h with
  | disabled off => simp [key?, off] at found
  | refused absent => cases absent.symm.trans found
  | cold found idle uncached rare =>
    have haction : c.action = .none := by rw [action_uncached idle found uncached, rare]; rfl
    simp [haction]
  | hot starts => simp [starts.action_eq, Engine.recordings_publish, Engine.replays_publish]
  | broken breaks =>
    obtain ⟨_, starts⟩ := breaks.starts
    simp [starts.action_eq]
  | cached found hit => simp [action_cached found hit, Engine.replayed]
  | back busy returns =>
    simp [action_busy busy returns.1 returns.2, Engine.recordings_publish, Engine.replays_publish]
  | elsewhere found busy uncached => simp [action_busy busy found uncached]

theorem action_eq_trace_iff (found : c.key? = some key) :
    c.action = .trace t ↔ c.engine.tracer.cache.get? key = some t := by
  cases hget : c.engine.tracer.cache.get? key with
  | some u => simp [action_cached found hget]
  | none =>
    cases hrecording : c.engine.tracer.recording with
    | some r => simp [action_busy hrecording found hget]
    | none =>
      rw [action_uncached hrecording found hget]
      split <;> simp

theorem action_eq_startTrace_iff (idle : c.engine.tracer.recording = none) (found : c.key? = some key) :
    c.action = .startTrace ↔
      c.engine.tracer.cache.get? key = none ∧ (c.engine.tracer.profiler.visit key).1 = true := by
  cases hget : c.engine.tracer.cache.get? key with
  | some t => simp [action_cached found hget]
  | none =>
    rw [action_uncached idle found hget]
    cases (c.engine.tracer.profiler.visit key).1 <;> simp

theorem visit_of_action_none (found : c.key? = some key) (h : c.action = .none) :
    c.visit = some ⟨c.decided key, .ok c.pc c.cell⟩ := by
  obtain ⟨p, given⟩ := exists_program found
  simp only [action, found] at h
  rw [visit_found given found, h]
  rfl

end Call

namespace Profiler

/-- The counts of a profiler are those of a history. No count goes past the threshold, as the visit that would take it
there restarts them all; so none wraps around, unless the threshold is the largest word. -/
structure Tallies (p : Profiler) (threshold : UInt64) (acts : List Act) : Prop where
  threshold_eq : p.threshold = threshold
  count_eq : ∀ key, p.count key = UInt64.ofNat (missed key acts)
  missed_le : threshold.toNat + 1 < UInt64.size → ∀ key, missed key acts ≤ threshold.toNat

namespace Tallies

variable {p : Profiler} {threshold : UInt64} {acts : List Act} {a : Act} {key : LoopKey}

theorem fresh (threshold : UInt64) : Tallies { threshold } threshold [] :=
  ⟨rfl, count_fresh threshold, fun _ _ => Nat.zero_le _⟩

theorem hot_iff (h : p.Tallies threshold acts)
    (room : threshold.toNat + 1 < UInt64.size ∨ HotLoop.total Act.visits acts + 1 < UInt64.size) (key : LoopKey) :
    (p.visit key).1 = true ↔ threshold.toNat ≤ missed key acts := by
  have hfits : missed key acts + 1 < UInt64.size := by
    rcases room with hlimit | hshort
    · exact Nat.lt_of_le_of_lt (Nat.succ_le_succ (h.missed_le hlimit key)) hlimit
    · exact Nat.lt_of_le_of_lt (Nat.succ_le_succ (missed_le_visits key acts)) hshort
  have hnext : (p.count key + 1).toNat = missed key acts + 1 := by
    rw [h.count_eq, ← UInt64.ofNat_one, ← UInt64.ofNat_add, UInt64.toNat_ofNat_of_lt' hfits]
  rw [visit_fst, decide_eq_true_iff, UInt64.lt_iff_toNat_lt, hnext, h.threshold_eq]
  exact Nat.lt_succ_iff

theorem skip (h : p.Tallies threshold acts) (hstarts : a.starts = false) (hmisses : ∀ key, a.misses key = false) :
    p.Tallies threshold (a :: acts) := by
  have hsame : ∀ key, missed key (a :: acts) = missed key acts := by
    intro key
    rw [missed_of_not_starts hstarts, hmisses]
    rfl
  refine ⟨h.threshold_eq, ?_, ?_⟩
  · intro key
    rw [hsame, h.count_eq]
  · intro hlimit key
    rw [hsame]
    exact h.missed_le hlimit key

theorem miss (h : p.Tallies threshold acts) (hstarts : a.starts = false)
    (hmisses : ∀ k, a.misses k = decide (k = key)) (rare : (p.visit key).1 = false) :
    (p.visit key).2.Tallies threshold (a :: acts) := by
  refine ⟨h.threshold_eq, ?_, ?_⟩
  · intro k
    rw [count_visit, missed_of_not_starts hstarts, hmisses, h.count_eq]
    by_cases hk : k = key
    · simp [hk]
    · simp [hk]
  · intro hlimit k
    rw [missed_of_not_starts hstarts, hmisses]
    by_cases hk : k = key
    · -- the visit did not find the loop hot, so the count was below the threshold
      have hbelow : ¬threshold.toNat ≤ missed key acts := by
        rw [← h.hot_iff (.inl hlimit), rare]
        exact Bool.false_ne_true
      simp only [hk, decide_true, if_true]
      omega
    · simpa [hk] using h.missed_le hlimit k

theorem restart (hthreshold : p.threshold = threshold) (hstarts : a.starts = true) (acts : List Act) :
    p.reset.Tallies threshold (a :: acts) := by
  refine ⟨hthreshold, ?_, ?_⟩
  · intro key
    rw [count_reset, missed_of_starts hstarts]
    rfl
  · intro _ key
    rw [missed_of_starts hstarts]
    exact Nat.zero_le _

end Tallies

end Profiler

theorem waitLoop_replays (e : Engine) {t : Trace} (ht : t.instrs = waitCode) :
    e.replay 5 waitLoop {} t [] 0 0 = some ⟨e.replayed true, .ok 0 0⟩ := by
  obtain ⟨frame, m₀, hseed, hrun⟩ : ∃ frame m₀, Engine.seed waitLoop {} [] 0 0 {} = .ok frame m₀ ∧
      (m₀.replay waitLoop 5 waitCode).bind (fun run =>
        (run.machine.finishIteration waitLoop 5 { pc := 3 } {}).map fun rest =>
          (run.outcome, rest.outcome, Engine.results frame rest.machine)) =
        some (.ok { recovery := { pc := 3 } }, .ok .returned, .ok (0, 0)) :=
    ⟨_, _, rfl, by decide +kernel⟩
  rw [← ht] at hrun
  exact Engine.replay_of_failed (g := { recovery := { pc := 3 } }) hseed hrun

namespace Engine

variable {e : Engine} {v : Visit} {o : Options} {session : Session} {acts : List Act} {c : Call}

namespace History

theorem tallies (h : History o session acts e) (unbroken : ∀ a ∈ acts, a.crashes = false)
    (enabled : o.disabled = false) : e.tracer.profiler.Tallies o.threshold acts := by
  induction h with
  | fresh => exact .fresh o.threshold
  | attach _ _ ih | forget _ _ ih => exact (ih (List.forall_mem_cons.mp unbroken).2).skip rfl fun _ => rfl
  | @warm _ e _ traces ih =>
    obtain ⟨_, _, _, hwarm⟩ := e.tracer_warm traces
    rw [hwarm]
    exact (ih (List.forall_mem_cons.mp unbroken).2).skip rfl fun _ => rfl
  | @visit _ c _ before visited ih =>
    obtain ⟨hlast, hearlier⟩ := List.forall_mem_cons.mp unbroken
    have hbefore := ih hearlier
    have idle := before.idle hearlier
    cases Call.effect visited with
    | disabled off => cases (congrArg Options.disabled before.options_eq).symm.trans off ▸ enabled
    | refused found =>
      apply hbefore.skip
      · simp [Act.starts, Call.action, found]
      · simp [Act.misses, found]
    | cold found _ uncached rare =>
      apply hbefore.miss _ _ rare
      · simp [Act.starts, Call.action_uncached idle found uncached, rare]
      · exact Call.misses_of_uncached found uncached
    | hot starts =>
      rw [tracer_publish, Tracer.profiler_ended]
      apply Profiler.Tallies.restart (p := (c.engine.tracer.profiler.visit _).2) hbefore.threshold_eq
      simp [Act.starts, starts.action_eq]
    | broken breaks => cases hlast.symm.trans breaks.crashes
    | cached found hit =>
      apply hbefore.skip
      · simp [Act.starts, Call.action_cached found hit]
      · exact Call.misses_of_cached found hit
    | back busy | elsewhere _ busy => cases idle.symm.trans busy

/-- A visit starts a recording if no trace of the loop is cached and as many visits as the threshold have missed the
loop since the last start. It replays a trace that is cached, and the counts stay as they are. Otherwise it leaves the
embedding program where it was. -/
theorem records_when_hot (h : History o session acts c.engine) (unbroken : ∀ a ∈ acts, a.crashes = false)
    (enabled : o.disabled = false)
    (room : o.threshold.toNat + 1 < UInt64.size ∨ total Act.visits acts + 1 < UInt64.size) :
    (c.Unaltered acts → c.key? = c.contentKey?) ∧
      ∀ key, c.key? = some key →
        (c.action = .startTrace ↔ c.engine.tracer.cache.get? key = none ∧ o.threshold.toNat ≤ missed key acts) ∧
        (∀ t, c.action = .trace t ↔ c.engine.tracer.cache.get? key = some t) ∧
        (c.action = .startTrace → ∃ p, c.program = some p ∧
          c.visit = (c.started key).record c.fuel p.program c.pos c.user c.pc c.cell) ∧
        (∀ t, c.action = .trace t → ∃ p, c.program = some p ∧
          c.visit = c.served.replay c.fuel p.program c.pos t c.user c.pc c.cell) ∧
        (c.action = .none → ∃ e, c.visit = some ⟨e, .ok c.pc c.cell⟩) ∧
        ∀ v, c.visit = some v →
          (c.action = .startTrace →
            v.engine.recordings = c.engine.recordings + 1 ∧ v.engine.replays = c.engine.replays) ∧
          (∀ t, c.action = .trace t →
            v.engine.recordings = c.engine.recordings ∧ v.engine.replays = c.engine.replays + 1 ∧
              v.engine.tracer.profiler = c.engine.tracer.profiler) ∧
          (c.action = .none →
            v.engine.recordings = c.engine.recordings ∧ v.engine.replays = c.engine.replays ∧
              v.answer = .ok c.pc c.cell) := by
  refine ⟨h.key?_eq enabled, ?_⟩
  intro key found
  have idle := h.idle unbroken
  obtain ⟨p, given⟩ := Call.exists_program found
  refine ⟨?_, fun t => Call.action_eq_trace_iff found, ?_, ?_, ?_, fun v hv => (Call.effect hv).of_action found⟩
  · rw [Call.action_eq_startTrace_iff idle found, (h.tallies unbroken enabled).hot_iff room]
  · intro hstart
    obtain ⟨uncached, often⟩ := (Call.action_eq_startTrace_iff idle found).mp hstart
    exact ⟨p, given, Call.Starts.visit_eq ⟨given, found, idle, uncached, often⟩⟩
  · intro t ht
    exact ⟨p, given, Call.visit_cached given found ((Call.action_eq_trace_iff found).mp ht)⟩
  · intro hnone
    exact ⟨_, Call.visit_of_action_none found hnone⟩

def patient : Engine := ofOptions { threshold := 1 } default

theorem patient_waits :
    ∃ e, (waitCall patient 2).visit = some ⟨e, .ok 0 2⟩ ∧ e.tracer.cache.get? waitKey = none ∧
      e.tracer.optimize = false ∧ missed waitKey [.forgot 0, .visited (waitCall patient 2)] = 1 := by
  have hfresh : History { threshold := 1 } default [] patient := .fresh
  have hfound : (waitCall patient 2).key? = some waitKey := waitCall_key rfl Std.HashMap.getElem?_empty 2
  have huncached : (waitCall patient 2).engine.tracer.cache.get? waitKey = none := Std.HashMap.getElem?_empty
  have hrare : ((waitCall patient 2).engine.tracer.profiler.visit waitKey).1 = false := by
    rw [Bool.eq_false_iff, Ne]
    refine mt ((hfresh.tallies (by simp) rfl).hot_iff (.inl (by decide)) waitKey).mp ?_
    decide
  have hnone : (waitCall patient 2).action = .none := by
    rw [Call.action_uncached rfl hfound huncached, hrare]
    rfl
  refine ⟨_, Call.visit_cold hfound rfl huncached hrare, huncached, rfl, ?_⟩
  rw [missed_of_not_starts rfl, missed_of_not_starts (by simp [Act.starts, hnone]),
    Call.misses_of_uncached hfound huncached, decide_eq_true rfl]
  rfl

def patientActs (e : Engine) : List Act :=
  [.forgot 0, .visited (waitCall e 2), .forgot 0, .visited (waitCall patient 2)]

/-- With a threshold of one, the second visit records the loop, and the third replays it. -/
theorem records_when_hot_wait :
    ∃ (e₁ e₂ e₃ : Engine) (t : Trace),
      (waitCall patient 2).visit = some ⟨e₁, .ok 0 2⟩ ∧
      (waitCall (e₁.forget 0) 2).visit =
        ((waitCall (e₁.forget 0) 2).started waitKey).record 5 waitLoop {} [] 0 2 ∧
      (waitCall (e₁.forget 0) 2).visit = some ⟨e₂, .ok 0 2⟩ ∧ (waitCall (e₁.forget 0) 2).Records t ∧
      History { threshold := 1 } default (patientActs (e₁.forget 0)) (e₂.forget 0) ∧
      (waitCall (e₂.forget 0) 0).visit = (waitCall (e₂.forget 0) 0).served.replay 5 waitLoop {} t [] 0 0 ∧
      (waitCall (e₂.forget 0) 0).visit = some ⟨e₃, .ok 0 0⟩ ∧ e₃.recordings = e₂.recordings ∧
      e₃.replays = e₂.replays + 1 := by
  obtain ⟨e₁, hvisit₁, huncached, hplain, hmissed⟩ := patient_waits
  have hfirst : History { threshold := 1 } default [.forgot 0, .visited (waitCall patient 2)] (e₁.forget 0) :=
    .forget (.visit .fresh hvisit₁) 0
  have hunbroken₁ : ∀ a ∈ [Act.forgot 0, .visited (waitCall patient 2)], a.crashes = false := by
    simp [Act.crashes, hvisit₁]
  have hfound₁ : (waitCall (e₁.forget 0) 2).key? = some waitKey :=
    waitCall_key (e := e₁.forget 0) (congrArg Options.disabled hfirst.options_eq) Std.HashMap.getElem?_erase_self 2
  obtain ⟨_, hhot₁⟩ := records_when_hot (c := waitCall (e₁.forget 0) 2) hfirst hunbroken₁ rfl (.inl (by decide))
  obtain ⟨hstart, _, hrecord, _⟩ := hhot₁ _ hfound₁
  have haction := hstart.mpr ⟨huncached, hmissed ▸ by decide⟩
  obtain ⟨_, ⟨⟩, hrecorded⟩ := hrecord haction
  have hidle := hfirst.idle hunbroken₁
  obtain ⟨e₂, t, hvisit₂, ht, hcode⟩ := waitCall_records (e := e₁.forget 0)
    (congrArg Options.disabled hfirst.options_eq) hidle Std.HashMap.getElem?_erase_self huncached
    ((Call.action_eq_startTrace_iff hidle hfound₁).mp haction).2
  have hsecond : History { threshold := 1 } default (patientActs (e₁.forget 0)) (e₂.forget 0) :=
    .forget (.visit hfirst hvisit₂) 0
  have hunbroken₂ : ∀ a ∈ patientActs (e₁.forget 0), a.crashes = false := by
    simp [patientActs, Act.crashes, hvisit₁, hvisit₂]
  have hfound₂ : (waitCall (e₂.forget 0) 0).key? = some waitKey :=
    waitCall_key (e := e₂.forget 0) (congrArg Options.disabled hsecond.options_eq) Std.HashMap.getElem?_erase_self 0
  have hget : e₂.tracer.cache.get? waitKey = some t := by
    obtain ⟨_, starts⟩ := ht.starts
    have hcached := Call.cached_of_published hfirst.settled hvisit₂ (.inl ht)
    rwa [Option.some.inj (starts.found.symm.trans hfound₁)] at hcached
  obtain ⟨_, hhot₂⟩ := records_when_hot (c := waitCall (e₂.forget 0) 0) hsecond hunbroken₂ rfl (.inl (by decide))
  obtain ⟨_, htrace, _, hreplay, _, hcounts⟩ := hhot₂ _ hfound₂
  have haction₂ := (htrace t).mpr hget
  obtain ⟨_, ⟨⟩, hreplayed⟩ := hreplay t haction₂
  have hvisit₃ := hreplayed.trans (waitLoop_replays _ (hcode hplain))
  obtain ⟨hrecordings, hreplays, _⟩ := (hcounts _ hvisit₃).2.1 t haction₂
  exact ⟨e₁, e₂, _, t, hvisit₁, hrecorded, hvisit₂, ht, hsecond, hreplayed, hvisit₃, hrecordings, hreplays⟩

end History

end Engine

end HotLoop
