import HotLoop.Proofs.Balance
import HotLoop.Proofs.Eviction

/-!
Traces without instructions. A recording without instructions makes no trace, but the optimizer runs after that check.
It removes a recording completely if all that was recorded made empty records and popped them again, and in no other
case; the empty trace is then cached, and each replay of it faults.
-/

namespace HotLoop

namespace Lap

variable {prog : Program} {i : Instr} {index : Nat} {m : Machine} {r : Ended Guard} {f : Fault}

theorem perform_ne_emptyTrace (h : perform prog i index m = .done r) (hf : r.outcome = .fault f) :
    f.cause ≠ .emptyTrace := by
  unfold perform at h
  split at h
  · cases h
    cases hf
    simp
  · next top htop =>
    have hm : m.frames ≠ [] := by
      intro hnil
      simp [Machine.top?, hnil] at htop
    dsimp only at h
    split at h
    · cases h
      cases hf
    · next c m' hstep =>
      cases h
      cases hf
      have hcause := Exec.blameless_step prog i _ true m c m' hm hstep
      exact fun hempty => hcause (.inr (.inl hempty))
    · cases h
      cases hf
    · cases h
    · cases h
      cases hf
      simp
    · cases h

theorem turn_ne_emptyTrace {first : Instr} {code : List Instr} {s : Lap} (h : turn prog first code s = .done r)
    (hf : r.outcome = .fault f) : f.cause ≠ .emptyTrace := by
  unfold turn at h
  split at h
  · exact perform_ne_emptyTrace h hf
  · exact perform_ne_emptyTrace h hf

end Lap

theorem Machine.replay_emptyTrace_iff {prog : Program} {fuel : Nat} {code : List Instr} {m : Machine}
    {r : Ended Guard} (h : m.replay prog fuel code = some r) :
    (∃ f, r.outcome = .fault f ∧ f.cause = .emptyTrace) ↔ code = [] := by
  cases code with
  | nil =>
    cases h
    simp
  | cons first rest =>
    have hcause : ∀ f, r.outcome = .fault f → f.cause ≠ .emptyTrace :=
      iterate_invariant (P := fun _ => True) (Q := fun r => ∀ f, r.outcome = .fault f → f.cause ≠ .emptyTrace)
        (fun _ _ _ _ => trivial) (fun _ _ _ hr _ hf => Lap.turn_ne_emptyTrace hr hf) trivial h
    simp only [reduceCtorEq, iff_false]
    rintro ⟨f, hf, hempty⟩
    exact hcause f hf hempty

namespace Tracer

structure Delivery where
  before : Tracer
  trace : Trace

def deliver (t : Tracer) (trace : Option Trace) : List Delivery := trace.toList.map fun u => ⟨t, u⟩

@[simp] theorem deliver_none (t : Tracer) : t.deliver none = [] := rfl

@[simp] theorem deliver_some (t : Tracer) (u : Trace) : t.deliver (some u) = [⟨t, u⟩] := rfl

/-- The tracers that a caller can have, with the traces given out so far. -/
inductive History : Tracer → List Delivery → Prop
  | fresh (threshold : UInt64) : History (ofThreshold threshold) []
  | handle {t : Tracer} {given : List Delivery} (before : History t given) (key : LoopKey) :
    History (t.handle key).2 (given ++ t.deliver (t.handle key).1.finished)
  | start {t t' : Tracer} {given : List Delivery} {key : LoopKey} (before : History t given)
    (started : t.startRecording key = .ok t') : History t' given
  | record {t t' : Tracer} {given : List Delivery} {e : Event} (before : History t given)
    (recorded : t.recordEvent e = .ok t') : History t' given
  | finish {t : Tracer} {given : List Delivery} {answer : Option Trace × Tracer} (before : History t given)
    (ended : t.finish = .ok answer) : History answer.2 (given ++ t.deliver answer.1)
  | abort {t : Tracer} {given : List Delivery} (before : History t given) : History t.abort given
  | install {t : Tracer} {given : List Delivery} (before : History t given) (trace : Trace) :
    History (t.install trace) given
  | bound {t : Tracer} {given : List Delivery} (before : History t given) (maxTraces : Int64) :
    History { t with maxTraces } given
  | optimize {t : Tracer} {given : List Delivery} (before : History t given) (optimize : Bool) :
    History { t with optimize } given

structure Delivery.Recorded (d : Delivery) (r : Recording) : Prop where
  inFlight : d.before.recording = some r
  nonempty : r.code.toList ≠ []
  trace : d.trace = ofRecording d.before.optimize r

theorem Delivery.Recorded.instrs_eq_nil_iff {d : Delivery} {r : Recording} (h : d.Recorded r) :
    d.trace.instrs = [] ↔ d.before.optimize = true ∧ DeadStore.Idle r.code.toList := by
  have hinstrs : d.trace.instrs = if d.before.optimize = true then
      DeadStore.eliminate r.code.toList (DeadStore.slots r.code.toList) else r.code.toList := by
    rw [h.trace]
    rfl
  rw [hinstrs, ← DeadStore.eliminate_slots_eq_nil_iff]
  cases d.before.optimize with
  | false => simp [h.nonempty]
  | true => simp

theorem recorded_of_complete {t : Tracer} {r : Recording} (busy : t.recording = some r) {d : Delivery}
    (hd : d ∈ t.deliver (t.complete r).1) : d.Recorded r := by
  by_cases hempty : r.code.isEmpty = true
  · simp [complete_of_isEmpty hempty] at hd
  · obtain rfl : d = ⟨t, ofRecording t.optimize r⟩ := by
      simpa [complete_of_not_isEmpty hempty] using hd
    exact ⟨busy, by simpa using hempty, rfl⟩

theorem all_cached {P : Trace → Prop} {t : Tracer} (h : t.cache.All P) {u : Trace}
    (hu : u ∈ t.traces ∨ (∃ key, t.cache.get? key = some u) ∨ ∃ key, (t.handle key).1.action = .trace u) : P u := by
  rcases hu with hmem | ⟨key, hget⟩ | ⟨key, haction⟩
  · exact h.traces u hmem
  · exact h key u hget
  · have hhandled := t.handled key
    generalize t.handle key = answer at hhandled haction
    cases hhandled with
    | cached found =>
      cases haction
      exact h key _ found
    | hot | cold | back | elsewhere => cases haction

structure Sourced (t : Tracer) (given : List Delivery) : Prop where
  recorded : ∀ d ∈ given, ∃ r, d.Recorded r
  cached : t.cache.All fun u => u.instrs = [] → ∃ d ∈ given, d.trace = u

namespace Sourced

variable {t t' : Tracer} {given : List Delivery} {r : Recording}

theorem of_cache (h : t.Sourced given) (hcache : t'.cache = t.cache) : t'.Sourced given :=
  ⟨h.recorded, hcache ▸ h.cached⟩

theorem complete (h : t.Sourced given) (busy : t.recording = some r) :
    (t.complete r).2.Sourced (given ++ t.deliver (t.complete r).1) := by
  have hrecorded : ∀ d ∈ given ++ t.deliver (t.complete r).1, ∃ r, d.Recorded r := by
    intro d hd
    rcases List.mem_append.mp hd with hd | hd
    · exact h.recorded d hd
    · exact ⟨r, recorded_of_complete busy hd⟩
  refine ⟨hrecorded, ?_⟩
  by_cases hempty : r.code.isEmpty = true
  · simpa [complete_of_isEmpty hempty] using h.cached
  · apply all_complete
    · intro key u hu hnil
      obtain ⟨d, hd, htrace⟩ := h.cached key u hu hnil
      exact ⟨d, List.mem_append_left _ hd, htrace⟩
    · intro _
      exact ⟨⟨t, ofRecording t.optimize r⟩, by simp [complete_of_not_isEmpty hempty], rfl⟩

theorem handle (h : t.Sourced given) (key : LoopKey) :
    (t.handle key).2.Sourced (given ++ t.deliver (t.handle key).1.finished) := by
  have hhandled := t.handled key
  generalize t.handle key = answer at hhandled
  cases hhandled with
  | cached | hot | cold | elsewhere =>
    simp only [deliver_none, List.append_nil]
    exact h.of_cache rfl
  | back busy => exact h.complete busy

theorem install (h : t.Sourced given) (trace : Trace) : (t.install trace).Sourced given :=
  ⟨h.recorded, all_install h.cached fun hne hnil => absurd hnil hne⟩

end Sourced

namespace History

variable {t : Tracer} {given : List Delivery}

theorem sourced (h : History t given) : t.Sourced given := by
  induction h with
  | fresh => exact ⟨by simp, Cache.all_empty⟩
  | handle _ key ih => exact ih.handle key
  | start _ started ih =>
    unfold startRecording at started
    split at started
    · cases started
    · cases started
      exact ih.of_cache rfl
  | record _ recorded ih =>
    unfold recordEvent at recorded
    split at recorded
    · cases recorded
      exact ih.of_cache rfl
    · cases recorded
  | finish _ ended ih =>
    unfold Tracer.finish at ended
    split at ended
    · next r busy =>
      cases ended
      exact ih.complete busy
    · cases ended
  | abort _ ih =>
    unfold Tracer.abort
    split
    · exact ih.of_cache rfl
    · exact ih
  | install _ trace ih => exact ih.install trace
  | bound _ _ ih => exact ih.of_cache rfl
  | optimize _ _ ih => exact ih.of_cache rfl

/-- The empty traces are those of idle recordings that were optimized. No others come to be cached, and to replay them
is the one way in which a replay finds nothing to do. -/
theorem empty_iff_idle (h : History t given) :
    (∀ d ∈ given, ∃ r, d.before.recording = some r ∧ r.code.toList ≠ [] ∧
      (d.trace.instrs = [] ↔ d.before.optimize = true ∧ DeadStore.Idle r.code.toList)) ∧
    ∀ u, (u ∈ t.traces ∨ (∃ key, t.cache.get? key = some u) ∨ ∃ key, (t.handle key).1.action = .trace u) →
      (u.instrs = [] → ∃ d ∈ given, d.trace = u) ∧
        ∀ (m : Machine) (prog : Program) (fuel : Nat) (result : Ended Guard),
          m.replay prog fuel u.instrs = some result →
            ((∃ f, result.outcome = .fault f ∧ f.cause = .emptyTrace) ↔ u.instrs = []) := by
  have hsourced := h.sourced
  refine ⟨?_, ?_⟩
  · intro d hd
    obtain ⟨r, hr⟩ := hsourced.recorded d hd
    exact ⟨r, hr.inFlight, hr.nonempty, hr.instrs_eq_nil_iff⟩
  · intro u hu
    refine ⟨all_cached hsourced.cached hu, ?_⟩
    intro m prog fuel result hreplay
    exact Machine.replay_emptyTrace_iff hreplay

theorem recordLog (h : History t given) {r : Recording} (busy : t.recording = some r) (log : List Event) :
    History (t.recordLog log) given := by
  induction log generalizing t r with
  | nil =>
    have hsame : t.recordLog [] = t := by simp [Tracer.recordLog]
    rw [hsame]
    exact h
  | cons e log ih =>
    have hrecorded : t.recordEvent e = .ok { t with recording := some (r.add e) } := by simp [recordEvent, busy]
    have hrest : t.recordLog (e :: log) =
        ({ t with recording := some (r.add e) } : Tracer).recordLog log := by simp [Tracer.recordLog, busy]
    rw [hrest]
    exact ih (h.record hrecorded) rfl

theorem recorded (h : History t given) (idle : t.recording = none) (key : LoopKey) (log : List Event) {r : Recording}
    (hr : log.foldl Recording.add { key } = r) (hne : ¬r.code.isEmpty) :
    ∃ t', History t' (given ++ [⟨(t.beginRecording key).recordLog log, ofRecording t.optimize r⟩]) ∧
      t'.recording = none ∧ t'.cache = (t.cache.insert t.maxTraces (ofRecording t.optimize r)).1 := by
  have hstarted : t.startRecording key = .ok (t.beginRecording key) := by simp [startRecording, idle]
  have hended : ((t.beginRecording key).recordLog log).finish =
      .ok (((t.beginRecording key).recordLog log).complete r) := by
    simp [Tracer.finish, Tracer.recordLog, beginRecording, hr]
  rw [complete_of_not_isEmpty hne] at hended
  exact ⟨_, ((h.start hstarted).recordLog rfl log).finish hended, rfl, rfl⟩

def idleLog : List Event := [⟨.sized .tuple 0, {}, false⟩, ⟨.pop, ⟨0, 1⟩, false⟩]

theorem idle_idleLog (key : LoopKey) : DeadStore.Idle (idleLog.foldl Recording.add { key }).code.toList := by
  have hpair : DeadStore.Idle (.sized .tuple 0 :: ([] ++ [Instr.pop])) := .pair ⟨rfl, rfl⟩ .nil rfl .nil
  exact hpair

theorem empty_iff_idle_switched :
    ∃ (t : Tracer) (d d' : Delivery), History t [d, d'] ∧ d.before.optimize = true ∧ d'.before.optimize = false ∧
      d.trace.instrs = [] ∧ d'.trace.instrs ≠ [] ∧ ∀ u ∈ t.traces, u.instrs = [] → u = d.trace := by
  obtain ⟨t₁, hfirst, hidle, _⟩ := (History.optimize (.fresh 0) true).recorded rfl 7 idleLog rfl (by decide)
  obtain ⟨t₂, hboth, _⟩ := (hfirst.optimize false).recorded hidle 8 idleLog rfl (by decide)
  obtain ⟨hgiven, hcached⟩ := empty_iff_idle hboth
  rw [List.nil_append, List.singleton_append] at hgiven hcached
  obtain ⟨r, hr, _, hempty⟩ := hgiven _ List.mem_cons_self
  obtain ⟨_, _, _, hfull⟩ := hgiven _ (List.mem_cons_of_mem _ List.mem_cons_self)
  have hne := mt hfull.mp fun hboth => absurd hboth.1 Bool.false_ne_true
  refine ⟨t₂, _, _, hboth, rfl, rfl, ?_, hne, ?_⟩
  · cases hr
    exact hempty.mpr ⟨rfl, idle_idleLog 7⟩
  · intro u hu hnil
    obtain ⟨d, hd, rfl⟩ := (hcached u (.inl hu)).1 hnil
    rcases List.mem_pair.mp hd with rfl | rfl
    · rfl
    · exact absurd hnil hne

theorem caches_empty_trace :
    ∃ (t : Tracer) (d : Delivery), History t [d] ∧ d.trace.instrs = [] ∧ d.trace ∈ t.traces ∧
      (t.handle 7).1.action = .trace d.trace ∧
        ∀ (m : Machine) (prog : Program) (fuel : Nat), m.replay prog fuel d.trace.instrs =
          some ⟨.fault { inTrace := true, cause := .emptyTrace }, m, []⟩ := by
  obtain ⟨t, hhistory, _, hcache⟩ := (History.optimize (.fresh 0) true).recorded rfl 7 idleLog rfl (by decide)
  let u := ofRecording true (idleLog.foldl Recording.add { key := 7 })
  have hinstrs : u.instrs = [] := (DeadStore.eliminate_slots_eq_nil_iff _).mpr (idle_idleLog 7)
  have htraces : t.traces = [u] :=
    (congrArg Cache.traces hcache).trans (Cache.Ordered.empty.traces_insert Std.HashMap.getElem?_empty 0)
  have hget : t.cache.get? 7 = some u :=
    (congrArg (Cache.get? · 7) hcache).trans ((Cache.get?_added {} u 7).trans (if_pos rfl))
  refine ⟨t, _, hhistory, hinstrs, ?_, ?_, ?_⟩
  · rw [htraces]
    exact List.mem_singleton_self u
  · simp only [Tracer.handle, hget]
    rfl
  · intro m prog fuel
    exact congrArg (m.replay prog fuel) hinstrs

end History

end Tracer

end HotLoop
