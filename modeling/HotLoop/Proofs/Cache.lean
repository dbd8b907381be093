import HotLoop.Trace.Tracer

namespace HotLoop

variable {P : Trace → Prop}

namespace Cache

def All (P : Trace → Prop) (c : Cache) : Prop := ∀ key t, c.get? key = some t → P t

theorem all_empty : All P {} := by
  intro key t h
  simp [get?] at h

theorem all_dropTo (bound : Nat) (order : List LoopKey) (table : Std.HashMap LoopKey Trace)
    (h : ∀ (key : LoopKey) t, table[key]? = some t → P t) : All P (dropTo bound order table).1 := by
  induction order generalizing table with
  | nil => exact h
  | cons key rest ih =>
    unfold dropTo
    split
    · apply ih
      intro k t ht
      rw [Std.HashMap.getElem?_erase] at ht
      split at ht
      · cases ht
      · exact h k t ht
    · exact h

theorem All.insert {c : Cache} {t : Trace} (h : c.All P) (ht : P t) (bound : Int64) : All P (c.insert bound t).1 := by
  have htable : ∀ (key : LoopKey) u, (c.table.insert t.key t)[key]? = some u → P u := by
    intro key u hu
    rw [Std.HashMap.getElem?_insert] at hu
    split at hu
    · cases hu
      exact ht
    · exact h key u hu
  unfold Cache.insert trim
  dsimp only
  split
  · exact all_dropTo _ _ _ htable
  · exact htable

theorem All.traces {c : Cache} (h : c.All P) : ∀ t ∈ c.traces, P t := by
  intro t ht
  obtain ⟨key, _, hget⟩ := List.mem_filterMap.mp ht
  exact h key t hget

end Cache

namespace Recording

theorem key_foldl_add (r : Recording) (log : List Event) : (log.foldl Recording.add r).key = r.key := by
  induction log generalizing r with
  | nil => rfl
  | cons event log ih => exact ih (r.add event)

theorem start_foldl_add {r : Recording} {pos : Position} (h : r.start = some pos) (log : List Event) :
    (log.foldl Recording.add r).start = some pos := by
  induction log generalizing r with
  | nil => exact h
  | cons event log ih => exact ih (by simp [add, h])

theorem code_foldl_add (r : Recording) (log : List Event) :
    (log.foldl Recording.add r).code.toList = r.code.toList ++ log.filterMap Event.traced? := by
  induction log generalizing r with
  | nil => simp
  | cons e log ih =>
    rw [List.foldl_cons, ih]
    cases ht : e.traced? with
    | none => simp [Recording.add, ht]
    | some i => simp [Recording.add, ht]

end Recording

namespace Tracer

variable {t : Tracer} {trace : Trace}

theorem all_install (h : t.cache.All P) (ht : trace.instrs ≠ [] → P trace) : (t.install trace).cache.All P := by
  unfold install
  split
  · exact h
  · rename_i hne
    exact h.insert (ht (by simpa using hne)) t.maxTraces

theorem all_complete (h : t.cache.All P) {r : Recording} (ht : P (ofRecording t.optimize r)) :
    (t.complete r).2.cache.All P := by
  unfold complete
  dsimp only
  split
  · exact h
  · exact h.insert ht t.maxTraces

theorem complete_of_isEmpty {r : Recording} (h : r.code.isEmpty) :
    t.complete r = (none, { t with recording := none, aborted := t.aborted + 1 }) := by
  simp [complete, h]

theorem complete_of_not_isEmpty {r : Recording} (h : ¬r.code.isEmpty) :
    t.complete r = (some (ofRecording t.optimize r),
      { ({ t with recording := none } : Tracer).insert (ofRecording t.optimize r) with
        recordings := t.recordings + 1 }) := by
  simp [complete, h]

theorem eq_of_complete {r : Recording} (h : (t.complete r).1 = some trace) : trace = ofRecording t.optimize r := by
  unfold complete at h
  dsimp only at h
  split at h
  · cases h
  · exact (Option.some.inj h).symm

theorem instrs_ofRecording (optimize : Bool) (key : LoopKey) (log : List Event) :
    (ofRecording optimize (log.foldl Recording.add { key })).instrs =
      if optimize then
        DeadStore.eliminate (log.filterMap Event.traced?) (DeadStore.slots (log.filterMap Event.traced?))
      else log.filterMap Event.traced? := by
  have hcode := Recording.code_foldl_add { key } log
  rw [List.nil_append] at hcode
  simp only [ofRecording, Trace.instrs, hcode, Option.getD_some]

theorem complete_logged_eq_some_iff {key : LoopKey} {log : List Event} {u : Trace} :
    (t.complete (log.foldl Recording.add { key })).1 = some u ↔
      log.filterMap Event.traced? ≠ [] ∧ u = ofRecording t.optimize (log.foldl Recording.add { key }) := by
  have hcode : (log.foldl Recording.add { key }).code.isEmpty = true ↔ log.filterMap Event.traced? = [] := by
    rw [Array.isEmpty_iff, ← Array.toList_eq_nil_iff, Recording.code_foldl_add { key } log]
    simp
  by_cases hempty : (log.foldl Recording.add { key }).code.isEmpty = true
  · simp [complete_of_isEmpty hempty, hcode.mp hempty]
  · rw [complete_of_not_isEmpty hempty, Option.some.injEq, eq_comm]
    exact ⟨fun hu => ⟨fun hnil => hempty (hcode.mpr hnil), hu⟩, And.right⟩

theorem finish_recordLog {key : LoopKey} {log : List Event} {u : Trace} :
    (∃ t', ((t.beginRecording key).recordLog log).finish = .ok (some u, t')) ↔
      log.filterMap Event.traced? ≠ [] ∧ u = ofRecording t.optimize (log.foldl Recording.add { key }) := by
  have hfinish : ((t.beginRecording key).recordLog log).finish =
      .ok (((t.beginRecording key).recordLog log).complete (log.foldl Recording.add { key })) := rfl
  rw [hfinish]
  refine Iff.trans ?_ (complete_logged_eq_some_iff (t := (t.beginRecording key).recordLog log))
  constructor
  · rintro ⟨_, h⟩
    exact congrArg Prod.fst (Except.ok.inj h)
  · intro h
    exact ⟨_, congrArg Except.ok (Prod.ext h rfl)⟩

@[simp] theorem recording_complete (t : Tracer) (r : Recording) : (t.complete r).2.recording = none := by
  unfold complete
  dsimp only
  split <;> rfl

/-- The courses that a visit to a loop can take. -/
inductive Handled (t : Tracer) (key : LoopKey) : Decision × Tracer → Prop
  | cached {trace : Trace} (found : t.cache.get? key = some trace) :
    Handled t key ({ action := .trace trace }, { t with hits := t.hits + 1 })
  | hot (uncached : t.cache.get? key = none) (idle : t.recording = none) (profiler : Profiler) :
    Handled t key ({ action := .startTrace }, ({ t with profiler } : Tracer).beginRecording key)
  | cold (uncached : t.cache.get? key = none) (idle : t.recording = none) (profiler : Profiler) :
    Handled t key ({}, { t with profiler })
  | back {r : Recording} (busy : t.recording = some r) :
    Handled t key ({ finished := (t.complete r).1 }, (t.complete r).2)
  | elsewhere {r : Recording} (busy : t.recording = some r) : Handled t key ({}, t)

theorem handled (t : Tracer) (key : LoopKey) : Handled t key (t.handle key) := by
  unfold handle
  split
  · next trace found => exact .cached found
  · next uncached =>
    split
    · next idle =>
      dsimp only
      split
      · exact .hot uncached idle _
      · exact .cold uncached idle _
    · next r busy =>
      split
      · exact .back busy
      · exact .elsewhere busy

end Tracer

end HotLoop
