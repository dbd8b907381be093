import HotLoop.Proofs.Failure

namespace HotLoop

def Act.remembers (id : Nat) : Act → Bool
  | forgot i => i != id
  | _ => true

/-- The program visited has the same content as when the engine last examined it, that is, as on all visits since it was
last forgotten. -/
def Call.Unaltered (c : Call) (acts : List Act) : Prop :=
  ∀ p q d, c.program = some p → .visited d ∈ acts.takeWhile (Act.remembers p.id) → d.program = some q → q.id = p.id →
    q.program = p.program

def Call.contentKey? (c : Call) : Option LoopKey :=
  match c.program with
  | none => none
  | some p =>
    match p.program.check with
    | .ok () => some (loopKey (Program.fingerprint (some p.program)) c.pos c.pc)
    | .error _ => none

structure Call.Examines (c : Call) (p : ProgramRef) : Prop where
  enabled : c.engine.options.disabled = false
  given : c.program = some p
  unknown : c.engine.known[p.id]? = none

namespace Engine

theorem examine_eq_ok {p : Program} {fingerprint : UInt64} (h : examine p = .ok fingerprint) :
    p.check = .ok () ∧ fingerprint = Program.fingerprint (some p) := by
  unfold examine at h
  split at h
  · next hcheck =>
    cases h
    exact ⟨hcheck, rfl⟩
  · cases h

namespace History

variable {e : Engine} {v : Visit} {o : Options} {session : Session} {acts : List Act} {c : Call} {p : ProgramRef}

theorem known (h : History o session acts e) {id : Nat} {found : Except InvalidProgram UInt64}
    (hfound : e.known[id]? = some found) :
    ∃ d q, .visited d ∈ acts.takeWhile (Act.remembers id) ∧ d.Examines q ∧ q.id = id ∧ found = examine q.program := by
  induction h with
  | fresh => cases Std.HashMap.getElem?_empty.symm.trans hfound
  | forget _ i ih =>
    rw [Engine.forget, Std.HashMap.getElem?_erase] at hfound
    split at hfound
    · cases hfound
    · next hid =>
      obtain ⟨d, q, hd, hq⟩ := ih hfound
      have hkeep : Act.remembers id (.forgot i) = true := by simpa [Act.remembers] using hid
      rw [List.takeWhile_cons_of_pos hkeep]
      exact ⟨d, q, List.mem_cons_of_mem _ hd, hq⟩
  | attach _ _ ih | warm _ _ ih =>
    obtain ⟨d, q, hd, hq⟩ := ih hfound
    rw [List.takeWhile_cons_of_pos rfl]
    exact ⟨d, q, List.mem_cons_of_mem _ hd, hq⟩
  | @visit _ c _ _ visited ih =>
    rw [List.takeWhile_cons_of_pos rfl]
    rcases Call.known_cases visited hfound with hbefore | ⟨p, given, hid, hexamine, enabled, unknown⟩
    · obtain ⟨d, q, hd, hq⟩ := ih hbefore
      exact ⟨d, q, List.mem_cons_of_mem _ hd, hq⟩
    · exact ⟨c, p, List.mem_cons_self, ⟨enabled, given, unknown⟩, hid, hexamine⟩

theorem fingerprint_eq (h : History o session acts c.engine) (enabled : c.engine.options.disabled = false)
    (unaltered : c.Unaltered acts) (given : c.program = some p) :
    (c.engine.fingerprint (some p)).1 = examine p.program ∧
      ∃ d q, .visited d ∈ .visited c :: acts ∧ d.Examines q ∧ q.program = p.program := by
  cases hknown : c.engine.known[p.id]? with
  | none => exact ⟨fingerprint_unknown hknown, c, p, List.mem_cons_self, ⟨enabled, given, hknown⟩, rfl⟩
  | some found =>
    obtain ⟨d, q, hd, hexamines, hid, rfl⟩ := h.known hknown
    have hsame := unaltered p q d given hd hexamines.given hid
    refine ⟨?_, d, q, List.mem_cons_of_mem _ ((List.takeWhile_sublist _).mem hd), hexamines, hsame⟩
    rw [← hsame]
    simp only [Engine.fingerprint, hknown]

theorem key?_eq (h : History o session acts c.engine) (enabled : o.disabled = false) (unaltered : c.Unaltered acts) :
    c.key? = c.contentKey? := by
  have hon : c.engine.options.disabled = false := h.options_eq ▸ enabled
  simp only [Call.key?, hon, Bool.false_eq_true, if_false, Call.contentKey?]
  cases hp : c.program with
  | none => rfl
  | some p =>
    rw [(h.fingerprint_eq hon unaltered hp).1, examine]
    cases hcheck : p.program.check <;> simp only [hcheck]

end History

end Engine

end HotLoop
