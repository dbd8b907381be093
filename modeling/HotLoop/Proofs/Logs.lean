import HotLoop.Proofs.Round

namespace HotLoop

def Program.loopLogs (prog : Program) (back : Int64) : Nat → Position → Option (List (List Event))
  | 0, _ => none
  | n + 1, p =>
    match prog.instr? p with
    | none => some []
    | some i =>
      if i.code.isCall then none
      else
        let jumped :=
          if !i.code.isJump then some []
          else if i.destination p ≤ back then some [[]]
          else prog.loopLogs back n ⟨p.func, i.destination p⟩
        let passed := if i.code.isPlain || i.code.isConditional then prog.loopLogs back n p.next else some []
        jumped.bind fun js => passed.map fun ps =>
          js.map (⟨i, p, i.code.isConditional⟩ :: ·) ++ ps.map (⟨i, p, false⟩ :: ·)

section

variable {prog : Program} {pos here there : Position} {m m' : Machine} {home : Frame} {vs : List Move}
  {v : Move} {n : Nat} {logs : List (List Event)}

theorem Move.From.alone (hv : v.From prog here m) (hgoes : v.transfer ≠ .stop) (hframes : m.frames = [home])
    (hback : home.back = none) (hcall : ¬v.instr.code.isCall) :
    v.machine.frames = [home] ∧
      (v.instr.code.isJump = true ∧
          v.transfer = .jump ⟨here.func, v.instr.destination here⟩ v.instr.code.isConditional ∨
        (v.instr.code.isPlain || v.instr.code.isConditional) = true ∧ v.transfer = .next) := by
  have hflow := hv.flow
  generalize v.transfer = t at hflow hgoes
  cases hflow with
  | next code frames => exact ⟨frames.trans hframes, .inr ⟨code, rfl⟩⟩
  | jump code frames => exact ⟨frames.trans hframes, .inl ⟨code, rfl⟩⟩
  | enter code => exact absurd code hcall
  | leave f rest target back popped =>
    obtain ⟨rfl, _⟩ := List.cons.inj (popped.symm.trans hframes)
    cases hback.symm.trans back
  | stop => exact absurd rfl hgoes

theorem Path.frames_alone (hp : Path prog here m vs there m')
    (hcalls : ∀ p i, prog.instr? p = some i → ¬i.code.isCall) (hframes : m.frames = [home])
    (hback : home.back = none) : m'.frames = [home] := by
  induction hp with
  | nil => exact hframes
  | cons first goes _ ih => exact ih (first.alone goes hframes hback (hcalls _ _ first.found)).1

theorem Program.loopLogs_first (hlogs : prog.loopLogs pos.pc (n + 1) here = some logs) (hv : v.From prog here m)
    (hgoes : v.transfer ≠ .stop) (hframes : m.frames = [home]) (hback : home.back = none) :
    v.machine.frames = [home] ∧
      if Walk.closes v.transfer = true ∧ v.landing.pc ≤ pos.pc then [v.event] ∈ logs
      else ∃ rest, prog.loopLogs pos.pc n v.landing = some rest ∧ ∀ log ∈ rest, v.event :: log ∈ logs := by
  simp only [Program.loopLogs, hv.found] at hlogs
  have hcall : ¬v.instr.code.isCall := by
    intro hcall
    simp [hcall] at hlogs
  simp only [hcall, Bool.false_eq_true, ↓reduceIte] at hlogs
  obtain ⟨jumped, hjumped, hlogs⟩ := Option.bind_eq_some_iff.mp hlogs
  obtain ⟨passed, hpassed, rfl⟩ := Option.map_eq_some_iff.mp hlogs
  obtain ⟨hframes', ⟨hcode, htransfer⟩ | ⟨hcode, htransfer⟩⟩ := hv.alone hgoes hframes hback hcall
  · have hland : v.landing = ⟨here.func, v.instr.destination here⟩ := by simp [Move.landing, htransfer, Walk.target]
    have hevent : v.event = ⟨v.instr, here, v.instr.code.isConditional⟩ := by
      simp [Move.event, hv.place, htransfer, Transfer.taken]
    refine ⟨hframes', ?_⟩
    simp only [hcode, Bool.not_true, Bool.false_eq_true, ↓reduceIte] at hjumped
    simp only [htransfer, Walk.closes, true_and, hland]
    split_ifs with hle
    · rw [if_pos hle] at hjumped
      cases hjumped
      simp [hevent]
    · rw [if_neg hle] at hjumped
      exact ⟨jumped, hjumped, fun log hlog => by simp [hevent, hlog]⟩
  · have hland : v.landing = here.next := by simp [Move.landing, htransfer, Walk.target, hv.place]
    have hevent : v.event = ⟨v.instr, here, false⟩ := by simp [Move.event, hv.place, htransfer, Transfer.taken]
    refine ⟨hframes', ?_⟩
    rw [if_pos hcode] at hpassed
    simp only [htransfer, Walk.closes, Bool.false_eq_true, false_and, ↓reduceIte, hland]
    exact ⟨passed, hpassed, fun log hlog => by simp [hevent, hlog]⟩

theorem Path.log_mem (hlogs : prog.loopLogs pos.pc n here = some logs) (hframes : m.frames = [home])
    (hback : home.back = none) (hpath : Path prog here m (vs ++ [v]) there m')
    (hopen : (loopWindow pos).Open home home vs) (hcloses : v.exit? (loopWindow pos) home home = some .looped) :
    (vs ++ [v]).map Move.event ∈ logs := by
  induction n generalizing here m vs logs with
  | zero => cases hlogs
  | succ n ih =>
    cases vs with
    | nil =>
      cases hpath with
      | cons hv hgoes _ =>
        obtain ⟨_, hcl, _, hle⟩ := Move.exit?_loopWindow.mp hcloses
        have hfirst := (Program.loopLogs_first hlogs hv hgoes hframes hback).2
        rwa [if_pos ⟨hcl, hle⟩] at hfirst
    | cons u vs =>
      cases hpath with
      | cons hu hgoes hrest =>
        obtain ⟨hfirst, hopen'⟩ := List.forall_mem_cons.mp hopen
        obtain ⟨hframes', hnext⟩ := Program.loopLogs_first hlogs hu hgoes hframes hback
        have hstays : ¬(Walk.closes u.transfer = true ∧ u.landing.pc ≤ pos.pc) := by
          rintro ⟨hcl, hle⟩
          exact (Move.exit?_loopWindow_eq_none.mp hfirst).2 ⟨hcl, by simp [Walk.isTop, Machine.top?, hframes'], hle⟩
        rw [if_neg hstays] at hnext
        obtain ⟨rest, hrest', hmem⟩ := hnext
        exact hmem _ (ih hrest' hframes' hrest hopen')

end

end HotLoop
