import HotLoop.Proofs.Path

namespace HotLoop

def Position.skip (p : Position) : Nat → Position
  | 0 => p
  | n + 1 => p.next.skip n

def Program.has (prog : Program) : Position → List Instr → Bool
  | _, [] => true
  | p, i :: rest => prog.instr? p = some i && prog.has p.next rest

def Exec.all (prog : Program) : List Instr → Exec Unit
  | [] => pure ()
  | i :: rest => do
    let _ ← step prog i {} false
    all prog rest

theorem Exec.all_append (prog : Program) (xs ys : List Instr) (m : Machine) :
    Exec.all prog (xs ++ ys) m = (Exec.all prog xs >>= fun _ => Exec.all prog ys) m := by
  induction xs generalizing m with
  | nil => rfl
  | cons i xs ih =>
    simp only [List.cons_append, Exec.all, Exec.bind_apply]
    cases Exec.step prog i {} false m with
    | error => rfl
    | ok t m₁ => simpa [Exec.bind_apply] using ih m₁

theorem Path.of_all {prog : Program} {code : List Instr} {pos : Position} {m m' : Machine}
    (hplain : code.all (fun i => i.code.isPlain) = true) (hat : prog.has pos code = true)
    (h : Exec.all prog code m = .ok () m') :
    ∃ vs, vs.length = code.length ∧ Path prog pos m vs (pos.skip code.length) m' ∧
      ∀ v ∈ vs, v.transfer = .next := by
  induction code generalizing pos m with
  | nil =>
    cases h
    exact ⟨[], rfl, .nil _ _, by simp⟩
  | cons i rest ih =>
    simp only [List.all_cons, Bool.and_eq_true, Program.has, decide_eq_true_eq] at hplain hat
    obtain ⟨t, m₁, hstep, hrest⟩ := Exec.bind_eq_ok.mp h
    rw [Exec.step_plain_pos hplain.1 prog {} pos] at hstep
    obtain rfl := (Exec.plain_step hplain.1 prog pos false).next hstep
    obtain ⟨vs, hlen, hpath, hnext⟩ := ih hplain.2 hat.2 hrest
    exact ⟨⟨i, pos, .next, m₁⟩ :: vs, by simp [hlen], .cons ⟨rfl, hat.1, hstep⟩ (by simp) hpath, by simpa using hnext⟩

end HotLoop
