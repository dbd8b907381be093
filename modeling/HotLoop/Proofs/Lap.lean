import HotLoop.Proofs.Path
import HotLoop.Trace.Basic

namespace HotLoop

theorem Opcode.eq_ret {c : Opcode} (hp : ¬c.isPlain) (hj : ¬c.isJump) (hc : ¬c.isCall) (hg : c ≠ guard) :
    c = ret := by
  cases c <;> simp_all [isPlain, isJump, isCall]

namespace Exec

theorem step_inTrace {i : Instr} (hi : i.code ≠ .guard) (prog : Program) (pos : Position) :
    step prog i pos true = step prog i pos false := by
  cases hc : i.code <;> simp [hc] at hi <;> simp [step, hc]

theorem step_site (prog : Program) (i : Instr) (site pos : Position) (inTrace : Bool) :
    step prog { i with site := site } pos inTrace = step prog i pos inTrace := by
  cases i with
  | mk code n value operator guard site' => cases code <;> rfl

theorem step_guard_fails {prog : Program} {i : Instr} (hi : i.code = .guard) {pos : Position} {m m' : Machine}
    {t : Transfer} : step prog i pos false m ≠ .ok t m' := by
  intro h
  simp only [step, hi, guard] at h
  cases h

theorem isJump_of_step {prog : Program} {i : Instr} {pos target : Position} {taken : Bool} {m m' : Machine}
    (h : step prog i pos false m = .ok (.jump target taken) m') : i.code.isJump := by
  cases step_flow h with
  | jump code _ _ => exact code

end Exec

namespace Event

theorem not_isJump_of_traced? {e : Event} {j : Instr} (h : e.traced? = some j)
    (he : ¬e.instr.code.isConditional) : ¬e.instr.code.isJump := by
  unfold traced? at h
  cases hc : e.instr.code <;> simp_all [Opcode.isJump, Opcode.isConditional]

theorem isJump_of_traced?_none {e : Event} (h : e.traced? = none) :
    e.instr.code = .skip ∨ e.instr.code = .jumpBack := by
  unfold traced? at h
  cases hc : e.instr.code <;> simp_all

theorem traced?_conditional {e : Event} (he : e.instr.code.isConditional) :
    e.traced? = some (Instr.ofGuard ⟨e.taken, e.pos⟩) := by
  unfold traced?
  cases hc : e.instr.code <;> simp [hc, Opcode.isConditional] at he <;> rfl

theorem traced?_unconditional {e : Event} {j : Instr} (h : e.traced? = some j)
    (he : ¬e.instr.code.isConditional) :
    j.code = e.instr.code ∧ j = { e.instr with site := j.site } ∧ (j.code.isCall → j.site = e.pos) := by
  unfold traced? at h
  obtain ⟨⟨code, n, value, operator, guard, site⟩, pos, taken⟩ := e
  cases code <;> simp [Opcode.isConditional] at h he <;> subst h <;> simp [Opcode.isCall]

end Event

namespace Lap

variable {prog : Program} {e : Event} {j : Instr} {k : Nat} {m m' : Machine} {f : Frame}

theorem step_traced (h : e.traced? = some j) (hc : ¬e.instr.code.isConditional) (hg : e.instr.code ≠ .guard)
    (prog : Program) (f : Frame) (k : Nat) :
    Exec.step prog j (position j f k) true = Exec.step prog e.instr e.pos false := by
  obtain ⟨hcode, hj, hsite⟩ := Event.traced?_unconditional h hc
  have hstep : ∀ pos, Exec.step prog j pos true = Exec.step prog e.instr pos false := by
    intro pos
    rw [Exec.step_inTrace (hcode ▸ hg), hj, Exec.step_site]
  unfold position
  by_cases hcall : j.code.isCall
  · rw [if_pos hcall, hsite hcall, hstep]
  · rw [if_neg hcall, hstep]
    by_cases hp : e.instr.code.isPlain
    · exact Exec.step_plain_pos hp prog _ _ _ _
    · -- what is left is the return, which does not ask where it is
      have hret := Opcode.eq_ret hp (Event.not_isJump_of_traced? h hc) (hcode ▸ hcall) hg
      simp [Exec.step, hret]

theorem perform_of_step (h : e.traced? = some j) (hc : ¬e.instr.code.isConditional) (htop : m.top? = some f)
    {t : Transfer} (hs : Exec.step prog e.instr e.pos false m = .ok t m') (ht : t ≠ .stop) :
    perform prog j k m = .again ⟨k + 1, m'⟩ := by
  have hg : e.instr.code ≠ .guard := fun hg => Exec.step_guard_fails hg hs
  unfold perform
  simp only [htop, step_traced h hc hg, hs]
  cases Exec.step_flow hs with
  | next | enter | leave => rfl
  | jump => exact absurd (Exec.isJump_of_step hs) (Event.not_isJump_of_traced? h hc)
  | stop => exact absurd rfl ht

theorem perform_eq_again {s : Lap} (h : perform prog j k m = .again s) :
    ∃ f t, m.top? = some f ∧ Exec.step prog j (position j f k) true m = .ok t s.machine ∧ t ≠ .stop ∧
      t ≠ .guardFailed ∧ ((∀ target taken, t ≠ .jump target taken) → s.index = k + 1) := by
  unfold perform at h
  cases htop : m.top? with
  | none => simp [htop] at h
  | some f =>
    cases hs : Exec.step prog j (position j f k) true m with
    | error x m' => cases x <;> simp [htop, hs] at h
    | ok t m' =>
      simp only [htop, hs] at h
      cases t with
      | next | enter | leave =>
        cases h
        exact ⟨f, _, rfl, hs, by simp, by simp, fun _ => rfl⟩
      | jump target taken =>
        cases h
        exact ⟨f, _, rfl, hs, by simp, by simp, fun hjump => absurd rfl (hjump target taken)⟩
      | stop | guardFailed => cases h

theorem step_of_perform (h : e.traced? = some j) (hc : ¬e.instr.code.isConditional) (hg : e.instr.code ≠ .guard)
    {s : Lap} (hp : perform prog j k m = .again s) :
    s.index = k + 1 ∧ ∃ t, t ≠ .stop ∧ Exec.step prog e.instr e.pos false m = .ok t s.machine := by
  obtain ⟨f, t, _, hs, ht, _, hindex⟩ := perform_eq_again hp
  rw [step_traced h hc hg] at hs
  refine ⟨hindex ?_, t, ht, hs⟩
  rintro target taken rfl
  exact Event.not_isJump_of_traced? h hc (Exec.isJump_of_step hs)

theorem perform_ne_guard (h : e.traced? = some j) (hc : ¬e.instr.code.isConditional)
    (hg : e.instr.code ≠ .guard) {g : Guard} {log : List Event} : perform prog j k m ≠ .done ⟨.ok g, m', log⟩ := by
  intro hp
  unfold perform at hp
  cases htop : m.top? with
  | none => simp [htop] at hp
  | some f =>
    simp only [htop, step_traced h hc hg] at hp
    cases hs : Exec.step prog e.instr e.pos false m with
    | error x m₁ => cases x <;> simp [hs] at hp
    | ok t m₁ =>
      simp only [hs] at hp
      cases Exec.step_flow hs <;> simp at hp

theorem perform_guard_passes {g : Guard} (htop : m.top? = some f) (h : m.condition? prog = some g.expected) :
    perform prog (Instr.ofGuard g) k m = .again ⟨k + 1, m.dropTop⟩ := by
  have hs : Exec.step prog (Instr.ofGuard g) (position (Instr.ofGuard g) f k) true m = .ok .next m.dropTop :=
    Exec.step_guard_eq_ok.mpr (.inl ⟨h, rfl, rfl⟩)
  unfold perform
  simp only [htop, hs]

theorem perform_guard_fails {g : Guard} (htop : m.top? = some f) (h : m.condition? prog = some !g.expected) :
    perform prog (Instr.ofGuard g) k m = .done ⟨.ok g, m, []⟩ := by
  have hs : Exec.step prog (Instr.ofGuard g) (position (Instr.ofGuard g) f k) true m = .ok .guardFailed m :=
    Exec.step_guard_eq_ok.mpr (.inr ⟨h, rfl, rfl⟩)
  unfold perform
  simp only [htop, hs]
  rfl

theorem condition?_of_perform {g : Guard} :
    (∀ s, perform prog (Instr.ofGuard g) k m = .again s → m.condition? prog = some g.expected) ∧
      ∀ g' m' log, perform prog (Instr.ofGuard g) k m = .done ⟨.ok g', m', log⟩ →
        m.condition? prog = some !g.expected := by
  unfold perform
  cases htop : m.top? with
  | none => simp
  | some f =>
    cases hs : Exec.step prog (Instr.ofGuard g) (position (Instr.ofGuard g) f k) true m with
    | error x m₁ => cases x <;> simp [hs]
    | ok t m₁ =>
      rcases Exec.step_guard_eq_ok.mp hs with ⟨hc, rfl, rfl⟩ | ⟨hc, rfl, rfl⟩
      · simp [hs, hc]
      · simp [hs, hc]

end Lap

end HotLoop
