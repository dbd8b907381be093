import HotLoop.Proofs.Checked

/-!
Where the jumps of a checked program lead. The check adds a distance to the place of the jump in words, just as the
machine does when it jumps. The sum of a forward jump can be beyond the largest word. It then wraps around to a negative
number, which is below the length of any function, so that the check lets the jump pass; and the jump faults when it is
taken. All other jumps lead to an instruction of their function.
-/

namespace HotLoop

section

variable {a b : Int64}

theorem nonneg_add_iff (ha : 0 ≤ a) (hb : 0 ≤ b) : 0 ≤ a + b ↔ a.toInt + b.toInt ≤ Int64.maxValue.toInt := by
  have hlimit := a.toInt_lt
  have hlimit' := b.toInt_lt
  rw [Int64.le_iff_toInt_le, Int64.toInt_zero] at ha hb ⊢
  rw [Int64.toInt_add, Int64.toInt_maxValue, Int.bmod_eq_emod]
  split <;> omega

theorem toInt_sub_of_le (hb : 0 ≤ b) (hle : b ≤ a) : (a - b).toInt = a.toInt - b.toInt := by
  have hlimit := a.toInt_lt
  rw [Int64.le_iff_toInt_le] at hb hle
  rw [Int64.toInt_zero] at hb
  rw [Int64.toInt_sub, Int.bmod_eq_of_le] <;> omega

theorem toInt_wordLength_le {α : Type} (xs : List α) : (wordLength xs).toInt ≤ xs.length := by
  have hmod : (xs.length : Int) % Int64.size ≤ xs.length := mod_cast Nat.mod_le xs.length Int64.size
  rw [wordLength, Int64.toInt_ofNat', Int.bmod_eq_emod]
  omega

end

def Instr.Overflows (i : Instr) (pos : Position) : Prop :=
  (i.code = .skip ∨ i.code = .skipIf) ∧ Int64.maxValue.toInt < pos.pc.toInt + i.n.toInt

instance (i : Instr) (pos : Position) : Decidable (i.Overflows pos) := inferInstanceAs (Decidable (_ ∧ _))

namespace Program

variable {prog : Program} {f : Function} {i : Instr} {pos : Position}

theorem forward_of_checkInstr (h : prog.checkInstr f pos i = .ok ()) (hi : i.code = .skip ∨ i.code = .skipIf) :
    0 ≤ i.n ∧ pos.pc + i.n < wordLength f.instrs := by
  have hinside : ¬(wordLength f.instrs ≤ pos.pc + i.n ∨ i.n < 0) := by
    rcases hi with hi | hi <;> simp only [checkInstr, hi] at h <;> split at h <;> first | assumption | cases h
  rw [not_or, Int64.not_le, Int64.not_lt] at hinside
  exact hinside.symm

theorem back_of_checkInstr (h : prog.checkInstr f pos i = .ok ()) (hi : i.code = .jumpBack ∨ i.code = .jumpBackIf) :
    0 ≤ i.n ∧ i.n ≤ pos.pc := by
  have hinside : ¬(pos.pc < i.n ∨ i.n < 0) := by
    rcases hi with hi | hi <;> simp only [checkInstr, hi] at h <;> split at h <;> first | assumption | cases h
  rw [not_or, Int64.not_lt, Int64.not_lt] at hinside
  exact hinside.symm

theorem nonneg_of_instr? (hf : prog.function? pos.func = some f) (hi : prog.instr? pos = some i) :
    0 ≤ pos.pc ∧ pos.pc.toInt < f.instrs.length := by
  obtain ⟨g, hg, hcode⟩ := Option.bind_eq_some_iff.mp hi
  obtain rfl := Option.some.inj (hf.symm.trans hg)
  obtain ⟨hpc, hinstr⟩ := nth?_eq_some.mp hcode
  obtain ⟨hlt, _⟩ := List.getElem?_eq_some_iff.mp hinstr
  have hpos := Exec.toInt_of_not_neg (Int64.not_lt.mpr hpc)
  exact ⟨hpc, by omega⟩

theorem exists_instr? (hf : prog.function? pos.func = some f) (hpc : 0 ≤ pos.pc)
    (hlt : pos.pc.toInt < f.instrs.length) : ∃ i, prog.instr? pos = some i := by
  have hpos := Exec.toInt_of_not_neg (Int64.not_lt.mpr hpc)
  refine ⟨f.instrs.get ⟨pos.pc.toNatClampNeg, by omega⟩, Option.bind_eq_some_iff.mpr ⟨f, hf, ?_⟩⟩
  exact nth?_eq_some.mpr ⟨hpc, List.getElem?_eq_getElem (by omega)⟩

theorem destination_of_check (hcheck : prog.check = .ok ()) (hf : prog.function? pos.func = some f)
    (hi : prog.instr? pos = some i) (hj : i.code.isJump = true) :
    (i.destination pos).toInt < f.instrs.length ∧ (0 ≤ i.destination pos ↔ ¬i.Overflows pos) := by
  have hpassed := checkInstr_of_check hcheck hf hi
  obtain ⟨hpc, hplace⟩ := nonneg_of_instr? hf hi
  have hlength := toInt_wordLength_le f.instrs
  cases hc : i.code <;> simp [hc, Opcode.isJump] at hj
  case skip | skipIf =>
    obtain ⟨hn, hlt⟩ := forward_of_checkInstr hpassed (by simp [hc])
    have hdestination : i.destination pos = pos.pc + i.n := by simp [Instr.destination, hc]
    rw [hdestination, nonneg_add_iff hpc hn]
    refine ⟨Int.lt_of_lt_of_le (Int64.lt_iff_toInt_lt.mp hlt) hlength, ?_⟩
    simp [Instr.Overflows, hc]
  case jumpBack | jumpBackIf =>
    obtain ⟨hn, hle⟩ := back_of_checkInstr hpassed (by simp [hc])
    have hdestination : i.destination pos = pos.pc - i.n := by simp [Instr.destination, hc]
    rw [hdestination, Int64.le_iff_toInt_le, toInt_sub_of_le hn hle]
    rw [Int64.le_iff_toInt_le, Int64.toInt_zero] at hn
    rw [Int64.le_iff_toInt_le] at hle
    refine ⟨by omega, ?_⟩
    simp [Instr.Overflows, hc, hle]

end Program

theorem Opcode.eq_skip_or_jumpBack {c : Opcode} (hj : c.isJump = true) (hc : ¬c.isConditional = true) :
    c = .skip ∨ c = .jumpBack := by
  cases c <;> simp [isJump, isConditional] at hj hc ⊢

namespace Exec

theorem jumpTo_eq_error {func pc : Int64} {taken : Bool} {m m' : Machine} {e : Stop}
    (h : jumpTo func pc taken m = .error e m') : pc < 0 := by
  unfold jumpTo at h
  split at h
  · assumption
  · cases h

theorem popCondition_fault {prog : Program} {m m' : Machine} {c : Cause}
    (h : popCondition prog m = .error (.fault c) m') : c = .underflow ∨ ∃ e, c = .mismatch e := by
  rcases bind_eq_error.mp h with h | ⟨v, m₁, _, h⟩
  · exact popValue_fault h
  · unfold asBool at h
    split at h
    · cases h
    · cases h
      exact .inr ⟨_, rfl⟩

theorem step_badJump {prog : Program} {i : Instr} (hj : i.code.isJump = true) {pos : Position} {inTrace : Bool}
    {m m' : Machine} {j : BadJump} (h : step prog i pos inTrace m = .error (.fault (.badJump j)) m') :
    i.destination pos < 0 := by
  by_cases hc : i.code.isConditional = true
  · rw [step_conditional hc] at h
    rcases bind_eq_error.mp h with h | ⟨taken, m₁, _, h⟩
    · rcases popCondition_fault h with hcause | ⟨e, hcause⟩ <;> cases hcause
    · cases taken with
      | false => cases h
      | true => exact jumpTo_eq_error h
  · rw [step_jump (Opcode.eq_skip_or_jumpBack hj hc)] at h
    exact jumpTo_eq_error h

theorem step_jumped {prog : Program} {i : Instr} {pos target : Position} {taken : Bool} {m m' : Machine}
    (h : step prog i pos false m = .ok (.jump target taken) m') :
    i.code.isJump = true ∧ target = ⟨pos.func, i.destination pos⟩ ∧ 0 ≤ i.destination pos := by
  have hj := isJump_of_step h
  by_cases hc : i.code.isConditional = true
  · obtain ⟨_, _, hbranch⟩ := (step_conditional_eq_ok hc).mp h
    obtain ⟨_, ⟨_, hnext⟩ | ⟨_, hpc, hjump⟩⟩ := branch_eq_ok.mp hbranch
    · cases hnext
    · cases hjump
      exact ⟨hj, rfl, Int64.not_lt.mp hpc⟩
  · rw [step_jump (Opcode.eq_skip_or_jumpBack hj hc)] at h
    obtain ⟨hpc, hjump, _⟩ := jumpTo_eq_ok.mp h
    cases hjump
    exact ⟨hj, rfl, Int64.not_lt.mp hpc⟩

end Exec

variable {prog : Program} {w : Window}

theorem Walk.turn_badJump {home root : Frame} {s : Walk} {r : Ended Exit} {f : Fault} {j : BadJump}
    (h : turn prog w home root s = .done r) (hf : r.outcome = .fault f) (hj : f.instr.code.isJump = true)
    (hcause : f.cause = .badJump j) : prog.instr? f.pos = some f.instr ∧ f.instr.destination f.pos < 0 := by
  unfold turn at h
  split at h
  · cases h
    cases hf
    cases hj
  · next i hi =>
    split at h
    · cases h
      cases hf
    · next c m hstep =>
      cases h
      cases hf
      obtain rfl : c = .badJump j := hcause
      exact ⟨hi, Exec.step_badJump hj hstep⟩
    · dsimp only at h
      split at h
      · cases h
        cases hf
      · split at h
        · cases h
          cases hf
        · cases h

theorem Machine.run_badJump {fuel : Nat} {start : Position} {m : Machine} {r : Ended Exit} {f : Fault} {j : BadJump}
    (h : m.run prog w fuel start = some r) (hf : r.outcome = .fault f) (hj : f.instr.code.isJump = true)
    (hcause : f.cause = .badJump j) : prog.instr? f.pos = some f.instr ∧ f.instr.destination f.pos < 0 := by
  unfold run at h
  split at h
  · obtain ⟨_, s, _, _, hdone⟩ := iterate_eq_some_iff.mp h
    exact Walk.turn_badJump hdone hf hj hcause
  · cases h
    cases hf
    cases hj

/-- The jumps of a checked program lead to an instruction of their function, unless they overflow. In a baseline run a
jump is out of range only if it overflows, and a jump that is taken always finds an instruction. -/
theorem Program.jumps_land (hcheck : prog.check = .ok ()) :
    (∀ pos f i, prog.function? pos.func = some f → prog.instr? pos = some i → i.code.isJump = true →
      (0 ≤ i.destination pos ∧ (i.destination pos).toInt < f.instrs.length ↔ ¬i.Overflows pos)) ∧
    (∀ (m : Machine) w fuel start r f j, m.run prog w fuel start = some r → r.outcome = .fault f →
      f.instr.code.isJump = true → f.cause = .badJump j →
        prog.instr? f.pos = some f.instr ∧ f.instr.Overflows f.pos) ∧
    ∀ pos i m target taken m', prog.instr? pos = some i →
      Exec.step prog i pos false m = .ok (.jump target taken) m' → ∃ i', prog.instr? target = some i' := by
  refine ⟨?_, ?_, ?_⟩
  · intro pos f i hf hi hj
    obtain ⟨hlt, hnonneg⟩ := destination_of_check hcheck hf hi hj
    rw [and_iff_left hlt]
    exact hnonneg
  · intro m w fuel start r f j hrun hf hj hcause
    obtain ⟨hi, hneg⟩ := Machine.run_badJump hrun hf hj hcause
    obtain ⟨fn, hfn, _⟩ := Option.bind_eq_some_iff.mp hi
    refine ⟨hi, Classical.not_not.mp fun hfits => ?_⟩
    exact Int64.not_le.mpr hneg ((destination_of_check hcheck hfn hi hj).2.mpr hfits)
  · intro pos i m target taken m' hi hstep
    obtain ⟨hj, rfl, hpc⟩ := Exec.step_jumped hstep
    obtain ⟨f, hf, _⟩ := Option.bind_eq_some_iff.mp hi
    exact exists_instr? hf hpc (destination_of_check hcheck hf hi hj).1

theorem Program.jumps_land_drain : drainLoop.check = .ok () ∧ drainLoop.instr? ⟨1, 3⟩ = some (.sized .skipIf 7) ∧
    ((Instr.sized .skipIf 7).destination ⟨1, 3⟩).toInt < 12 ∧
      ∀ m target taken m', Exec.step drainLoop (.sized .skipIf 7) ⟨1, 3⟩ false m = .ok (.jump target taken) m' →
        ∃ i, drainLoop.instr? target = some i := by
  have hcheck : drainLoop.check = .ok () := by decide
  have hi : drainLoop.instr? ⟨1, 3⟩ = some (.sized .skipIf 7) := by decide
  obtain ⟨hinside, _, htaken⟩ := jumps_land hcheck
  exact ⟨hcheck, hi, ((hinside ⟨1, 3⟩ _ _ rfl hi rfl).mpr (by decide)).2,
    fun m target taken m' => htaken _ _ m _ _ m' hi⟩

def farJump : Program where
  table := some [some { locals := 4, body := some [.plain .noop, .sized .skip Int64.maxValue, .plain .ret] }]

/-- The check accepts a jump whose destination wraps around, and the jump faults when it is taken. -/
theorem Program.far_jump_accepted :
    farJump.check = .ok () ∧ farJump.instr? ⟨0, 1⟩ = some (.sized .skip Int64.maxValue) ∧
    (Instr.sized .skip Int64.maxValue).destination ⟨0, 1⟩ < 0 ∧
      ∃ f m r, Exec.newFrame farJump 0 {} = .ok f m ∧
        ({ m with frames := [f] } : Machine).execute farJump 2 {} = some r ∧ r.outcome = .fault
          { instr := .sized .skip Int64.maxValue, pos := ⟨0, 1⟩, cause := .badJump (.before Int64.minValue) } := by
  exact ⟨by decide, by decide, by decide, _, _, _, rfl, rfl, by decide⟩

end HotLoop
