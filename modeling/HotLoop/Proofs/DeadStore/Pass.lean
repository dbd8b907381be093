import HotLoop.Proofs.DeadStore.Rewrite
import HotLoop.Proofs.Growth
import HotLoop.Proofs.Reached

namespace HotLoop

namespace DeadStore

theorem mem_slots {code : List Instr} {i : Instr} (hi : i ∈ code) (hcode : i.code = .load ∨ i.code = .store) :
    i.n ∈ slots code := by
  -- a slot that has been seen stays in the list
  have hfold : ∀ (code : List Instr) (seen : List Int64), (i ∈ code ∨ i.n ∈ seen) →
      i.n ∈ code.foldl (fun seen i =>
        if (i.code = .load ∨ i.code = .store) ∧ i.n ∉ seen then seen ++ [i.n] else seen) seen := by
    intro code
    induction code with
    | nil =>
      intro seen h
      exact h.resolve_left List.not_mem_nil
    | cons j rest ih =>
      intro seen h
      apply ih
      by_cases hj : i = j
      · subst hj
        right
        dsimp only
        split
        · simp
        · rename_i hseen
          exact Decidable.of_not_not fun hn => hseen ⟨hcode, hn⟩
      · rcases h with h | h
        · exact .inl ((List.mem_cons.mp h).resolve_left hj)
        · right
          dsimp only
          split
          · exact List.mem_append_left _ h
          · exact h
  exact hfold code [] (.inl hi)

end DeadStore

namespace Lap

variable {prog : Program} {i : Instr} {f : Frame} {m m' : Machine}

theorem step_position (hj : ¬i.code.isJump) (prog : Program) (f : Frame) (j k : Nat) :
    Exec.step prog i (position i f j) true = Exec.step prog i (position i f k) true := by
  by_cases hp : i.code.isPlain
  · exact Exec.step_plain_pos hp prog _ _ _ _
  · by_cases hc : i.code.isCall
    · simp only [position, if_pos hc]
    · by_cases hg : i.code = .guard
      · simp only [Exec.step, hg]
      · simp only [Exec.step, Opcode.eq_ret hp hj hc hg]

theorem perform_shift (hj : ¬i.code.isJump) (prog : Program) (m : Machine) (j k : Nat) :
    (∀ s, perform prog i j m = .again s → perform prog i k m = .again ⟨k + 1, s.machine⟩) ∧
      ∀ g m' log, perform prog i j m = .done ⟨.ok g, m', log⟩ → perform prog i k m = .done ⟨.ok g, m', []⟩ := by
  unfold perform
  cases htop : m.top? with
  | none => simp
  | some f =>
    simp only [step_position hj prog f j k]
    cases hs : Exec.step prog i (position i f k) true m with
    | error e m₁ => cases e <;> simp
    | ok t m₁ =>
      cases t with
      | jump target taken =>
        have hg : i.code ≠ .guard := by
          intro hg
          have hguard :
              Exec.step prog (Instr.ofGuard i.guard) (position i f k) true m = .ok (.jump target taken) m₁ := by
            rw [← hs]
            simp only [Exec.step, hg, Instr.ofGuard]
          rcases Exec.step_guard_eq_ok.mp hguard with ⟨_, h, _⟩ | ⟨_, h, _⟩ <;> cases h
        exact absurd (Exec.isJump_of_step ((Exec.step_inTrace hg prog _) ▸ hs)) hj
      | next | enter | leave | stop => simp
      | guardFailed =>
        constructor
        · intro s h
          cases h
        · intro g m' log h
          cases h
          rfl

theorem size_le_of_again {k : Nat} {s : Lap} (h : perform prog i k m = .again s) :
    m.heap.size ≤ s.machine.heap.size := by
  obtain ⟨pos, hs⟩ := machine_of_again h
  exact hs ▸ Exec.enlarges_step prog i pos true m

theorem size_le_of_done {k : Nat} {r : Ended Guard} (h : perform prog i k m = .done r) :
    m.heap.size ≤ r.machine.heap.size := by
  obtain ⟨hr, _⟩ | ⟨pos, hr, _⟩ := machine_of_done h
  · exact Nat.le_of_eq (by rw [hr])
  · exact hr ▸ Exec.enlarges_step prog i pos true m

end Lap

inductive Swept
  | through (m : Machine)
  | failed (g : Guard) (m : Machine)
deriving DecidableEq

def Swept.machine : Swept → Machine
  | through m | failed _ m => m

def sweep (prog : Program) : List Instr → Machine → Option Swept
  | [], m => some (.through m)
  | i :: rest, m =>
    match Lap.perform prog i 0 m with
    | .again s => sweep prog rest s.machine
    | .done ⟨.ok g, m', _⟩ => some (.failed g m')
    | .done _ => none

section

variable {prog : Program} {i : Instr} {code kept before rest : List Instr} {m m' : Machine} {r : Swept} {g : Guard}

theorem sweep_cons_of_again {s : Lap} (h : Lap.perform prog i 0 m = .again s) (rest : List Instr) :
    sweep prog (i :: rest) m = sweep prog rest s.machine := by
  simp only [sweep, h]

theorem sweep_cons_of_failed {log : List Event} (h : Lap.perform prog i 0 m = .done ⟨.ok g, m', log⟩)
    (rest : List Instr) : sweep prog (i :: rest) m = some (.failed g m') := by
  simp only [sweep, h]

theorem sweep_cons_cases (h : sweep prog (i :: rest) m = some r) :
    (∃ s, Lap.perform prog i 0 m = .again s ∧ sweep prog rest s.machine = some r) ∨
      ∃ g m' log, Lap.perform prog i 0 m = .done ⟨.ok g, m', log⟩ ∧ r = .failed g m' := by
  cases hp : Lap.perform prog i 0 m with
  | again s => exact .inl ⟨s, rfl, sweep_cons_of_again hp rest ▸ h⟩
  | done e =>
    obtain ⟨outcome, m', log⟩ := e
    cases outcome with
    | ok g =>
      rw [sweep_cons_of_failed hp] at h
      exact .inr ⟨g, m', log, rfl, (Option.some.inj h).symm⟩
    | fault f => simp [sweep, hp] at h
    | crash => simp [sweep, hp] at h

theorem size_le_of_sweep (h : sweep prog code m = some r) : m.heap.size ≤ r.machine.heap.size := by
  induction code generalizing m with
  | nil =>
    cases h
    exact Nat.le_refl _
  | cons i rest ih =>
    rcases sweep_cons_cases h with ⟨s, hp, hrest⟩ | ⟨g, m', log, hp, rfl⟩
    · exact Nat.le_trans (Lap.size_le_of_again hp) (ih hrest)
    · exact Lap.size_le_of_done hp

theorem sweep_of_iterate (hcode : code = before ++ rest) (hj : ∀ i ∈ code, ¬i.code.isJump) {fuel : Nat}
    {log : List Event} (h : iterate (Lap.cycle prog code) fuel ⟨before.length, m⟩ = some ⟨.ok g, m', log⟩) :
    sweep prog rest m = some (.failed g m') ∧ log = [] ∨
      ∃ m₁ fuel', fuel' + rest.length = fuel ∧ sweep prog rest m = some (.through m₁) ∧
        iterate (Lap.cycle prog code) fuel' ⟨code.length, m₁⟩ = some ⟨.ok g, m', log⟩ := by
  induction rest generalizing before m fuel with
  | nil =>
    rw [List.append_nil] at hcode
    exact .inr ⟨m, fuel, rfl, rfl, hcode ▸ h⟩
  | cons i rest ih =>
    have hi : ¬i.code.isJump := hj i (by simp [hcode])
    have hcycle : Lap.cycle prog code ⟨before.length, m⟩ = Lap.perform prog i before.length m :=
      Lap.cycle_of_getElem? (by simp [hcode])
    cases fuel with
    | zero => cases h
    | succ fuel =>
      simp only [iterate, hcycle] at h
      obtain ⟨hshift, hshift'⟩ := Lap.perform_shift hi prog m before.length 0
      cases hp : Lap.perform prog i before.length m with
      | again s =>
        have hs : s = ⟨before.length + 1, s.machine⟩ := by
          have hself := (Lap.perform_shift hi prog m before.length before.length).1 s hp
          exact Turn.again.inj (hp.symm.trans hself)
        simp only [hp] at h
        rw [hs, ← List.length_singleton (a := i), ← List.length_append] at h
        rw [sweep_cons_of_again (hshift s hp)]
        have hsplit : code = (before ++ [i]) ++ rest := by simp [hcode]
        rcases ih hsplit h with hfailed | ⟨m₁, fuel', hfuel, hthrough, hrest⟩
        · exact .inl hfailed
        · exact .inr ⟨m₁, fuel', by simp only [List.length_cons]; omega, hthrough, hrest⟩
      | done e =>
        simp only [hp] at h
        obtain rfl := Option.some.inj h
        rw [sweep_cons_of_failed (hshift' g m' log hp)]
        have hself := (Lap.perform_shift hi prog m before.length before.length).2 g m' log hp
        have hlog := Turn.done.inj (hp.symm.trans hself)
        exact .inl ⟨rfl, congrArg Ended.log hlog⟩

theorem advance_of_sweep (hcode : code = before ++ rest) (hj : ∀ i ∈ code, ¬i.code.isJump)
    (h : sweep prog rest m = some (.through m')) :
    advance (Lap.cycle prog code) rest.length ⟨before.length, m⟩ = some ⟨code.length, m'⟩ := by
  induction rest generalizing before m with
  | nil =>
    cases h
    rw [hcode, List.append_nil]
    rfl
  | cons i rest ih =>
    have hi : ¬i.code.isJump := hj i (by simp [hcode])
    rcases sweep_cons_cases h with ⟨s, hp, hrest⟩ | ⟨_, _, _, _, hr⟩
    · have hcycle : Lap.cycle prog code ⟨before.length, m⟩ = .again ⟨before.length + 1, s.machine⟩ :=
        (Lap.cycle_of_getElem? (by simp [hcode])).trans ((Lap.perform_shift hi prog m 0 before.length).1 s hp)
      rw [List.length_cons, advance_succ_of_again hcycle]
      have hsplit : code = (before ++ [i]) ++ rest := by simp [hcode]
      have hih := ih hsplit hrest
      rwa [List.length_append, List.length_singleton] at hih
    · cases hr

theorem iterate_of_sweep (hcode : code = before ++ rest) (hj : ∀ i ∈ code, ¬i.code.isJump)
    (h : sweep prog rest m = some (.failed g m')) :
    iterate (Lap.cycle prog code) rest.length ⟨before.length, m⟩ = some ⟨.ok g, m', []⟩ := by
  induction rest generalizing before m with
  | nil => cases h
  | cons i rest ih =>
    have hi : ¬i.code.isJump := hj i (by simp [hcode])
    have hcycle : Lap.cycle prog code ⟨before.length, m⟩ = Lap.perform prog i before.length m :=
      Lap.cycle_of_getElem? (by simp [hcode])
    obtain ⟨hshift, hshift'⟩ := Lap.perform_shift hi prog m 0 before.length
    rw [List.length_cons]
    rcases sweep_cons_cases h with ⟨s, hp, hrest⟩ | ⟨_, _, log, hp, ⟨⟩⟩
    · simp only [iterate, hcycle, hshift s hp]
      have hsplit : code = (before ++ [i]) ++ rest := by simp [hcode]
      have hih := ih hsplit hrest
      rwa [List.length_append, List.length_singleton] at hih
    · simp only [iterate, hcycle, hshift' g m' log hp]

end

end HotLoop
