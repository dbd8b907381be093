import HotLoop.Proofs.Depth

namespace HotLoop

def Program.backJumps (prog : Program) (func : Int64) : List Int64 :=
  match prog.function? func with
  | none => []
  | some f => f.instrs.zipIdx.filterMap fun (i, k) =>
    let pos : Position := ⟨func, Int64.ofNat k⟩
    if i.code.isJump ∧ i.destination pos ≤ pos.pc then some (i.destination pos) else none

def Program.Bounded (prog : Program) (func : Int64) : Prop := prog.instr? ⟨func, Int64.maxValue⟩ = none

instance (prog : Program) (func : Int64) : Decidable (prog.Bounded func) := inferInstanceAs (Decidable (_ = none))

section

variable {prog : Program} {pos : Position} {i : Instr}

theorem nth?_eq_some {α : Type} {xs : List α} {k : Int64} {x : α} :
    nth? xs k = some x ↔ 0 ≤ k ∧ xs[k.toNatClampNeg]? = some x := by
  unfold nth?
  split
  · rename_i h
    simp [Int64.not_le.mpr h]
  · rename_i h
    simp [Int64.not_lt.mp h]

theorem nth?_toInt64 {α : Type} {xs : List α} {n : UInt64} {x : α} :
    nth? xs n.toInt64 = some x ↔ (n.toNat : Int) ≤ Int64.maxValue.toInt ∧ xs[n.toNat]? = some x := by
  have hlimit := n.toNat_lt
  have hint : n.toInt64.toInt = (n.toNat : Int).bmod Int64.size := by
    rw [← Int64.toInt_ofNat', ← UInt64.toInt64_ofNat', UInt64.ofNat_toNat]
  rw [Int64.size, Int.bmod_eq_emod] at hint
  have hsign : 0 ≤ n.toInt64 ↔ (n.toNat : Int) ≤ Int64.maxValue.toInt := by
    rw [Int64.le_iff_toInt_le, Int64.toInt_zero, Int64.toInt_maxValue]
    split at hint <;> omega
  rw [nth?_eq_some, hsign]
  refine and_congr_right fun hsmall => ?_
  have hnat : n.toInt64.toNatClampNeg = n.toNat := by
    rw [Int64.toInt_maxValue] at hsmall
    rw [← Int64.toNat_toInt]
    split at hint <;> omega
  rw [hnat]

theorem Program.mem_of_instr? (h : prog.instr? pos = some i) : ∃ f, some f ∈ prog.entries ∧ i ∈ f.instrs := by
  obtain ⟨f, hf, hi⟩ := Option.bind_eq_some_iff.mp h
  obtain ⟨_, hf⟩ := nth?_eq_some.mp (Option.join_eq_some_iff.mp hf)
  obtain ⟨_, hi⟩ := nth?_eq_some.mp hi
  exact ⟨f, List.mem_of_getElem? hf, List.mem_of_getElem? hi⟩

theorem Program.mem_backJumps (h : prog.instr? pos = some i) (hi : i.code.isJump)
    (hback : i.destination pos ≤ pos.pc) : i.destination pos ∈ prog.backJumps pos.func := by
  obtain ⟨f, hf, hn⟩ := Option.bind_eq_some_iff.mp h
  obtain ⟨hpos, hget⟩ := nth?_eq_some.mp hn
  have hpc : Int64.ofNat pos.pc.toNatClampNeg = pos.pc := Int64.ofNat_toNatClampNeg _ hpos
  simp only [backJumps, hf, List.mem_filterMap]
  refine ⟨(i, pos.pc.toNatClampNeg), List.mem_zipIdx_iff_getElem?.mpr (by simpa using hget), ?_⟩
  simp [hpc, hi, hback]

theorem Program.Bounded.lt_next (hb : prog.Bounded pos.func) (h : prog.instr? pos = some i) :
    pos.pc < pos.next.pc := by
  have hne : pos.pc.toInt ≠ 2 ^ 63 - 1 := by
    intro hmax
    have hpos : pos = ⟨pos.func, Int64.maxValue⟩ := by
      rw [← (Int64.toInt_inj.mp hmax : pos.pc = Int64.maxValue)]
    rw [hpos, hb] at h
    cases h
  have hlow := pos.pc.le_toInt
  have hhigh := pos.pc.toInt_lt
  change pos.pc < pos.pc + 1
  rw [Int64.lt_iff_toInt_lt, Int64.toInt_add, Int64.toInt_one, Int.bmod_eq_of_le] <;> omega

end

/-- A frame is active and stands at `floor` or behind it in the same function, given where the top one stands. -/
inductive Past (f : Frame) (floor : Position) : Option Position → List Frame → Prop
  | here {pos : Position} {rest : List Frame} (func : pos.func = floor.func) (pc : floor.pc ≤ pos.pc) :
    Past f floor (some pos) (f :: rest)
  | under {pos : Option Position} {g : Frame} {rest : List Frame} (h : Past f floor g.back rest) :
    Past f floor pos (g :: rest)

namespace Past

variable {prog : Program} {pos floor : Position} {f : Frame} {m : Machine} {v : Move} {frames : List Frame}

theorem mem {p : Option Position} (h : Past f floor p frames) : f ∈ frames := by
  induction h with
  | here => exact List.mem_cons_self
  | under _ ih => exact List.mem_cons_of_mem _ ih

theorem of_top {rest : List Frame} (h : Past f floor (some pos) (f :: rest)) (hm : f ∉ rest) :
    pos.func = floor.func ∧ floor.pc ≤ pos.pc := by
  cases h with
  | here func pc => exact ⟨func, pc⟩
  | under h => exact absurd h.mem hm

theorem next {i : Instr} (h : Past f floor (some pos) frames) (hb : prog.Bounded floor.func)
    (hi : prog.instr? pos = some i) : Past f floor (some pos.next) frames := by
  cases h with
  | here func pc =>
    have hlt := (func ▸ hb : prog.Bounded pos.func).lt_next hi
    exact .here func (Int64.le_trans pc (Int64.le_of_lt hlt))
  | under h => exact .under h

theorem step (h : Past f floor (some pos) m.frames) (hb : prog.Bounded floor.func) (hv : v.From prog pos m)
    (hgoes : v.transfer ≠ .stop) :
    Past f floor (some v.landing) v.machine.frames ∨
      (f.back ≠ none ∧ m.frames = f :: v.machine.frames) ∨
        (Walk.closes v.transfer ∧ v.machine.top? = some f ∧ v.landing.pc ∈ prog.backJumps floor.func ∧
          v.landing.pc < floor.pc) := by
  have hflow := hv.flow
  have hland : v.landing = Walk.target pos v.transfer := by rw [Move.landing, hv.place]
  generalize htr : v.transfer = t at hflow hland
  cases hflow with
  | next _ hframes => exact .inl (by simpa [hland, hframes, Walk.target] using h.next hb hv.found)
  | jump hcode hframes =>
    have hland' : v.landing = ⟨pos.func, v.instr.destination pos⟩ := hland
    rw [hframes]
    generalize hfr : m.frames = frames at h
    cases h with
    | here func pc =>
      by_cases hlt : v.landing.pc < floor.pc
      · have hle : v.instr.destination pos ≤ pos.pc := by
          rw [hland'] at hlt
          exact Int64.le_trans (Int64.le_of_lt hlt) pc
        have hmem := Program.mem_backJumps hv.found hcode hle
        exact .inr (.inr ⟨rfl, by simp [Machine.top?, hframes, hfr], by rw [hland', ← func]; exact hmem, hlt⟩)
      · exact .inl (.here (by simpa [hland'] using func) (by simpa using hlt))
    | under h => exact .inl (.under h)
  | enter _ g _ back hframes =>
    rw [hframes]
    exact .inl (.under (back ▸ h.next hb hv.found))
  | leave g rest target back popped hframes =>
    rw [popped] at h ⊢
    cases h with
    | here func pc => exact .inr (.inl ⟨by simp [back], by rw [hframes]⟩)
    | under h =>
      rw [hframes, show v.landing = target from hland, ← back]
      exact .inl h
  | stop => exact absurd htr hgoes

end Past

end HotLoop
