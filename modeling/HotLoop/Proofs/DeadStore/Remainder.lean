import HotLoop.Proofs.DeadStore.Pass

namespace HotLoop.DeadStore

section Filter

def isVolatile (i : Instr) : Bool :=
  i.code = .load || i.code = .store || i.code = .pop || (i.code = .tuple && i.n = 0)

theorem code_of_isVolatile {i : Instr} (h : isVolatile i) :
    i.code = .load ∨ i.code = .store ∨ i.code = .pop ∨ i.code = .tuple := by
  simp only [isVolatile, Bool.or_eq_true, decide_eq_true_eq, Bool.and_eq_true] at h
  rcases h with ((h | h) | h) | ⟨h, _⟩ <;> simp [h]

variable {p : Instr → Bool} {live : List Int64}

theorem Placed.filter_eq (hp : ∀ i, isVolatile i → p i = false) {i : Instr} {kept out : List Instr}
    (h : Placed live i kept out) : out.filter p = (i :: kept).filter p := by
  have hdrop : ∀ (j : Instr) (rest : List Instr), isVolatile j → (j :: rest).filter p = rest.filter p := by
    intro j rest hj
    exact List.filter_cons_of_neg (by simp [hp j hj])
  cases h with
  | stays => rfl
  | dead store => rw [hdrop .pop kept rfl, hdrop i kept (by simp [isVolatile, store])]
  | fused store load => rw [hdrop i _ (by simp [isVolatile, store]), hdrop _ _ (by simp [isVolatile, load])]
  | idle empty pop => rw [hdrop i _ (by simp [isVolatile, empty]), hdrop _ _ (by simp [isVolatile, pop])]

theorem filter_eliminate (hp : ∀ i, isVolatile i → p i = false) (code : List Instr) (live : List Int64) :
    (eliminate code live).filter p = code.filter p := by
  refine eliminate_induction (P := fun code out => out.filter p = code.filter p) (fun _ => rfl) ?_ code
  intro i code kept out ih h
  rw [h.filter_eq hp, List.filter_cons, List.filter_cons, ih]

end Filter

/-- Code that makes empty records and pops each of them again. -/
inductive Idle : List Instr → Prop
  | nil : Idle []
  | pair {i j : Instr} {inner rest : List Instr} (makes : i.code = .tuple ∧ i.n = 0) (inside : Idle inner)
    (pops : j.code = .pop) (after : Idle rest) : Idle (i :: (inner ++ j :: rest))

namespace Idle

variable {code code' : List Instr}

theorem append (h : Idle code) (h' : Idle code') : Idle (code ++ code') := by
  induction h with
  | nil => exact h'
  | pair makes inside pops _ _ ih =>
    simpa only [List.cons_append, List.append_assoc] using .pair makes inside pops ih

theorem not_isJump (h : Idle code) : ∀ i ∈ code, ¬i.code.isJump := by
  induction h with
  | nil => simp
  | pair makes _ pops _ ihInside ihAfter =>
    simp only [List.forall_mem_cons, List.forall_mem_append]
    exact ⟨by simp [makes.1, Opcode.isJump], ihInside, by simp [pops, Opcode.isJump], ihAfter⟩

theorem foldr_put (h : Idle code) (live : List Int64) (kept : List Instr) : code.foldr (put live) kept = kept := by
  induction h generalizing kept with
  | nil => rfl
  | @pair i j inner rest makes _ pops _ ihInside ihAfter =>
    have hpop : put live j kept = j :: kept := by simp [put, pops]
    have hmake : put live i (j :: kept) = kept := by simp [put, putEmpty, makes, pops]
    rw [List.foldr_cons, List.foldr_append, List.foldr_cons, ihAfter, hpop, ihInside, hmake]

end Idle

/-- The instructions that are left of code when all that is idle between them is taken out. -/
inductive Leaves : List Instr → List Instr → Prop
  | last {b : List Instr} (idle : Idle b) : Leaves b []
  | cons {b code kept : List Instr} {i : Instr} (idle : Idle b) (rest : Leaves code kept) :
    Leaves (b ++ i :: code) (i :: kept)

namespace Leaves

variable {code kept : List Instr}

theorem prepend {b : List Instr} (hb : Idle b) (h : Leaves code kept) : Leaves (b ++ code) kept := by
  cases h with
  | last idle => exact .last (hb.append idle)
  | cons idle rest =>
    rw [← List.append_assoc]
    exact .cons (hb.append idle) rest

theorem next (h : Leaves code kept) (i : Instr) : Leaves (i :: code) (i :: kept) := .cons .nil h

theorem foldr_put (hstore : ∀ i ∈ code, i.code ≠ .store) (live : List Int64) :
    Leaves code (code.foldr (put live) []) := by
  induction code with
  | nil => exact .last .nil
  | cons i rest ih =>
    obtain ⟨hi, hrest⟩ := List.forall_mem_cons.mp hstore
    have ih := ih hrest
    have hplaced := placed_put live i (rest.foldr (put live) [])
    rw [List.foldr_cons]
    generalize rest.foldr (put live) [] = kept at ih hplaced
    generalize put live i kept = out at hplaced
    cases hplaced with
    | stays => exact ih.next i
    | dead store | fused store => exact absurd store hi
    | idle empty pop =>
      cases ih with
      | cons idle later =>
        have hpair : Idle (i :: (_ ++ _ :: [])) := .pair empty idle pop .nil
        simpa using prepend hpair later

end Leaves

theorem uses_pos {live : List Int64} {slot : Int64} (hslot : slot ∈ live) {code : List Instr}
    (hstore : ∀ i ∈ code, i.code ≠ .store) : 0 < uses live slot code := by
  induction code with
  | nil => simp [uses, hslot]
  | cons i rest ih =>
    obtain ⟨hi, hrest⟩ := List.forall_mem_cons.mp hstore
    have := ih hrest
    unfold uses
    split
    · omega
    · split
      · omega
      · exact this

theorem Placed.mem_of_store {live : List Int64} {i j : Instr} {kept out : List Instr} (h : Placed live i kept out)
    (hj : j ∈ kept) (hstore : j.code = .store) : j ∈ out := by
  cases h with
  | stays | dead => exact List.mem_cons_of_mem _ hj
  | fused _ load =>
    rcases List.mem_cons.mp hj with rfl | hj
    · simp [load] at hstore
    · exact hj
  | idle _ pop =>
    rcases List.mem_cons.mp hj with rfl | hj
    · simp [pop] at hstore
    · exact hj

theorem Placed.mem_last {live : List Int64} {i : Instr} {kept out : List Instr} (h : Placed live i kept out)
    (hi : i.code = .store) (hlive : i.n ∈ live) (hstore : ∀ j ∈ kept, j.code ≠ .store) : i ∈ out := by
  cases h with
  | stays => exact List.mem_cons_self
  | dead _ unread =>
    have := uses_pos hlive hstore
    omega
  | fused _ load slot once =>
    have hrest := uses_pos hlive (List.forall_mem_cons.mp hstore).2
    rw [uses_cons_load load, if_pos slot] at once
    omega
  | idle empty => simp [hi] at empty

theorem exists_store_of_foldr_put {code : List Instr} {live : List Int64}
    (hlive : ∀ i ∈ code, i.code = .store → i.n ∈ live) (h : ∃ i ∈ code, i.code = .store) :
    ∃ i ∈ code.foldr (put live) [], i.code = .store := by
  induction code with
  | nil => simp at h
  | cons i rest ih =>
    by_cases hrest : ∃ j ∈ rest, j.code = .store
    · obtain ⟨j, hj, hstore⟩ := ih (fun j hj => hlive j (List.mem_cons_of_mem i hj)) hrest
      exact ⟨j, (placed_put live i _).mem_of_store hj hstore, hstore⟩
    · obtain ⟨j, hj, hstore⟩ := h
      obtain rfl : j = i := (List.mem_cons.mp hj).resolve_right fun hj => hrest ⟨j, hj, hstore⟩
      refine ⟨j, (placed_put live j _).mem_last hstore (hlive j hj hstore) ?_, hstore⟩
      intro k hk hkstore
      rcases mem_foldr_put hk with rfl | hk
      · cases hkstore
      · exact hrest ⟨k, hk, hkstore⟩

theorem eliminate_slots_eq_nil_iff (code : List Instr) : eliminate code (slots code) = [] ↔ Idle code := by
  constructor
  · intro h
    rw [eliminate_eq] at h
    split at h
    · rw [h]
      exact .nil
    · have hstore : ∀ i ∈ code, i.code ≠ .store := by
        intro i hi hcode
        have hlive : ∀ j ∈ code, j.code = .store → j.n ∈ slots code := fun j hj hc => mem_slots hj (.inr hc)
        obtain ⟨j, hj, _⟩ := exists_store_of_foldr_put hlive ⟨i, hi, hcode⟩
        rw [h] at hj
        cases hj
      have hleaves := Leaves.foldr_put hstore (slots code)
      rw [h] at hleaves
      cases hleaves with
      | last idle => exact idle
  · intro h
    rw [eliminate_of_not_isJump h.not_isJump]
    exact h.foldr_put _ []

end HotLoop.DeadStore
