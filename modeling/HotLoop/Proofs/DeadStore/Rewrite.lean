import HotLoop.Code.DeadStore

namespace HotLoop.DeadStore

variable {live : List Int64} {i j : Instr} {kept code : List Instr}

/-- How often the value that a slot holds before some code is read there: by loads up to the next store to the
slot, and once more if the slot is live at a barrier, or the end, before that store. -/
def uses (live : List Int64) (slot : Int64) : List Instr → Nat
  | [] => if slot ∈ live then 1 else 0
  | i :: rest =>
    if i.code = .load then uses live slot rest + (if i.n = slot then 1 else 0)
    else if i.code = .store then (if i.n = slot then 0 else uses live slot rest)
    else if isBarrier i ∧ slot ∈ live then max 1 (uses live slot rest)
    else uses live slot rest

/-- Puts an instruction in front of code, with the counts taken from there. -/
def put (live : List Int64) (i : Instr) (kept : List Instr) : List Instr :=
  if i.code = .store then putStore (uses live i.n kept) i kept
  else if i.code = .tuple ∧ i.n = 0 then putEmpty i kept
  else i :: kept

theorem uses_cons_load (hi : i.code = .load) (slot : Int64) :
    uses live slot (i :: kept) = uses live slot kept + if i.n = slot then 1 else 0 := by
  rw [uses, if_pos hi]

theorem uses_cons_store (hi : i.code = .store) (slot : Int64) :
    uses live slot (i :: kept) = if i.n = slot then 0 else uses live slot kept := by
  simp [uses, hi]

theorem uses_cons_other (hi : i.code = .pop ∨ i.code = .tuple) (slot : Int64) :
    uses live slot (i :: kept) = uses live slot kept := by
  rcases hi with hi | hi <;> simp [uses, isBarrier, hi, Opcode.isCall]

/-- An instruction with nothing to remove: not a store whose value is never read, nor one followed at once by the only
load of its value, nor an empty record that is popped at once. -/
structure Needed (live : List Int64) (i : Instr) (rest : List Instr) : Prop where
  read : i.code = .store → uses live i.n rest ≠ 0
  shared : i.code = .store → uses live i.n rest = 1 → ∀ next ∈ rest.head?, ¬(next.code = .load ∧ next.n = i.n)
  taken : i.code = .tuple ∧ i.n = 0 → ∀ next ∈ rest.head?, next.code ≠ .pop

inductive Placed (live : List Int64) (i : Instr) : List Instr → List Instr → Prop
  | stays {kept : List Instr} (needed : Needed live i kept) : Placed live i kept (i :: kept)
  | dead {kept : List Instr} (store : i.code = .store) (unread : uses live i.n kept = 0) :
    Placed live i kept (.pop :: kept)
  | fused {next : Instr} {rest : List Instr} (store : i.code = .store) (load : next.code = .load) (slot : next.n = i.n)
    (once : uses live i.n (next :: rest) = 1) : Placed live i (next :: rest) rest
  | idle {next : Instr} {rest : List Instr} (empty : i.code = .tuple ∧ i.n = 0) (pop : next.code = .pop) :
    Placed live i (next :: rest) rest

theorem placed_putStore (hi : i.code = .store) : Placed live i kept (putStore (uses live i.n kept) i kept) := by
  have hempty : ¬(i.code = .tuple ∧ i.n = 0) := by simp [hi]
  unfold putStore
  split
  · rename_i hread
    exact .dead hi hread
  · rename_i next rest honce
    split
    · rename_i hload
      exact .fused hi hload.1 hload.2 honce
    · rename_i hload
      refine .stays ⟨fun _ => by omega, fun _ _ => ?_, fun h => absurd h hempty⟩
      simpa using hload
  · rename_i hread honce
    refine .stays ⟨fun _ => hread, fun _ hone => ?_, fun h => absurd h hempty⟩
    intro next hnext
    obtain ⟨rest, rfl⟩ := List.head?_eq_some_iff.mp hnext
    exact absurd rfl (honce next rest hone)

theorem placed_put (live : List Int64) (i : Instr) (kept : List Instr) : Placed live i kept (put live i kept) := by
  unfold put
  split
  · rename_i hstore
    exact placed_putStore hstore
  · rename_i hstore
    have hread : i.code = .store → uses live i.n kept ≠ 0 := fun h => absurd h hstore
    split
    · rename_i hempty
      cases kept with
      | nil => exact .stays ⟨hread, fun h => absurd h hstore, by simp⟩
      | cons next rest =>
        simp only [putEmpty]
        split
        · rename_i hpop
          exact .idle hempty hpop
        · rename_i hpop
          exact .stays ⟨hread, fun h => absurd h hstore, fun _ => by simpa using hpop⟩
    · rename_i hempty
      exact .stays ⟨hread, fun h => absurd h hstore, fun h => absurd h hempty⟩

namespace Placed

variable {out : List Instr}

theorem mem (h : Placed live i kept out) (hj : j ∈ out) : j = i ∨ j = .pop ∨ j ∈ kept := by
  cases h with
  | stays => exact (List.mem_cons.mp hj).imp_right .inr
  | dead => exact .inr (List.mem_cons.mp hj)
  | fused | idle => exact .inr (.inr (List.mem_cons_of_mem _ hj))

theorem uses_eq (h : Placed live i kept out) (slot : Int64) : uses live slot out = uses live slot (i :: kept) := by
  cases h with
  | stays => rfl
  | dead store unread =>
    rw [uses_cons_other (.inl rfl), uses_cons_store store]
    split
    · rename_i hslot
      exact hslot ▸ unread
    · rfl
  | fused store load hnext once =>
    rw [uses_cons_load load, if_pos hnext] at once
    rw [uses_cons_store store, uses_cons_load load, hnext]
    split
    · rename_i hslot
      rw [← hslot]
      omega
    · rfl
  | idle empty pop => rw [uses_cons_other (.inr empty.1), uses_cons_other (.inl pop)]

end Placed

theorem mem_foldr_put (h : j ∈ code.foldr (put live) []) : j = .pop ∨ j ∈ code := by
  induction code with
  | nil => cases h
  | cons i rest ih =>
    rcases (placed_put live i _).mem h with rfl | rfl | h
    · exact .inr List.mem_cons_self
    · exact .inl rfl
    · exact (ih h).imp_right (List.mem_cons_of_mem i)

theorem uses_foldr_put (live : List Int64) (slot : Int64) (code : List Instr) :
    uses live slot (code.foldr (put live) []) = uses live slot code := by
  induction code with
  | nil => rfl
  | cons i rest ih =>
    rw [List.foldr_cons, (placed_put live i _).uses_eq]
    simp only [uses, ih]

theorem Counts.get_set (counts : Counts) (slot s : Int64) (n : Nat) :
    (counts.set slot n).get s = if slot = s then n else counts.get s := by
  induction counts with
  | nil => rfl
  | cons p rest ih =>
    by_cases hp : p.1 = slot
    · by_cases hs : slot = s <;> simp [set, get, hp, hs]
    · simp only [set, hp, if_false, get, ih]
      by_cases hs : slot = s
      · rw [if_pos hs, if_pos hs, if_neg fun h => hp (h.trans hs.symm)]
      · rw [if_neg hs, if_neg hs]

theorem get_markLive (live : List Int64) (counts : Counts) (slot : Int64) :
    (markLive live counts).get slot = if slot ∈ live then max 1 (counts.get slot) else counts.get slot := by
  induction live generalizing counts with
  | nil => rfl
  | cons s live ih =>
    have hmark : (if counts.get s = 0 then counts.set s 1 else counts).get slot =
        if s = slot then max 1 (counts.get slot) else counts.get slot := by
      by_cases hunread : counts.get s = 0
      · rw [if_pos hunread, Counts.get_set]
        by_cases hs : s = slot
        · rw [if_pos hs, if_pos hs, ← hs, hunread]
          rfl
        · rw [if_neg hs, if_neg hs]
      · rw [if_neg hunread]
        split
        · rename_i hs
          rw [← hs]
          omega
        · rfl
    rw [markLive, List.foldl_cons, ← markLive, ih, hmark]
    by_cases hs : s = slot
    · rw [if_pos hs, if_pos (List.mem_cons.mpr (.inl hs.symm))]
      split <;> omega
    · simp [hs, Ne.symm hs]

namespace Pass

theorem counts_step {s : Pass} (h : ∀ slot, s.counts.get slot = uses live slot code) (i : Instr) (slot : Int64) :
    (s.step live i).counts.get slot = uses live slot (i :: code) := by
  unfold step
  split
  · rename_i hload
    rw [uses_cons_load hload, Counts.get_set, h, h]
    split
    · rename_i hs
      rw [hs]
    · rfl
  · rename_i hload
    split
    · rename_i hstore
      rw [uses_cons_store hstore, Counts.get_set, h]
    · rename_i hstore
      split
      · rename_i hempty
        rw [uses_cons_other (.inr hempty.1)]
        exact h slot
      · split
        · rename_i hbarrier
          simp [uses, hload, hstore, hbarrier, get_markLive, h]
        · rename_i hbarrier
          simp [uses, hload, hstore, hbarrier, h]

theorem kept_step {s : Pass} (h : ∀ slot, s.counts.get slot = uses live slot s.kept) (i : Instr) :
    (s.step live i).kept = put live i s.kept := by
  unfold step put
  split
  · rename_i hload
    simp [hload]
  · split
    · rw [h]
    · split
      · rfl
      · split <;> rfl

theorem foldr_step (live : List Int64) (code : List Instr) :
    (∀ slot, (code.foldr (step live) (start live)).counts.get slot = uses live slot code) ∧
      (code.foldr (step live) (start live)).kept = code.foldr (put live) [] := by
  induction code with
  | nil => exact ⟨get_markLive live [], rfl⟩
  | cons i rest ih =>
    obtain ⟨hcounts, hkept⟩ := ih
    refine ⟨counts_step hcounts i, ?_⟩
    rw [List.foldr_cons, kept_step, hkept, List.foldr_cons]
    intro slot
    rw [hcounts, hkept, uses_foldr_put]

end Pass

theorem eliminate_eq (code : List Instr) (live : List Int64) :
    eliminate code live = if code.any fun i => i.code.isJump then code else code.foldr (put live) [] := by
  rw [eliminate, (Pass.foldr_step live code).2]

theorem eliminate_of_not_isJump (hjump : ∀ i ∈ code, ¬i.code.isJump) :
    eliminate code live = code.foldr (put live) [] := by
  rw [eliminate_eq, if_neg (by simpa using hjump)]

theorem mem_eliminate (h : j ∈ eliminate code live) : j = .pop ∨ j ∈ code := by
  rw [eliminate_eq] at h
  split at h
  · exact .inr h
  · exact mem_foldr_put h

theorem eliminate_induction {P : List Instr → List Instr → Prop} (self : ∀ code, P code code)
    (step : ∀ i code kept out, P code kept → Placed live i kept out → P (i :: code) out) (code : List Instr) :
    P code (eliminate code live) := by
  have hpass : P code (code.foldr (put live) []) := by
    induction code with
    | nil => exact self []
    | cons i rest ih => exact step i rest _ _ ih (placed_put live i _)
  rw [eliminate_eq]
  split
  · exact self code
  · exact hpass

def Settled (live : List Int64) (code : List Instr) : Prop := ∀ i rest, i :: rest <:+ code → Needed live i rest

theorem settled_nil (live : List Int64) : Settled live [] := by
  intro i rest h
  simp at h

theorem settled_cons : Settled live (i :: kept) ↔ Needed live i kept ∧ Settled live kept := by
  constructor
  · intro h
    exact ⟨h i kept (List.suffix_refl _), fun j rest hj => h j rest (hj.trans (List.suffix_cons i kept))⟩
  · rintro ⟨hi, h⟩ j rest hj
    rcases List.suffix_cons_iff.mp hj with he | hj
    · cases he
      exact hi
    · exact h j rest hj

theorem Placed.settled {out : List Instr} (h : Placed live i kept out) (hkept : Settled live kept) :
    Settled live out := by
  cases h with
  | stays needed => exact settled_cons.mpr ⟨needed, hkept⟩
  | dead => exact settled_cons.mpr ⟨⟨by simp [Instr.pop, Instr.plain], by simp [Instr.pop, Instr.plain],
      by simp [Instr.pop, Instr.plain]⟩, hkept⟩
  | fused | idle => exact (settled_cons.mp hkept).2

theorem put_of_needed (h : Needed live i kept) : put live i kept = i :: kept := by
  have hplaced := placed_put live i kept
  generalize put live i kept = out at hplaced
  cases hplaced with
  | stays => rfl
  | dead store unread => exact absurd unread (h.read store)
  | fused store load slot once => exact absurd ⟨load, slot⟩ (h.shared store once _ rfl)
  | idle empty pop => exact absurd pop (h.taken empty _ rfl)

theorem settled_foldr_put (code : List Instr) (live : List Int64) : Settled live (code.foldr (put live) []) := by
  induction code with
  | nil => exact settled_nil live
  | cons i rest ih => exact (placed_put live i _).settled ih

theorem eliminate_of_settled (h : Settled live code) : eliminate code live = code := by
  have hpass : code.foldr (put live) [] = code := by
    induction code with
    | nil => rfl
    | cons i rest ih =>
      obtain ⟨hi, hrest⟩ := settled_cons.mp h
      rw [List.foldr_cons, ih hrest, put_of_needed hi]
  rw [eliminate_eq]
  split
  · rfl
  · exact hpass

theorem eliminate_eq_self_iff (hjump : ∀ i ∈ code, ¬i.code.isJump) :
    eliminate code live = code ↔ Settled live code := by
  constructor
  · intro h
    rw [← h, eliminate_of_not_isJump hjump]
    exact settled_foldr_put code live
  · exact eliminate_of_settled

/-- One pass is enough: a second one changes nothing. -/
theorem eliminate_eliminate (code : List Instr) (live : List Int64) :
    eliminate (eliminate code live) live = eliminate code live := by
  by_cases hjump : ∀ i ∈ code, ¬i.code.isJump
  · have hpass : Settled live (eliminate code live) := by
      rw [eliminate_of_not_isJump hjump]
      exact settled_foldr_put code live
    exact eliminate_of_settled hpass
  · have hsame : eliminate code live = code := by rw [eliminate_eq, if_pos (by simpa using hjump)]
    rw [hsame, hsame]

end HotLoop.DeadStore
