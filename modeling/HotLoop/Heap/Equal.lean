import HotLoop.Heap.Basic

/-!
Structural equality of values, following records and pointers into the cells they name. Data may share cells
and may be cyclic: a pair of cells met once is taken for equal when it is met again, so values are equal when
no path from them finds a difference.
-/

namespace HotLoop.Heap

abbrev CellPair := CellId × CellId

/-- The pairs of cells on which the equality of two values rests, or nothing if the values differ at once. -/
def obligations? (v w : Value) : Option (List CellPair) :=
  if v.kind = w.kind then
    match v.kind with
    | .record => if v.fields.length = w.fields.length then some (v.fields.zip w.fields) else none
    | .pointer => some [(v.cell, w.cell)]
    | _ => if v.equal w then some [] else none
  else none

def allPairs (n : Nat) : List (Nat × Nat) :=
  (List.range n).flatMap fun i => (List.range n).map fun j => (i, j)

def isNew (seen : List CellPair) (p : Nat × Nat) : Bool :=
  (UInt32.ofNat p.1, UInt32.ofNat p.2) ∉ seen

def unseen (h : Heap) (seen : List CellPair) : Nat :=
  (allPairs h.size).countP (isNew seen)

theorem mem_allPairs {n i j : Nat} (hi : i < n) (hj : j < n) : (i, j) ∈ allPairs n :=
  List.mem_flatMap.2 ⟨i, List.mem_range.2 hi, List.mem_map.2 ⟨j, List.mem_range.2 hj, rfl⟩⟩

theorem countP_lt {α : Type} {p q : α → Bool} {l : List α} {a : α} (hpq : ∀ x ∈ l, p x → q x)
    (ha : a ∈ l) (hp : p a = false) (hq : q a = true) : l.countP p < l.countP q := by
  induction l with
  | nil => simp at ha
  | cons b l ih =>
    have hle : l.countP p ≤ l.countP q :=
      List.countP_mono_left fun x hx => hpq x (List.mem_cons_of_mem _ hx)
    have hb := hpq b List.mem_cons_self
    rcases List.mem_cons.1 ha with rfl | hmem
    · simp only [List.countP_cons, hp, hq]
      simp only [Bool.false_eq_true, ↓reduceIte]
      omega
    · have := ih (fun x hx => hpq x (List.mem_cons_of_mem _ hx)) hmem
      simp only [List.countP_cons]
      cases hpb : p b
      · simp only [Bool.false_eq_true, ↓reduceIte]
        omega
      · simp only [hb hpb, ↓reduceIte]
        omega

theorem unseen_cons_lt {h : Heap} {seen : List CellPair} {x y : CellId} (hx : x.toNat < h.size)
    (hy : y.toNat < h.size) (hnew : (x, y) ∉ seen) : h.unseen ((x, y) :: seen) < h.unseen seen := by
  refine countP_lt (fun p _ hp => ?_) (mem_allPairs hx hy) ?_ ?_
  · simp_all [isNew]
  · simp [isNew]
  · simpa [isNew] using hnew

/-- Whether all pairs of a work list are equal, given that the seen pairs are. -/
def pairsEqual (h : Heap) (seen : List CellPair) (work : List CellPair) : Bool :=
  match work with
  | [] => true
  | (x, y) :: rest =>
    if x = y ∨ (x, y) ∈ seen then pairsEqual h seen rest
    else if hx : x.toNat < h.cells.size then
      if hy : y.toNat < h.cells.size then
        match obligations? h.cells[x.toNat] h.cells[y.toNat] with
        | some more => pairsEqual h ((x, y) :: seen) (more ++ rest)
        | none => false
      else false
    else false
termination_by (h.unseen seen, work.length)
decreasing_by
  · exact Prod.Lex.right _ (Nat.lt_succ_self _)
  · exact Prod.Lex.left _ _ (unseen_cons_lt hx hy (by simp_all))

def equal (h : Heap) (v w : Value) : Bool :=
  match obligations? v w with
  | some work => h.pairsEqual [] work
  | none => false

end HotLoop.Heap
