import HotLoop.Heap.Equal
import HotLoop.Proofs.Growth
import Mathlib.Data.List.Forall2

/-!
Structural equality as a greatest fixed point. The comparison of two values takes a pair of cells for equal when it
meets the pair again; it finds no difference exactly if some relation of cells holds the two values together, and then
the pairs that it met are such a relation. So it makes no difference in which order cells are compared, or how data
that share cells or are cyclic are laid out.
-/

namespace HotLoop

variable {R S : CellId → CellId → Prop} {u v w : Value}

def Kind.isDefined : Kind → Bool
  | other _ => false
  | _ => true

theorem forall₂_comp {xs ys zs : List CellId} (h : List.Forall₂ R xs ys) (h' : List.Forall₂ S ys zs) :
    List.Forall₂ (fun x z => ∃ y, R x y ∧ S y z) xs zs := by
  induction h generalizing zs with
  | nil =>
    cases h'
    exact .nil
  | cons hxy _ ih =>
    cases h' with
    | cons hyz hrest => exact .cons ⟨_, hxy, hyz⟩ (ih hrest)

namespace Value

/-- Values of one kind whose cells are related: records field by field and pointers at their targets. Values that name
no cells have equal payloads. -/
inductive Match (R : CellId → CellId → Prop) (v w : Value) : Prop
  | records (left : v.kind = .record) (right : w.kind = .record) (fields : List.Forall₂ R v.fields w.fields)
  | pointers (left : v.kind = .pointer) (right : w.kind = .pointer) (cells : R v.cell w.cell)
  | scalars (primitive : v.isPrimitive = true) (equal : v.equal w = true)

theorem kind_of_equal (h : v.equal w = true) : v.kind = w.kind := by
  unfold equal at h
  split at h
  · assumption
  · cases h

theorem isPrimitive_congr (h : v.kind = w.kind) : v.isPrimitive = w.isPrimitive := by
  simp only [isPrimitive, h]

theorem equal_comm (v w : Value) : v.equal w = w.equal v := by
  by_cases hk : v.kind = w.kind
  · simp only [equal, hk, if_true]
    cases w.kind <;> simp only [Bool.beq_comm]
  · simp only [equal, hk, Ne.symm hk, if_false]

theorem equal_trans (h : u.equal v = true) (h' : v.equal w = true) : u.equal w = true := by
  have hk := kind_of_equal h
  have hk' := kind_of_equal h'
  simp only [equal, hk, hk', if_true] at h h' ⊢
  cases hw : w.kind <;> simp only [hw, beq_iff_eq] at h h' ⊢ <;> first | exact h.trans h' | cases h

theorem equal_self (h : v.kind.isDefined = true) : v.equal v = true := by
  simp only [equal, if_true]
  cases hk : v.kind <;> simp [hk, Kind.isDefined] at h ⊢

namespace Match

theorem mono (h : v.Match R w) (hRS : ∀ x y, R x y → S x y) : v.Match S w := by
  cases h with
  | records left right fields => exact .records left right (fields.imp hRS)
  | pointers left right cells => exact .pointers left right (hRS _ _ cells)
  | scalars primitive equal => exact .scalars primitive equal

theorem symm (h : v.Match R w) : w.Match (fun x y => R y x) v := by
  cases h with
  | records left right fields => exact .records right left fields.flip
  | pointers left right cells => exact .pointers right left cells
  | scalars primitive equal =>
    refine .scalars ?_ (equal_comm v w ▸ equal)
    rwa [← isPrimitive_congr (kind_of_equal equal)]

theorem trans (h : u.Match R v) (h' : v.Match S w) : u.Match (fun x z => ∃ y, R x y ∧ S y z) w := by
  cases h with
  | records left right fields =>
    cases h' with
    | records _ right' fields' => exact .records left right' (forall₂_comp fields fields')
    | pointers left' => cases right.symm.trans left'
    | scalars primitive => simp [isPrimitive, right] at primitive
  | pointers left right cells =>
    cases h' with
    | records left' => cases right.symm.trans left'
    | pointers _ right' cells' => exact .pointers left right' ⟨_, cells, cells'⟩
    | scalars primitive => simp [isPrimitive, right] at primitive
  | scalars primitive equal =>
    have hv := (isPrimitive_congr (kind_of_equal equal)).symm.trans primitive
    cases h' with
    | records left' => simp [isPrimitive, left'] at hv
    | pointers left' => simp [isPrimitive, left'] at hv
    | scalars _ equal' => exact .scalars primitive (equal_trans equal equal')

theorem of_equal (h : v.equal w = true) : v.Match Eq w := by
  have hk := kind_of_equal h
  cases hv : v.kind with
  | record =>
    have hfields : v.fields = w.fields := by simpa [equal, ← hk, hv] using h
    exact .records hv (hk ▸ hv) (hfields ▸ List.forall₂_same.mpr fun _ _ => rfl)
  | pointer => exact .pointers hv (hk ▸ hv) (by simpa [equal, ← hk, hv] using h)
  | _ => exact .scalars (by simp [isPrimitive, hv]) h

end Match

end Value

namespace Heap

open Value (Match)

variable {h : Heap} {seen work : List CellPair}

def Backs (h : Heap) (R : CellId → CellId → Prop) (x y : CellId) : Prop :=
  x = y ∨ ∃ v w, h.load? x = some v ∧ h.load? y = some w ∧ v.Match R w

/-- The heap bears a relation of cells out. -/
def Supports (h : Heap) (R : CellId → CellId → Prop) : Prop := ∀ x y, R x y → h.Backs R x y

theorem match_iff_obligations :
    v.Match R w ↔ ∃ work, obligations? v w = some work ∧ ∀ p ∈ work, R p.1 p.2 := by
  constructor
  · intro hmatch
    cases hmatch with
    | records left right fields =>
      obtain ⟨hlength, hzip⟩ := List.forall₂_iff_zip.mp fields
      exact ⟨v.fields.zip w.fields, by simp [obligations?, left, right, hlength], fun p hp => hzip hp⟩
    | pointers left right cells =>
      exact ⟨[(v.cell, w.cell)], by simp [obligations?, left, right], by simpa using cells⟩
    | scalars primitive equal =>
      refine ⟨[], ?_, by simp⟩
      have hk := Value.kind_of_equal equal
      cases hv : v.kind <;> simp [Value.isPrimitive, hv] at primitive <;> simp [obligations?, ← hk, hv, equal]
  · rintro ⟨work, hwork, hR⟩
    unfold obligations? at hwork
    split at hwork
    · next hk =>
      split at hwork
      · next hv =>
        split at hwork
        · next hlength =>
          cases hwork
          exact .records hv (hk ▸ hv) (List.forall₂_iff_zip.mpr ⟨hlength, fun {a b} hp => hR (a, b) hp⟩)
        · cases hwork
      · next hv =>
        cases hwork
        exact .pointers hv (hk ▸ hv) (hR _ (List.mem_singleton_self _))
      · next hrecord hpointer =>
        split at hwork
        · next hequal => exact .scalars (by simpa [Value.isPrimitive] using ⟨hrecord, hpointer⟩) hequal
        · cases hwork
    · cases hwork

theorem load?_of_lt {x : CellId} (hx : x.toNat < h.cells.size) : h.load? x = some h.cells[x.toNat] :=
  Array.getElem?_eq_getElem hx

theorem Supports.obligations (hR : h.Supports R) {x y : CellId} (hxy : R x y) (hne : x ≠ y) :
    ∃ v w work, h.load? x = some v ∧ h.load? y = some w ∧ obligations? v w = some work ∧ ∀ p ∈ work, R p.1 p.2 := by
  obtain ⟨v, w, hv, hw, hmatch⟩ := (hR x y hxy).resolve_left hne
  obtain ⟨work, hwork, hrelated⟩ := match_iff_obligations.mp hmatch
  exact ⟨v, w, work, hv, hw, hwork, hrelated⟩

theorem pairsEqual_of_supports (hR : h.Supports R) (hwork : ∀ p ∈ work, R p.1 p.2) :
    h.pairsEqual seen work = true := by
  fun_induction pairsEqual h seen work with
  | case1 => rfl
  | case2 seen x y rest _ ih => exact ih (List.forall_mem_cons.mp hwork).2
  | case3 seen x y rest hnew hx hy more hmore ih =>
    obtain ⟨hxy, hrest⟩ := List.forall_mem_cons.mp hwork
    obtain ⟨v, w, obliged, hv, hw, hobliged, hrelated⟩ := hR.obligations hxy fun he => hnew (.inl he)
    cases (load?_of_lt hx).symm.trans hv
    cases (load?_of_lt hy).symm.trans hw
    cases hmore.symm.trans hobliged
    exact ih (List.forall_mem_append.mpr ⟨hrelated, hrest⟩)
  | case4 seen x y rest hnew hx hy hnone =>
    obtain ⟨v, w, obliged, hv, hw, hobliged, _⟩ := hR.obligations (hwork _ List.mem_cons_self) fun he => hnew (.inl he)
    cases (load?_of_lt hx).symm.trans hv
    cases (load?_of_lt hy).symm.trans hw
    cases hnone.symm.trans hobliged
  | case5 seen x y rest hnew hx hy =>
    obtain ⟨_, _, _, _, hw, _⟩ := hR.obligations (hwork _ List.mem_cons_self) fun he => hnew (.inl he)
    exact absurd (lt_of_load? hw) hy
  | case6 seen x y rest hnew hx =>
    obtain ⟨_, _, _, hv, _⟩ := hR.obligations (hwork _ List.mem_cons_self) fun he => hnew (.inl he)
    exact absurd (lt_of_load? hv) hx

def Met (met : List CellPair) (x y : CellId) : Prop := x = y ∨ (x, y) ∈ met

/-- A comparison that finds no difference has met pairs on which all that was asked rests, and which rest on each other
as far as they are new. -/
theorem met_of_pairsEqual (hequal : h.pairsEqual seen work = true) :
    ∃ met, seen ⊆ met ∧ (∀ p ∈ work, Met met p.1 p.2) ∧
      ∀ p ∈ met, p ∈ seen ∨ h.Backs (Met met) p.1 p.2 := by
  fun_induction pairsEqual h seen work with
  | case1 seen => exact ⟨seen, List.Subset.refl _, by simp, fun p hp => .inl hp⟩
  | case2 seen x y rest hold ih =>
    obtain ⟨met, hseen, hrest, hmet⟩ := ih hequal
    exact ⟨met, hseen, List.forall_mem_cons.mpr ⟨hold.imp_right fun hp => hseen hp, hrest⟩, hmet⟩
  | case3 seen x y rest hnew hx hy more hmore ih =>
    obtain ⟨met, hseen, hwork, hmet⟩ := ih hequal
    obtain ⟨hpair, hseen⟩ := List.cons_subset.mp hseen
    obtain ⟨hobliged, hrest⟩ := List.forall_mem_append.mp hwork
    refine ⟨met, hseen, List.forall_mem_cons.mpr ⟨.inr hpair, hrest⟩, fun p hp => ?_⟩
    rcases hmet p hp with hp | hp
    · rcases List.mem_cons.mp hp with rfl | hp
      -- the pair itself rests on what its cells oblige to, which is met by now
      · exact .inr (.inr ⟨_, _, load?_of_lt hx, load?_of_lt hy, match_iff_obligations.mpr ⟨more, hmore, hobliged⟩⟩)
      · exact .inl hp
    · exact .inr hp
  | case4 | case5 | case6 => cases hequal

theorem equal_iff : h.equal v w = true ↔ ∃ R, v.Match R w ∧ h.Supports R := by
  constructor
  · intro hequal
    unfold equal at hequal
    split at hequal
    · next work hwork =>
      obtain ⟨met, _, hall, hmet⟩ := met_of_pairsEqual hequal
      refine ⟨Met met, match_iff_obligations.mpr ⟨work, hwork, hall⟩, ?_⟩
      rintro x y (rfl | hp)
      · exact .inl rfl
      · exact (hmet _ hp).resolve_left List.not_mem_nil
    · cases hequal
  · rintro ⟨R, hmatch, hR⟩
    obtain ⟨work, hwork, hrelated⟩ := match_iff_obligations.mp hmatch
    simp only [equal, hwork]
    exact pairsEqual_of_supports hR hrelated

theorem Backs.mono {x y : CellId} (hxy : h.Backs R x y) (hRS : ∀ x y, R x y → S x y) : h.Backs S x y := by
  rcases hxy with rfl | ⟨v, w, hv, hw, hmatch⟩
  · exact .inl rfl
  · exact .inr ⟨v, w, hv, hw, hmatch.mono hRS⟩

theorem Supports.symm (hR : h.Supports R) : h.Supports fun x y => R y x := by
  intro x y hyx
  rcases hR y x hyx with rfl | ⟨v, w, hv, hw, hmatch⟩
  · exact .inl rfl
  · exact .inr ⟨w, v, hw, hv, hmatch.symm⟩

theorem Supports.trans (hR : h.Supports R) (hS : h.Supports S) :
    h.Supports fun x z => R x z ∨ S x z ∨ ∃ y, R x y ∧ S y z := by
  rintro x z (hxz | hxz | ⟨y, hxy, hyz⟩)
  · exact (hR x z hxz).mono fun _ _ => .inl
  · exact (hS x z hxz).mono fun _ _ h => .inr (.inl h)
  -- a cell that stands for itself joins nothing, so what is put together are two pairs of allocated cells
  · rcases hR x y hxy with rfl | ⟨v, v', hv, hv', hmatch⟩
    · exact (hS x z hyz).mono fun _ _ h => .inr (.inl h)
    · rcases hS y z hyz with rfl | ⟨v'', w, hv'', hw, hmatch'⟩
      · exact (hR x y hxy).mono fun _ _ => .inl
      · cases hv'.symm.trans hv''
        exact .inr ⟨v, w, hv, hw, (hmatch.trans hmatch').mono fun _ _ h => .inr (.inr h)⟩

theorem equal_of_value_equal (hequal : v.equal w = true) : h.equal v w = true :=
  equal_iff.mpr ⟨Eq, .of_equal hequal, fun _ _ => .inl⟩

theorem equal_symm (hequal : h.equal v w = true) : h.equal w v = true := by
  obtain ⟨R, hmatch, hR⟩ := equal_iff.mp hequal
  exact equal_iff.mpr ⟨_, hmatch.symm, hR.symm⟩

theorem equal_trans (hequal : h.equal u v = true) (hequal' : h.equal v w = true) : h.equal u w = true := by
  obtain ⟨R, hmatch, hR⟩ := equal_iff.mp hequal
  obtain ⟨S, hmatch', hS⟩ := equal_iff.mp hequal'
  exact equal_iff.mpr ⟨_, (hmatch.trans hmatch').mono fun _ _ h => .inr (.inr h), hR.trans hS⟩

/-- The comparison of values decides whether a supported relation holds them together. On values of the defined kinds
it is an equivalence, also if cells that they reach hold other values, and it extends the equality of payloads. -/
theorem equal_decides (h : Heap) :
    (∀ v w, h.equal v w = true ↔ ∃ R, v.Match R w ∧ h.Supports R) ∧
      Equivalence (fun v w : { v : Value // v.kind.isDefined = true } => h.equal v.1 w.1 = true) ∧
        ∀ v w, v.equal w = true → h.equal v w = true := by
  refine ⟨fun v w => equal_iff, ⟨?_, equal_symm, equal_trans⟩, fun v w => equal_of_value_equal⟩
  intro v
  exact equal_of_value_equal (Value.equal_self v.2)

example : (⟨#[.pointer 0, .pointer 2, .pointer 1]⟩ : Heap).equal (.pointer 0) (.pointer 1) = true := by
  refine equal_iff.mpr ⟨fun x y => x = 0 ∧ (y = 1 ∨ y = 2), .pointers rfl rfl ⟨rfl, .inl rfl⟩, ?_⟩
  rintro x y ⟨rfl, rfl | rfl⟩
  · exact .inr ⟨_, _, rfl, rfl, .pointers rfl rfl ⟨rfl, .inr rfl⟩⟩
  · exact .inr ⟨_, _, rfl, rfl, .pointers rfl rfl ⟨rfl, .inl rfl⟩⟩

end Heap

end HotLoop
