import HotLoop.Proofs.Cache

namespace HotLoop

section

variable {α β : Type} {bound : Int64} {xs : List α}

def latest (bound : Int64) (xs : List α) : List α :=
  if 0 < bound then xs.drop (xs.length - bound.toNatClampNeg) else xs

theorem map_latest (f : α → β) (bound : Int64) (xs : List α) : (latest bound xs).map f = latest bound (xs.map f) := by
  unfold latest
  split <;> simp

theorem latest_sublist (bound : Int64) (xs : List α) : (latest bound xs).Sublist xs := by
  unfold latest
  split
  · exact List.drop_sublist _ _
  · exact List.Sublist.refl _

theorem exists_append_latest (bound : Int64) (xs : List α) : ∃ front, xs = front ++ latest bound xs := by
  unfold latest
  split
  · exact ⟨_, (List.take_append_drop _ xs).symm⟩
  · exact ⟨[], rfl⟩

theorem length_latest_le (h : 0 < bound) (xs : List α) : (latest bound xs).length ≤ bound.toNatClampNeg := by
  simp only [latest, h, if_true, List.length_drop]
  omega

theorem latest_latest_append (bound : Int64) (xs : List α) (x : α) :
    latest bound (latest bound xs ++ [x]) = latest bound (xs ++ [x]) := by
  unfold latest
  split
  · have hdrop : xs.drop (xs.length - bound.toNatClampNeg) ++ [x] =
        (xs ++ [x]).drop (xs.length - bound.toNatClampNeg) := (List.drop_append_of_le_length (by omega)).symm
    rw [hdrop, List.drop_drop]
    congr 1
    simp only [List.length_drop, List.length_append, List.length_singleton]
    omega
  · rfl

theorem latest_of_length_le {bound : Int64} {xs : List α}
    (h : 0 < bound → xs.length ≤ bound.toNatClampNeg) : latest bound xs = xs := by
  unfold latest
  split
  · next hb => rw [Nat.sub_eq_zero_of_le (h hb), List.drop_zero]
  · rfl

theorem mem_latest_concat (bound : Int64) (xs : List α) (x : α) : x ∈ latest bound (xs ++ [x]) := by
  unfold latest
  split
  · next hpos =>
    have hbound : 0 < bound.toInt := Int64.lt_iff_toInt_lt.mp hpos
    have hroom : 0 < bound.toNatClampNeg := by
      unfold Int64.toNatClampNeg
      omega
    rw [List.length_append, List.length_singleton, List.drop_append_of_le_length (by omega)]
    exact List.mem_append_right _ (List.mem_singleton_self x)
  · exact List.mem_append_right xs (List.mem_singleton_self x)

theorem mem_latest_append (hxs : 0 < bound → xs.length ≤ bound.toNatClampNeg) {x y : α} (hx : x ∈ xs) :
    x ∈ latest bound (xs ++ [y]) ∨
      0 < bound ∧ xs.length = bound.toNatClampNeg ∧ xs.head? = some x := by
  by_cases hb : 0 < bound
  · have hle := hxs hb
    obtain ⟨first, rest, rfl⟩ := List.exists_cons_of_ne_nil (List.ne_nil_of_mem hx)
    by_cases hfull : (first :: rest).length = bound.toNatClampNeg
    · rcases List.mem_cons.mp hx with rfl | hx
      · exact .inr ⟨hb, hfull, rfl⟩
      · have hdrop : (first :: rest ++ [y]).length - bound.toNatClampNeg = 1 := by
          simp only [List.length_append, List.length_singleton]
          omega
        left
        rw [latest, if_pos hb, hdrop]
        exact List.mem_append_left [y] hx
    · have hdrop : (first :: rest ++ [y]).length - bound.toNatClampNeg = 0 := by
        simp only [List.length_append, List.length_singleton]
        omega
      left
      rw [latest, if_pos hb, hdrop]
      exact List.mem_append_left [y] hx
  · left
    simp [latest, hb, hx]

end

namespace Cache

variable {c : Cache} {t : Trace} {bound : Int64} {key : LoopKey} {order : List LoopKey}
  {table : Std.HashMap LoopKey Trace}

theorem get?_eq_none (c : Cache) (key : LoopKey) : c.get? key = none ↔ key ∉ c.table := by
  rw [get?, Std.HashMap.mem_iff_isSome_getElem?]
  simp

structure Ordered (c : Cache) : Prop where
  nodup : c.order.Nodup
  mem_iff : ∀ key, key ∈ c.order ↔ key ∈ c.table

namespace Ordered

theorem empty : Ordered {} := ⟨List.nodup_nil, by simp⟩

theorem size_eq (h : c.Ordered) : c.table.size = c.order.length := by
  have hkeys : c.order.Perm c.table.keys := by
    apply (List.perm_ext_iff_of_nodup h.nodup Std.HashMap.nodup_keys).mpr
    intro key
    rw [h.mem_iff, Std.HashMap.mem_keys]
  rw [← Std.HashMap.length_keys, hkeys.length_eq]

theorem mem_of_get? (h : c.Ordered) (hget : c.get? key = some t) : key ∈ c.order := by
  rw [h.mem_iff, Std.HashMap.mem_iff_isSome_getElem?]
  exact Option.isSome_of_eq_some hget

theorem exists_get? (h : c.Ordered) (hkey : key ∈ c.order) : ∃ t, c.get? key = some t :=
  Option.isSome_iff_exists.mp (Std.HashMap.mem_iff_isSome_getElem?.mp ((h.mem_iff key).mp hkey))

theorem get?_of_not_mem (h : c.Ordered) (hkey : key ∉ c.order) : c.get? key = none := by
  rwa [get?_eq_none, ← h.mem_iff]

theorem tail (h : Ordered ⟨key :: order, table⟩) : Ordered ⟨order, table.erase key⟩ := by
  obtain ⟨hkey, hrest⟩ := List.nodup_cons.mp h.nodup
  refine ⟨hrest, fun k => ?_⟩
  have hk : k ∈ key :: order ↔ k ∈ table := h.mem_iff k
  rw [Std.HashMap.mem_erase, ← hk]
  constructor
  · intro hmem
    have hne : key ≠ k := by
      rintro rfl
      exact hkey hmem
    exact ⟨by simpa using hne, List.mem_cons_of_mem key hmem⟩
  · rintro ⟨hne, hmem⟩
    rcases List.mem_cons.mp hmem with rfl | hmem
    · simp at hne
    · exact hmem

theorem dropTo (h : Ordered ⟨order, table⟩) (n : Nat) :
    (Cache.dropTo n order table).1.order = order.drop (order.length - n) ∧
      (Cache.dropTo n order table).2 = order.length - n ∧
        ∀ key, (Cache.dropTo n order table).1.get? key =
          if key ∈ order.drop (order.length - n) then table[key]? else none := by
  induction order generalizing table with
  | nil =>
    refine ⟨List.drop_nil.symm, (Nat.zero_sub n).symm, fun key => ?_⟩
    exact (h.get?_of_not_mem List.not_mem_nil).trans (by simp)
  | cons first rest ih =>
    have hsize : table.size = rest.length + 1 := h.size_eq
    unfold Cache.dropTo
    by_cases hlt : n < table.size
    · obtain ⟨horder, hcount, hget⟩ := ih h.tail
      have hdrop : (first :: rest).length - n = (rest.length - n) + 1 := by
        simp only [List.length_cons]
        omega
      rw [hdrop, List.drop_succ_cons, if_pos hlt]
      refine ⟨horder, congrArg (· + 1) hcount, fun key => ?_⟩
      rw [hget]
      split
      · rename_i hmem
        have hne : first ≠ key := by
          rintro rfl
          exact (List.nodup_cons.mp h.nodup).1 (List.mem_of_mem_drop hmem)
        rw [Std.HashMap.getElem?_erase, if_neg (by simpa using hne)]
      · rfl
    · have hdrop : (first :: rest).length - n = 0 := by
        simp only [List.length_cons]
        omega
      rw [hdrop, List.drop_zero, if_neg hlt]
      refine ⟨rfl, rfl, fun key => ?_⟩
      split
      · rfl
      · rename_i hmem
        exact h.get?_of_not_mem hmem

theorem trim (h : c.Ordered) (bound : Int64) :
    (Cache.trim bound c).1.order = latest bound c.order ∧
      (Cache.trim bound c).2 = c.order.length - (latest bound c.order).length ∧
        ∀ key, (Cache.trim bound c).1.get? key = if key ∈ latest bound c.order then c.get? key else none := by
  unfold Cache.trim latest
  split
  · obtain ⟨horder, hcount, hget⟩ := h.dropTo bound.toNatClampNeg
    refine ⟨horder, ?_, hget⟩
    rw [hcount, List.length_drop]
    omega
  · refine ⟨rfl, (Nat.sub_self _).symm, fun key => ?_⟩
    split
    · rfl
    · rename_i hmem
      exact h.get?_of_not_mem hmem

end Ordered

def added (c : Cache) (t : Trace) : Cache :=
  ⟨if c.table.contains t.key then c.order else c.order ++ [t.key], c.table.insert t.key t⟩

theorem insert_eq (bound : Int64) (c : Cache) (t : Trace) : c.insert bound t = trim bound (c.added t) := rfl

theorem get?_added (c : Cache) (t : Trace) (key : LoopKey) :
    (c.added t).get? key = if key = t.key then some t else c.get? key := by
  rw [get?, added, Std.HashMap.getElem?_insert]
  by_cases h : t.key = key
  · simp [h]
  · simp [h, Ne.symm h, get?]

theorem order_added (h : c.get? t.key = none) : (c.added t).order = c.order ++ [t.key] := by
  have hnot : t.key ∉ c.table := (get?_eq_none c t.key).mp h
  simp [added, hnot]

theorem order_added_of_cached (h : c.get? t.key ≠ none) : (c.added t).order = c.order := by
  have hkey : t.key ∈ c.table := by simpa [get?_eq_none] using h
  simp [added, hkey]

namespace Ordered

theorem added (h : c.Ordered) (t : Trace) : (c.added t).Ordered := by
  have hmem : ∀ key, key ∈ (c.added t).table ↔ key = t.key ∨ key ∈ c.order := by
    intro key
    rw [Cache.added, Std.HashMap.mem_insert, ← h.mem_iff, beq_iff_eq]
    exact or_congr_left eq_comm
  by_cases hkey : t.key ∈ c.order
  · have horder : (c.added t).order = c.order := by simp [Cache.added, (h.mem_iff t.key).mp hkey]
    refine ⟨horder ▸ h.nodup, fun key => ?_⟩
    rw [horder, hmem]
    constructor
    · exact .inr
    · rintro (rfl | hmem)
      · exact hkey
      · exact hmem
  · have horder := order_added (h.get?_of_not_mem hkey)
    refine ⟨?_, fun key => ?_⟩
    · rw [horder, List.nodup_append]
      refine ⟨h.nodup, by simp, ?_⟩
      rintro a ha b hb rfl
      exact hkey (List.mem_singleton.mp hb ▸ ha)
    · rw [horder, hmem, List.mem_append, List.mem_singleton]
      exact or_comm

theorem of_get? {order' : List LoopKey} {d : Cache} (h : c.Ordered) (hsub : order'.Sublist c.order)
    (horder : d.order = order') (hget : ∀ key, d.get? key = if key ∈ order' then c.get? key else none) :
    d.Ordered := by
  refine ⟨horder ▸ hsub.nodup h.nodup, fun key => ?_⟩
  rw [horder, Std.HashMap.mem_iff_isSome_getElem?]
  change _ ↔ (d.get? key).isSome = true
  rw [hget]
  constructor
  · intro hmem
    rw [if_pos hmem]
    exact Std.HashMap.mem_iff_isSome_getElem?.mp ((h.mem_iff key).mp (hsub.mem hmem))
  · intro hsome
    by_cases hmem : key ∈ order'
    · exact hmem
    · simp [hmem] at hsome

theorem insert (h : c.Ordered) (bound : Int64) (t : Trace) : (c.insert bound t).1.Ordered := by
  obtain ⟨horder, _, hget⟩ := (h.added t).trim bound
  exact (h.added t).of_get? (latest_sublist _ _) horder hget

theorem length_insert_le (h : c.Ordered) (hb : 0 < bound) (t : Trace) :
    (c.insert bound t).1.order.length ≤ bound.toNatClampNeg := by
  obtain ⟨horder, _⟩ := (h.added t).trim bound
  rw [insert_eq, horder]
  exact length_latest_le hb _

theorem map_traces (h : c.Ordered) : c.traces.map some = c.order.map c.get? := by
  have hall : ∀ key ∈ c.order, ∃ t, c.get? key = some t := fun key hkey => h.exists_get? hkey
  unfold traces
  generalize c.order = order at hall
  induction order with
  | nil => rfl
  | cons key rest ih =>
    obtain ⟨⟨t, ht⟩, hrest⟩ := List.forall_mem_cons.mp hall
    rw [List.filterMap_cons_some ht, List.map_cons, List.map_cons, ih hrest, ht]

theorem map_key_traces (h : c.Ordered) (hkeys : ∀ key t, c.get? key = some t → t.key = key) :
    c.traces.map Trace.key = c.order := by
  apply (List.map_inj_right fun _ _ => Option.some.inj).mp
  calc (c.traces.map Trace.key).map some
    _ = (c.traces.map some).map (Option.map Trace.key) := by simp
    _ = c.order.map fun key => (c.get? key).map Trace.key := by rw [h.map_traces, List.map_map]; rfl
    _ = c.order.map some := by
      apply List.map_congr_left
      intro key hkey
      obtain ⟨t, ht⟩ := h.exists_get? hkey
      rw [ht, Option.map_some, hkeys key t ht]

theorem traces_insert (h : c.Ordered) (hnew : c.get? t.key = none) (bound : Int64) :
    (c.insert bound t).1.traces = latest bound (c.traces ++ [t]) := by
  obtain ⟨horder, _, hget⟩ := (h.added t).trim bound
  have hkept : (latest bound (c.added t).order).map (Cache.trim bound (c.added t)).1.get? =
      (latest bound (c.added t).order).map (c.added t).get? := by
    apply List.map_congr_left
    intro key hkey
    rw [hget, if_pos hkey]
  have hbefore : c.order.map (c.added t).get? = c.order.map c.get? := by
    apply List.map_congr_left
    intro key hkey
    rw [get?_added, if_neg]
    rintro rfl
    exact (get?_eq_none c t.key).mp hnew ((h.mem_iff t.key).mp hkey)
  apply (List.map_inj_right fun _ _ => Option.some.inj).mp
  calc (c.insert bound t).1.traces.map some
    _ = (latest bound (c.added t).order).map (Cache.trim bound (c.added t)).1.get? := by
      rw [(h.insert bound t).map_traces, insert_eq, horder]
    _ = latest bound ((c.traces ++ [t]).map some) := by
      rw [hkept, map_latest, order_added hnew, List.map_append, hbefore, List.map_append, h.map_traces]
      simp [get?_added]
    _ = (latest bound (c.traces ++ [t])).map some := (map_latest some bound _).symm

theorem get?_insert_of_some (h : c.Ordered) (hsize : 0 < bound → c.order.length ≤ bound.toNatClampNeg)
    (hnew : c.get? t.key = none) {u : Trace} (hget : c.get? key = some u) :
    (c.insert bound t).1.get? key = some u ∨
      0 < bound ∧ c.order.length = bound.toNatClampNeg ∧ c.order.head? = some key ∧ (c.insert bound t).2 = 1 := by
  obtain ⟨_, hcount, hafter⟩ := (h.added t).trim bound
  have hne : key ≠ t.key := by
    rintro rfl
    cases hnew.symm.trans hget
  rw [order_added hnew] at hcount hafter
  rcases mem_latest_append (y := t.key) hsize (h.mem_of_get? hget) with hmem | ⟨hb, hfull, hhead⟩
  · left
    rw [insert_eq, hafter, if_pos hmem, get?_added, if_neg hne, hget]
  · refine .inr ⟨hb, hfull, hhead, ?_⟩
    rw [insert_eq, hcount]
    simp only [latest, hb, if_true, List.length_drop, List.length_append, List.length_singleton]
    have hpos : 0 < c.order.length := List.length_pos_of_mem (h.mem_of_get? hget)
    omega

theorem get?_insert_self (h : c.Ordered) (hsize : 0 < bound → c.order.length ≤ bound.toNatClampNeg) :
    (c.insert bound t).1.get? t.key = some t := by
  obtain ⟨_, _, hget⟩ := (h.added t).trim bound
  have hlast : t.key ∈ latest bound (c.added t).order := by
    by_cases hnew : c.get? t.key = none
    · rw [order_added hnew]
      exact mem_latest_concat bound c.order t.key
    · obtain ⟨u, hu⟩ := Option.ne_none_iff_exists'.mp hnew
      rw [order_added_of_cached hnew, latest_of_length_le hsize]
      exact h.mem_of_get? hu
  rw [insert_eq, hget, if_pos hlast, get?_added, if_pos rfl]

theorem get?_insert_cases (h : c.Ordered) {u : Trace} (hget : (c.insert bound t).1.get? key = some u) :
    key = t.key ∧ u = t ∨ c.get? key = some u := by
  obtain ⟨_, _, hafter⟩ := (h.added t).trim bound
  rw [insert_eq, hafter] at hget
  split at hget
  · rw [get?_added] at hget
    split at hget
    · next hkey =>
      cases hget
      exact .inl ⟨hkey, rfl⟩
    · exact .inr hget
  · cases hget

end Ordered

end Cache

end HotLoop
