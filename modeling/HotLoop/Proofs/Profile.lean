import HotLoop.Trace.Profile

/-!
The profiler. A visit changes the counts of the visited loop only, and a reset leaves the lifetime totals alone, so that
the total of a loop is the number of its visits.

The totals are kept in a table that lists them in no particular order, and the loops asked for are chosen one after the
other, each time the best of those that are left. What comes out is the front of the one list of the visited loops that
is sorted by their totals, the larger first, and by their keys where totals are equal. The order of the listing plays no
part in it.
-/

namespace HotLoop.Profiler

variable {p : Profiler} {key key' : LoopKey} {visited keys keys' : List LoopKey} {a b c : LoopKey × UInt64}
  {totals totals' : List (LoopKey × UInt64)}

theorem profile?_fresh (threshold : UInt64) (key : LoopKey) : ({ threshold } : Profiler).profile? key = none :=
  Std.HashMap.getElem?_empty

theorem count_fresh (threshold : UInt64) (key : LoopKey) : ({ threshold } : Profiler).count key = 0 := by
  rw [count, profile?_fresh]
  rfl

theorem visits_eq (p : Profiler) (key : LoopKey) : ((p.profile? key).getD {}).visits = p.count key := by
  unfold count
  cases p.profile? key <;> rfl

theorem visit_fst (p : Profiler) (key : LoopKey) : (p.visit key).1 = decide (p.threshold < p.count key + 1) := by
  rw [← visits_eq]
  rfl

theorem profile?_visit_of_ne (h : key' ≠ key) : (p.visit key).2.profile? key' = p.profile? key' := by
  simp only [profile?, visit]
  rw [Std.HashMap.getElem?_insert, if_neg (by simpa using Ne.symm h)]

theorem count_visit (p : Profiler) (visited key : LoopKey) :
    (p.visit visited).2.count key = if key = visited then p.count key + 1 else p.count key := by
  by_cases hkey : key = visited
  · subst hkey
    rw [if_pos rfl, ← visits_eq p]
    simp only [count, profile?, visit, Std.HashMap.getElem?_insert_self]
    rfl
  · rw [if_neg hkey, count, profile?_visit_of_ne hkey, count]

theorem profile?_reset (p : Profiler) (key : LoopKey) :
    p.reset.profile? key = (p.profile? key).map fun profile => { profile with visits := 0 } := by
  simp only [profile?, reset, Std.HashMap.getElem?_map]

theorem count_reset (p : Profiler) (key : LoopKey) : p.reset.count key = 0 := by
  rw [count, profile?_reset]
  cases p.profile? key <;> rfl

theorem visit_hot (hthreshold : p.threshold = 0) (hcount : p.count key = 0) : (p.visit key).1 = true := by
  rw [visit_fst, hthreshold, hcount]
  decide

theorem visit_first (key : LoopKey) : (Profiler.visit { threshold := 0 } key).1 = true :=
  visit_hot rfl (count_fresh 0 key)

theorem visit_reset (h : p.threshold = 0) (key : LoopKey) : (p.reset.visit key).1 = true :=
  visit_hot h (count_reset p key)

def total? (p : Profiler) (key : LoopKey) : Option UInt64 := (p.profile? key).map Profile.total

def total (p : Profiler) (key : LoopKey) : UInt64 := (p.total? key).getD 0

theorem total?_visit (p : Profiler) (visited key : LoopKey) :
    (p.visit visited).2.total? key = if key = visited then some (p.total key + 1) else p.total? key := by
  by_cases hkey : key = visited
  · subst hkey
    simp only [total?, total, profile?, visit, Std.HashMap.getElem?_insert_self, Option.map_some, if_true]
    cases p.profiles[key]? <;> rfl
  · rw [if_neg hkey, total?, profile?_visit_of_ne hkey, total?]

theorem total?_reset (p : Profiler) (key : LoopKey) : p.reset.total? key = p.total? key := by
  rw [total?, profile?_reset, Option.map_map]
  rfl

/-- A profiler after visits to loops, the latest first, with resets and other thresholds in between. -/
inductive Counted : List LoopKey → Profiler → Prop
  | fresh (threshold : UInt64) : Counted [] { threshold }
  | visit {visited : List LoopKey} {p : Profiler} (before : Counted visited p) (key : LoopKey) :
    Counted (key :: visited) (p.visit key).2
  | reset {visited : List LoopKey} {p : Profiler} (before : Counted visited p) : Counted visited p.reset
  | threshold {visited : List LoopKey} {p : Profiler} (before : Counted visited p) (threshold : UInt64) :
    Counted visited { p with threshold }

theorem Counted.total?_eq_none (h : Counted visited p) (key : LoopKey) : p.total? key = none ↔ key ∉ visited := by
  induction h with
  | fresh threshold => simp [total?, profile?_fresh]
  | visit before latest ih =>
    rw [total?_visit, List.mem_cons, not_or, ← ih]
    by_cases hkey : key = latest <;> simp [hkey]
  | reset before ih => rw [total?_reset, ih]
  | threshold before threshold ih => exact ih

theorem Counted.total_eq (h : Counted visited p) (key : LoopKey) : p.total key = UInt64.ofNat (visited.count key) := by
  induction h with
  | fresh threshold =>
    rw [total, total?, profile?_fresh]
    rfl
  | visit before latest ih =>
    rw [total, total?_visit, List.count_cons]
    by_cases hkey : key = latest
    · subst hkey
      simp [← ih]
    · simp [hkey, Ne.symm hkey, ← ih, total]
  | reset before ih => rw [total, total?_reset, ← total, ih]
  | threshold before threshold ih => exact ih

theorem Counted.total?_eq_some (h : Counted visited p) {n : UInt64} :
    p.total? key = some n ↔ key ∈ visited ∧ UInt64.ofNat (visited.count key) = n := by
  have hnone := h.total?_eq_none key
  rw [← h.total_eq, total]
  cases htotal : p.total? key with
  | none => simp [hnone.mp htotal]
  | some m =>
    rw [htotal] at hnone
    have hmem : key ∈ visited := by simpa using hnone
    simp [hmem]

structure Lists (p : Profiler) (totals : List (LoopKey × UInt64)) : Prop where
  once : (totals.map Prod.fst).Nodup
  mem : ∀ key total, (key, total) ∈ totals ↔ p.total? key = some total

def Outranks (p : Profiler) (key key' : LoopKey) : Prop :=
  p.total key' < p.total key ∨ p.total key = p.total key' ∧ key < key'

structure Sorts (p : Profiler) (keys : List LoopKey) : Prop where
  mem : ∀ key, key ∈ keys ↔ p.total? key ≠ none
  sorted : keys.Pairwise p.Outranks

theorem ranksBefore_iff :
    ranksBefore a b = true ↔ b.2.toNat < a.2.toNat ∨ a.2.toNat = b.2.toNat ∧ a.1.toNat < b.1.toNat := by
  simp [ranksBefore, UInt64.lt_iff_toNat_lt, UInt64.toNat_inj]

theorem not_ranksBefore_self (a : LoopKey × UInt64) : ¬ranksBefore a a = true := by
  rw [ranksBefore_iff]
  omega

theorem not_ranksBefore_trans (hab : ¬ranksBefore a b = true) (hbc : ¬ranksBefore b c = true) :
    ¬ranksBefore a c = true := by
  rw [ranksBefore_iff] at *
  omega

theorem not_ranksBefore_of_ranksBefore (h : ranksBefore a b = true) : ¬ranksBefore b a = true := by
  rw [ranksBefore_iff] at *
  omega

theorem ranksBefore_of_ne (hkey : a.1 ≠ b.1) (h : ¬ranksBefore b a = true) : ranksBefore a b = true := by
  rw [ne_eq, ← UInt64.toNat_inj] at hkey
  rw [ranksBefore_iff] at *
  omega

section Selection

variable {all : Array (LoopKey × UInt64)} {i k : Nat}

theorem foldl_better_mem (all : Array (LoopKey × UInt64)) (best : Nat) (js : List Nat) :
    js.foldl (better all) best ∈ best :: js := by
  induction js generalizing best with
  | nil => exact List.mem_singleton_self best
  | cons j js ih =>
    rw [List.foldl_cons, better]
    split
    · exact List.mem_cons_of_mem _ (ih j)
    · rcases List.mem_cons.mp (ih best) with h | h
      · rw [h]
        exact List.mem_cons_self
      · exact List.mem_cons_of_mem _ (List.mem_cons_of_mem _ h)

theorem not_ranksBefore_foldl_better (all : Array (LoopKey × UInt64)) (best : Nat) (js : List Nat) :
    ∀ j ∈ best :: js, ¬ranksBefore all[j]! all[js.foldl (better all) best]! = true := by
  induction js generalizing best with
  | nil =>
    intro j hj
    obtain rfl := List.mem_singleton.mp hj
    exact not_ranksBefore_self _
  | cons k js ih =>
    simp only [List.foldl_cons, better, List.forall_mem_cons] at ih ⊢
    split
    · rename_i hk
      obtain ⟨hfirst, hrest⟩ := ih k
      exact ⟨not_ranksBefore_trans (not_ranksBefore_of_ranksBefore hk) hfirst, hfirst, hrest⟩
    · rename_i hk
      obtain ⟨hfirst, hrest⟩ := ih best
      exact ⟨hfirst, not_ranksBefore_trans hk hfirst, hrest⟩

theorem mem_candidates : k ∈ i :: List.range' (i + 1) (all.size - (i + 1)) ↔ k = i ∨ i < k ∧ k < all.size := by
  rw [List.mem_cons, List.mem_range'_1]
  omega

theorem bestFrom_bounds (hi : i < all.size) : i ≤ bestFrom all i ∧ bestFrom all i < all.size := by
  have hmem := foldl_better_mem all i (List.range' (i + 1) (all.size - (i + 1)))
  rw [mem_candidates, ← bestFrom] at hmem
  omega

theorem not_ranksBefore_bestFrom (hik : i ≤ k) (hk : k < all.size) :
    ¬ranksBefore all[k]! all[bestFrom all i]! = true := by
  apply not_ranksBefore_foldl_better
  rw [mem_candidates]
  omega

theorem select_eq_swap (hi : i < all.size) :
    select all i = all.swap i (bestFrom all i) hi (bestFrom_bounds hi).2 := by
  simp [select, Array.swapIfInBounds, hi, (bestFrom_bounds hi).2]

theorem getElem!_select (hi : i < all.size) (hk : k < all.size) :
    (select all i)[k]! = if k = i then all[bestFrom all i]! else if k = bestFrom all i then all[i]! else all[k]! := by
  obtain ⟨_, hbest⟩ := bestFrom_bounds hi
  have hk' : k < (all.swap i (bestFrom all i)).size := by simpa using hk
  rw [select_eq_swap hi, getElem!_pos (all.swap i (bestFrom all i)) k hk', Array.getElem_swap,
    getElem!_pos all k hk, getElem!_pos all i hi, getElem!_pos all _ hbest]

/-- After `i` rounds, what stands in the first `i` places ranks before all that comes after it. -/
structure Selected (totals : List (LoopKey × UInt64)) (i : Nat) (all : Array (LoopKey × UInt64)) : Prop where
  perm : all.toList.Perm totals
  before : ∀ j k, j < i → j < k → k < all.size → ranksBefore all[j]! all[k]! = true

theorem Selected.size_eq (h : Selected totals i all) : all.size = totals.length := h.perm.length_eq

theorem Selected.key_ne (h : Selected totals i all) (hnodup : (totals.map Prod.fst).Nodup) {j : Nat} (hj : j < all.size)
    (hk : k < all.size) (hne : j ≠ k) : all[j]!.1 ≠ all[k]!.1 := by
  have hkeys := List.pairwise_map.mp ((h.perm.map Prod.fst).nodup_iff.mpr hnodup)
  have hpairwise := List.pairwise_iff_getElem.mp hkeys
  rw [getElem!_pos all j hj, getElem!_pos all k hk]
  rcases Nat.lt_or_gt_of_ne hne with hlt | hlt
  · exact hpairwise j k hj hk hlt
  · exact (hpairwise k j hk hj hlt).symm

theorem Selected.select (h : Selected totals i all) (hnodup : (totals.map Prod.fst).Nodup) (hi : i < all.size) :
    Selected totals (i + 1) (select all i) := by
  obtain ⟨hle, hbest⟩ := bestFrom_bounds hi
  have hsize : (Profiler.select all i).size = all.size := Array.size_swapIfInBounds
  constructor
  · rw [select_eq_swap hi]
    exact (Array.swap_perm hi hbest).toList.trans h.perm
  · intro j k hj hjk hk
    rw [hsize] at hk
    rw [getElem!_select (k := j) hi (by omega), getElem!_select hi hk]
    by_cases hji : j = i
    · -- the entry chosen in this round, before one of those that are left
      rw [if_pos hji, if_neg (show ¬k = i by omega)]
      split
      · exact ranksBefore_of_ne (h.key_ne hnodup hbest hi (by omega)) (not_ranksBefore_bestFrom (Nat.le_refl i) hi)
      · exact ranksBefore_of_ne (h.key_ne hnodup hbest hk (by omega)) (not_ranksBefore_bestFrom (by omega) hk)
    · rw [if_neg hji, if_neg (show ¬j = bestFrom all i by omega)]
      split
      · exact h.before j _ (by omega) (by omega) hbest
      · split
        · exact h.before j i (by omega) (by omega) hi
        · exact h.before j k (by omega) hjk hk

theorem selected_foldl (hnodup : (totals.map Prod.fst).Nodup) (n : Nat) (hn : n ≤ totals.length) :
    Selected totals n ((List.range n).foldl select totals.toArray) := by
  induction n with
  | zero => exact ⟨.refl _, by simp⟩
  | succ n ih =>
    have hbefore := ih (by omega)
    rw [List.range_succ, List.foldl_append]
    exact hbefore.select hnodup (by rw [hbefore.size_eq]; omega)

theorem Selected.pairwise (h : Selected totals i all) :
    (all.toList.take i).Pairwise (fun a b => ranksBefore a b = true) ∧
      ∀ a ∈ all.toList.take i, ∀ b ∈ all.toList.drop i, ranksBefore a b = true := by
  have hbefore : ∀ j k (hk : k < all.size) (hjk : j < k), j < i → ranksBefore all[j] all[k] = true := by
    intro j k hk hjk hj
    have := h.before j k hj hjk hk
    rwa [getElem!_pos all j (by omega), getElem!_pos all k hk] at this
  constructor
  · rw [List.pairwise_iff_getElem]
    intro j k hj hk hjk
    simp only [List.length_take, Array.length_toList] at hj hk
    simpa using hbefore j k (by omega) hjk (by omega)
  · intro a ha b hb
    obtain ⟨j, hj, rfl⟩ := List.mem_take_iff_getElem.mp ha
    obtain ⟨k, hk, rfl⟩ := List.mem_drop_iff_getElem.mp hb
    simp only [Array.length_toList] at hj hk
    exact hbefore j (i + k) (by omega) (by omega) (by omega)

theorem exists_sorted (hnodup : (totals.map Prod.fst).Nodup) :
    ∃ sorted : List (LoopKey × UInt64), sorted.Perm totals ∧ sorted.Pairwise (fun a b => ranksBefore a b = true) := by
  have h := selected_foldl hnodup totals.length (Nat.le_refl _)
  refine ⟨_, h.perm, ?_⟩
  have hpairwise := h.pairwise.1
  rwa [List.take_of_length_le (Nat.le_of_eq h.size_eq)] at hpairwise

theorem ranking_eq_take (hnodup : (totals.map Prod.fst).Nodup) {sorted : List (LoopKey × UInt64)}
    (hperm : sorted.Perm totals) (hsorted : sorted.Pairwise (fun a b => ranksBefore a b = true)) (n : Nat) :
    ranking n totals = (sorted.take n).map Prod.fst := by
  have h := selected_foldl hnodup (min n totals.length) (Nat.min_le_right _ _)
  rw [ranking]
  generalize (List.range (min n totals.length)).foldl select totals.toArray = all at h
  obtain ⟨hfront, hcross⟩ := h.pairwise
  have hsplit := List.take_append_drop (min n totals.length) all.toList
  have hrest : ((all.toList.drop (min n totals.length)).map Prod.fst).Nodup := by
    refine List.Nodup.sublist ?_ ((h.perm.map Prod.fst).nodup_iff.mpr hnodup)
    exact (List.drop_sublist _ _).map Prod.fst
  -- the rounds leave the back of the array unsorted; sorting it as well makes the array the one sorted list
  obtain ⟨back, hback, hbackSorted⟩ := exists_sorted hrest
  have heq : sorted = all.toList.take (min n totals.length) ++ back := by
    refine List.Perm.eq_of_pairwise (fun _ _ _ _ hab hba => absurd hba (not_ranksBefore_of_ranksBefore hab)) hsorted
      (List.pairwise_append.mpr ⟨hfront, hbackSorted, fun a ha b hb => hcross a ha b (hback.mem_iff.mp hb)⟩) ?_
    have hsame := hback.append_left (all.toList.take (min n totals.length))
    rw [hsplit] at hsame
    exact hperm.trans (h.perm.symm.trans hsame.symm)
  have hlength : (all.toList.take (min n totals.length)).length = min n totals.length := by
    rw [List.length_take, h.perm.length_eq]
    omega
  have hall : all.toList.take n = all.toList.take (min n totals.length) := by
    rw [List.take_eq_take_min, h.perm.length_eq]
  have htake : sorted.take n = sorted.take (min n totals.length) := by
    rw [List.take_eq_take_min, hperm.length_eq]
  rw [hall, htake, heq, List.take_left' hlength]

end Selection

theorem Lists.nodup (h : p.Lists totals) : totals.Nodup :=
  List.Pairwise.of_map Prod.fst (fun _ _ hne heq => hne (congrArg Prod.fst heq)) h.once

theorem Lists.perm (h : p.Lists totals) (h' : p.Lists totals') : totals.Perm totals' := by
  refine (List.perm_ext_iff_of_nodup h.nodup h'.nodup).mpr ?_
  rintro ⟨key, total⟩
  rw [h.mem, h'.mem]

theorem lists_totals (p : Profiler) : p.Lists p.totals := by
  constructor
  · have hkeys : p.totals.map Prod.fst = p.profiles.keys := by
      rw [totals, List.map_map, ← Std.HashMap.map_fst_toList_eq_keys]
      rfl
    rw [hkeys]
    exact Std.HashMap.nodup_keys
  · intro key total
    simp only [totals, List.mem_map, Prod.exists, Std.HashMap.mem_toList_iff_getElem?_eq_some, Prod.mk.injEq, total?,
      profile?, Option.map_eq_some_iff]
    constructor
    · rintro ⟨key', profile, hprofile, rfl, htotal⟩
      exact ⟨profile, hprofile, htotal⟩
    · rintro ⟨profile, hprofile, htotal⟩
      exact ⟨key, profile, hprofile, rfl, htotal⟩

theorem Lists.length_eq (h : p.Lists totals) : totals.length = p.loops := by
  rw [(h.perm p.lists_totals).length_eq, Profiler.totals, List.length_map, Std.HashMap.length_toList, loops]

theorem Lists.total_eq (h : p.Lists totals) (ha : a ∈ totals) : p.total a.1 = a.2 := by
  rw [total, (h.mem a.1 a.2).mp ha, Option.getD_some]

theorem Lists.outranks (h : p.Lists totals) (ha : a ∈ totals) (hb : b ∈ totals) (hab : ranksBefore a b = true) :
    p.Outranks a.1 b.1 := by
  rw [Outranks, h.total_eq ha, h.total_eq hb]
  simpa [ranksBefore] using hab

theorem Lists.sorts (h : p.Lists totals) {sorted : List (LoopKey × UInt64)} (hperm : sorted.Perm totals)
    (hsorted : sorted.Pairwise (fun a b => ranksBefore a b = true)) : p.Sorts (sorted.map Prod.fst) := by
  constructor
  · intro key
    rw [Option.ne_none_iff_exists', (hperm.map Prod.fst).mem_iff, List.mem_map]
    constructor
    · rintro ⟨⟨key, total⟩, hmem, rfl⟩
      exact ⟨total, (h.mem key total).mp hmem⟩
    · rintro ⟨total, htotal⟩
      exact ⟨(key, total), (h.mem key total).mpr htotal, rfl⟩
  · refine List.pairwise_map.mpr (hsorted.imp_of_mem fun ha hb => ?_)
    exact h.outranks (hperm.mem_iff.mp ha) (hperm.mem_iff.mp hb)

theorem Outranks.asymm (h : p.Outranks key key') : ¬p.Outranks key' key := by
  simp only [Outranks, UInt64.lt_iff_toNat_lt, ← UInt64.toNat_inj] at *
  omega

theorem Sorts.nodup (h : p.Sorts keys) : keys.Nodup := by
  refine h.sorted.imp ?_
  rintro key _ houtranks rfl
  exact houtranks.asymm houtranks

theorem Sorts.unique (h : p.Sorts keys) (h' : p.Sorts keys') : keys = keys' := by
  have hperm : keys.Perm keys' := by
    refine (List.perm_ext_iff_of_nodup h.nodup h'.nodup).mpr fun key => ?_
    rw [h.mem, h'.mem]
  exact hperm.eq_of_pairwise (fun _ _ _ _ hab hba => absurd hba hab.asymm) h.sorted h'.sorted

theorem Lists.exists_sorts (h : p.Lists totals) :
    ∃ keys, p.Sorts keys ∧ keys.length = p.loops ∧ ∀ n, ranking n totals = keys.take n := by
  obtain ⟨sorted, hperm, hsorted⟩ := exists_sorted h.once
  refine ⟨sorted.map Prod.fst, h.sorts hperm hsorted, ?_, ?_⟩
  · rw [List.length_map, hperm.length_eq, h.length_eq]
  · intro n
    rw [ranking_eq_take h.once hperm hsorted, List.map_take]

theorem topOf?_eq_some {n : Int64} (hn : n.toInt ≤ topLimit) (totals : List (LoopKey × UInt64)) :
    topOf? totals n = some (ranking n.toInt.toNat totals) := by
  rw [topOf?, ← Int64.toNat_toInt]
  exact if_neg (by omega)

theorem topOf?_eq_none {n : Int64} (hn : topLimit < n.toInt) (totals : List (LoopKey × UInt64)) :
    topOf? totals n = none := by
  rw [topOf?, ← Int64.toNat_toInt]
  exact if_pos (by omega)

/-- There is one sorted list of the visited loops, and its front is what comes out, in whatever order the totals are
listed; but nothing comes out if more is asked for than the limit. -/
theorem topOf?_sorted (p : Profiler) (n : Int64) (h : p.Lists totals) :
    ∃ keys, (∀ keys', p.Sorts keys' ↔ keys' = keys) ∧ p.top? n = topOf? totals n ∧
      (n.toInt ≤ topLimit → ∃ top, topOf? totals n = some top ∧ top = keys.take n.toInt.toNat ∧
        top.length = min n.toInt.toNat p.loops) ∧
      (topLimit < n.toInt → topOf? totals n = none) := by
  obtain ⟨keys, hkeys, hlength, hranking⟩ := h.exists_sorts
  obtain ⟨keys', hkeys', -, hranking'⟩ := p.lists_totals.exists_sorts
  obtain rfl := hkeys'.unique hkeys
  refine ⟨keys', fun others => ⟨fun hothers => hothers.unique hkeys, fun heq => heq ▸ hkeys⟩, ?_, fun hn => ?_,
    fun hn => topOf?_eq_none hn totals⟩
  · by_cases hn : n.toInt ≤ topLimit
    · rw [top?, topOf?_eq_some hn, topOf?_eq_some hn, hranking, hranking']
    · rw [top?, topOf?_eq_none (Int.not_le.mp hn), topOf?_eq_none (Int.not_le.mp hn)]
  · refine ⟨_, topOf?_eq_some hn totals, hranking _, ?_⟩
    rw [hranking, List.length_take, hlength]

def fourVisits : Profiler := [7, 9, 9, 5].foldl (fun p key => (p.visit key).2) { threshold := 2 }

theorem counted_fourVisits : Counted [5, 9, 9, 7] fourVisits :=
  .visit (.visit (.visit (.visit (.fresh 2) 7) 9) 9) 5

theorem topOf?_sorted_fourVisits : fourVisits.Lists [(5, 1), (7, 1), (9, 2)] ∧ fourVisits.Sorts [9, 5, 7] ∧
    fourVisits.top? 2 = some [9, 5] := by
  have hlists : fourVisits.Lists [(5, 1), (7, 1), (9, 2)] := by
    refine ⟨by decide, fun key total => ?_⟩
    rw [counted_fourVisits.total?_eq_some]
    constructor
    · intro hmem
      simp only [List.mem_cons, Prod.mk.injEq, List.not_mem_nil, or_false] at hmem
      rcases hmem with ⟨rfl, rfl⟩ | ⟨rfl, rfl⟩ | ⟨rfl, rfl⟩ <;> decide
    · rintro ⟨hmem, rfl⟩
      simp only [List.mem_cons, List.not_mem_nil, or_false] at hmem
      rcases hmem with rfl | rfl | rfl | rfl <;> decide
  have hsorts : fourVisits.Sorts [9, 5, 7] := by
    constructor
    · intro key
      rw [ne_eq, counted_fourVisits.total?_eq_none]
      grind
    · simp [Outranks, counted_fourVisits.total_eq]
  obtain ⟨keys, hkeys, htop, hfront, -⟩ := topOf?_sorted fourVisits 2 hlists
  obtain rfl := (hkeys _).mp hsorts
  obtain ⟨top, hsome, rfl, -⟩ := hfront (by decide)
  exact ⟨hlists, hsorts, htop.trans hsome⟩

/-- Nothing comes out of a request for more loops than the limit, although there are only three. -/
theorem top?_beyond_limit : ¬∃ top, fourVisits.top? Int64.maxValue = some top ∧
    top.length = min Int64.maxValue.toInt.toNat fourVisits.loops := by
  rintro ⟨top, htop, -⟩
  rw [top?, topOf?_eq_none (by decide)] at htop
  cases htop

end HotLoop.Profiler
