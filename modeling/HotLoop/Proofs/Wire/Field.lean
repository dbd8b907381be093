import HotLoop.Proofs.Wire.Item
import HotLoop.Wire.Codec

namespace HotLoop.Wire

namespace Item

def pairs : List (Nat × Option Item) → List Item
  | [] => []
  | (n, some value) :: entries => uint (UInt64.ofNat n) :: value :: pairs entries
  | (_, none) :: entries => pairs entries

variable {entries : List (Nat × Option Item)}

theorem record_eq (entries : List (Nat × Option Item)) : record entries = map (pairs entries) := by
  rw [record, map.injEq]
  induction entries with
  | nil => rfl
  | cons entry entries ih =>
    obtain ⟨n, _ | value⟩ := entry
    · exact ih
    · rw [List.flatMap_cons, ih, pairs]
      rfl

theorem keysAdmissible_pairs (entries : List (Nat × Option Item)) : keysAdmissible (pairs entries) = true := by
  induction entries with
  | nil => rfl
  | cons entry entries ih =>
    obtain ⟨n, _ | value⟩ := entry
    · exact ih
    · simp only [pairs, keysAdmissible, keyAdmissible, Bool.true_and, ih]

theorem entries?_record (entries : List (Nat × Option Item)) : (record entries).entries? = some (pairs entries) := by
  simp only [record_eq, entries?, payload?, Option.bind_eq_bind, Option.bind_some, keysAdmissible_pairs, if_true]

theorem entry?_pairs_cons_ne {n k : Nat} (hk : k < UInt64.size) (hne : n ≠ k) (o : Option Item)
    (entries : List (Nat × Option Item)) : entry? n (pairs ((k, o) :: entries)) = entry? n (pairs entries) := by
  cases o with
  | none => rfl
  | some value =>
    have hkey : (decide ((UInt64.ofNat k).toNat = n)) = false := by
      rw [UInt64.toNat_ofNat_of_lt' hk]
      exact decide_eq_false hne.symm
    simp only [pairs, entry?, isKey, hkey, Bool.false_eq_true, if_false]

theorem entry?_pairs_of_lt {first n : Nat} (h : entries.map Prod.fst = List.range' first entries.length)
    (hsize : first + entries.length < UInt64.size) (hn : n < first) : entry? n (pairs entries) = none := by
  induction entries generalizing first with
  | nil => rfl
  | cons entry entries ih =>
    obtain ⟨k, o⟩ := entry
    obtain ⟨rfl, hrest⟩ := List.cons.inj h
    rw [List.length_cons] at hsize
    rw [entry?_pairs_cons_ne (by omega) (by omega)]
    exact ih hrest (by omega) (by omega)

theorem entry?_pairs {first n : Nat} {o : Option Item} (h : entries.map Prod.fst = List.range' first entries.length)
    (hsize : first + entries.length < UInt64.size) (hmem : (n, o) ∈ entries) : entry? n (pairs entries) = o := by
  induction entries generalizing first with
  | nil => cases hmem
  | cons entry entries ih =>
    obtain ⟨k, o'⟩ := entry
    obtain ⟨rfl, hrest⟩ := List.cons.inj h
    rw [List.length_cons] at hsize
    rcases List.mem_cons.mp hmem with heq | hmem
    · obtain ⟨rfl, rfl⟩ := Prod.mk.inj heq
      cases o with
      | none =>
        -- the numbers that follow are greater, so the entry is not found there either
        rw [pairs]
        exact entry?_pairs_of_lt hrest (by omega) (Nat.lt_succ_self _)
      | some value =>
        have hn : (UInt64.ofNat n).toNat = n := UInt64.toNat_ofNat_of_lt' (by omega)
        simp only [pairs, entry?, isKey, hn, decide_true, if_true]
    · have hlt : k < n := by
        have hrange : n ∈ List.range' (k + 1) entries.length := hrest ▸ List.mem_map_of_mem hmem
        exact (List.mem_range'_1.mp hrange).1
      rw [entry?_pairs_cons_ne (by omega) (by omega)]
      exact ih hrest (by omega) hmem

def numbered (entries : List (Nat × Option Item)) : Bool :=
  entries.length < 24 ∧ entries.map Prod.fst = List.range' 1 entries.length

theorem numbered_iff :
    numbered entries = true ↔ entries.length < 24 ∧ entries.map Prod.fst = List.range' 1 entries.length :=
  decide_eq_true_iff

theorem field?_pairs {α : Type} {zero a : α} {value : Item → Option α} {n : Nat} {o : Option Item}
    (h : numbered entries = true) (hget : entries[n - 1]? = some (n, o)) (hvalue : o.elim (some zero) value = some a) :
    field? zero value n (pairs entries) = some a := by
  obtain ⟨hlength, hkeys⟩ := numbered_iff.mp h
  have hsize : 1 + entries.length < UInt64.size := by
    simp only [UInt64.size]
    omega
  rw [field?, entry?_pairs hkeys hsize (List.mem_of_getElem? hget)]
  cases o with
  | none => exact hvalue
  | some i => exact hvalue

theorem entry_eq_of_record {entries' : List (Nat × Option Item)} {n : Nat} {o o' : Option Item}
    (heq : record entries = record entries') (h : numbered entries = true) (hget : entries[n - 1]? = some (n, o))
    (h' : numbered entries' = true) (hget' : entries'[n - 1]? = some (n, o')) : o = o' := by
  obtain ⟨hlength, hkeys⟩ := numbered_iff.mp h
  obtain ⟨hlength', hkeys'⟩ := numbered_iff.mp h'
  have hpairs : pairs entries = pairs entries' := by
    rw [record_eq, record_eq] at heq
    exact map.inj heq
  have hsize : ∀ k < 24, 1 + k < UInt64.size := by
    intro k hk
    simp only [UInt64.size]
    omega
  calc o
    _ = entry? n (pairs entries) := (entry?_pairs hkeys (hsize _ hlength) (List.mem_of_getElem? hget)).symm
    _ = entry? n (pairs entries') := by rw [hpairs]
    _ = o' := entry?_pairs hkeys' (hsize _ hlength') (List.mem_of_getElem? hget')

section Reading

variable {α β : Type} {b : β}

theorem bind_entries? {rest : List Item → Option β} (h : rest (pairs entries) = some b) :
    (record entries).entries? >>= rest = some b := by
  rw [entries?_record]
  exact h

theorem bind_omissible? {zero a : α} {value : Item → Option α} {n : Nat} {o : Option Item} {rest : α → Option β}
    (h : numbered entries = true) (hget : entries[n - 1]? = some (n, o)) (hvalue : o.elim (some zero) value = some a)
    (hrest : rest a = some b) : field? zero value n (pairs entries) >>= rest = some b := by
  rw [field?_pairs h hget hvalue]
  exact hrest

theorem bind_field? {zero a : α} {value : Item → Option α} {n : Nat} {i : Item} {rest : α → Option β}
    (h : numbered entries = true) (hget : entries[n - 1]? = some (n, some i)) (hvalue : value i = some a)
    (hrest : rest a = some b) : field? zero value n (pairs entries) >>= rest = some b :=
  bind_omissible? h hget hvalue hrest

end Reading

theorem integer?_ofInt64 (n : Int64) : integer? (ofInt64 n) = some n.toInt := by
  have hint : n.toInt = if 2 * n.toUInt64.toNat < 2 ^ 64 then (n.toUInt64.toNat : Int)
      else (n.toUInt64.toNat : Int) - (2 ^ 64 : Nat) := BitVec.toInt_eq_toNat_cond _
  have hsize := n.toUInt64.toNat_lt
  by_cases hneg : n < 0
  · have hlt : n.toInt < 0 := Int64.lt_iff_toInt_lt.mp hneg
    have hnot := UInt64.toNat_not n.toUInt64
    simp only [ofInt64, hneg, if_true, integer?, payload?, Option.bind_eq_bind, Option.bind_some, Option.some.injEq]
    split at hint
    · omega
    · simp only [UInt64.size] at hnot
      omega
  · have hle : ¬n.toInt < 0 := fun hlt => hneg (Int64.lt_iff_toInt_lt.mpr hlt)
    simp only [ofInt64, hneg, if_false, integer?, payload?, Option.bind_eq_bind, Option.bind_some, Option.some.injEq]
    split at hint
    · exact hint.symm
    · omega

theorem signed?_ofInt64 (n : Int64) : signed? (ofInt64 n) = some n := by
  have hrange : Int64.minValue.toInt ≤ n.toInt ∧ n.toInt ≤ Int64.maxValue.toInt :=
    ⟨n.minValue_le_toInt, n.toInt_le⟩
  simp only [signed?, integer?_ofInt64, Option.bind_eq_bind, Option.bind_some, signedWord?, if_pos hrange,
    Int64.ofInt_toInt]

theorem ofInt64_inj {n k : Int64} (h : ofInt64 n = ofInt64 k) : n = k := by
  have hread := congrArg signed? h
  rw [signed?_ofInt64, signed?_ofInt64] at hread
  exact Option.some.inj hread

theorem unsigned?_uint {bits : Nat} {n : UInt64} (h : n.toNat < Nat.pow 2 bits) :
    unsigned? bits (uint n) = some n.toNat := by
  have hrange : 0 ≤ (n.toNat : Int) ∧ (n.toNat : Int) < Nat.pow 2 bits := by omega
  simp only [unsigned?, integer?, payload?, Option.bind_eq_bind, Option.bind_some, hrange, and_self, if_true,
    Int.toNat_natCast]

theorem bool?_ofBool (b : Bool) : bool? (ofBool b) = some b := by
  cases b with
  | false => rfl
  | true => rfl

theorem string?_ofString {s : Bytes} (h : isText s = true) : string? (ofString s) = some s := by
  simp [ofString, string?, payload?, h]

theorem ofList?_inj {α : Type} {encode : α → Item} (h : ∀ a b, encode a = encode b → a = b)
    {xs ys : Option (List α)} (heq : ofList? encode xs = ofList? encode ys) : xs = ys := by
  cases xs with
  | none =>
    cases ys with
    | none => rfl
    | some ys => cases heq
  | some xs =>
    cases ys with
    | none => cases heq
    | some ys => rw [(List.map_inj_right h).mp (array.inj heq)]

theorem mapM_map {α : Type} {encode : α → Item} {decode : Item → Option α} {xs : List α}
    (h : ∀ x ∈ xs, decode (encode x) = some x) : (xs.map encode).mapM decode = some xs := by
  induction xs with
  | nil => rfl
  | cons x xs ih =>
    obtain ⟨hfirst, hrest⟩ := List.forall_mem_cons.mp h
    rw [List.map_cons, List.mapM_cons, hfirst]
    simp only [Option.bind_eq_bind, Option.bind_some, ih hrest]
    rfl

theorem list?_array {α : Type} {encode : α → Item} {decode : Item → Option α} {xs : List α}
    (h : ∀ x ∈ xs, decode (encode x) = some x) : list? decode (array (xs.map encode)) = some (some xs) := by
  simp only [list?, payload?, Option.bind_eq_bind, Option.bind_some, mapM_map h, Option.map_some]

theorem list?_ofList? {α : Type} {encode : α → Item} {decode : Item → Option α} {xs : Option (List α)}
    (h : ∀ x ∈ xs.getD [], decode (encode x) = some x) : list? decode (ofList? encode xs) = some xs := by
  cases xs with
  | none => rfl
  | some xs => exact list?_array h

def EntryFits (limit depth : Nat) (o : Option Item) : Prop := ∀ i, o = some i → Fits limit depth i

variable {limit depth : Nat}

theorem entryFits_some {i : Item} (h : Fits limit depth i) : EntryFits limit depth (some i) := by
  rintro _ ⟨⟩
  exact h

theorem entryFits_ite {p : Prop} [Decidable p] {o o' : Option Item} (h : EntryFits limit depth o)
    (h' : EntryFits limit depth o') : EntryFits limit depth (if p then o else o') := by
  by_cases hp : p
  · rwa [if_pos hp]
  · rwa [if_neg hp]

theorem entryFits_none : EntryFits limit depth none := by
  rintro _ ⟨⟩

def EntriesFit (limit depth : Nat) : List (Nat × Option Item) → Prop
  | [] => True
  | (_, o) :: entries => EntryFits limit depth o ∧ EntriesFit limit depth entries

theorem length_pairs (entries : List (Nat × Option Item)) :
    ∃ k, (pairs entries).length = k * 2 ∧ k ≤ entries.length := by
  induction entries with
  | nil => exact ⟨0, rfl, Nat.le_refl 0⟩
  | cons entry entries ih =>
    obtain ⟨k, hk, hle⟩ := ih
    obtain ⟨n, _ | value⟩ := entry
    · exact ⟨k, hk, Nat.le_succ_of_le hle⟩
    · refine ⟨k + 1, ?_, Nat.succ_le_succ hle⟩
      simp only [pairs, List.length_cons, hk]
      omega

theorem fits_pairs (h : EntriesFit limit depth entries) :
    ∀ i ∈ pairs entries, Fits limit depth i := by
  induction entries with
  | nil => simp [pairs]
  | cons entry entries ih =>
    obtain ⟨n, _ | value⟩ := entry
    · exact ih h.2
    · rw [pairs, List.forall_mem_cons, List.forall_mem_cons]
      exact ⟨.uint _, h.1 value rfl, ih h.2⟩

theorem Fits.record (hlimit : 24 ≤ limit) (hnumbered : numbered entries = true)
    (h : EntriesFit limit depth entries) : Fits limit (depth + 1) (.record entries) := by
  obtain ⟨k, hpairs, hk⟩ := length_pairs entries
  have hlength := (numbered_iff.mp hnumbered).1
  rw [record_eq]
  exact .map hpairs (by omega) (fits_pairs h)

theorem Fits.ofInt64 (n : Int64) : Fits limit depth (.ofInt64 n) := by
  unfold Item.ofInt64
  split
  · exact .nint _
  · exact .uint _

theorem Fits.ofBool (b : Bool) : Fits limit depth (.ofBool b) := by
  cases b with
  | false => exact .simple (by decide)
  | true => exact .simple (by decide)

theorem Fits.ofString {s : Bytes} (h : s.length < UInt64.size) : Fits limit depth (.ofString s) := .text h

theorem Fits.ofList? {α : Type} {encode : α → Item} {xs : Option (List α)} (hlength : (xs.getD []).length ≤ limit)
    (h : ∀ x ∈ xs.getD [], Fits limit depth (encode x)) : Fits limit (depth + 1) (.ofList? encode xs) := by
  cases xs with
  | none => exact .simple (by decide)
  | some xs =>
    refine .array (by rwa [List.length_map]) ?_
    intro i hi
    obtain ⟨x, hx, rfl⟩ := List.mem_map.mp hi
    exact h x hx

end Item

end HotLoop.Wire
