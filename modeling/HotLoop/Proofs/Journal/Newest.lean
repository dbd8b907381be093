import Mathlib.Data.List.Induction
import HotLoop.Journal.Basic
import HotLoop.Proofs.Journal.Session
import HotLoop.Proofs.Wire.Codec

namespace HotLoop

namespace Journal

inductive Entry
  | saved (s : Session) (t : Trace) (time : Int)
  | raw (r : Row)
deriving DecidableEq, Repr

namespace Entry

def key : Entry → LoopKey
  | saved _ t _ => t.key
  | raw r => r.key.toUInt64

def time : Entry → Int
  | saved _ _ time => time
  | raw r => r.recorded

def sessionText : Entry → String
  | saved s _ _ => s.text
  | raw r => r.session

def Of (s : Session) : Entry → Prop
  | saved owner _ _ => owner = s
  | raw r => r.session = s.text

instance (s : Session) : DecidablePred (Of s)
  | saved owner _ _ => inferInstanceAs (Decidable (owner = s))
  | raw r => inferInstanceAs (Decidable (r.session = s.text))

def Decodable : Entry → Prop
  | saved _ t _ => Code.Portable Wire.lengthLimit t.code
  | raw r => ∃ c, Wire.readCode r.code = .ok c

def trace : Entry → Trace
  | saved _ t _ => t
  | raw r => { key := r.key.toUInt64, start := r.start, code := (Wire.readCode r.code).toOption.getD none }

def row : Entry → Row
  | saved s t time =>
    { session := s.text, key := t.key.toInt64, start := t.start, code := Wire.writeCode t.code, recorded := time }
  | raw r => r

variable {x y : Entry} {s : Session}

theorem session_row (x : Entry) : x.row.session = x.sessionText := by cases x <;> rfl

theorem recorded_row (x : Entry) : x.row.recorded = x.time := by cases x <;> rfl

theorem key_row (x : Entry) : x.row.key = x.key.toInt64 := by
  cases x with
  | saved => rfl
  | raw r => exact (Int64.toInt64_toUInt64 r.key).symm

theorem key_row_inj : x.row.key = y.row.key ↔ x.key = y.key := by
  rw [key_row, key_row]
  constructor
  · intro h
    simpa using congrArg Int64.toUInt64 h
  · exact congrArg UInt64.toInt64

theorem of_iff : x.Of s ↔ x.sessionText = s.text := by
  cases x with
  | saved owner t time =>
    change owner = s ↔ owner.text = s.text
    constructor
    · rintro rfl
      rfl
    · exact Session.text_inj
  | raw r => exact Iff.rfl

theorem decode_row (h : x.Decodable) : decode x.row = .ok x.trace := by
  cases x with
  | saved s t time => simp only [decode, row, trace, Wire.readCode_writeCode h, UInt64.toUInt64_toInt64]
  | raw r =>
    obtain ⟨c, hc⟩ := h
    simp only [decode, row, trace, hc, Except.toOption, Option.getD_some]

end Entry

def enter (j : Journal) : Entry → Journal
  | .saved s t time => j.save s t time
  | .raw r => j.write r

theorem enter_eq (j : Journal) (x : Entry) : j.enter x = j.write x.row := by cases x <;> rfl

def ofEntries (entries : List Entry) : Journal := entries.foldl enter []

abbrev Stamped := Entry × Nat

def Earlier (p q : Stamped) : Prop := p.1.time < q.1.time ∨ p.1.time = q.1.time ∧ p.2 < q.2

instance (p q : Stamped) : Decidable (Earlier p q) :=
  inferInstanceAs (Decidable (p.1.time < q.1.time ∨ p.1.time = q.1.time ∧ p.2 < q.2))

/-- The entry was made, and is the last one of its session and loop. -/
structure Stands (entries : List Entry) (p : Stamped) : Prop where
  made : p ∈ entries.zipIdx
  last : ∀ q ∈ entries.zipIdx, q.1.sessionText = p.1.sessionText → q.1.key = p.1.key → q.2 ≤ p.2

instance (entries : List Entry) (p : Stamped) : Decidable (Stands entries p) :=
  decidable_of_iff (p ∈ entries.zipIdx ∧
      ∀ q ∈ entries.zipIdx, q.1.sessionText = p.1.sessionText → q.1.key = p.1.key → q.2 ≤ p.2)
    ⟨fun h => ⟨h.1, h.2⟩, fun h => ⟨h.made, h.last⟩⟩

/-- The entry stands, and no other entry for its loop that stands is later. -/
structure Newest (entries : List Entry) (p : Stamped) : Prop where
  stands : Stands entries p
  newest : ∀ q, Stands entries q → q.1.key = p.1.key → q = p ∨ Earlier q p

instance (entries : List Entry) (p : Stamped) : Decidable (Newest entries p) :=
  decidable_of_iff (Stands entries p ∧
      ∀ q ∈ entries.zipIdx, Stands entries q → q.1.key = p.1.key → q = p ∨ Earlier q p)
    ⟨fun h => ⟨h.1, fun q hq => h.2 q hq.made hq⟩, fun h => ⟨h.stands, fun q _ => h.newest q⟩⟩

variable {entries : List Entry} {p q : Stamped} {x : Entry}

theorem Earlier.asymm (h : Earlier p q) : ¬Earlier q p := by
  unfold Earlier at *
  omega

theorem Earlier.ne (h : Earlier p q) : p ≠ q := by
  rintro rfl
  exact h.asymm h

theorem mem_concat : p ∈ (entries ++ [x]).zipIdx ↔ p ∈ entries.zipIdx ∨ p = (x, entries.length) := by
  simp [List.zipIdx_append]

theorem place_lt (h : p ∈ entries.zipIdx) : p.2 < entries.length :=
  (List.getElem?_eq_some_iff.mp (List.mem_zipIdx_iff_getElem?.mp h)).1

theorem eq_of_place (hp : p ∈ entries.zipIdx) (hq : q ∈ entries.zipIdx) (h : p.2 = q.2) : p = q := by
  have hentry := (List.mem_zipIdx_iff_getElem?.mp hp).symm.trans
    ((congrArg (entries[·]?) h).trans (List.mem_zipIdx_iff_getElem?.mp hq))
  exact Prod.ext (Option.some.inj hentry) h

theorem Stands.eq (hp : Stands entries p) (hq : Stands entries q) (hsession : p.1.sessionText = q.1.sessionText)
    (hkey : p.1.key = q.1.key) : p = q :=
  eq_of_place hp.made hq.made
    (Nat.le_antisymm (hq.last p hp.made hsession hkey) (hp.last q hq.made hsession.symm hkey.symm))

theorem stands_concat : Stands (entries ++ [x]) p ↔
    Stands entries p ∧ ¬(x.sessionText = p.1.sessionText ∧ x.key = p.1.key) ∨ p = (x, entries.length) := by
  constructor
  · intro h
    rcases mem_concat.mp h.made with hp | rfl
    · refine .inl ⟨⟨hp, fun q hq => h.last q (mem_concat.mpr (.inl hq))⟩, ?_⟩
      rintro ⟨hsession, hkey⟩
      have hle : entries.length ≤ p.2 := h.last (x, entries.length) (mem_concat.mpr (.inr rfl)) hsession hkey
      exact absurd (place_lt hp) (Nat.not_lt.mpr hle)
    · exact .inr rfl
  · rintro (⟨h, hnot⟩ | rfl)
    · refine ⟨mem_concat.mpr (.inl h.made), ?_⟩
      intro q hq hsession hkey
      rcases mem_concat.mp hq with hq | rfl
      · exact h.last q hq hsession hkey
      · exact absurd ⟨hsession, hkey⟩ hnot
    · refine ⟨mem_concat.mpr (.inr rfl), ?_⟩
      intro q hq _ _
      rcases mem_concat.mp hq with hq | rfl
      · exact Nat.le_of_lt (place_lt hq)
      · exact Nat.le_refl _

theorem exists_stands (hx : x ∈ entries) :
    ∃ p, Stands entries p ∧ p.1.sessionText = x.sessionText ∧ p.1.key = x.key := by
  induction entries using List.reverseRecOn with
  | nil => cases hx
  | append_singleton entries last ih =>
    by_cases hlast : last.sessionText = x.sessionText ∧ last.key = x.key
    · exact ⟨(last, entries.length), stands_concat.mpr (.inr rfl), hlast⟩
    · have hmem : x ∈ entries := by
        rcases List.mem_append.mp hx with hx | hx
        · exact hx
        · obtain rfl := List.mem_singleton.mp hx
          exact absurd ⟨rfl, rfl⟩ hlast
      obtain ⟨p, hp, hsession, hkey⟩ := ih hmem
      refine ⟨p, stands_concat.mpr (.inl ⟨hp, ?_⟩), hsession, hkey⟩
      rwa [hsession, hkey]

theorem exists_standing (entries : List Entry) : ∃ standing : List Stamped,
    (∀ p, p ∈ standing ↔ Stands entries p) ∧ standing.Pairwise (fun p q => p.2 < q.2) ∧
      ofEntries entries = standing.map fun p => p.1.row := by
  induction entries using List.reverseRecOn with
  | nil =>
    refine ⟨[], ?_, List.Pairwise.nil, rfl⟩
    intro p
    exact iff_of_false List.not_mem_nil fun h => List.not_mem_nil h.made
  | append_singleton entries x ih =>
    obtain ⟨standing, hmem, hsorted, hrows⟩ := ih
    let kept := standing.filter fun p => !(p.1.row.session = x.row.session && p.1.row.key = x.row.key)
    have hkept : ∀ p, p ∈ kept ↔ Stands entries p ∧ ¬(x.sessionText = p.1.sessionText ∧ x.key = p.1.key) := by
      intro p
      rw [List.mem_filter, hmem]
      simp only [Entry.session_row, Entry.key_row_inj, Bool.not_eq_true', Bool.and_eq_false_imp, decide_eq_true_eq,
        decide_eq_false_iff_not, not_and]
      exact and_congr_right fun _ => ⟨fun h hs hk => h hs.symm hk.symm, fun h hs hk => h hs.symm hk.symm⟩
    refine ⟨kept ++ [(x, entries.length)], ?_, ?_, ?_⟩
    · intro p
      rw [List.mem_append, List.mem_singleton, hkept, stands_concat]
    · rw [List.pairwise_append]
      refine ⟨hsorted.filter _, List.pairwise_singleton _ _, ?_⟩
      intro p hp q hq
      obtain rfl := List.mem_singleton.mp hq
      exact place_lt ((hkept p).mp hp).1.made
    · rw [ofEntries, List.foldl_append, List.foldl_cons, List.foldl_nil, enter_eq]
      change (ofEntries entries).write x.row = _
      rw [hrows, write, List.filter_map, List.map_append]
      rfl

theorem place_lt_of_lt {stamped : List Stamped} (h : stamped.Pairwise fun p q => p.2 < q.2) {i j : Nat}
    (hp : stamped[i]? = some p) (hq : stamped[j]? = some q) (hlt : i < j) : p.2 < q.2 := by
  obtain ⟨hi, rfl⟩ := List.getElem?_eq_some_iff.mp hp
  obtain ⟨hj, rfl⟩ := List.getElem?_eq_some_iff.mp hq
  exact List.pairwise_iff_getElem.mp h i j hi hj hlt

theorem byTime_rows {stamped : List Stamped} (h : stamped.Pairwise fun p q => p.2 < q.2) :
    ∃ sorted : List Stamped, (∀ p, p ∈ sorted ↔ p ∈ stamped) ∧ sorted.Pairwise Earlier ∧
      byTime (stamped.map fun p => p.1.row) = sorted.map fun p => p.1.row := by
  let le (p q : Stamped) : Bool := p.1.row.recorded ≤ q.1.row.recorded
  have htrans : ∀ p q r, le p q → le q r → le p r := by
    simp only [le, decide_eq_true_eq]
    omega
  have htotal : ∀ p q, le p q || le q p := by
    simp only [le, Bool.or_eq_true, decide_eq_true_eq]
    omega
  have hrows : (stamped.mergeSort le).map (fun p => p.1.row) = byTime (stamped.map fun p => p.1.row) :=
    List.map_mergeSort fun _ _ _ _ => rfl
  refine ⟨stamped.mergeSort le, fun p => List.mem_mergeSort, ?_, hrows.symm⟩
  -- the sort is one by time and place in the list, where no two places are the same
  have hplaced := List.pairwise_mergeSort (List.zipIdxLE_trans htrans) (List.zipIdxLE_total htotal) stamped.zipIdx
  have hplaces : stamped.zipIdx.Pairwise fun a b => a.2 ≠ b.2 := by
    apply List.pairwise_map.mp
    rw [List.zipIdx_map_snd]
    exact List.nodup_range'
  have hdistinct := (List.mergeSort_perm stamped.zipIdx (List.zipIdxLE le)).symm.pairwise hplaces Ne.symm
  rw [← List.mergeSort_zipIdx, List.pairwise_map]
  refine (hplaced.and hdistinct).imp_of_mem ?_
  rintro ⟨p, i⟩ ⟨q, j⟩ hp hq ⟨hle, hne⟩
  have hp : stamped[i]? = some p := List.mem_zipIdx_iff_getElem?.mp (List.mem_mergeSort.mp hp)
  have hq : stamped[j]? = some q := List.mem_zipIdx_iff_getElem?.mp (List.mem_mergeSort.mp hq)
  simp only [List.zipIdxLE, le, Entry.recorded_row, decide_eq_true_eq] at hle
  split at hle
  · next hforth =>
    split at hle
    · next hback =>
      have hlt : i < j := Nat.lt_of_le_of_ne (of_decide_eq_true hle) hne
      exact .inr ⟨Int.le_antisymm hforth hback, place_lt_of_lt h hp hq hlt⟩
    · next hback => exact .inl (Int.not_le.mp hback)
  · cases hle

theorem lastOfKeys_rows {sorted : List Stamped} (h : sorted.Pairwise Earlier) :
    ∃ kept : List Stamped, (∀ p, p ∈ kept ↔ p ∈ sorted ∧ ∀ q ∈ sorted, q.1.key = p.1.key → q = p ∨ Earlier q p) ∧
      kept.Sublist sorted ∧ (∀ p ∈ sorted, ∃ q ∈ kept, q.1.key = p.1.key) ∧
        lastOfKeys (sorted.map fun p => p.1.row) = kept.map fun p => p.1.row := by
  induction sorted with
  | nil => exact ⟨[], by simp, List.Sublist.refl _, by simp, rfl⟩
  | cons first rest ih =>
    obtain ⟨hfirst, hrest⟩ := List.pairwise_cons.mp h
    obtain ⟨kept, hmem, hsub, hcovers, hrows⟩ := ih hrest
    -- `first` is earlier than all others, so that it competes with none of them
    have hlater : ∀ p ∈ rest, (∀ q ∈ first :: rest, q.1.key = p.1.key → q = p ∨ Earlier q p) ↔
        ∀ q ∈ rest, q.1.key = p.1.key → q = p ∨ Earlier q p := by
      intro p hp
      rw [List.forall_mem_cons]
      exact and_iff_right fun _ => .inr (hfirst p hp)
    have hany : ((rest.map fun p => p.1.row).any fun later => later.key = first.1.row.key) = true ↔
        ∃ q ∈ rest, q.1.key = first.1.key := by
      simp [Entry.key_row_inj]
    by_cases hagain : ∃ q ∈ rest, q.1.key = first.1.key
    · refine ⟨kept, ?_, hsub.cons first, ?_, ?_⟩
      · intro p
        rw [hmem]
        constructor
        · rintro ⟨hp, hnewest⟩
          exact ⟨List.mem_cons_of_mem first hp, (hlater p hp).mpr hnewest⟩
        · rintro ⟨hp, hnewest⟩
          rcases List.mem_cons.mp hp with rfl | hp
          · obtain ⟨q, hq, hkey⟩ := hagain
            rcases hnewest q (List.mem_cons_of_mem p hq) hkey with rfl | hearlier
            · exact absurd rfl (hfirst q hq).ne
            · exact absurd hearlier (hfirst q hq).asymm
          · exact ⟨hp, (hlater p hp).mp hnewest⟩
      · rw [List.forall_mem_cons]
        obtain ⟨q, hq, hkey⟩ := hagain
        obtain ⟨r, hr, hkey'⟩ := hcovers q hq
        exact ⟨⟨r, hr, hkey'.trans hkey⟩, hcovers⟩
      · rw [List.map_cons, lastOfKeys, if_pos (hany.mpr hagain), hrows]
    · refine ⟨first :: kept, ?_, hsub.cons_cons first, ?_, ?_⟩
      · intro p
        rw [List.mem_cons, List.mem_cons]
        constructor
        · rintro (rfl | hp)
          · refine ⟨.inl rfl, ?_⟩
            rw [List.forall_mem_cons]
            exact ⟨fun _ => .inl rfl, fun q hq hkey => absurd ⟨q, hq, hkey⟩ hagain⟩
          · obtain ⟨hp, hnewest⟩ := (hmem p).mp hp
            exact ⟨.inr hp, (hlater p hp).mpr hnewest⟩
        · rintro ⟨rfl | hp, hnewest⟩
          · exact .inl rfl
          · exact .inr ((hmem p).mpr ⟨hp, (hlater p hp).mp hnewest⟩)
      · rw [List.forall_mem_cons]
        refine ⟨⟨first, List.mem_cons_self, rfl⟩, ?_⟩
        intro p hp
        obtain ⟨q, hq, hkey⟩ := hcovers p hp
        exact ⟨q, List.mem_cons_of_mem first hq, hkey⟩
      · rw [List.map_cons, lastOfKeys, if_neg (fun hsome => hagain (hany.mp hsome)), hrows, List.map_cons]

theorem mapM_decode {found : List Stamped} (h : ∀ p ∈ found, p.1.Decodable) :
    (found.map fun p => p.1.row).mapM decode = .ok (found.map fun p => p.1.trace) := by
  induction found with
  | nil => rfl
  | cons p found ih =>
    obtain ⟨hp, hfound⟩ := List.forall_mem_cons.mp h
    rw [List.map_cons, List.mapM_cons, Entry.decode_row hp, ih hfound]
    rfl

structure Lists (entries : List Entry) (asked : Entry → Prop) (chosen : Stamped → Prop) (found : List Stamped) :
    Prop where
  mem_iff : ∀ p, p ∈ found ↔ chosen p
  sorted : found.Pairwise Earlier
  once : (found.map fun p => p.1.key).Nodup
  covers : ∀ key, key ∈ (found.map fun p => p.1.key) ↔ ∃ x ∈ entries, asked x ∧ x.key = key

theorem Lists.eq {asked : Entry → Prop} {chosen : Stamped → Prop} {found : List Stamped}
    (h : Lists entries asked chosen found) (listed : List Stamped) (hmem : ∀ p, p ∈ listed ↔ chosen p)
    (hsorted : listed.Pairwise Earlier) : found = listed := by
  have hperm : found.Perm listed := by
    apply (List.perm_ext_iff_of_nodup (h.sorted.imp Earlier.ne) (hsorted.imp Earlier.ne)).mpr
    intro p
    rw [h.mem_iff, hmem]
  apply hperm.eq_of_pairwise _ h.sorted hsorted
  intro p q _ _ hpq hqp
  exact absurd hqp hpq.asymm

theorem once_of_sorted {found : List Stamped} (hsorted : found.Pairwise Earlier)
    (h : ∀ p ∈ found, ∀ q ∈ found, p.1.key = q.1.key → ¬Earlier p q) : (found.map fun p => p.1.key).Nodup := by
  rw [List.nodup_iff_pairwise_ne, List.pairwise_map]
  refine hsorted.imp_of_mem ?_
  intro p q hp hq hearlier hkey
  exact h p hp q hq hkey hearlier

theorem Stands.mem (h : Stands entries p) : p.1 ∈ entries :=
  List.mem_of_getElem? (List.mem_zipIdx_iff_getElem?.mp h.made)

theorem exists_loaded (h : ∀ p, Stands entries p → p.1.Decodable) (s : Session) : ∃ found,
    Lists entries (Entry.Of s) (fun p => Stands entries p ∧ p.1.Of s) found ∧ (ofEntries entries).load s =
      if found = [] then .error (.sessionNotFound s) else .ok (found.map fun p => p.1.trace) := by
  obtain ⟨standing, hstanding, hwritten, hrows⟩ := exists_standing entries
  obtain ⟨found, hfound, hsorted, htimed⟩ := byTime_rows (hwritten.filter fun p => p.1.row.session = s.text)
  have hmem : ∀ p, p ∈ found ↔ Stands entries p ∧ p.1.Of s := by
    intro p
    rw [hfound, List.mem_filter, hstanding, decide_eq_true_eq, Entry.session_row, Entry.of_iff]
  refine ⟨found, ⟨hmem, hsorted, ?_, ?_⟩, ?_⟩
  · apply once_of_sorted hsorted
    intro p hp q hq hkey hearlier
    obtain ⟨hp, hps⟩ := (hmem p).mp hp
    obtain ⟨hq, hqs⟩ := (hmem q).mp hq
    exact hearlier.ne (hp.eq hq ((Entry.of_iff.mp hps).trans (Entry.of_iff.mp hqs).symm) hkey)
  · intro key
    rw [List.mem_map]
    constructor
    · rintro ⟨p, hp, rfl⟩
      obtain ⟨hp, hps⟩ := (hmem p).mp hp
      exact ⟨p.1, hp.mem, hps, rfl⟩
    · rintro ⟨x, hx, hxs, rfl⟩
      obtain ⟨p, hp, hsession, hkey⟩ := exists_stands hx
      exact ⟨p, (hmem p).mpr ⟨hp, Entry.of_iff.mpr (hsession.trans (Entry.of_iff.mp hxs))⟩, hkey⟩
  · have hread : (byTime ((ofEntries entries).filter fun r => r.session = s.text)).mapM decode =
        .ok (found.map fun p => p.1.trace) := by
      rw [hrows, List.filter_map]
      exact (congrArg (List.mapM decode) htimed).trans (mapM_decode fun p hp => h p ((hmem p).mp hp).1)
    rw [load, hread]
    cases found with
    | nil => rfl
    | cons p found => rfl

theorem exists_latest (h : ∀ p, Stands entries p → p.1.Decodable) : ∃ found,
    Lists entries (fun _ => True) (Newest entries) found ∧
      (ofEntries entries).latest = .ok (found.map fun p => p.1.trace) := by
  obtain ⟨standing, hstanding, hwritten, hrows⟩ := exists_standing entries
  obtain ⟨sorted, hsame, hsorted, htimed⟩ := byTime_rows hwritten
  obtain ⟨found, hfound, hsub, hcovers, hlast⟩ := lastOfKeys_rows hsorted
  have hall : ∀ p, p ∈ sorted ↔ Stands entries p := fun p => (hsame p).trans (hstanding p)
  have hmem : ∀ p, p ∈ found ↔ Newest entries p := by
    intro p
    simp only [hfound, hall]
    exact ⟨fun h => ⟨h.1, h.2⟩, fun h => ⟨h.stands, h.newest⟩⟩
  refine ⟨found, ⟨hmem, hsorted.sublist hsub, ?_, ?_⟩, ?_⟩
  · apply once_of_sorted (hsorted.sublist hsub)
    intro p hp q hq hkey hearlier
    rcases ((hmem p).mp hp).newest q ((hmem q).mp hq).stands hkey.symm with rfl | hlater
    · exact hearlier.ne rfl
    · exact hearlier.asymm hlater
  · intro key
    rw [List.mem_map]
    constructor
    · rintro ⟨p, hp, rfl⟩
      exact ⟨p.1, ((hmem p).mp hp).stands.mem, trivial, rfl⟩
    · rintro ⟨x, hx, _, rfl⟩
      obtain ⟨p, hp, _, hkey⟩ := exists_stands hx
      obtain ⟨q, hq, hkey'⟩ := hcovers p ((hall p).mpr hp)
      exact ⟨q, hq, hkey'.trans hkey⟩
  · rw [latest, hrows, htimed, hlast, mapM_decode fun p hp => h p ((hmem p).mp hp).stands]

theorem Lists.eq_nil_iff {asked : Entry → Prop} {chosen : Stamped → Prop} {found : List Stamped}
    (h : Lists entries asked chosen found) : found = [] ↔ ∀ x ∈ entries, ¬asked x := by
  rw [← List.map_eq_nil_iff (f := fun p => p.1.key), List.eq_nil_iff_forall_not_mem]
  simp only [h.covers]
  constructor
  · intro hnone x hx hasked
    exact hnone x.key ⟨x, hx, hasked, rfl⟩
  · rintro hnone key ⟨x, hx, hasked, _⟩
    exact hnone x hx hasked

/-- A session gives back the last trace of each of its loops, and a session without entries is not found. The latest
traces are the newest ones of all loops over all sessions. Both come in the order of their time, and of their writing at
equal times. -/
theorem returns_newest (h : ∀ p, Stands entries p → p.1.Decodable) :
    (∀ s, ∃ found, Lists entries (Entry.Of s) (fun p => Stands entries p ∧ p.1.Of s) found ∧
      ((∃ x ∈ entries, x.Of s) → (ofEntries entries).load s = .ok (found.map fun p => p.1.trace)) ∧
      ((ofEntries entries).load s = .error (.sessionNotFound s) ↔ ∀ x ∈ entries, ¬x.Of s)) ∧
    ∃ found, Lists entries (fun _ => True) (Newest entries) found ∧
      (ofEntries entries).latest = .ok (found.map fun p => p.1.trace) := by
  refine ⟨?_, exists_latest h⟩
  intro s
  obtain ⟨found, hlists, hload⟩ := exists_loaded h s
  refine ⟨found, hlists, ?_, ?_⟩
  · rintro ⟨x, hx, hxs⟩
    rw [hload, if_neg fun hnil => hlists.eq_nil_iff.mp hnil x hx hxs]
  · rw [hload, ← hlists.eq_nil_iff]
    split
    · next hnil => exact iff_of_true rfl hnil
    · next hne => exact iff_of_false (by simp) hne

def contested : List Entry :=
  [.saved ⟨1⟩ { key := 9223372036854775813, code := some [.pop] } 10,
    .raw {
      session := "00000000-0000-0000-0000-000000000002", key := -9223372036854775803, start := ⟨0, 4⟩
      code := Wire.writeCode (some [.pop]), recorded := 10 },
    .saved ⟨1⟩ { key := 9223372036854775813, start := ⟨1, 2⟩, code := some [.plain .noop] } 3,
    .raw { session := "nobody", key := 7, start := {}, code := Wire.writeCode none, recorded := 10 },
    .saved ⟨2⟩ { key := 9, code := some [.pop] } 10]

theorem contested_decodable : ∀ p, Stands contested p → p.1.Decodable := by
  have hportable (i : Instr) (h : i.value.fields = []) : Code.Portable Wire.lengthLimit (some [i]) := by
    constructor
    · exact (by decide : 1 ≤ Wire.lengthLimit)
    · intro j hj
      obtain rfl := List.mem_singleton.mp hj
      simp [h]
  have hall : ∀ x ∈ contested, x.Decodable := by
    simp only [contested, List.forall_mem_cons, List.not_mem_nil, false_implies, implies_true, and_true]
    exact ⟨hportable _ rfl, ⟨_, Wire.readCode_writeCode (hportable _ rfl)⟩, hportable _ rfl, ⟨none, rfl⟩,
      hportable _ rfl⟩
  exact fun p hp => hall p.1 hp.mem

theorem listed_iff {chosen : Stamped → Prop} {listed : List Stamped} (hstands : ∀ p, chosen p → Stands entries p)
    (hto : ∀ p ∈ listed, chosen p) (hfrom : ∀ p ∈ entries.zipIdx, chosen p → p ∈ listed) (p : Stamped) :
    p ∈ listed ↔ chosen p :=
  ⟨hto p, fun hp => hfrom p (hstands p hp).made hp⟩

def contestedNewest : List Stamped := [(contested[1], 1), (contested[3], 3), (contested[4], 4)]

theorem mem_contestedNewest : ∀ p, p ∈ contestedNewest ↔ Newest contested p :=
  listed_iff (fun _ => Newest.stands) (by decide +kernel) (by decide +kernel)

theorem contestedNewest_sorted : contestedNewest.Pairwise Earlier := by decide +kernel

theorem returns_newest_contested :
    (∀ p, Stands contested p → p.1.Decodable) ∧
      (ofEntries contested).load ⟨1⟩ =
        .ok [{ key := 9223372036854775813, start := ⟨1, 2⟩, code := some [.plain .noop] }] ∧
      (ofEntries contested).load ⟨3⟩ = .error (.sessionNotFound ⟨3⟩) ∧
      (ofEntries contested).latest = .ok [
        { key := 9223372036854775813, start := ⟨0, 4⟩, code := some [.pop] }, { key := 7 },
        { key := 9, code := some [.pop] }] := by
  obtain ⟨hload, found, hlists, hlatest⟩ := returns_newest contested_decodable
  refine ⟨contested_decodable, ?_, ?_, ?_⟩
  · obtain ⟨found, hlists, hok, _⟩ := hload ⟨1⟩
    have hfound := hlists.eq [(contested[2], 2)]
      (listed_iff (fun _ => And.left) (by decide +kernel) (by decide +kernel)) (by decide +kernel)
    rw [hok (by decide +kernel), hfound]
    rfl
  · obtain ⟨_, _, _, hnone⟩ := hload ⟨3⟩
    exact hnone.mpr (by decide +kernel)
  · rw [hlatest, hlists.eq contestedNewest mem_contestedNewest contestedNewest_sorted]
    rfl

end Journal

end HotLoop
