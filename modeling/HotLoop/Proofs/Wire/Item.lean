import HotLoop.Wire.Item

namespace HotLoop.Wire

theorem length_bigEndian (k n : Nat) : (bigEndian k n).length = k := by
  induction k generalizing n with
  | zero => rfl
  | succ k ih => simp [bigEndian, ih]

theorem ofBigEndian_bigEndian {k n : Nat} (h : n < Nat.pow 256 k) : ofBigEndian (bigEndian k n) = n := by
  induction k generalizing n with
  | zero => exact (Nat.lt_one_iff.mp h).symm
  | succ k ih =>
    have hmul : n < Nat.pow 256 k * 256 := h
    have hprefix := ih (Nat.div_lt_of_lt_mul (Nat.mul_comm .. ▸ hmul))
    unfold ofBigEndian at hprefix ⊢
    rw [bigEndian, List.foldl_append, hprefix, List.foldl_cons, List.foldl_nil, UInt8.toNat_ofNat']
    omega

def headInfo (n : UInt64) : Nat :=
  if n < 24 then n.toNat
  else if n < 256 then 24
  else if n < 65536 then 25
  else if n < 4294967296 then 26
  else 27

theorem ofNat_ofBigEndian {k : Nat} {n : UInt64} (h : n.toNat < Nat.pow 256 k) :
    UInt64.ofNat (ofBigEndian (bigEndian k n.toNat)) = n := by
  rw [ofBigEndian_bigEndian h, UInt64.ofNat_toNat]

theorem head_eq (major : Nat) (n : UInt64) :
    ∃ width arg, head major n = UInt8.ofNat (major * 32 + headInfo n) :: arg ∧ headInfo n < 28 ∧
      Head.argWidth (headInfo n) = some width ∧ arg.length = width ∧
        UInt64.ofNat (if width = 0 then headInfo n else ofBigEndian arg) = n := by
  unfold head headInfo
  by_cases h₁ : n < 24
  · have hn : n.toNat < 24 := UInt64.lt_iff_toNat_lt.mp h₁
    simp only [h₁, if_true]
    refine ⟨0, [], rfl, by omega, ?_, rfl, ?_⟩
    · simp [Head.argWidth, hn]
    · simp
  · by_cases h₂ : n < 256
    · simp only [h₁, h₂, if_true, if_false]
      exact ⟨1, bigEndian 1 n.toNat, rfl, by decide, rfl, length_bigEndian _ _,
        ofNat_ofBigEndian (UInt64.lt_iff_toNat_lt.mp h₂)⟩
    · by_cases h₃ : n < 65536
      · simp only [h₁, h₂, h₃, if_true, if_false]
        exact ⟨2, bigEndian 2 n.toNat, rfl, by decide, rfl, length_bigEndian _ _,
          ofNat_ofBigEndian (UInt64.lt_iff_toNat_lt.mp h₃)⟩
      · by_cases h₄ : n < 4294967296
        · simp only [h₁, h₂, h₃, h₄, if_true, if_false]
          exact ⟨4, bigEndian 4 n.toNat, rfl, by decide, rfl, length_bigEndian _ _,
            ofNat_ofBigEndian (UInt64.lt_iff_toNat_lt.mp h₄)⟩
        · simp only [h₁, h₂, h₃, h₄, if_false]
          exact ⟨8, bigEndian 8 n.toNat, rfl, by decide, rfl, length_bigEndian _ _, ofNat_ofBigEndian n.toNat_lt⟩

theorem indefinite_headInfo (major : Nat) (n : UInt64) : Head.indefinite ⟨major, headInfo n, n⟩ = false := by
  obtain ⟨_, _, _, hinfo, _⟩ := head_eq major n
  have hdefinite : headInfo n ≠ 31 := by omega
  simp only [Head.indefinite, hdefinite, decide_false]

def Written (major : Nat) (n : UInt64) : Prop := major < 7 ∨ major = 7 ∧ n < 24

theorem Written.admissible {major : Nat} {n : UInt64} (h : Written major n) :
    Head.admissible ⟨major, headInfo n, n⟩ = true := by
  have hsimple : ¬(major = 7 ∧ headInfo n = 24) := by
    rintro ⟨rfl, hinfo⟩
    rcases h with hlt | ⟨_, hlt⟩
    · omega
    · have hn : n.toNat < 24 := UInt64.lt_iff_toNat_lt.mp hlt
      simp only [headInfo, hlt, if_true] at hinfo
      omega
  have hshort : (decide (major = 7) && decide (headInfo n = 24)) = false := by simpa using hsimple
  simp only [Head.admissible, indefinite_headInfo, hshort, Bool.false_and, Bool.not_false, Bool.and_self]

namespace Head

theorem read_head {major : Nat} {n : UInt64} (h : Written major n) (rest : Bytes) :
    read (head major n ++ rest) = some (⟨major, headInfo n, n⟩, rest) := by
  obtain ⟨width, arg, heq, hinfo, hwidth, harg, hn⟩ := head_eq major n
  have hbyte : (UInt8.ofNat (major * 32 + headInfo n)).toNat = major * 32 + headInfo n := by
    rw [UInt8.toNat_ofNat']
    rcases h with h | h
    · omega
    · omega
  have hmod : (major * 32 + headInfo n) % 32 = headInfo n := by omega
  have hdiv : (major * 32 + headInfo n) / 32 = major := by omega
  have hlen : ¬(arg ++ rest).length < width := by
    rw [List.length_append]
    omega
  have htake : (arg ++ rest).take width = arg := by rw [← harg, List.take_left]
  have hdrop : (arg ++ rest).drop width = rest := by rw [← harg, List.drop_left]
  rw [heq, List.cons_append]
  simp only [read, hbyte, hmod, hdiv, hwidth, Option.bind_eq_bind, Option.bind_some, hlen, if_false, htake, hn,
    h.admissible, if_true, hdrop]

end Head

theorem head_append_inj {major major' : Nat} {n n' : UInt64} {r s : Bytes} (h : Written major n)
    (h' : Written major' n') (heq : head major n ++ r = head major' n' ++ s) : major = major' ∧ n = n' ∧ r = s := by
  have hread := Head.read_head h r
  rw [heq, Head.read_head h' s] at hread
  simp only [Option.some.injEq, Prod.mk.injEq, Head.mk.injEq] at hread
  obtain ⟨⟨hmajor, _, hn⟩, hrest⟩ := hread
  exact ⟨hmajor.symm, hn.symm, hrest.symm⟩

theorem startsWithTag_head {major : Nat} {n : UInt64} (h : Written major n) (htag : major ≠ 6) (rest : Bytes) :
    startsWithTag (head major n ++ rest) = false := by
  obtain ⟨width, arg, heq, hinfo, _⟩ := head_eq major n
  rw [heq, List.cons_append, startsWithTag, UInt8.toNat_ofNat', decide_eq_false_iff_not]
  rcases h with h | h
  · omega
  · omega

theorem readTagged_head {major : Nat} {n : UInt64} (h : Written major n) (htag : major ≠ 6)
    (inner : Option (Reader Item)) (rest : Bytes) :
    readTagged inner (head major n ++ rest) = readPlain inner (head major n ++ rest) := by
  simp only [readTagged, startsWithTag_head h htag, Bool.false_eq_true, if_false]

theorem readChunk_append {n : Nat} {chunk : Bytes} (h : chunk.length = n) (rest : Bytes) :
    readChunk n (chunk ++ rest) = some (chunk, rest) := by
  subst h
  have hlen : ¬(chunk ++ rest).length < chunk.length := by
    rw [List.length_append]
    omega
  rw [readChunk, if_neg hlen, List.take_left, List.drop_left]

namespace Item

/-- Items with at most `limit` elements or pairs in each list, nested at most `depth` deep. Only the forms that occur
in code and programs are among them. -/
inductive Fits (limit : Nat) : Nat → Item → Prop
  | uint {depth : Nat} (n : UInt64) : Fits limit depth (.uint n)
  | nint {depth : Nat} (n : UInt64) : Fits limit depth (.nint n)
  | text {depth : Nat} {chunk : Bytes} (short : chunk.length < UInt64.size) : Fits limit depth (.text [chunk])
  | simple {depth : Nat} {n : UInt8} (small : n < 24) : Fits limit depth (.simple n)
  | array {depth : Nat} {items : List Item} (short : items.length ≤ limit)
    (inner : ∀ i ∈ items, Fits limit depth i) : Fits limit (depth + 1) (.array items)
  | map {depth pairs : Nat} {items : List Item} (paired : items.length = pairs * 2) (short : pairs ≤ limit)
    (inner : ∀ i ∈ items, Fits limit depth i) : Fits limit (depth + 1) (.map items)

theorem times_writeAll {r : Reader Item} {items : List Item}
    (h : ∀ i ∈ items, ∀ rest, r (i.write ++ rest) = some (i, rest)) (rest : Bytes) :
    times r items.length (writeAll items ++ rest) = some (items, rest) := by
  induction items with
  | nil => rfl
  | cons i items ih =>
    obtain ⟨hfirst, hrest⟩ := List.forall_mem_cons.mp h
    rw [writeAll, List.append_assoc, List.length_cons, times]
    simp only [hfirst, Option.bind_eq_bind, Option.bind_some, ih hrest]
    rfl

theorem write_simple {n : UInt8} (h : n < 24) : (simple n).write = head 7 n.toUInt64 := by
  have hn : n.toNat < 24 := UInt8.lt_iff_toNat_lt.mp h
  have hword : n.toUInt64 < 24 := UInt64.lt_iff_toNat_lt.mpr (by simpa using hn)
  have hbyte : 224 + n = UInt8.ofNat (7 * 32 + n.toNat) := by
    apply UInt8.toNat.inj
    rw [UInt8.toNat_add, UInt8.toNat_ofNat']
    rfl
  simp only [write, h, if_true, head, hword, hbyte, UInt8.toNat_toUInt64]

def major : Item → Nat
  | uint _ => 0
  | nint _ => 1
  | bytes _ => 2
  | text _ => 3
  | array _ => 4
  | map _ => 5
  | tag _ _ => 6
  | simple _ | float _ _ => 7

def argument : Item → UInt64
  | uint n | nint n | tag n _ | float _ n => n
  | bytes chunks | text chunks => UInt64.ofNat chunks.flatten.length
  | array items => UInt64.ofNat items.length
  | map items => UInt64.ofNat (items.length / 2)
  | simple n => n.toUInt64

def body : Item → Bytes
  | bytes chunks | text chunks => chunks.flatten
  | array items | map items => writeAll items
  | tag _ content => content.write
  | uint _ | nint _ | simple _ | float _ _ => []

variable {limit depth : Nat} {i : Item}

theorem Fits.write_eq (h : Fits limit depth i) : i.write = head i.major i.argument ++ i.body := by
  cases h with
  | uint | nint => simp only [write, major, argument, body, List.append_nil]
  | text => simp only [write, writeString, writeChunk, headOfLength, major, argument, body, List.flatten_singleton]
  | simple small => simp only [write_simple small, major, argument, body, List.append_nil]
  | array | map => simp only [write, headOfLength, major, argument, body]

theorem Fits.written (h : Fits limit depth i) : Written i.major i.argument := by
  cases h with
  | simple small =>
    refine .inr ⟨rfl, UInt64.lt_iff_toNat_lt.mpr ?_⟩
    simpa [argument] using UInt8.lt_iff_toNat_lt.mp small
  | uint | nint | text | array | map =>
    refine .inl ?_
    simp [major]

theorem Fits.major_ne (h : Fits limit depth i) : i.major ≠ 6 := by
  cases h <;> simp [major]

def nested : Nat → Option (Reader Item)
  | 0 => none
  | depth + 1 => some (readItem depth)

theorem readItem_eq (depth : Nat) : readItem depth = readTagged (nested depth) := by
  cases depth with
  | zero => rfl
  | succ depth => rfl

theorem Fits.readItem_write (h : Fits limit depth i) (rest : Bytes) :
    readItem depth (i.write ++ rest) =
      readPlain (nested depth) (head i.major i.argument ++ (i.body ++ rest)) := by
  rw [readItem_eq, h.write_eq, List.append_assoc, readTagged_head h.written h.major_ne]

theorem readSequence_writeAll {r : Reader Item} {items : List Item} {major pairs scale : Nat}
    (hlength : items.length = pairs * scale) (hlimit : pairs ≤ lengthLimit)
    (h : ∀ i ∈ items, ∀ rest, r (i.write ++ rest) = some (i, rest)) (rest : Bytes) :
    readSequence r ⟨major, headInfo (UInt64.ofNat pairs), UInt64.ofNat pairs⟩ scale (writeAll items ++ rest) =
      some (items, rest) := by
  have hpairs : (UInt64.ofNat pairs).toNat = pairs := by
    apply UInt64.toNat_ofNat_of_lt'
    simp only [lengthLimit, UInt64.size] at *
    omega
  simp only [readSequence, indefinite_headInfo, Bool.false_eq_true, if_false, hpairs, Nat.not_lt.mpr hlimit]
  rw [← hlength]
  exact times_writeAll h rest

theorem Fits.read_write (h : Fits limit depth i) (hlimit : limit ≤ lengthLimit) (rest : Bytes) :
    readItem depth (i.write ++ rest) = some (i, rest) := by
  induction h generalizing rest with
  | @uint depth n =>
    have hfits : Fits limit depth (.uint n) := .uint n
    rw [hfits.readItem_write, readPlain, Head.read_head hfits.written]
    rfl
  | @nint depth n =>
    have hfits : Fits limit depth (.nint n) := .nint n
    rw [hfits.readItem_write, readPlain, Head.read_head hfits.written]
    rfl
  | @text depth chunk short =>
    have hfits : Fits limit depth (.text [chunk]) := .text short
    rw [hfits.readItem_write, readPlain, Head.read_head hfits.written]
    have hlength : chunk.length = (UInt64.ofNat chunk.length).toNat := (UInt64.toNat_ofNat_of_lt' short).symm
    simp only [major, argument, body, List.flatten_singleton, Option.bind_eq_bind, Option.bind_some, readString,
      indefinite_headInfo, Bool.false_eq_true, if_false, readChunk_append hlength, Option.map_some]
  | @simple depth n small =>
    have hfits : Fits limit depth (.simple n) := .simple small
    have hinfo : headInfo n.toUInt64 ≤ 24 := by
      obtain hmajor | ⟨_, hlt⟩ := hfits.written
      · simp [major] at hmajor
      · simp only [argument] at hlt
        have : n.toUInt64.toNat < 24 := UInt64.lt_iff_toNat_lt.mp hlt
        simp only [headInfo, hlt, if_true]
        omega
    rw [hfits.readItem_write, readPlain, Head.read_head hfits.written]
    simp only [major, argument, body, List.nil_append, Option.bind_eq_bind, Option.bind_some, hinfo, if_true,
      UInt8.toUInt8_toUInt64]
  | @array depth items short inner ih =>
    have hfits : Fits limit (depth + 1) (.array items) := .array short inner
    rw [hfits.readItem_write, readPlain, Head.read_head hfits.written]
    simp only [major, argument, body, nested, Option.bind_eq_bind, Option.bind_some]
    rw [readSequence_writeAll (Nat.mul_one _).symm (Nat.le_trans short hlimit) ih]
    rfl
  | @map depth pairs items paired short inner ih =>
    have hfits : Fits limit (depth + 1) (.map items) := .map paired short inner
    have hpairs : items.length / 2 = pairs := by omega
    have heven : items.length % 2 = 0 := by omega
    rw [hfits.readItem_write, readPlain, Head.read_head hfits.written]
    simp only [major, argument, body, nested, hpairs, Option.bind_eq_bind, Option.bind_some]
    rw [readSequence_writeAll paired (Nat.le_trans short hlimit) ih]
    simp only [Option.bind_some, heven, if_true]

theorem writeAll_append_inj {items items' : List Item} (hlength : items.length = items'.length)
    (h : ∀ i ∈ items, ∀ j ∈ items', ∀ r s, i.write ++ r = j.write ++ s → i = j ∧ r = s) {r s : Bytes}
    (heq : writeAll items ++ r = writeAll items' ++ s) : items = items' ∧ r = s := by
  induction items generalizing items' with
  | nil =>
    obtain rfl : items' = [] := List.length_eq_zero_iff.mp hlength.symm
    exact ⟨rfl, heq⟩
  | cons i items ih =>
    obtain ⟨j, items', rfl⟩ := List.exists_cons_of_length_eq_add_one hlength.symm
    rw [writeAll, writeAll, List.append_assoc, List.append_assoc] at heq
    obtain ⟨rfl, hrest⟩ := h i (.head _) j (.head _) _ _ heq
    have htail : ∀ a ∈ items, ∀ b ∈ items', ∀ r s, a.write ++ r = b.write ++ s → a = b ∧ r = s :=
      fun a ha b hb => h a (.tail _ ha) b (.tail _ hb)
    obtain ⟨rfl, rfl⟩ := ih (Nat.succ.inj hlength) htail hrest
    exact ⟨rfl, rfl⟩

theorem ofNat_inj_of_lt {m n : Nat} (hm : m < UInt64.size) (hn : n < UInt64.size)
    (h : UInt64.ofNat m = UInt64.ofNat n) : m = n := by
  rw [← UInt64.toNat_ofNat_of_lt' hm, h, UInt64.toNat_ofNat_of_lt' hn]

theorem Fits.parts_eq {depth' : Nat} {j : Item} {r s : Bytes} (h : Fits limit depth i) (h' : Fits limit depth' j)
    (heq : i.write ++ r = j.write ++ s) :
    i.major = j.major ∧ i.argument = j.argument ∧ i.body ++ r = j.body ++ s := by
  rw [h.write_eq, h'.write_eq, List.append_assoc, List.append_assoc] at heq
  exact head_append_inj h.written h'.written heq

theorem Fits.write_append_inj {depth' : Nat} {j : Item} {r s : Bytes} (h : Fits limit depth i)
    (h' : Fits limit depth' j) (hlimit : limit < UInt64.size) (heq : i.write ++ r = j.write ++ s) :
    i = j ∧ r = s := by
  -- equal bytes have equal heads, so the items are of one form, and lists of one length
  induction h generalizing depth' j r s with
  | @uint depth n =>
    have hfits : Fits limit depth (.uint n) := .uint n
    obtain ⟨hmajor, harg, hbody⟩ := hfits.parts_eq h' heq
    cases h' with
    | uint => exact ⟨congrArg Item.uint harg, hbody⟩
    | _ => simp [major] at hmajor
  | @nint depth n =>
    have hfits : Fits limit depth (.nint n) := .nint n
    obtain ⟨hmajor, harg, hbody⟩ := hfits.parts_eq h' heq
    cases h' with
    | nint => exact ⟨congrArg Item.nint harg, hbody⟩
    | _ => simp [major] at hmajor
  | @text depth chunk short =>
    have hfits : Fits limit depth (.text [chunk]) := .text short
    obtain ⟨hmajor, harg, hbody⟩ := hfits.parts_eq h' heq
    cases h' with
    | text short' =>
      simp only [argument, body, List.flatten_singleton] at harg hbody
      obtain ⟨rfl, rfl⟩ := List.append_inj hbody (ofNat_inj_of_lt short short' harg)
      exact ⟨rfl, rfl⟩
    | _ => simp [major] at hmajor
  | @simple depth n small =>
    have hfits : Fits limit depth (.simple n) := .simple small
    obtain ⟨hmajor, harg, hbody⟩ := hfits.parts_eq h' heq
    cases h' with
    | simple => exact ⟨congrArg Item.simple (UInt8.toUInt64_inj.mp harg), hbody⟩
    | _ => simp [major] at hmajor
  | array short inner ih =>
    obtain ⟨hmajor, harg, hbody⟩ := parts_eq (.array short inner) h' heq
    cases h' with
    | array short' inner' =>
      have hlength := ofNat_inj_of_lt (Nat.lt_of_le_of_lt short hlimit) (Nat.lt_of_le_of_lt short' hlimit) harg
      obtain ⟨rfl, rfl⟩ := writeAll_append_inj hlength (fun a ha b hb r s => ih a ha (inner' b hb)) hbody
      exact ⟨rfl, rfl⟩
    | _ => simp [major] at hmajor
  | @map _ pairs items paired short inner ih =>
    obtain ⟨hmajor, harg, hbody⟩ := parts_eq (.map paired short inner) h' heq
    cases h' with
    | @map _ pairs' items' paired' short' inner' =>
      have hlength : items.length = items'.length := by
        have := ofNat_inj_of_lt (by omega) (by omega) harg
        omega
      obtain ⟨rfl, rfl⟩ := writeAll_append_inj hlength (fun a ha b hb r s => ih a ha (inner' b hb)) hbody
      exact ⟨rfl, rfl⟩
    | _ => simp [major] at hmajor

end Item

end HotLoop.Wire
