import HotLoop.Proofs.Wire.Codec

namespace HotLoop.Wire

theorem Head.length_read {bytes rest : Bytes} {h : Head} (hread : Head.read bytes = some (h, rest)) :
    rest.length ≤ bytes.length := by
  cases bytes with
  | nil => cases hread
  | cons b bytes =>
    obtain ⟨width, _, hread⟩ := Option.bind_eq_some_iff.mp hread
    split at hread
    · cases hread
    · obtain ⟨_, hread⟩ := Option.ite_none_right_eq_some.mp hread
      obtain ⟨_, rfl⟩ := Prod.mk.inj (Option.some.inj hread)
      rw [List.length_drop, List.length_cons]
      omega

theorem length_readChunk {n : Nat} {bytes chunk rest : Bytes} (h : readChunk n bytes = some (chunk, rest)) :
    chunk.length + rest.length = bytes.length := by
  unfold readChunk at h
  split at h
  · cases h
  · cases h
    rw [← List.length_append, List.take_append_drop]

theorem length_readChunks {major fuel : Nat} {bytes rest : Bytes} {chunks : List Bytes}
    (h : readChunks major fuel bytes = some (chunks, rest)) : chunks.flatten.length + rest.length ≤ bytes.length := by
  induction fuel generalizing bytes rest chunks with
  | zero =>
    cases bytes with
    | nil => cases h
    | cons b bytes =>
      rw [readChunks] at h
      split at h
      · cases h
        simp
      · cases h
  | succ fuel ih =>
    cases bytes with
    | nil => cases h
    | cons b bytes =>
      rw [readChunks] at h
      split at h
      · cases h
        simp
      · obtain ⟨⟨head, afterHead⟩, hhead, h⟩ := Option.bind_eq_some_iff.mp h
        simp only [] at h
        split at h
        · obtain ⟨⟨chunk, afterChunk⟩, hchunk, h⟩ := Option.bind_eq_some_iff.mp h
          obtain ⟨⟨more, afterMore⟩, hmore, h⟩ := Option.bind_eq_some_iff.mp h
          cases h
          have hafter := Head.length_read hhead
          have hlength := length_readChunk hchunk
          have hrest : more.flatten.length + afterMore.length ≤ afterChunk.length := ih hmore
          change (chunk ++ more.flatten).length + afterMore.length ≤ (b :: bytes).length
          rw [List.length_append]
          omega
        · cases h

theorem length_readString {head : Head} {bytes rest : Bytes} {chunks : List Bytes}
    (h : readString head bytes = some (chunks, rest)) :
    chunks.flatten.length ≤ bytes.length ∧ rest.length ≤ bytes.length := by
  unfold readString at h
  split at h
  · have hlength := length_readChunks h
    omega
  · obtain ⟨⟨chunk, after⟩, hchunk, heq⟩ := Option.map_eq_some_iff.mp h
    have hlength := length_readChunk hchunk
    cases heq
    rw [List.flatten_singleton]
    omega

namespace Item

inductive Within (size : Nat) : Item → Prop
  | uint (n : UInt64) : Within size (.uint n)
  | nint (n : UInt64) : Within size (.nint n)
  | bytes (chunks : List Bytes) : Within size (.bytes chunks)
  | text {chunks : List Bytes} (short : chunks.flatten.length ≤ size) : Within size (.text chunks)
  | array {items : List Item} (short : items.length ≤ lengthLimit) (inner : ∀ i ∈ items, Within size i) :
    Within size (.array items)
  | map {items : List Item} (inner : ∀ i ∈ items, Within size i) : Within size (.map items)
  | tag {n : UInt64} {content : Item} (inner : Within size content) : Within size (.tag n content)
  | simple (n : UInt8) : Within size (.simple n)
  | float (width : Nat) (bits : UInt64) : Within size (.float width bits)

theorem Within.mono {size size' : Nat} {i : Item} (h : Within size i) (hsize : size ≤ size') : Within size' i := by
  induction h with
  | uint n => exact .uint n
  | nint n => exact .nint n
  | bytes chunks => exact .bytes chunks
  | text short => exact .text (Nat.le_trans short hsize)
  | array short inner ih => exact .array short ih
  | map inner ih => exact .map ih
  | tag inner ih => exact .tag ih
  | simple n => exact .simple n
  | float width bits => exact .float width bits

def Bounded (r : Reader Item) : Prop :=
  ∀ ⦃bytes i rest⦄, r bytes = some (i, rest) → i.Within bytes.length ∧ rest.length ≤ bytes.length

theorem Bounded.cons {r : Reader Item} (hr : Bounded r) {bytes after rest : Bytes} {i : Item} {items : List Item}
    (hfirst : r bytes = some (i, after)) (hitems : ∀ j ∈ items, Within after.length j)
    (hrest : rest.length ≤ after.length) :
    (∀ j ∈ i :: items, Within bytes.length j) ∧ rest.length ≤ bytes.length := by
  obtain ⟨hi, hafter⟩ := hr hfirst
  exact ⟨List.forall_mem_cons.mpr ⟨hi, fun j hj => (hitems j hj).mono hafter⟩, Nat.le_trans hrest hafter⟩

theorem Bounded.times {r : Reader Item} (hr : Bounded r) {n : Nat} {bytes rest : Bytes} {items : List Item}
    (h : times r n bytes = some (items, rest)) :
    items.length ≤ n ∧ (∀ i ∈ items, Within bytes.length i) ∧ rest.length ≤ bytes.length := by
  induction n generalizing bytes rest items with
  | zero =>
    cases h
    exact ⟨Nat.le_refl 0, by simp, Nat.le_refl _⟩
  | succ n ih =>
    obtain ⟨⟨i, after⟩, hfirst, h⟩ := Option.bind_eq_some_iff.mp h
    obtain ⟨⟨more, afterMore⟩, hmore, h⟩ := Option.bind_eq_some_iff.mp h
    cases h
    obtain ⟨hlength, hitems, hrest⟩ := ih hmore
    exact ⟨Nat.succ_le_succ hlength, hr.cons hfirst hitems hrest⟩

theorem Bounded.untilBreak {r : Reader Item} (hr : Bounded r) {n : Nat} {bytes rest : Bytes} {items : List Item}
    (h : untilBreak r n bytes = some (items, rest)) :
    items.length ≤ n ∧ (∀ i ∈ items, Within bytes.length i) ∧ rest.length ≤ bytes.length := by
  induction n generalizing bytes rest items with
  | zero =>
    cases bytes with
    | nil => cases h
    | cons b bytes =>
      rw [Wire.untilBreak] at h
      split at h
      · cases h
        exact ⟨Nat.zero_le _, by simp, Nat.le_succ _⟩
      · cases h
  | succ n ih =>
    cases bytes with
    | nil => cases h
    | cons b bytes =>
      rw [Wire.untilBreak] at h
      split at h
      · cases h
        exact ⟨Nat.zero_le _, by simp, Nat.le_succ _⟩
      · obtain ⟨⟨i, after⟩, hfirst, h⟩ := Option.bind_eq_some_iff.mp h
        obtain ⟨⟨more, afterMore⟩, hmore, h⟩ := Option.bind_eq_some_iff.mp h
        cases h
        obtain ⟨hlength, hitems, hrest⟩ := ih hmore
        exact ⟨Nat.succ_le_succ hlength, hr.cons hfirst hitems hrest⟩

theorem Bounded.readSequence {r : Reader Item} (hr : Bounded r) {head : Head} {scale : Nat} {bytes rest : Bytes}
    {items : List Item} (h : readSequence r head scale bytes = some (items, rest)) :
    items.length ≤ lengthLimit * scale ∧ (∀ i ∈ items, Within bytes.length i) ∧ rest.length ≤ bytes.length := by
  unfold Wire.readSequence at h
  split at h
  · exact hr.untilBreak h
  · split at h
    · cases h
    · obtain ⟨hlength, hitems⟩ := hr.times h
      exact ⟨Nat.le_trans hlength (Nat.mul_le_mul_right scale (by omega)), hitems⟩

theorem bounded_readPlain {inner : Option (Reader Item)} (hinner : ∀ r, inner = some r → Bounded r) :
    Bounded (readPlain inner) := by
  intro bytes i rest h
  obtain ⟨⟨head, after⟩, hhead, h⟩ := Option.bind_eq_some_iff.mp h
  have hafter := Head.length_read hhead
  simp only [] at h
  split at h
  · cases h
    exact ⟨.uint _, hafter⟩
  · cases h
    exact ⟨.nint _, hafter⟩
  · obtain ⟨⟨chunks, _⟩, hchunks, heq⟩ := Option.map_eq_some_iff.mp h
    cases heq
    exact ⟨.bytes _, Nat.le_trans (length_readString hchunks).2 hafter⟩
  · obtain ⟨⟨chunks, _⟩, hchunks, heq⟩ := Option.map_eq_some_iff.mp h
    cases heq
    obtain ⟨htext, hrest⟩ := length_readString hchunks
    exact ⟨.text (Nat.le_trans htext hafter), Nat.le_trans hrest hafter⟩
  · obtain ⟨r, hr, h⟩ := Option.bind_eq_some_iff.mp h
    obtain ⟨⟨items, _⟩, hitems, h⟩ := Option.bind_eq_some_iff.mp h
    cases h
    obtain ⟨hlength, hwithin, hrest⟩ := (hinner r hr).readSequence hitems
    rw [Nat.mul_one] at hlength
    exact ⟨.array hlength fun j hj => (hwithin j hj).mono hafter, Nat.le_trans hrest hafter⟩
  · obtain ⟨r, hr, h⟩ := Option.bind_eq_some_iff.mp h
    obtain ⟨⟨items, _⟩, hitems, h⟩ := Option.bind_eq_some_iff.mp h
    obtain ⟨_, hwithin, hrest⟩ := (hinner r hr).readSequence hitems
    obtain ⟨_, heq⟩ := Option.ite_none_right_eq_some.mp h
    cases heq
    exact ⟨.map fun j hj => (hwithin j hj).mono hafter, Nat.le_trans hrest hafter⟩
  · split at h
    · cases h
      exact ⟨.simple _, hafter⟩
    · cases h
      exact ⟨.float _ _, hafter⟩
  · cases h

theorem bounded_readTagged {inner : Option (Reader Item)} (hinner : ∀ r, inner = some r → Bounded r) :
    Bounded (readTagged inner) := by
  intro bytes i rest h
  unfold readTagged at h
  split at h
  · obtain ⟨⟨head, after⟩, hhead, h⟩ := Option.bind_eq_some_iff.mp h
    have hafter := Head.length_read hhead
    simp only [] at h
    split at h
    · obtain ⟨r, hr, h⟩ := Option.bind_eq_some_iff.mp h
      obtain ⟨⟨content, _⟩, hcontent, h⟩ := Option.bind_eq_some_iff.mp h
      cases h
      obtain ⟨hwithin, hrest⟩ := hinner r hr hcontent
      exact ⟨.tag (hwithin.mono hafter), Nat.le_trans hrest hafter⟩
    · obtain ⟨⟨content, _⟩, hcontent, h⟩ := Option.bind_eq_some_iff.mp h
      cases h
      obtain ⟨hwithin, hrest⟩ := bounded_readPlain hinner hcontent
      exact ⟨.tag (hwithin.mono hafter), Nat.le_trans hrest hafter⟩
  · exact bounded_readPlain hinner h

theorem bounded_readItem (depth : Nat) : Bounded (readItem depth) := by
  induction depth with
  | zero => exact bounded_readTagged (by simp)
  | succ depth ih =>
    refine bounded_readTagged ?_
    rintro _ ⟨⟩
    exact ih

theorem within_read? {bytes : Bytes} {i : Item} (h : read? bytes = some i) : Within bytes.length i := by
  unfold read? at h
  split at h
  · next j hread =>
    cases h
    exact (bounded_readItem depthLimit hread).1
  · cases h

variable {size : Nat} {i j : Item}

theorem Within.payload? (h : Within size i) (hpayload : i.payload? = some j) : Within size j := by
  fun_induction Item.payload? i with
  | case1 n chunks hadmits hbignum =>
    obtain ⟨m, _, rfl⟩ := Option.map_eq_some_iff.mp hpayload
    split
    · exact .uint m
    · exact .nint m
  | case2 n chunks hadmits hbignum =>
    cases hpayload
    exact .bytes chunks
  | case3 n content hadmits hcontent ih =>
    cases h with
    | tag inner => exact ih inner hpayload
  | case4 n content hadmits => cases hpayload
  | case5 i huntagged =>
    cases hpayload
    exact h

theorem Within.entries? {items : List Item} (h : Within size i) (hentries : i.entries? = some items) :
    ∀ j ∈ items, Within size j := by
  obtain ⟨payload, hpayload, hentries⟩ := Option.bind_eq_some_iff.mp hentries
  have hwithin := h.payload? hpayload
  cases hwithin with
  | map inner =>
    obtain ⟨_, heq⟩ := Option.ite_none_right_eq_some.mp hentries
    cases heq
    exact inner
  | simple n =>
    obtain ⟨_, heq⟩ := Option.ite_none_right_eq_some.mp hentries
    cases heq
    simp
  | _ => cases hentries

theorem mapM_eq_some {α : Type} {element : Item → Option α} {items : List Item} {xs : List α}
    (h : items.mapM element = some xs) :
    items.length = xs.length ∧ ∀ x ∈ xs, ∃ j ∈ items, element j = some x := by
  induction items generalizing xs with
  | nil =>
    cases h
    simp
  | cons j items ih =>
    rw [List.mapM_cons] at h
    obtain ⟨x, hx, h⟩ := Option.bind_eq_some_iff.mp h
    obtain ⟨more, hmore, h⟩ := Option.bind_eq_some_iff.mp h
    cases h
    obtain ⟨hlength, hread⟩ := ih hmore
    refine ⟨congrArg (· + 1) hlength, List.forall_mem_cons.mpr ⟨⟨j, .head _, hx⟩, fun y hy => ?_⟩⟩
    obtain ⟨k, hk, hy⟩ := hread y hy
    exact ⟨k, .tail _ hk, hy⟩

theorem Within.list? {α : Type} {element : Item → Option α} {xs : List α} (h : Within size i)
    (hlist : i.list? element = some (some xs)) :
    xs.length ≤ lengthLimit ∧ ∀ x ∈ xs, ∃ j, Within size j ∧ element j = some x := by
  obtain ⟨payload, hpayload, hlist⟩ := Option.bind_eq_some_iff.mp hlist
  have hwithin := h.payload? hpayload
  cases hwithin with
  | @array items short inner =>
    obtain ⟨_, hmap, heq⟩ := Option.map_eq_some_iff.mp hlist
    cases heq
    obtain ⟨hlength, hread⟩ := mapM_eq_some hmap
    refine ⟨hlength ▸ short, fun x hx => ?_⟩
    obtain ⟨j, hj, hx⟩ := hread x hx
    exact ⟨j, inner j hj, hx⟩
  | simple n =>
    obtain ⟨_, heq⟩ := Option.ite_none_right_eq_some.mp hlist
    cases heq
  | _ => cases hlist

theorem isText_flatten {chunks : List Bytes} (h : chunks.all isText = true) : isText chunks.flatten = true := by
  induction chunks with
  | nil => rfl
  | cons chunk chunks ih =>
    rw [List.all_cons, Bool.and_eq_true] at h
    have hfirst := ByteArray.validateUTF8_eq_true_iff.mp h.1
    have hrest := ByteArray.validateUTF8_eq_true_iff.mp (ih h.2)
    have happend : ByteArray.mk (chunk :: chunks).flatten.toArray =
        ByteArray.mk chunk.toArray ++ ByteArray.mk chunks.flatten.toArray := by
      apply ByteArray.ext
      simp
    rw [isText, happend]
    exact ByteArray.validateUTF8_eq_true_iff.mpr (hfirst.append hrest)

theorem Within.string? {s : Bytes} (h : Within size i) (hstring : i.string? = some s) :
    s.length ≤ size ∧ isText s = true := by
  obtain ⟨payload, hpayload, hstring⟩ := Option.bind_eq_some_iff.mp hstring
  have hwithin := h.payload? hpayload
  cases hwithin with
  | text short =>
    obtain ⟨hvalid, heq⟩ := Option.ite_none_right_eq_some.mp hstring
    cases heq
    exact ⟨short, isText_flatten hvalid⟩
  | simple n =>
    obtain ⟨_, heq⟩ := Option.ite_none_right_eq_some.mp hstring
    cases heq
    exact ⟨Nat.zero_le size, rfl⟩
  | _ => cases hstring

theorem mem_of_entry_eq_some {n : Nat} {items : List Item} (h : entry? n items = some j) : j ∈ items := by
  fun_induction entry? n items with
  | case1 key value rest hkey =>
    cases h
    simp
  | case2 key value rest hkey ih => exact .tail _ (.tail _ (ih h))
  | case3 => cases h

theorem field?_cases {α : Type} {zero a : α} {value : Item → Option α} {n : Nat} {items : List Item}
    (h : field? zero value n items = some a) (hitems : ∀ j ∈ items, Within size j) :
    a = zero ∨ ∃ j, Within size j ∧ value j = some a := by
  unfold field? at h
  split at h
  · cases h
    exact .inl rfl
  · next j hentry => exact .inr ⟨j, hitems j (mem_of_entry_eq_some hentry), h⟩

theorem field?_list? {α : Type} {element : Item → Option α} {n : Nat} {items : List Item} {xs : Option (List α)}
    (h : field? none (list? element) n items = some xs) (hitems : ∀ j ∈ items, Within size j) :
    (xs.getD []).length ≤ lengthLimit ∧ ∀ x ∈ xs.getD [], ∃ j, Within size j ∧ element j = some x := by
  rcases field?_cases h hitems with rfl | ⟨j, hj, hlist⟩
  · simp
  · cases xs with
    | none => simp
    | some xs => exact hj.list? hlist

end Item

end HotLoop.Wire

namespace HotLoop

open Wire

variable {size : Nat} {item : Item}

theorem Value.length_fields {v : Value} (h : item.Within size) (hread : Value.ofItem? item = some v) :
    v.fields.length ≤ lengthLimit := by
  obtain ⟨entries, hentries, hread⟩ := Option.bind_eq_some_iff.mp hread
  obtain ⟨kind, _, hread⟩ := Option.bind_eq_some_iff.mp hread
  obtain ⟨int, _, hread⟩ := Option.bind_eq_some_iff.mp hread
  obtain ⟨uint, _, hread⟩ := Option.bind_eq_some_iff.mp hread
  obtain ⟨bool, _, hread⟩ := Option.bind_eq_some_iff.mp hread
  obtain ⟨cell, _, hread⟩ := Option.bind_eq_some_iff.mp hread
  obtain ⟨fields, hfields, hread⟩ := Option.bind_eq_some_iff.mp hread
  cases hread
  exact (Item.field?_list? hfields (h.entries? hentries)).1

theorem Instr.length_fields {i : Instr} (h : item.Within size) (hread : Instr.ofItem? item = some i) :
    i.value.fields.length ≤ lengthLimit := by
  obtain ⟨entries, hentries, hread⟩ := Option.bind_eq_some_iff.mp hread
  obtain ⟨code, _, hread⟩ := Option.bind_eq_some_iff.mp hread
  obtain ⟨n, _, hread⟩ := Option.bind_eq_some_iff.mp hread
  obtain ⟨value, hvalue, hread⟩ := Option.bind_eq_some_iff.mp hread
  obtain ⟨operator, _, hread⟩ := Option.bind_eq_some_iff.mp hread
  obtain ⟨guard, _, hread⟩ := Option.bind_eq_some_iff.mp hread
  obtain ⟨site, _, hread⟩ := Option.bind_eq_some_iff.mp hread
  cases hread
  rcases Item.field?_cases hvalue (h.entries? hentries) with rfl | ⟨j, hj, hread⟩
  · exact Nat.zero_le lengthLimit
  · exact Value.length_fields hj hread

theorem Code.portable_of_field {n : Nat} {entries : List Item} {c : Code} (h : ∀ j ∈ entries, j.Within size)
    (hread : Item.field? none Code.ofItem? n entries = some c) : Code.Portable lengthLimit c := by
  obtain ⟨hlength, hinstrs⟩ := Item.field?_list? hread h
  refine ⟨hlength, fun i hi => ?_⟩
  obtain ⟨j, hj, hread⟩ := hinstrs i hi
  exact Instr.length_fields hj hread

theorem Function.portable_of_item {f : Function} (hsize : size < UInt64.size) (h : item.Within size)
    (hread : Function.ofItem? item = some f) : f.Portable lengthLimit ∧ f.Legible := by
  obtain ⟨entries, hentries, hread⟩ := Option.bind_eq_some_iff.mp hread
  obtain ⟨name, hname, hread⟩ := Option.bind_eq_some_iff.mp hread
  obtain ⟨params, _, hread⟩ := Option.bind_eq_some_iff.mp hread
  obtain ⟨locals, _, hread⟩ := Option.bind_eq_some_iff.mp hread
  obtain ⟨mergePoint, _, hread⟩ := Option.bind_eq_some_iff.mp hread
  obtain ⟨body, hbody, hread⟩ := Option.bind_eq_some_iff.mp hread
  cases hread
  have hentries := h.entries? hentries
  have hbody := Code.portable_of_field hentries hbody
  rcases Item.field?_cases hname hentries with rfl | ⟨j, hj, hread⟩
  · exact ⟨⟨Nat.zero_lt_succ _, hbody⟩, rfl⟩
  · obtain ⟨hlength, hvalid⟩ := hj.string? hread
    exact ⟨⟨Nat.lt_of_le_of_lt hlength hsize, hbody⟩, hvalid⟩

theorem eq_of_nullable? {α : Type} {value : Item → Option α} {a : α}
    (h : Item.nullable? value item = some (some a)) : value item = some a := by
  unfold Item.nullable? at h
  split at h
  · cases h
  · obtain ⟨_, hvalue, heq⟩ := Option.map_eq_some_iff.mp h
    cases heq
    exact hvalue

theorem Program.portable_of_item {p : Program} (hsize : size < UInt64.size) (h : item.Within size)
    (hread : Program.ofItem? item = some p) : p.Portable lengthLimit ∧ p.Legible := by
  obtain ⟨entries, hentries, hread⟩ := Option.bind_eq_some_iff.mp hread
  obtain ⟨table, htable, hread⟩ := Option.bind_eq_some_iff.mp hread
  cases hread
  obtain ⟨hlength, hfunctions⟩ := Item.field?_list? htable (h.entries? hentries)
  have hportable : ∀ f, some f ∈ (⟨table⟩ : Program).entries → f.Portable lengthLimit ∧ f.Legible := by
    intro f hf
    obtain ⟨j, hj, hread⟩ := hfunctions (some f) hf
    exact Function.portable_of_item hsize hj (eq_of_nullable? hread)
  exact ⟨⟨hlength, fun f hf => (hportable f hf).1⟩, fun f hf => (hportable f hf).2⟩

namespace Wire

theorem readEnvelope?_eq_some {α : Type} {zero a : α} {value : Item → Option α} {bytes : Bytes} {v : Nat}
    (h : readEnvelope? zero value bytes = some (v, a)) :
    ∃ entries, (∀ j ∈ entries, j.Within bytes.length) ∧ Item.field? zero value 2 entries = some a := by
  obtain ⟨item, hread, h⟩ := Option.bind_eq_some_iff.mp h
  obtain ⟨entries, hentries, h⟩ := Option.bind_eq_some_iff.mp h
  obtain ⟨v, _, h⟩ := Option.bind_eq_some_iff.mp h
  obtain ⟨a, hvalue, h⟩ := Option.bind_eq_some_iff.mp h
  cases h
  exact ⟨entries, (Item.within_read? hread).entries? hentries, hvalue⟩

theorem portable_of_readCode {bytes : Bytes} {c : Code} (h : readCode bytes = .ok c) :
    Code.Portable lengthLimit c := by
  unfold readCode at h
  split at h
  · cases h
  · next v d henvelope =>
    split at h
    · cases h
      obtain ⟨entries, hentries, hread⟩ := readEnvelope?_eq_some henvelope
      exact Code.portable_of_field hentries hread
    · cases h

theorem portable_of_readProgram {bytes : Bytes} {p : Program} (hsize : bytes.length < UInt64.size)
    (h : readProgram bytes = .ok p) : (p.Portable lengthLimit ∧ p.Legible) ∧ p.check = .ok () := by
  unfold readProgram at h
  split at h
  · cases h
  · next v o henvelope =>
    split at h
    · split at h
      · cases h
      · next q =>
        split at h
        · next hcheck =>
          cases h
          refine ⟨?_, hcheck⟩
          obtain ⟨entries, hentries, hread⟩ := readEnvelope?_eq_some henvelope
          rcases Item.field?_cases hread hentries with heq | ⟨j, hj, hread⟩
          · cases heq
          · exact Program.portable_of_item hsize hj (eq_of_nullable? hread)
        · cases h
    · cases h

/-- Code and programs within the limits read back as they were written, a program with the verdict of its check and
if its names are texts. What is read off accepted bytes is within the limits, so writing it and reading again changes
nothing. -/
theorem codec_round_trip :
    (∀ c : Code, Code.Portable lengthLimit c → readCode (writeCode c) = .ok c) ∧
    (∀ p : Program, p.Portable lengthLimit → p.Legible →
      readProgram (writeProgram (some p)) =
        match p.check with
        | .ok () => .ok p
        | .error e => .error (.invalid e)) ∧
    (∀ c d : Code, Code.Portable wordLimit c → Code.Portable wordLimit d → writeCode c = writeCode d → c = d) ∧
    (∀ p q : Program, p.Portable wordLimit → q.Portable wordLimit →
      writeProgram (some p) = writeProgram (some q) → p = q) ∧
    (∀ (bytes : Bytes) (c : Code), readCode bytes = .ok c → readCode (writeCode c) = .ok c) ∧
    (∀ (bytes : Bytes) (p : Program), bytes.length < UInt64.size → readProgram bytes = .ok p →
      readProgram (writeProgram (some p)) = .ok p) := by
  refine ⟨fun c => readCode_writeCode, fun p => readProgram_writeProgram, fun c d => writeCode_inj,
    fun p q => writeProgram_inj, ?_, ?_⟩
  · intro bytes c h
    exact readCode_writeCode (portable_of_readCode h)
  · intro bytes p hsize h
    obtain ⟨⟨hportable, hlegible⟩, hcheck⟩ := portable_of_readProgram hsize h
    rw [readProgram_writeProgram hportable hlegible, hcheck]

def extremeCode : Code :=
  some [
    .const { kind := .other 246, int := Int64.minValue, uint := 18446744073709551615, bool := true,
             cell := 4294967295, fields := [0, 4294967295] },
    { code := .other 224, n := -1, operator := .other 239, guard := ⟨true, ⟨Int64.maxValue, 24⟩⟩,
      site := ⟨65536, 4294967296⟩ }]

def namedProgram : Program where
  table := some [some {
    name := Text.bytes "größe", locals := 1, mergePoint := -1, body := some [.load 0, .plain .ret] }]

theorem codec_round_trip_extremes :
    (Code.Portable lengthLimit extremeCode ∧ readCode (writeCode extremeCode) = .ok extremeCode) ∧
    (namedProgram.Portable lengthLimit ∧ namedProgram.Legible ∧
      readProgram (writeProgram (some namedProgram)) = .ok namedProgram) ∧
    readProgram (writeProgram (some { table := some [none] })) = .error (.invalid (.absentFunction 0)) ∧
    writeCode none ≠ writeCode (some []) ∧ writeProgram (some {}) ≠ writeProgram (some namedProgram) ∧
    (readCode [191, 2, 128, 24, 1, 24, 1, 255] = .ok (some []) ∧ readCode (writeCode (some [])) = .ok (some [])) ∧
    (readProgram [191, 2, 160, 1, 1, 255] = .ok {} ∧ readProgram (writeProgram (some {})) = .ok {}) := by
  obtain ⟨hcode, hprogram, hcodes, hprograms, hcodeRead, hprogramRead⟩ := codec_round_trip
  have hextreme : Code.Portable lengthLimit extremeCode := by decide
  have hnamed : namedProgram.Portable lengthLimit := by decide
  have hlegible : namedProgram.Legible := by decide +kernel
  have hempty : readCode [191, 2, 128, 24, 1, 24, 1, 255] = .ok (some []) := rfl
  have habsent : readProgram [191, 2, 160, 1, 1, 255] = .ok {} := rfl
  refine ⟨⟨hextreme, hcode _ hextreme⟩, ⟨hnamed, hlegible, hprogram _ hnamed hlegible⟩,
    hprogram _ (by decide) (by decide), ?_, ?_,
    ⟨hempty, hcodeRead _ _ hempty⟩, ⟨habsent, hprogramRead _ _ (by decide) habsent⟩⟩
  · intro h
    cases hcodes none (some []) (by decide) (by decide) h
  · intro h
    cases hprograms {} namedProgram (by decide) (by decide) h

end Wire

end HotLoop
