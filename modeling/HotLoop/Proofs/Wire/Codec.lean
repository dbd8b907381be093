import HotLoop.Proofs.Wire.Field

namespace HotLoop

open Wire

theorem Kind.ofByte_toByte (k : Kind) : Kind.ofByte k.toByte = k := by
  cases k with
  | other n =>
    have hsize : n.val + 9 < 256 := by omega
    have hn := UInt8.toNat_ofNat_of_lt' hsize
    simp only [toByte, ofByte, hn, Nat.le_add_left, dif_pos, Nat.add_sub_cancel]
  | _ => rfl

theorem Opcode.ofByte_toByte (c : Opcode) : Opcode.ofByte c.toByte = c := by
  cases c with
  | other n =>
    have hsize : n.val + 31 < 256 := by omega
    have hn := UInt8.toNat_ofNat_of_lt' hsize
    simp only [toByte, ofByte, hn, Nat.le_add_left, dif_pos, Nat.add_sub_cancel]
  | _ => rfl

theorem Operator.ofByte_toByte (o : Operator) : Operator.ofByte o.toByte = o := by
  cases o with
  | other n =>
    have hsize : n.val + 16 < 256 := by omega
    have hn := UInt8.toNat_ofNat_of_lt' hsize
    simp only [toByte, ofByte, hn, Nat.le_add_left, dif_pos, Nat.add_sub_cancel]
  | _ => rfl

theorem byte?_uint (b : UInt8) : byte? (.uint b.toUInt64) = some b := by
  have hlt : b.toUInt64.toNat < Nat.pow 2 8 := by
    rw [UInt8.toNat_toUInt64]
    exact b.toNat_lt
  rw [byte?, Item.unsigned?_uint hlt, UInt8.toNat_toUInt64, Option.map_some, UInt8.ofNat_toNat]

theorem cell?_uint (c : CellId) : cell? (.uint c.toUInt64) = some c := by
  have hlt : c.toUInt64.toNat < Nat.pow 2 32 := by
    rw [UInt32.toNat_toUInt64]
    exact c.toNat_lt
  rw [cell?, Item.unsigned?_uint hlt, UInt32.toNat_toUInt64, Option.map_some, UInt32.ofNat_toNat]

theorem unsigned?_nonzero {bits n : Nat} (h : n < Nat.pow 2 bits) (hbits : bits ≤ 64) :
    (nonzero n).elim (some 0) (Item.unsigned? bits) = some n := by
  by_cases hzero : n = 0
  · subst hzero
    rfl
  · have hsize : n < UInt64.size := Nat.lt_of_lt_of_le h (Nat.pow_le_pow_right (by decide) hbits)
    have hn := UInt64.toNat_ofNat_of_lt' hsize
    rw [nonzero, if_neg hzero, Option.elim_some, Item.unsigned?_uint (hn.symm ▸ h), hn]

theorem elim_map {α : Type} (f : Nat → α) (value : Item → Option Nat) (o : Option Item) :
    o.elim (some (f 0)) (fun i => (value i).map f) = (o.elim (some 0) value).map f := by
  cases o with
  | none => rfl
  | some i => rfl

theorem byte?_nonzero (b : UInt8) : (nonzero b.toNat).elim (some 0) byte? = some b := by
  have h := elim_map UInt8.ofNat (Item.unsigned? 8) (nonzero b.toNat)
  rwa [unsigned?_nonzero b.toNat_lt (by decide), Option.map_some, UInt8.ofNat_toNat] at h

theorem cell?_nonzero (c : CellId) : (nonzero c.toNat).elim (some 0) cell? = some c := by
  have h := elim_map UInt32.ofNat (Item.unsigned? 32) (nonzero c.toNat)
  rwa [unsigned?_nonzero c.toNat_lt (by decide), Option.map_some, UInt32.ofNat_toNat] at h

theorem elim_ite {α : Type} {zero a : α} {i : Item} {value : Item → Option α} {p : Prop} [Decidable p]
    (hzero : p → a = zero) (h : value i = some a) :
    (if p then none else some i : Option Item).elim (some zero) value = some a := by
  by_cases hp : p
  · rw [if_pos hp, hzero hp]
    rfl
  · rw [if_neg hp]
    exact h

theorem Position.ofItem?_toItem (p : Position) : Position.ofItem? p.toItem = some p := by
  refine Item.bind_entries? ?_
  refine Item.bind_field? rfl rfl (Item.signed?_ofInt64 _) ?_
  refine Item.bind_field? rfl rfl (Item.signed?_ofInt64 _) ?_
  rfl

theorem Guard.ofItem?_toItem (g : Guard) : Guard.ofItem? g.toItem = some g := by
  refine Item.bind_entries? ?_
  refine Item.bind_field? rfl rfl (Item.bool?_ofBool _) ?_
  refine Item.bind_field? rfl rfl (Position.ofItem?_toItem _) ?_
  rfl

theorem Value.ofItem?_toItem (v : Value) : Value.ofItem? v.toItem = some v := by
  have hbool : (if v.bool then some (Item.ofBool true) else none).elim (some false) Item.bool? = some v.bool := by
    cases v.bool with
    | false => rfl
    | true => rfl
  have hfields : (if v.fields = [] then none else some (Item.array (v.fields.map fun c => .uint c.toUInt64))).elim
      (some none) (Item.list? cell?) = some (if v.fields = [] then none else some v.fields) := by
    by_cases hnil : v.fields = []
    · rw [if_pos hnil, if_pos hnil]
      rfl
    · rw [if_neg hnil, if_neg hnil]
      exact Item.list?_array fun c _ => cell?_uint c
  refine Item.bind_entries? ?_
  refine Item.bind_field? rfl rfl (byte?_uint _) ?_
  refine Item.bind_omissible? rfl rfl (elim_ite id (Item.signed?_ofInt64 _)) ?_
  refine Item.bind_omissible? rfl rfl (unsigned?_nonzero v.uint.toNat_lt (by decide)) ?_
  refine Item.bind_omissible? rfl rfl hbool ?_
  refine Item.bind_omissible? rfl rfl (cell?_nonzero _) ?_
  refine Item.bind_omissible? rfl rfl hfields ?_
  have hgetD : (if v.fields = [] then none else some v.fields).getD [] = v.fields := by
    by_cases hnil : v.fields = []
    · rw [if_pos hnil, hnil]
      rfl
    · rw [if_neg hnil]
      rfl
  rw [Kind.ofByte_toByte, UInt64.ofNat_toNat, hgetD]
  rfl

theorem Instr.ofItem?_toItem (i : Instr) : Instr.ofItem? i.toItem = some i := by
  refine Item.bind_entries? ?_
  refine Item.bind_field? rfl rfl (byte?_uint _) ?_
  refine Item.bind_omissible? rfl rfl (elim_ite id (Item.signed?_ofInt64 _)) ?_
  refine Item.bind_field? rfl rfl (Value.ofItem?_toItem _) ?_
  refine Item.bind_omissible? rfl rfl (byte?_nonzero _) ?_
  refine Item.bind_field? rfl rfl (Guard.ofItem?_toItem _) ?_
  refine Item.bind_field? rfl rfl (Position.ofItem?_toItem _) ?_
  rw [Opcode.ofByte_toByte, Operator.ofByte_toByte]
  rfl

theorem Code.ofItem?_toItem (c : Code) : Code.ofItem? (Code.toItem c) = some c :=
  Item.list?_ofList? fun i _ => i.ofItem?_toItem

def Function.Legible (f : Function) : Prop := Item.isText f.name = true

def Program.Legible (p : Program) : Prop := ∀ f, some f ∈ p.entries → f.Legible

theorem Function.ofItem?_toItem {f : Function} (h : f.Legible) : Function.ofItem? f.toItem = some f := by
  refine Item.bind_entries? ?_
  refine Item.bind_omissible? rfl rfl (elim_ite id (Item.string?_ofString h)) ?_
  refine Item.bind_field? rfl rfl (Item.signed?_ofInt64 _) ?_
  refine Item.bind_field? rfl rfl (Item.signed?_ofInt64 _) ?_
  refine Item.bind_field? rfl rfl (Item.signed?_ofInt64 _) ?_
  refine Item.bind_field? rfl rfl (Code.ofItem?_toItem _) ?_
  rfl

theorem nullable?_record {α : Type} {entries : List (Nat × Option Item)} {value : Item → Option α} {a : α}
    (h : value (.record entries) = some a) : Item.nullable? value (.record entries) = some (some a) := by
  have hnull : (Item.record entries).isNull = false := rfl
  rw [Item.nullable?, hnull, h]
  rfl

theorem Program.ofItem?_toItem {p : Program} (h : p.Legible) : Program.ofItem? p.toItem = some p := by
  refine Item.bind_entries? ?_
  refine Item.bind_field? rfl rfl (Item.list?_ofList? fun f hf => ?_) ?_
  · cases f with
    | none => rfl
    | some f => exact nullable?_record (Function.ofItem?_toItem (h f hf))
  · rfl

theorem Code.toItem_inj {c d : Code} (h : Code.toItem c = Code.toItem d) : c = d := by
  have heq := congrArg Code.ofItem? h
  rw [Code.ofItem?_toItem, Code.ofItem?_toItem] at heq
  exact Option.some.inj heq

theorem Function.toItem_inj {f g : Function} (h : f.toItem = g.toItem) : f = g := by
  have hname := Item.entry_eq_of_record (n := 1) h rfl rfl rfl rfl
  have hparams := Item.entry_eq_of_record (n := 2) h rfl rfl rfl rfl
  have hlocals := Item.entry_eq_of_record (n := 3) h rfl rfl rfl rfl
  have hmergePoint := Item.entry_eq_of_record (n := 4) h rfl rfl rfl rfl
  have hbody := Item.entry_eq_of_record (n := 5) h rfl rfl rfl rfl
  have hnames : f.name = g.name := by
    by_cases hf : f.name = []
    · by_cases hg : g.name = []
      · rw [hf, hg]
      · simp [hf, hg] at hname
    · by_cases hg : g.name = []
      · simp [hf, hg] at hname
      · simpa [hf, hg, Item.ofString] using hname
  cases f
  cases g
  rw [Function.mk.injEq]
  exact ⟨hnames, Item.ofInt64_inj (Option.some.inj hparams), Item.ofInt64_inj (Option.some.inj hlocals),
    Item.ofInt64_inj (Option.some.inj hmergePoint), Code.toItem_inj (Option.some.inj hbody)⟩

theorem Program.toItem_inj {p q : Program} (h : p.toItem = q.toItem) : p = q := by
  have htable := Item.entry_eq_of_record (n := 1) h rfl rfl rfl rfl
  have hentries : p.table = q.table := by
    refine Item.ofList?_inj ?_ (Option.some.inj htable)
    intro a b heq
    cases a with
    | none =>
      cases b with
      | none => rfl
      | some g => cases heq
    | some f =>
      cases b with
      | none => cases heq
      | some g => rw [Function.toItem_inj heq]
  exact congrArg Program.mk hentries

def Code.Portable (limit : Nat) (c : Code) : Prop :=
  (c.getD []).length ≤ limit ∧ ∀ i ∈ c.getD [], i.value.fields.length ≤ limit

structure Function.Portable (limit : Nat) (f : Function) : Prop where
  name : f.name.length < UInt64.size
  body : Code.Portable limit f.body

structure Program.Portable (limit : Nat) (p : Program) : Prop where
  length : p.entries.length ≤ limit
  functions : ∀ f, some f ∈ p.entries → f.Portable limit

section Decidable

variable (limit : Nat)

instance (c : Code) : Decidable (Code.Portable limit c) := inferInstanceAs (Decidable (_ ∧ _))

instance (f : Function) : Decidable (f.Portable limit) :=
  decidable_of_iff (f.name.length < UInt64.size ∧ Code.Portable limit f.body)
    ⟨fun h => ⟨h.1, h.2⟩, fun h => ⟨h.name, h.body⟩⟩

instance (p : Program) : Decidable (p.Portable limit) :=
  decidable_of_iff (p.entries.length ≤ limit ∧ ∀ o ∈ p.entries, ∀ f ∈ o, f.Portable limit)
    ⟨fun h => ⟨h.1, fun f hf => h.2 (some f) hf f rfl⟩,
      fun h => ⟨h.length, fun _ ho f hf => h.functions f (Option.mem_def.mp hf ▸ ho)⟩⟩

end Decidable

instance (f : Function) : Decidable f.Legible := inferInstanceAs (Decidable (_ = true))

instance (p : Program) : Decidable p.Legible :=
  decidable_of_iff (∀ o ∈ p.entries, ∀ f ∈ o, f.Legible)
    ⟨fun h f hf => h (some f) hf f rfl, fun h _ ho f hf => h f (Option.mem_def.mp hf ▸ ho)⟩

section Fits

variable {limit depth : Nat}

theorem entryFits_nonzero (n : Nat) : Item.EntryFits limit depth (nonzero n) :=
  Item.entryFits_ite Item.entryFits_none (Item.entryFits_some (.uint _))

variable (hlimit : 24 ≤ limit)
include hlimit

theorem Position.fits (p : Position) : Item.Fits limit (depth + 1) p.toItem := by
  refine .record hlimit rfl ⟨?_, ?_, trivial⟩
  · exact Item.entryFits_some (.ofInt64 _)
  · exact Item.entryFits_some (.ofInt64 _)

theorem Guard.fits (g : Guard) : Item.Fits limit (depth + 2) g.toItem := by
  refine .record hlimit rfl ⟨?_, ?_, trivial⟩
  · exact Item.entryFits_some (.ofBool _)
  · exact Item.entryFits_some (Position.fits hlimit _)

theorem Value.fits {v : Value} (h : v.fields.length ≤ limit) : Item.Fits limit (depth + 2) v.toItem := by
  refine .record hlimit rfl ⟨?_, ?_, ?_, ?_, ?_, ?_, trivial⟩
  · exact Item.entryFits_some (.uint _)
  · exact Item.entryFits_ite Item.entryFits_none (Item.entryFits_some (.ofInt64 _))
  · exact entryFits_nonzero _
  · exact Item.entryFits_ite (Item.entryFits_some (.ofBool _)) Item.entryFits_none
  · exact entryFits_nonzero _
  · have hfields : Item.Fits limit (depth + 1) (.ofList? (fun c : CellId => .uint c.toUInt64) (some v.fields)) :=
      .ofList? h fun c _ => .uint _
    exact Item.entryFits_ite Item.entryFits_none (Item.entryFits_some hfields)

theorem Instr.fits {i : Instr} (h : i.value.fields.length ≤ limit) : Item.Fits limit (depth + 3) i.toItem := by
  refine .record hlimit rfl ⟨?_, ?_, ?_, ?_, ?_, ?_, trivial⟩
  · exact Item.entryFits_some (.uint _)
  · exact Item.entryFits_ite Item.entryFits_none (Item.entryFits_some (.ofInt64 _))
  · exact Item.entryFits_some (Value.fits hlimit h)
  · exact entryFits_nonzero _
  · exact Item.entryFits_some (Guard.fits hlimit _)
  · exact Item.entryFits_some (Position.fits hlimit _)

theorem Code.Portable.fits {c : Code} (h : Code.Portable limit c) : Item.Fits limit (depth + 4) (Code.toItem c) :=
  .ofList? h.1 fun i hi => Instr.fits hlimit (h.2 i hi)

theorem Function.Portable.fits {f : Function} (h : f.Portable limit) : Item.Fits limit (depth + 5) f.toItem := by
  refine .record hlimit rfl ⟨?_, ?_, ?_, ?_, ?_, trivial⟩
  · exact Item.entryFits_ite Item.entryFits_none (Item.entryFits_some (.ofString h.name))
  · exact Item.entryFits_some (.ofInt64 _)
  · exact Item.entryFits_some (.ofInt64 _)
  · exact Item.entryFits_some (.ofInt64 _)
  · exact Item.entryFits_some (h.body.fits hlimit)

theorem Program.Portable.fits {p : Program} (h : p.Portable limit) : Item.Fits limit (depth + 7) p.toItem := by
  refine .record hlimit rfl ⟨Item.entryFits_some (.ofList? h.length fun f hf => ?_), trivial⟩
  cases f with
  | none => exact .simple (by decide)
  | some f => exact (h.functions f hf).fits hlimit

theorem fits_envelope {content : Item} (h : Item.Fits limit depth content) :
    Item.Fits limit (depth + 1) (envelope content) := by
  refine .record hlimit rfl ⟨?_, ?_, trivial⟩
  · exact Item.entryFits_some (.uint _)
  · exact Item.entryFits_some h

end Fits

namespace Wire

theorem envelope_inj {i j : Item} (h : envelope i = envelope j) : i = j := by
  injection h with h
  injection h with _ h
  injection h with _ h
  injection h with _ h
  injection h with h _

def wordLimit : Nat := UInt64.size - 1

theorem write_envelope_inj {depth depth' : Nat} {i j : Item} (hi : Item.Fits wordLimit depth i)
    (hj : Item.Fits wordLimit depth' j) (h : (envelope i).write = (envelope j).write) : i = j := by
  have hlimit : 24 ≤ wordLimit := by decide
  have happend : (envelope i).write ++ [] = (envelope j).write ++ [] := congrArg (· ++ []) h
  obtain ⟨heq, _⟩ := (fits_envelope hlimit hi).write_append_inj (fits_envelope hlimit hj) (by decide) happend
  exact envelope_inj heq

theorem writeCode_inj {c d : Code} (hc : Code.Portable wordLimit c) (hd : Code.Portable wordLimit d)
    (h : writeCode c = writeCode d) : c = d := by
  have hfits (e : Code) (he : Code.Portable wordLimit e) : Item.Fits wordLimit 4 (Code.toItem e) :=
    he.fits (by decide)
  exact Code.toItem_inj (write_envelope_inj (hfits c hc) (hfits d hd) h)

theorem writeProgram_inj {p q : Program} (hp : p.Portable wordLimit) (hq : q.Portable wordLimit)
    (h : writeProgram (some p) = writeProgram (some q)) : p = q := by
  have hfits (r : Program) (hr : r.Portable wordLimit) : Item.Fits wordLimit 7 r.toItem := hr.fits (by decide)
  exact Program.toItem_inj (write_envelope_inj (hfits p hp) (hfits q hq) h)

theorem readEnvelope?_write {α : Type} {zero a : α} {value : Item → Option α} {content : Item}
    (hfits : Item.Fits lengthLimit 31 content) (hvalue : value content = some a) :
    readEnvelope? zero value (envelope content).write = some (version, a) := by
  have hread : Item.read? (envelope content).write = some (envelope content) := by
    have h := (fits_envelope (by decide) hfits).read_write (Nat.le_refl lengthLimit) []
    rw [List.append_nil] at h
    rw [Item.read?, depthLimit, h]
  rw [readEnvelope?, hread, Option.bind_eq_bind, Option.bind_some]
  refine Item.bind_entries? ?_
  refine Item.bind_field? rfl rfl (Item.unsigned?_uint (by decide)) ?_
  refine Item.bind_field? rfl rfl hvalue ?_
  rfl

theorem readCode_writeCode {c : Code} (h : Code.Portable lengthLimit c) : readCode (writeCode c) = .ok c := by
  have hfits : Item.Fits lengthLimit (27 + 4) (Code.toItem c) := h.fits (by decide)
  rw [readCode, writeCode, readEnvelope?_write hfits (Code.ofItem?_toItem c)]
  rfl

theorem readProgram_writeProgram {p : Program} (h : p.Portable lengthLimit) (hlegible : p.Legible) :
    readProgram (writeProgram (some p)) =
      match p.check with
      | .ok () => .ok p
      | .error e => .error (.invalid e) := by
  have hfits : Item.Fits lengthLimit (24 + 7) p.toItem := h.fits (by decide)
  have hvalue : Item.nullable? Program.ofItem? p.toItem = some (some p) :=
    nullable?_record (Program.ofItem?_toItem hlegible)
  rw [readProgram, writeProgram]
  cases hcheck : p.check <;>
    simp only [Option.map_some, Option.getD_some, readEnvelope?_write hfits hvalue, if_true, hcheck]

end Wire

end HotLoop
