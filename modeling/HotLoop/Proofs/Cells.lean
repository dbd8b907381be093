import HotLoop.Proofs.References

/-!
The cells that a machine names are allocated, and every instruction keeps them so, also when it fails half way: what
it pops, copies or promotes is allocated, and what it allocates stays so. Therefore no read or write goes outside the
heap, no pointer dangles, and only a block that cannot be had makes an instruction crash.
-/

namespace HotLoop

def Value.All (P : CellId → Prop) (v : Value) : Prop :=
  (v.kind = .record → ∀ c ∈ v.fields, P c) ∧ (v.kind = .pointer → P v.cell)

def Operand.All (P : CellId → Prop) : Operand → Prop
  | .owned v => v.All P
  | .place c => P c

instance (P : CellId → Prop) [DecidablePred P] (v : Value) : Decidable (v.All P) :=
  decidable_of_iff ((v.kind = .record → v.fields.all (fun c => P c) = true) ∧ (v.kind = .pointer → P v.cell))
    (by simp [Value.All])

instance (P : CellId → Prop) [DecidablePred P] : (x : Operand) → Decidable (x.All P)
  | .owned v => inferInstanceAs (Decidable (v.All P))
  | .place c => inferInstanceAs (Decidable (P c))

def Value.Within (n : Nat) (v : Value) : Prop := v.All fun c => c.toNat < n

def Operand.Within (n : Nat) (x : Operand) : Prop := x.All fun c => c.toNat < n

/-- Every cell named on the stack, in a frame or in a cell is allocated. -/
structure Machine.Closed (m : Machine) : Prop where
  stack : ∀ x ∈ m.stack, x.Within m.heap.size
  frames : ∀ f ∈ m.frames, ∀ c ∈ f.locals, c.toNat < m.heap.size
  heap : ∀ v ∈ m.heap.cells, v.Within m.heap.size

def Instr.Primitive (i : Instr) : Prop := i.code = .const → i.value.isPrimitive = true

instance (i : Instr) : Decidable i.Primitive := inferInstanceAs (Decidable (_ → _))

def Program.Primitive (prog : Program) : Prop := ∀ f, some f ∈ prog.entries → ∀ i ∈ f.instrs, i.Primitive

namespace Value

variable {P Q : CellId → Prop} {n n' : Nat} {v : Value}

theorem All.imp (h : v.All P) (hpq : ∀ c, P c → Q c) : v.All Q :=
  ⟨fun hk c hc => hpq c (h.1 hk c hc), fun hk => hpq _ (h.2 hk)⟩

theorem All.of_isPrimitive (h : v.isPrimitive = true) : v.All P := by
  simp only [isPrimitive, ne_eq, decide_eq_true_eq] at h
  exact ⟨fun hk => absurd hk h.1, fun hk => absurd hk h.2⟩

theorem all_record {cells : List CellId} (h : ∀ c ∈ cells, P c) : (record cells).All P :=
  ⟨fun _ => h, fun hk => Kind.noConfusion hk⟩

theorem all_pointer {c : CellId} (h : P c) : (pointer c).All P :=
  ⟨fun hk => Kind.noConfusion hk, fun _ => h⟩

theorem all_zip_unmarked {cells : List CellId} (hcells : ∀ c ∈ cells, P c) (hv : v.All Q) :
    ∀ p ∈ cells.zip [v, ofBool false], P p.1 ∧ p.2.All Q := by
  intro p hp
  obtain ⟨hcell, hvalue⟩ := List.of_mem_zip hp
  refine ⟨hcells _ hcell, ?_⟩
  rcases (by simpa using hvalue : p.2 = v ∨ p.2 = ofBool false) with heq | heq
  · rw [heq]
    exact hv
  · rw [heq]
    exact .of_isPrimitive rfl

theorem Within.mono (h : v.Within n) (hn : n ≤ n') : v.Within n' := All.imp h fun _ hc => Nat.lt_of_lt_of_le hc hn

end Value

theorem Operand.Within.mono {n n' : Nat} {x : Operand} (h : x.Within n) (hn : n ≤ n') : x.Within n' := by
  cases x with
  | owned v => exact Value.Within.mono h hn
  | place c => exact Nat.lt_of_lt_of_le h hn

theorem Machine.Closed.grow {m : Machine} (hm : m.Closed) {heap : Heap} (hsize : m.heap.size ≤ heap.size)
    (hheap : ∀ v ∈ heap.cells, v.Within heap.size) : Closed { m with heap } :=
  ⟨fun x hx => (hm.stack x hx).mono hsize, fun f hf c hc => Nat.lt_of_lt_of_le (hm.frames f hf c hc) hsize, hheap⟩

namespace Heap

variable {h h' : Heap} {c : CellId} {v : Value} {n k : Nat}

theorem load?_isSome (hc : c.toNat < h.size) : ∃ v ∈ h.cells, h.load? c = some v :=
  ⟨h.cells[c.toNat], Array.getElem_mem hc, Array.getElem?_eq_getElem hc⟩

theorem store?_isSome (hc : c.toNat < h.size) (v : Value) : h.store? c v = some ⟨h.cells.set! c.toNat v⟩ := if_pos hc

theorem toNat_alloc_lt (h : Heap) (v : Value) : (h.alloc v).1.toNat < (h.alloc v).2.size := by
  have hle : (UInt32.ofNat h.cells.size).toNat ≤ h.cells.size := by
    rw [UInt32.toNat_ofNat']
    exact Nat.mod_le _ _
  simpa [alloc, size] using Nat.lt_succ_of_le hle

theorem blockSize?_eq_none {k : Int64} : blockSize? k = none ↔ k < 0 ∨ blockLimit < k.toNatClampNeg := by
  unfold blockSize?
  split <;> simp_all

theorem size_allocUnits (h : Heap) (k : Nat) : (h.allocUnits k).2.size = h.size + k := by
  simp [allocUnits, size]

theorem toNat_allocUnits_lt (h : Heap) (k : Nat) : ∀ c ∈ (h.allocUnits k).1, c.toNat < (h.allocUnits k).2.size := by
  intro c hc
  rw [size_allocUnits]
  obtain ⟨i, hi, rfl⟩ := List.mem_map.mp hc
  have hle : (UInt32.ofNat (h.size + i)).toNat ≤ h.size + i := by
    rw [UInt32.toNat_ofNat']
    exact Nat.mod_le _ _
  have := List.mem_range.mp hi
  omega

end Heap

namespace Program

variable {prog : Program} {P : CellId → Prop} {v w : Value}

theorem Primitive.resolve_cases (hprog : prog.Primitive) (h : prog.resolve v = .ok w) :
    w = v ∨ w.isPrimitive = true := by
  rcases Relation.ReflTransGen.cases_tail (resolve_eq_ok.mp h).1 with rfl | ⟨u, -, hrefers⟩
  · exact .inl rfl
  · obtain ⟨f, i, hf, hi, hcode, rfl⟩ := hrefers.first
    exact .inr (hprog f (List.mem_of_getElem? hf) i (List.mem_of_head? hi) hcode)

theorem Primitive.resolve (hprog : prog.Primitive) (hv : v.All P) (h : prog.resolve v = .ok w) : w.All P := by
  rcases hprog.resolve_cases h with rfl | hw
  · exact hv
  · exact .of_isPrimitive hw

end Program

namespace Operator

variable {o : Operator} {l r v : Value} {c : Cause}

theorem apply_isPrimitive (h : o.apply l r = .ok v) : v.isPrimitive = true := by
  unfold apply at h
  split at h
  · split at h
    · cases o <;> simp only [onSigned] at h <;> (try split at h) <;> cases h <;> rfl
    · cases o <;> simp only [onUnsigned] at h <;> (try split at h) <;> cases h <;> rfl
    · cases o <;> simp only [onUnsigned] at h <;> (try split at h) <;> cases h <;> rfl
    · cases o <;> simp only [onBool] at h <;> cases h <;> rfl
    · cases h
  · cases h

theorem apply_ne_shape (h : o.apply l r = .error c) (e : ShapeError) : c ≠ .shape e := by
  rintro rfl
  unfold apply at h
  split at h
  · split at h
    · cases o <;> simp only [onSigned] at h <;> (try split at h) <;> cases h
    · cases o <;> simp only [onUnsigned] at h <;> (try split at h) <;> cases h
    · cases o <;> simp only [onUnsigned] at h <;> (try split at h) <;> cases h
    · cases o <;> simp only [onBool] at h <;> cases h
    · cases h
  · cases h

end Operator

namespace Exec

variable {α β : Type} {n : Nat} {A : Prop} {R : Nat → α → Prop} {S : Nat → β → Prop} {prog : Program}

/-- On `m`, an action leaves a closed machine with no fewer cells, and `R` relates their number to its result. It finds
no dangling pointer, and crashes only if `A`. -/
structure Kept (m : Machine) (A : Prop) (R : Nat → α → Prop) (x : Exec α) : Prop where
  closed : (after x m).Closed
  size : m.heap.size ≤ (after x m).heap.size
  result : ∀ a m', x m = .ok a m' → R m'.heap.size a
  crash : ∀ m', x m = .error .crash m' → A
  points : ∀ c m', x m ≠ .error (.fault (.shape (.dangling c))) m'

def Keeps (n : Nat) (A : Prop) (R : Nat → α → Prop) (x : Exec α) : Prop :=
  ∀ m : Machine, m.Closed → n ≤ m.heap.size → Kept m A R x

namespace Kept

variable {m m' : Machine} {x : Exec α}

theorem of_ok {a : α} (h : x m = .ok a m') (hm : m'.Closed) (hsize : m.heap.size ≤ m'.heap.size)
    (hr : R m'.heap.size a) : Kept m A R x := by
  have hafter : after x m = m' := by rw [after, h]
  refine ⟨hafter ▸ hm, hafter ▸ hsize, ?_, ?_, ?_⟩
  · intro a' m'' h'
    cases h.symm.trans h'
    exact hr
  · intro m'' h'
    cases h.symm.trans h'
  · intro c m'' h'
    cases h.symm.trans h'

theorem of_fault {c : Cause} (h : x m = .error (.fault c) m) (hm : m.Closed) (hc : ∀ d, c ≠ .shape (.dangling d)) :
    Kept m A R x := by
  have hafter : after x m = m := by rw [after, h]
  refine ⟨by rwa [hafter], Nat.le_of_eq (by rw [hafter]), ?_, ?_, ?_⟩
  · intro a m' h'
    cases h.symm.trans h'
  · intro m' h'
    cases h.symm.trans h'
  · intro d m' h'
    cases h.symm.trans h'
    exact hc d rfl

theorem ok (h : Kept m A R x) {a : α} (hx : x m = .ok a m') :
    m'.Closed ∧ m.heap.size ≤ m'.heap.size ∧ R m'.heap.size a := by
  have hafter : after x m = m' := by rw [after, hx]
  exact ⟨hafter ▸ h.closed, hafter ▸ h.size, h.result a m' hx⟩

theorem weaken (h : Kept m A R x) {B : Prop} (hab : A → B) : Kept m B R x :=
  ⟨h.closed, h.size, h.result, fun m' hc => hab (h.crash m' hc), h.points⟩

theorem imp (h : Kept m A R x) {Q : Nat → α → Prop} (hq : ∀ n a, R n a → Q n a) : Kept m A Q x :=
  ⟨h.closed, h.size, fun a m' ha => hq _ a (h.result a m' ha), h.crash, h.points⟩

theorem bind {f : α → Exec β} (hx : Kept m A R x) (hf : ∀ a m₁, x m = .ok a m₁ → Kept m₁ A S (f a)) :
    Kept m A S (x >>= f) := by
  cases hr : x m with
  | ok a m₁ =>
    have hbind : (x >>= f) m = f a m₁ := by rw [bind_apply, hr]
    have hafter : after (x >>= f) m = after (f a) m₁ := by rw [after, after, hbind]
    obtain ⟨_, hsize, _⟩ := hx.ok hr
    obtain ⟨hclosed', hsize', hresult', hcrash', hpoints'⟩ := hf a m₁ hr
    exact ⟨hafter ▸ hclosed', hafter ▸ Nat.le_trans hsize hsize', hbind ▸ hresult', hbind ▸ hcrash', hbind ▸ hpoints'⟩
  | error e m₁ =>
    have hbind : (x >>= f) m = .error e m₁ := by rw [bind_apply, hr]
    have hafter : after (x >>= f) m = after x m := by rw [after, after, hbind, hr]
    refine ⟨hafter ▸ hx.closed, hafter ▸ hx.size, ?_, ?_, ?_⟩
    · intro b m' h
      cases hbind.symm.trans h
    · intro m' h
      cases hbind.symm.trans h
      exact hx.crash _ hr
    · intro c m' h
      cases hbind.symm.trans h
      exact hx.points c _ hr

end Kept

theorem keeps_pure {a : α} (h : ∀ n', n ≤ n' → R n' a) : Keeps n A R (pure a) :=
  fun _ hm hn => .of_ok rfl hm (Nat.le_refl _) (h _ hn)

theorem keeps_fault {c : Cause} (h : ∀ d, c ≠ .shape (.dangling d)) : Keeps n A R (fault c) :=
  fun _ hm _ => .of_fault rfl hm h

theorem keeps_crash (h : A) : Keeps n A R crash :=
  fun _ hm _ => ⟨hm, Nat.le_refl _, fun _ _ => nofun, fun _ _ => h, fun _ _ => nofun⟩

theorem keeps_bind {x : Exec α} {f : α → Exec β} (hx : Keeps n A R x)
    (hf : ∀ n' a, n ≤ n' → R n' a → Keeps n' A S (f a)) : Keeps n A S (x >>= f) := by
  intro m hm hn
  apply (hx m hm hn).bind
  intro a m₁ h₁
  obtain ⟨hclosed, hsize, hr⟩ := (hx m hm hn).ok h₁
  exact hf _ a (Nat.le_trans hn hsize) hr m₁ hclosed (Nat.le_refl _)

theorem keeps_check {c : Prop} [Decidable c] {e : Cause} (he : ∀ d, e ≠ .shape (.dangling d)) {x : Exec α}
    (hx : ¬c → Keeps n A R x) : Keeps n A R (if c then fault e >>= fun (_ : PUnit) => x else x) := by
  by_cases hc : c
  · rw [if_pos hc]
    exact keeps_bind (R := fun _ _ => False) (keeps_fault he) fun _ _ _ h => h.elim
  · rw [if_neg hc]
    exact hx hc

theorem keeps_require {c : Cause} (hc : ∀ d, c ≠ .shape (.dangling d)) {o : Option α}
    (h : ∀ a, o = some a → ∀ n', n ≤ n' → R n' a) : Keeps n A R (require c o) := by
  cases o with
  | none => exact keeps_fault hc
  | some a => exact keeps_pure (h a rfl)

theorem keeps_ofExcept {r : Except Cause α} (he : ∀ c, r = .error c → ∀ d, c ≠ .shape (.dangling d))
    (h : ∀ a, r = .ok a → ∀ n', n ≤ n' → R n' a) : Keeps n A R (ofExcept r) := by
  cases r with
  | error c => exact keeps_fault (he c rfl)
  | ok a => exact keeps_pure (h a rfl)

theorem keeps_push {x : Operand} (hx : x.Within n) : Keeps n A (fun _ _ => True) (push x) := by
  intro m hm hn
  refine .of_ok rfl ⟨?_, hm.frames, hm.heap⟩ (Nat.le_refl _) trivial
  exact List.forall_mem_cons.mpr ⟨hx.mono hn, hm.stack⟩

theorem keeps_pushValue {v : Value} (hv : v.Within n) : Keeps n A (fun _ _ => True) (pushValue v) :=
  keeps_push (x := .owned v) hv

theorem keeps_pop : Keeps n A (fun n x => x.Within n) pop := by
  intro m hm hn
  cases hs : m.stack with
  | nil => exact .of_fault (pop_nil hs) hm (by simp)
  | cons x rest =>
    obtain ⟨hx, hrest⟩ := List.forall_mem_cons.mp (hs ▸ hm.stack)
    exact .of_ok (pop_cons hs) ⟨hrest, hm.frames, hm.heap⟩ (Nat.le_refl _) hx

theorem keeps_peek : Keeps n A (fun n x => x.Within n) peek := by
  intro m hm hn
  cases hs : m.stack with
  | nil => exact .of_fault (by rw [peek_apply, hs]; rfl) hm (by simp)
  | cons x rest => exact .of_ok (by rw [peek_apply, hs]; rfl) hm (Nat.le_refl _) (hm.stack x (by simp [hs]))

theorem keeps_materialize {x : Operand} (hx : x.Within n) : Keeps n A (fun n v => v.Within n) (materialize x) := by
  intro m hm hn
  have hs : ∃ v, m.heap.materialize? x = some v ∧ v.Within m.heap.size := by
    cases x with
    | owned v => exact ⟨v, rfl, Value.Within.mono hx hn⟩
    | place c =>
      obtain ⟨v, hmem, hv⟩ := Heap.load?_isSome (Nat.lt_of_lt_of_le hx hn)
      exact ⟨v, hv, hm.heap v hmem⟩
  obtain ⟨v, hv, hwithin⟩ := hs
  have hm' : materialize x m = .ok v m := by
    change ofOption (m.heap.materialize? x) m = _
    rw [hv]
    rfl
  exact .of_ok hm' hm (Nat.le_refl _) hwithin

theorem keeps_valueOf (hprog : prog.Primitive) {x : Operand} (hx : x.Within n) :
    Keeps n A (fun n v => v.Within n) (valueOf prog x) := by
  apply keeps_bind (keeps_materialize hx)
  intro n₁ v _ hv
  apply keeps_ofExcept
  · intro c hc d
    obtain ⟨e, rfl⟩ := Program.resolve_error hc
    simp
  · intro w hw n' hn'
    exact Value.Within.mono (hprog.resolve hv hw) hn'

theorem keeps_popValue (hprog : prog.Primitive) : Keeps n A (fun n v => v.Within n) (popValue prog) :=
  keeps_bind keeps_pop fun _ _ _ hx => keeps_valueOf hprog hx

theorem keeps_peekValue (hprog : prog.Primitive) : Keeps n A (fun n v => v.Within n) (peekValue prog) :=
  keeps_bind keeps_peek fun _ _ _ hx => keeps_valueOf hprog hx

theorem keeps_popRecord (hprog : prog.Primitive) :
    Keeps n A (fun n v => ∀ c ∈ v.fields, c.toNat < n) (popRecord prog) := by
  apply keeps_bind (keeps_popValue hprog)
  intro n₁ v _ hv
  split
  · rename_i hk
    exact keeps_pure fun n' hn' c hc => Nat.lt_of_lt_of_le (hv.1 hk c hc) hn'
  · exact keeps_fault (by simp)

theorem keeps_popIndex (hprog : prog.Primitive) : Keeps n A (fun _ _ => True) (popIndex prog) := by
  apply keeps_bind (keeps_popValue hprog)
  intro n₁ v _ _
  split
  · exact keeps_pure fun _ _ => trivial
  · exact keeps_fault (by simp)

theorem keeps_asBool (v : Value) : Keeps n A (fun _ _ => True) (asBool v) := by
  unfold asBool
  split
  · exact keeps_pure fun _ _ => trivial
  · exact keeps_fault (by simp)

theorem keeps_field {v : Value} (h : ∀ c ∈ v.fields, c.toNat < n) (index : Int64) :
    Keeps n A (fun n c => c.toNat < n) (field v index) := by
  apply keeps_require (by simp)
  intro c hc n' hn'
  obtain ⟨_, hget⟩ := nth?_eq_some.mp hc
  exact Nat.lt_of_lt_of_le (h c (List.mem_of_getElem? hget)) hn'

theorem keeps_topFrame : Keeps n A (fun n f => ∀ c ∈ f.locals, c.toNat < n) topFrame := by
  intro m hm hn
  have ht : topFrame m = require .noFrame m.top? m := rfl
  cases htop : m.top? with
  | none => exact .of_fault (by rw [ht, htop]; rfl) hm (by simp)
  | some f =>
    exact .of_ok (by rw [ht, htop]; rfl) hm (Nat.le_refl _) (hm.frames f (List.mem_of_head? htop))

theorem keeps_localCell (slot : Int64) : Keeps n A (fun n c => c.toNat < n) (localCell slot) := by
  apply keeps_bind keeps_topFrame
  intro n₁ f _ hf
  apply keeps_require (by simp)
  intro c hc n' hn'
  obtain ⟨_, hget⟩ := nth?_eq_some.mp hc
  exact Nat.lt_of_lt_of_le (hf c (List.mem_of_getElem? hget)) hn'

theorem store_of_lt {m : Machine} {c : CellId} (hc : c.toNat < m.heap.size) (v : Value) :
    store c v m = .ok () { m with heap := ⟨m.heap.cells.set! c.toNat v⟩ } := by
  rw [store_apply_eq, Heap.store?_isSome hc]

theorem keeps_store {c : CellId} {v : Value} (hc : c.toNat < n) (hv : v.Within n) :
    Keeps n A (fun _ _ => True) (store c v) := by
  intro m hm hn
  have hsize : (⟨m.heap.cells.set! c.toNat v⟩ : Heap).size = m.heap.size := by simp [Heap.size]
  refine .of_ok (store_of_lt (Nat.lt_of_lt_of_le hc hn) v) ⟨?_, ?_, ?_⟩ (Nat.le_of_eq hsize.symm) trivial
  · simpa only [hsize] using hm.stack
  · simpa only [hsize] using hm.frames
  · intro w hw
    rw [hsize]
    rcases Array.mem_or_eq_of_mem_setIfInBounds hw with hw | rfl
    · exact hm.heap w hw
    · exact hv.mono hn

theorem keeps_alloc {v : Value} (hv : v.Within n) : Keeps n A (fun n c => c.toNat < n) (alloc v) := by
  intro m hm hn
  have hsize : m.heap.size ≤ (m.heap.alloc v).2.size := by simp [Heap.alloc, Heap.size]
  refine .of_ok rfl (hm.grow hsize ?_) hsize (Heap.toNat_alloc_lt m.heap v)
  intro w hw
  rcases Array.mem_push.mp hw with hw | rfl
  · exact (hm.heap w hw).mono hsize
  · exact hv.mono (Nat.le_trans hn hsize)

theorem keeps_allocUnits (k : Nat) : Keeps n A (fun n cells => ∀ c ∈ cells, c.toNat < n) (allocUnits k) := by
  intro m hm hn
  have hsize : m.heap.size ≤ (m.heap.allocUnits k).2.size := by
    rw [Heap.size_allocUnits]
    omega
  refine .of_ok rfl (hm.grow hsize ?_) hsize (Heap.toNat_allocUnits_lt m.heap k)
  intro w hw
  rcases Array.mem_append.mp hw with hw | hw
  · exact (hm.heap w hw).mono hsize
  · obtain ⟨_, rfl⟩ := Array.mem_replicate.mp hw
    exact .of_isPrimitive rfl

theorem keeps_promote {x : Operand} (hx : x.Within n) : Keeps n A (fun n c => c.toNat < n) (promote x) := by
  cases x with
  | owned v => exact keeps_alloc hx
  | place c => exact keeps_pure fun n' hn' => Nat.lt_of_lt_of_le hx hn'

theorem keeps_blockSize {k : Int64} (h : Heap.blockSize? k = none → A) :
    Keeps n A (fun _ _ => True) (ofOption (Heap.blockSize? k)) := by
  cases hs : Heap.blockSize? k with
  | none => exact keeps_crash (h hs)
  | some size => exact keeps_pure fun _ _ => trivial

theorem of_blockSize?_none {k : Int64} (hk : ¬k < 0) (h : Heap.blockLimit < k.toNatClampNeg → A) :
    Heap.blockSize? k = none → A := by
  intro hs
  rcases Heap.blockSize?_eq_none.mp hs with hneg | hlt
  · exact absurd hneg hk
  · exact h hlt

theorem keeps_newRecord {k : Int64} (h : Heap.blockSize? k = none → A) :
    Keeps n A (fun n v => v.kind = .record ∧ ∀ c ∈ v.fields, c.toNat < n) (newRecord k) := by
  apply keeps_bind (keeps_blockSize h)
  intro n₁ size _ _
  apply keeps_bind (keeps_allocUnits size)
  intro n₂ cells _ hcells
  exact keeps_pure fun n' hn' => ⟨rfl, fun c hc => Nat.lt_of_lt_of_le (hcells c hc) hn'⟩

theorem keeps_storeAll {ps : List (CellId × Value)} (h : ∀ p ∈ ps, p.1.toNat < n ∧ p.2.Within n) :
    Keeps n A (fun _ _ => True) (storeAll ps) := by
  induction ps generalizing n with
  | nil => exact keeps_pure fun _ _ => trivial
  | cons p rest ih =>
    obtain ⟨⟨hc, hv⟩, hrest⟩ := List.forall_mem_cons.mp h
    apply keeps_bind (keeps_store hc hv)
    intro n₁ _ h₁ _
    exact ih fun p hp => ⟨Nat.lt_of_lt_of_le (hrest p hp).1 h₁, (hrest p hp).2.mono h₁⟩

theorem keeps_popInto (hprog : prog.Primitive) {cells : List CellId} (h : ∀ c ∈ cells, c.toNat < n) :
    Keeps n A (fun _ _ => True) (popInto prog cells) := by
  induction cells generalizing n with
  | nil => exact keeps_pure fun _ _ => trivial
  | cons c rest ih =>
    obtain ⟨hc, hrest⟩ := List.forall_mem_cons.mp h
    apply keeps_bind (keeps_popValue hprog)
    intro n₁ v h₁ hv
    apply keeps_bind (keeps_store (Nat.lt_of_lt_of_le hc h₁) hv)
    intro n₂ _ h₂ _
    exact ih fun c hc => Nat.lt_of_lt_of_le (hrest c hc) (Nat.le_trans h₁ h₂)

theorem keeps_popArguments (k : Nat) {cells : List CellId} (h : ∀ c ∈ cells, c.toNat < n) :
    Keeps n A (fun n cells => ∀ c ∈ cells, c.toNat < n) (popArguments k cells) := by
  induction k generalizing n cells with
  | zero => exact keeps_pure fun n' hn' c hc => Nat.lt_of_lt_of_le (h c hc) hn'
  | succ k ih =>
    apply keeps_bind keeps_pop
    intro n₁ x h₁ hx
    apply keeps_bind (keeps_promote hx)
    intro n₂ c h₂ hc
    apply ih
    exact List.forall_mem_cons.mpr ⟨hc, fun d hd => Nat.lt_of_lt_of_le (h d hd) (Nat.le_trans h₁ h₂)⟩

theorem keeps_makeFrame {cells : List CellId} (h : ∀ c ∈ cells, c.toNat < n) (func : Int64) (back : Option Position) :
    Keeps n A (fun n f => ∀ c ∈ f.locals, c.toNat < n) (makeFrame func cells back) :=
  fun _ hm hn => .of_ok rfl ⟨hm.stack, hm.frames, hm.heap⟩ (Nat.le_refl _) fun c hc => Nat.lt_of_lt_of_le (h c hc) hn

theorem keeps_pushFrame {f : Frame} (h : ∀ c ∈ f.locals, c.toNat < n) :
    Keeps n A (fun _ _ => True) (pushFrame f) := by
  intro m hm hn
  refine .of_ok rfl ⟨hm.stack, ?_, hm.heap⟩ (Nat.le_refl _) trivial
  exact List.forall_mem_cons.mpr ⟨fun c hc => Nat.lt_of_lt_of_le (h c hc) hn, hm.frames⟩

/-- A function cannot be entered although it has room for its parameters: its locals do not fit into a block, or it
takes a negative number of arguments. -/
def Unframed (prog : Program) (func : Int64) (args : Bool) : Prop :=
  ∃ f, prog.function? func = some f ∧ ¬f.locals < (if args then f.params else 0) ∧
    (Heap.blockSize? f.locals = none ∨ args = true ∧ f.params < 0)

theorem keeps_enter (func : Int64) (back : Position) (args : Bool) (h : Unframed prog func args → A) :
    Keeps n A (fun _ _ => True) (enter prog func back args) := by
  cases hf : prog.function? func with
  | none =>
    unfold enter
    rw [hf]
    exact keeps_bind (R := fun _ _ => False) (keeps_fault (by simp)) fun _ _ _ h => h.elim
  | some f =>
    unfold enter
    rw [hf]
    apply keeps_bind (R := fun _ g => g = f) (keeps_pure fun _ _ => rfl)
    intro n₁ g h₁ hg
    subst g
    apply keeps_check (by simp)
    intro hroom
    apply keeps_bind (keeps_blockSize fun hs => h ⟨_, hf, hroom, .inl hs⟩)
    intro n₂ size h₂ _
    dsimp only
    by_cases hp : (if args then f.params else 0) < 0
    · rw [if_pos hp]
      apply keeps_bind (R := fun _ _ => False) (keeps_crash ?_) fun _ _ _ h => h.elim
      cases args with
      | true => exact h ⟨_, hf, hroom, .inr ⟨rfl, hp⟩⟩
      | false => cases hp
    · rw [if_neg hp]
      apply keeps_bind (keeps_popArguments _ (by simp))
      intro n₃ cells h₃ hcells
      apply keeps_bind (keeps_allocUnits _)
      intro n₄ fresh h₄ hfresh
      have hlocals : ∀ c ∈ cells ++ fresh, c.toNat < n₄ := by
        intro c hc
        rcases List.mem_append.mp hc with hc | hc
        · exact Nat.lt_of_lt_of_le (hcells c hc) h₄
        · exact hfresh c hc
      apply keeps_bind (keeps_makeFrame hlocals _ _)
      intro n₅ g h₅ hg
      apply keeps_bind (keeps_pushFrame hg)
      intro _ _ _ _
      exact keeps_pure fun _ _ => trivial

theorem keeps_next : Keeps n A (fun _ _ => True) (pure Transfer.next) := keeps_pure fun _ _ => trivial

theorem keeps_last {x : Exec β} (hx : Keeps n A S x) :
    Keeps n A (fun _ _ => True) (x >>= fun _ => pure Transfer.next) :=
  keeps_bind hx fun _ _ _ _ => keeps_next

theorem keeps_jumpTo (func pc : Int64) (taken : Bool) : Keeps n A (fun _ _ => True) (jumpTo func pc taken) := by
  unfold jumpTo
  split
  · exact keeps_fault (by simp)
  · exact keeps_pure fun _ _ => trivial

theorem keeps_leave : Keeps n A (fun _ _ => True) leave := by
  rintro ⟨heap, stack, _ | ⟨f, rest⟩, made⟩ hm hn
  · exact .of_fault rfl hm (by simp)
  · obtain ⟨_, hrest⟩ := List.forall_mem_cons.mp hm.frames
    exact .of_ok (leave_eq_ok.mpr ⟨f, rest, rfl, rfl, rfl⟩) ⟨hm.stack, hrest, hm.heap⟩ (Nat.le_refl _) trivial

theorem keeps_tupleInit (hprog : prog.Primitive) (index : Int64) :
    Keeps n A (fun _ _ => True) (tupleInit prog index) := by
  apply keeps_bind (keeps_popValue hprog)
  intro n₁ v h₁ hv
  apply keeps_bind (keeps_peekValue hprog)
  intro n₂ r h₂ hr
  apply keeps_check (by simp)
  intro hk
  apply keeps_bind (keeps_field (hr.1 (Decidable.of_not_not hk)) index)
  intro n₃ c h₃ hc
  exact keeps_last (keeps_store hc (hv.mono (Nat.le_trans h₂ h₃)))

theorem keeps_tupleGet (hprog : prog.Primitive) (index : Int64) :
    Keeps n A (fun _ _ => True) (tupleGet prog index) := by
  apply keeps_bind (keeps_popRecord hprog)
  intro n₁ r h₁ hr
  apply keeps_bind (keeps_field hr index)
  intro n₂ c h₂ hc
  exact keeps_last (keeps_push (x := .place c) hc)

theorem keeps_tupleSet (hprog : prog.Primitive) (index : Int64) :
    Keeps n A (fun _ _ => True) (tupleSet prog index) := by
  apply keeps_bind (keeps_popRecord hprog)
  intro n₁ r h₁ hr
  apply keeps_bind (keeps_popValue hprog)
  intro n₂ v h₂ hv
  apply keeps_bind (keeps_field (fun c hc => Nat.lt_of_lt_of_le (hr c hc) h₂) index)
  intro n₃ c h₃ hc
  exact keeps_last (keeps_store hc (hv.mono h₃))

theorem keeps_makeArray (hprog : prog.Primitive) {k : Int64} (h : Heap.blockLimit < k.toNatClampNeg → A) :
    Keeps n A (fun _ _ => True) (makeArray prog k) := by
  apply keeps_check (by simp)
  intro hk
  apply keeps_bind (keeps_newRecord (of_blockSize?_none hk h))
  rintro n₁ r h₁ ⟨hk, hr⟩
  apply keeps_bind (keeps_popInto hprog fun c hc => hr c (List.mem_reverse.mp hc))
  intro n₂ _ h₂ _
  apply keeps_last (keeps_pushValue (Value.Within.mono ⟨fun _ => hr, fun hp => ?_⟩ h₂))
  cases hk.symm.trans hp

theorem keeps_fillArray (hprog : prog.Primitive) {k : Int64} (h : Heap.blockLimit < k.toNatClampNeg → A) :
    Keeps n A (fun _ _ => True) (fillArray prog k) := by
  apply keeps_check (by simp)
  intro hk
  apply keeps_bind (keeps_popValue hprog)
  intro n₁ v h₁ hv
  apply keeps_bind (keeps_newRecord (of_blockSize?_none hk h))
  rintro n₂ r h₂ ⟨hk, hr⟩
  apply keeps_bind (keeps_storeAll (List.forall_mem_map.mpr fun c hc => ⟨hr c hc, hv.mono h₂⟩))
  intro n₃ _ h₃ _
  apply keeps_last (keeps_pushValue (Value.Within.mono ⟨fun _ => hr, fun hp => ?_⟩ h₃))
  cases hk.symm.trans hp

theorem keeps_getIndex (hprog : prog.Primitive) : Keeps n A (fun _ _ => True) (getIndex prog) := by
  apply keeps_bind (keeps_popRecord hprog)
  intro n₁ r h₁ hr
  apply keeps_bind (keeps_popIndex hprog)
  intro n₂ index h₂ _
  apply keeps_bind (keeps_field (fun c hc => Nat.lt_of_lt_of_le (hr c hc) h₂) index)
  intro n₃ c h₃ hc
  exact keeps_last (keeps_push (x := .place c) hc)

theorem keeps_assignIndex (hprog : prog.Primitive) : Keeps n A (fun _ _ => True) (assignIndex prog) := by
  apply keeps_bind (keeps_popRecord hprog)
  intro n₁ r h₁ hr
  apply keeps_bind (keeps_popIndex hprog)
  intro n₂ index h₂ _
  apply keeps_bind (keeps_popValue hprog)
  intro n₃ v h₃ hv
  apply keeps_bind (keeps_field (fun c hc => Nat.lt_of_lt_of_le (hr c hc) (Nat.le_trans h₂ h₃)) index)
  intro n₄ c h₄ hc
  exact keeps_last (keeps_store hc (hv.mono h₄))

theorem keeps_binary (hprog : prog.Primitive) (o : Operator) :
    Keeps n A (fun n v => v.Within n) (binary prog o) := by
  apply keeps_bind (keeps_popValue hprog)
  intro n₁ right _ _
  apply keeps_bind (keeps_popValue hprog)
  intro n₂ left _ _
  apply keeps_ofExcept
  · intro c hc d
    exact Operator.apply_ne_shape hc _
  · intro v hv n' _
    exact .of_isPrimitive (Operator.apply_isPrimitive hv)

theorem keeps_checkedPair {v : Value} (hv : v.Within n) : Keeps n A (fun n v => v.Within n) (checkedPair v) := by
  apply keeps_bind (keeps_newRecord nofun)
  rintro n₁ r h₁ ⟨hk, hr⟩
  apply keeps_bind (keeps_storeAll (Value.all_zip_unmarked hr (hv.mono h₁)))
  intro n₂ _ h₂ _
  refine keeps_pure fun n' hn' => Value.Within.mono ⟨fun _ => hr, fun hp => ?_⟩ (Nat.le_trans h₂ hn')
  cases hk.symm.trans hp

theorem keeps_dropTop : Keeps n A (fun _ _ => True) (modify Machine.dropTop) :=
  fun _ hm _ =>
    .of_ok rfl ⟨fun x hx => hm.stack x (List.mem_of_mem_tail hx), hm.frames, hm.heap⟩ (Nat.le_refl _) trivial

theorem keeps_guard (hprog : prog.Primitive) (g : Guard) (inTrace : Bool) :
    Keeps n A (fun _ _ => True) (guard prog g inTrace) := by
  apply keeps_check (by simp)
  intro _
  apply keeps_bind (keeps_peekValue hprog)
  intro n₁ v _ _
  apply keeps_bind (keeps_asBool v)
  intro n₂ cond _ _
  split
  · exact keeps_last keeps_dropTop
  · exact keeps_pure fun _ _ => trivial

theorem keeps_get : Keeps n A (fun n m => m.heap.size = n) get :=
  fun _ hm _ => .of_ok rfl hm (Nat.le_refl _) rfl

theorem keeps_deref {m : Machine} {v : Value} (hm : m.heap.size = n) (hv : v.Within n) :
    Keeps n A (fun n c => c.toNat < n) (ofShape (m.heap.deref v)) := by
  unfold Heap.deref
  split
  · rename_i hk
    have hc : v.cell.toNat < m.heap.size := hm ▸ hv.2 hk
    rw [if_pos (by simpa [Heap.contains] using hc)]
    exact keeps_pure fun n' hn' => Nat.lt_of_lt_of_le (hv.2 hk) hn'
  · exact keeps_fault (by simp)

theorem keeps_address {x : Operand} (hx : x.Within n) :
    Keeps n A (fun n v => v.Within n) (ofShape (Heap.address x)) := by
  cases x with
  | owned v => exact keeps_fault (by simp)
  | place c => exact keeps_pure fun n' hn' => Value.Within.mono (Value.all_pointer hx) hn'

def Refused (prog : Program) (i : Instr) (m : Machine) : Prop :=
  match i.code with
  | .tuple | .array | .fill => Heap.blockLimit < i.n.toNatClampNeg
  | .static => Unframed prog i.n false
  | .call => ∃ v m₀, popValue prog m = .ok v m₀ ∧ Unframed prog v.index true
  | _ => False

theorem keeps_step (hprog : prog.Primitive) {i : Instr} (hi : i.Primitive) (hcall : i.code ≠ .call) (pos : Position)
    (inTrace : Bool) (m : Machine) :
    Keeps n (Refused prog i m) (fun _ _ => True) (step prog i pos inTrace) := by
  unfold step
  cases hc : i.code with
  | noop => exact keeps_next
  | panic => exact keeps_fault (by simp)
  | const => exact keeps_last (keeps_pushValue (.of_isPrimitive (hi hc)))
  | pop => exact keeps_last keeps_pop
  | tuple =>
    apply keeps_check (by simp)
    intro hneg
    apply keeps_bind (keeps_newRecord (of_blockSize?_none hneg fun h => by simpa only [Refused, hc] using h))
    rintro n r _ ⟨hk, hr⟩
    apply keeps_last (keeps_pushValue ⟨fun _ => hr, fun hp => ?_⟩)
    cases hk.symm.trans hp
  | tupleInit => exact keeps_tupleInit hprog i.n
  | tupleGet => exact keeps_tupleGet hprog i.n
  | tupleSet => exact keeps_tupleSet hprog i.n
  | array => exact keeps_makeArray hprog fun h => by simpa only [Refused, hc] using h
  | fill => exact keeps_fillArray hprog fun h => by simpa only [Refused, hc] using h
  | len =>
    apply keeps_bind (keeps_popRecord hprog)
    intro n r _ _
    exact keeps_last (keeps_pushValue (.of_isPrimitive rfl))
  | getIndex => exact keeps_getIndex hprog
  | assignIndex => exact keeps_assignIndex hprog
  | materialize | unsize =>
    apply keeps_bind (keeps_popValue hprog)
    intro n v _ hv
    exact keeps_last (keeps_pushValue hv)
  | address =>
    apply keeps_bind keeps_pop
    intro n x _ hx
    apply keeps_bind (keeps_address hx)
    intro n v _ hv
    exact keeps_last (keeps_pushValue hv)
  | deref =>
    apply keeps_bind keeps_pop
    intro n₁ x _ hx
    apply keeps_bind (keeps_materialize hx)
    intro n₂ v _ hv
    apply keeps_bind keeps_get
    intro n₃ m' h₃ hm'
    apply keeps_bind (keeps_deref hm' (hv.mono h₃))
    intro n₄ c _ hc
    exact keeps_last (keeps_push (x := .place c) hc)
  | load =>
    apply keeps_bind (keeps_localCell i.n)
    intro n c _ hc
    exact keeps_last (keeps_push (x := .place c) hc)
  | store =>
    apply keeps_bind (keeps_popValue hprog)
    intro n₁ v _ hv
    apply keeps_bind (keeps_localCell i.n)
    intro n₂ c h₂ hc
    exact keeps_last (keeps_store hc (hv.mono h₂))
  | binary =>
    apply keeps_bind (keeps_binary hprog i.operator)
    intro n v _ hv
    exact keeps_last (keeps_pushValue hv)
  | checkedBinary =>
    apply keeps_bind (keeps_binary hprog i.operator)
    intro n₁ v _ hv
    apply keeps_bind (keeps_checkedPair hv)
    intro n₂ r _ hr
    exact keeps_last (keeps_pushValue hr)
  | not | neg =>
    apply keeps_bind (keeps_popValue hprog)
    intro n v _ _
    apply keeps_check (by simp)
    intro _
    exact keeps_last (keeps_pushValue (.of_isPrimitive rfl))
  | skip | jumpBack => exact keeps_jumpTo _ _ _
  | skipIf | jumpBackIf =>
    apply keeps_bind (keeps_popValue hprog)
    intro n₁ v _ _
    apply keeps_bind (keeps_asBool v)
    intro n₂ cond _ _
    split
    · exact keeps_jumpTo _ _ _
    · exact keeps_next
  | call => exact absurd hc hcall
  | static => exact keeps_enter i.n pos.next false fun h => by simpa only [Refused, hc] using h
  | ret => exact keeps_leave
  | guard => exact keeps_guard hprog i.guard inTrace
  | other n => exact keeps_fault (by simp)

theorem step_kept (hprog : prog.Primitive) {i : Instr} (hi : i.Primitive) (pos : Position) (inTrace : Bool)
    {m : Machine} (hm : m.Closed) : Kept m (Refused prog i m) (fun _ _ => True) (step prog i pos inTrace) := by
  by_cases hc : i.code = .call
  · -- the frame that a call is refused depends on the value that it pops
    have hrefused : Refused prog i m = ∃ v m₀, popValue prog m = .ok v m₀ ∧ Unframed prog v.index true := by
      simp only [Refused, hc]
    have hpop : Kept m False _ (popValue prog) := keeps_popValue hprog m hm (Nat.le_refl _)
    simp only [step, hc, hrefused]
    apply (hpop.weaken False.elim).bind
    intro v m₁ hv
    obtain ⟨hm₁, _⟩ := hpop.ok hv
    refine keeps_check (by simp) (fun _ => ?_) m₁ hm₁ (Nat.le_refl _)
    exact keeps_enter v.index pos.next true fun h => ⟨v, m₁, hv, h⟩
  · exact keeps_step hprog hi hc pos inTrace m m hm (Nat.le_refl _)

end Exec

end HotLoop
