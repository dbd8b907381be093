import HotLoop.Proofs.Growth
import HotLoop.Proofs.Reached

/-!
A callee touches no cell that it was not given. All that it can read or write is named by an operand, by a local of
its own frames or by a cell that it can read. A set of cells that holds the operands and the locals at the call, is
closed under what its cells name and contains every cell allocated later is therefore never left, whatever the callee
executes and whether it fails or not.
-/

namespace HotLoop

def Value.Names (v : Value) (c : CellId) : Prop :=
  v.kind = .record ∧ c ∈ v.fields ∨ v.kind = .pointer ∧ c = v.cell

def Operand.Names : Operand → CellId → Prop
  | .owned v, c => v.Names c
  | .place d, c => c = d

theorem Value.all_iff {P : CellId → Prop} {v : Value} : v.All P ↔ ∀ c, v.Names c → P c := by
  constructor
  · rintro ⟨hrecord, hpointer⟩ c (⟨hk, hc⟩ | ⟨hk, rfl⟩)
    · exact hrecord hk c hc
    · exact hpointer hk
  · intro h
    exact ⟨fun hk c hc => h c (.inl ⟨hk, hc⟩), fun hk => h v.cell (.inr ⟨hk, rfl⟩)⟩

theorem Operand.all_iff {P : CellId → Prop} {x : Operand} : x.All P ↔ ∀ c, x.Names c → P c := by
  cases x with
  | owned v => exact Value.all_iff
  | place d => exact ⟨fun h c hc => hc ▸ h, fun h => h d rfl⟩

/-- The cells that can be reached from the given ones through what the cells of a heap hold. -/
inductive Heap.Reach (h : Heap) (given : CellId → Prop) : CellId → Prop
  | start {c : CellId} (mem : given c) : Reach h given c
  | through {c d : CellId} {v : Value} (reached : Reach h given c) (held : h.load? c = some v) (named : v.Names d) :
    Reach h given d

namespace Machine

def Given (m : Machine) (c : CellId) : Prop :=
  (∃ x ∈ m.stack, x.Names c) ∨ ∃ f, m.top? = some f ∧ c ∈ f.locals

def Reachable (m : Machine) (c : CellId) : Prop := m.heap.Reach m.Given c

def Untouched (m m' : Machine) : Prop :=
  ∀ c : CellId, c.toNat < m.heap.size → ¬m.Reachable c → m'.heap.load? c = m.heap.load? c

end Machine

structure Region where
  mem : CellId → Prop
  heap : Heap
  frames : List Frame
  fresh : ∀ c : CellId, heap.size ≤ c.toNat → mem c

/-- While some frame of the callee is active, its operands, its locals and the cells of the region name cells of the
region only, and the other cells are as they were. -/
structure Machine.Confined (g : Region) (m : Machine) : Prop where
  stack : ∀ x ∈ m.stack, x.All g.mem
  frames : ∃ f above, m.frames = f :: above ++ g.frames ∧ ∀ k ∈ f :: above, ∀ c ∈ k.locals, g.mem c
  heap : ∀ c v, g.mem c → m.heap.load? c = some v → v.All g.mem
  kept : ∀ c, ¬g.mem c → m.heap.load? c = g.heap.load? c
  size : g.heap.size ≤ m.heap.size

namespace Machine.Confined

variable {g : Region} {m : Machine}

theorem withStack (h : m.Confined g) {s : List Operand} (hs : ∀ x ∈ s, x.All g.mem) :
    Confined g { m with stack := s } :=
  ⟨hs, h.frames, h.heap, h.kept, h.size⟩

theorem depth_lt (h : m.Confined g) : g.frames.length < m.depth := by
  obtain ⟨f, above, hframes, _⟩ := h.frames
  rw [depth, hframes, List.cons_append, List.length_cons, List.length_append]
  omega

theorem grow (h : m.Confined g) {heap : Heap} (hsize : m.heap.size ≤ heap.size)
    (hold : ∀ c : CellId, c.toNat < m.heap.size → heap.load? c = m.heap.load? c)
    (hnew : ∀ (c : CellId) (v : Value), m.heap.size ≤ c.toNat → heap.load? c = some v → v.All g.mem) :
    Confined g { m with heap } := by
  refine ⟨h.stack, h.frames, ?_, ?_, Nat.le_trans h.size hsize⟩
  · intro c v hc hv
    by_cases hlt : c.toNat < m.heap.size
    · exact h.heap c v hc (hold c hlt ▸ hv)
    · exact hnew c v (Nat.le_of_not_lt hlt) hv
  · intro c hc
    have hlt : c.toNat < m.heap.size := by
      apply Nat.lt_of_not_le
      intro hle
      exact hc (g.fresh c (Nat.le_trans h.size hle))
    exact (hold c hlt).trans (h.kept c hc)

end Machine.Confined

namespace Exec

variable {α β : Type} {g : Region} {R : α → Prop} {S : β → Prop} {prog : Program}

/-- On every confined machine an action leaves a confined one, also when it fails, and `R` holds of its result. This
asks that addresses have not run out, since a cell that takes the address of another one is not a fresh one. -/
def Confines (g : Region) (x : Exec α) (R : α → Prop) : Prop :=
  ∀ m, m.Confined g → (after x m).heap.size ≤ UInt32.size →
    (after x m).Confined g ∧ ∀ a m', x m = .ok a m' → R a

theorem confines_of_cases {x : Exec α} (h : ∀ m, m.Confined g →
    (∃ a m', x m = .ok a m' ∧ (m'.heap.size ≤ UInt32.size → m'.Confined g ∧ R a)) ∨ ∃ e, x m = .error e m) :
    Confines g x R := by
  intro m hm hsize
  rcases h m hm with ⟨a, m', hx, h'⟩ | ⟨e, hx⟩
  · have hafter : after x m = m' := by rw [after, hx]
    rw [hafter] at hsize ⊢
    obtain ⟨hm', ha⟩ := h' hsize
    refine ⟨hm', ?_⟩
    intro b m'' hb
    cases hx.symm.trans hb
    exact ha
  · have hafter : after x m = m := by rw [after, hx]
    rw [hafter]
    refine ⟨hm, ?_⟩
    intro b m'' hb
    cases hx.symm.trans hb

theorem confines_pure {a : α} (h : R a) : Confines g (pure a) R :=
  confines_of_cases fun m hm => .inl ⟨a, m, rfl, fun _ => ⟨hm, h⟩⟩

theorem confines_fault (c : Cause) : Confines g (fault c) R := confines_of_cases fun _ _ => .inr ⟨_, rfl⟩

theorem confines_crash : Confines g crash R := confines_of_cases fun _ _ => .inr ⟨_, rfl⟩

theorem confines_bind {x : Exec α} {f : α → Exec β} (hx : Confines g x R) (he : ∀ a, Enlarges (f a))
    (hf : ∀ a, R a → Confines g (f a) S) : Confines g (x >>= f) S := by
  intro m hm hsize
  cases hr : x m with
  | ok a m₁ =>
    have hbind : (x >>= f) m = f a m₁ := by rw [bind_apply, hr]
    have hafter : after (x >>= f) m = after (f a) m₁ := by rw [after, after, hbind]
    have hafter₁ : after x m = m₁ := by rw [after, hr]
    rw [hafter] at hsize ⊢
    rw [hbind]
    have hsize₁ := Nat.le_trans (he a m₁) hsize
    obtain ⟨hm₁, ha⟩ := hx m hm (hafter₁ ▸ hsize₁)
    exact hf a (ha a m₁ hr) m₁ (hafter₁ ▸ hm₁) hsize
  | error e m₁ =>
    have hbind : (x >>= f) m = .error e m₁ := by rw [bind_apply, hr]
    have hafter : after (x >>= f) m = after x m := by rw [after, after, hbind, hr]
    rw [hafter] at hsize ⊢
    refine ⟨(hx m hm hsize).1, ?_⟩
    intro b m' hb
    cases hbind.symm.trans hb

theorem confines_check {c : Prop} [Decidable c] {stop : Exec PUnit} (hstop : Confines g stop fun _ => False)
    {x : Exec α} (he : Enlarges x) (hx : ¬c → Confines g x R) :
    Confines g (if c then stop >>= fun _ => x else x) R := by
  by_cases hc : c
  · rw [if_pos hc]
    exact confines_bind hstop (fun _ => he) fun _ h => h.elim
  · rw [if_neg hc]
    exact hx hc

theorem confines_ite {c : Prop} [Decidable c] {x y : Exec α} (hx : c → Confines g x R) (hy : ¬c → Confines g y R) :
    Confines g (if c then x else y) R := by
  split
  · exact hx ‹_›
  · exact hy ‹_›

theorem confines_require {c : Cause} {o : Option α} (h : ∀ a, o = some a → R a) : Confines g (require c o) R := by
  cases o with
  | none => exact confines_fault c
  | some a => exact confines_pure (h a rfl)

theorem confines_ofOption {o : Option α} (h : ∀ a, o = some a → R a) : Confines g (ofOption o) R := by
  cases o with
  | none => exact confines_crash
  | some a => exact confines_pure (h a rfl)

theorem confines_ofExcept {r : Except Cause α} (h : ∀ a, r = .ok a → R a) : Confines g (ofExcept r) R := by
  cases r with
  | error c => exact confines_fault c
  | ok a => exact confines_pure (h a rfl)

theorem confines_ofShape {r : Except ShapeError α} (h : ∀ a, r = .ok a → R a) : Confines g (ofShape r) R := by
  cases r with
  | error c => exact confines_fault _
  | ok a => exact confines_pure (h a rfl)

theorem confines_push {x : Operand} (hx : x.All g.mem) : Confines g (push x) fun _ => True :=
  confines_of_cases fun _ hm =>
    .inl ⟨(), _, rfl, fun _ => ⟨hm.withStack (List.forall_mem_cons.mpr ⟨hx, hm.stack⟩), trivial⟩⟩

theorem confines_pushValue {v : Value} (hv : v.All g.mem) : Confines g (pushValue v) fun _ => True :=
  confines_push (x := .owned v) hv

theorem confines_pop : Confines g pop fun x => x.All g.mem := by
  apply confines_of_cases
  intro m hm
  cases hs : m.stack with
  | nil => exact .inr ⟨_, pop_nil hs⟩
  | cons x rest =>
    obtain ⟨hx, hrest⟩ := List.forall_mem_cons.mp (hs ▸ hm.stack)
    exact .inl ⟨x, _, pop_cons hs, fun _ => ⟨hm.withStack hrest, hx⟩⟩

theorem confines_peek : Confines g peek fun x => x.All g.mem := by
  apply confines_of_cases
  intro m hm
  rw [peek_apply]
  cases hs : m.stack with
  | nil => exact .inr ⟨_, rfl⟩
  | cons x rest => exact .inl ⟨x, m, rfl, fun _ => ⟨hm, hm.stack x (by simp [hs])⟩⟩

theorem confines_materialize {x : Operand} (hx : x.All g.mem) : Confines g (materialize x) fun v => v.All g.mem := by
  apply confines_of_cases
  intro m hm
  change (∃ a m', ofOption (m.heap.materialize? x) m = .ok a m' ∧ _) ∨
    ∃ e, ofOption (m.heap.materialize? x) m = .error e m
  cases hv : m.heap.materialize? x with
  | none => exact .inr ⟨_, rfl⟩
  | some v =>
    refine .inl ⟨v, m, rfl, fun _ => ⟨hm, ?_⟩⟩
    cases x with
    | owned w =>
      cases hv
      exact hx
    | place c => exact hm.heap c v hx hv

theorem confines_valueOf (hprog : prog.Primitive) {x : Operand} (hx : x.All g.mem) :
    Confines g (valueOf prog x) fun v => v.All g.mem := by
  apply confines_bind (confines_materialize hx) (by simp)
  intro v hv
  exact confines_ofExcept fun w hw => hprog.resolve hv hw

theorem enlarges_valueOf (prog : Program) (x : Operand) : Enlarges (valueOf prog x) := by simp [valueOf]

theorem confines_popValue (hprog : prog.Primitive) : Confines g (popValue prog) fun v => v.All g.mem :=
  confines_bind confines_pop (enlarges_valueOf prog) fun _ hx => confines_valueOf hprog hx

theorem confines_peekValue (hprog : prog.Primitive) : Confines g (peekValue prog) fun v => v.All g.mem :=
  confines_bind confines_peek (enlarges_valueOf prog) fun _ hx => confines_valueOf hprog hx

theorem confines_popRecord (hprog : prog.Primitive) :
    Confines g (popRecord prog) fun v => ∀ c ∈ v.fields, g.mem c := by
  apply confines_bind (confines_popValue hprog) (by simp)
  intro v hv
  exact confines_ite (fun hk => confines_pure (hv.1 hk)) fun _ => confines_fault _

theorem confines_popIndex (hprog : prog.Primitive) : Confines g (popIndex prog) fun _ => True := by
  apply confines_bind (confines_popValue hprog) (by simp)
  intro v _
  exact confines_ite (fun _ => confines_pure trivial) fun _ => confines_fault _

theorem confines_asBool (v : Value) : Confines g (asBool v) fun _ => True :=
  confines_ite (fun _ => confines_pure trivial) fun _ => confines_fault _

theorem confines_field {v : Value} (h : ∀ c ∈ v.fields, g.mem c) (index : Int64) :
    Confines g (field v index) g.mem := by
  apply confines_require
  intro c hc
  obtain ⟨_, hget⟩ := nth?_eq_some.mp hc
  exact h c (List.mem_of_getElem? hget)

theorem confines_topFrame : Confines g topFrame fun f => ∀ c ∈ f.locals, g.mem c := by
  apply confines_of_cases
  intro m hm
  obtain ⟨f, above, hframes, hlocals⟩ := hm.frames
  have htop : m.top? = some f := by rw [Machine.top?, hframes]; rfl
  have happly : topFrame m = require .noFrame m.top? m := rfl
  exact .inl ⟨f, m, by rw [happly, htop]; rfl, fun _ => ⟨hm, hlocals f List.mem_cons_self⟩⟩

theorem confines_localCell (slot : Int64) : Confines g (localCell slot) g.mem := by
  apply confines_bind confines_topFrame (by simp)
  intro f hf
  apply confines_require
  intro c hc
  obtain ⟨_, hget⟩ := nth?_eq_some.mp hc
  exact hf c (List.mem_of_getElem? hget)

theorem confines_store {c : CellId} {v : Value} (hc : g.mem c) (hv : v.All g.mem) :
    Confines g (store c v) fun _ => True := by
  apply confines_of_cases
  intro m hm
  rw [store_apply_eq]
  cases hs : m.heap.store? c v with
  | none => exact .inr ⟨_, rfl⟩
  | some heap =>
    have hload := Heap.load?_of_store? hs
    refine .inl ⟨(), _, rfl, fun _ => ⟨⟨hm.stack, hm.frames, ?_, ?_, ?_⟩, trivial⟩⟩
    · intro d w hd hw
      simp only [hload] at hw
      split at hw
      · cases hw
        exact hv
      · exact hm.heap d w hd hw
    · intro d hd
      have hne : d ≠ c := fun he => hd (he ▸ hc)
      simp only [hload, if_neg hne, hm.kept d hd]
    · exact Heap.size_of_store? hs ▸ hm.size

theorem confines_alloc {v : Value} (hv : v.All g.mem) : Confines g (alloc v) g.mem := by
  apply confines_of_cases
  intro m hm
  refine .inl ⟨(m.heap.alloc v).1, { m with heap := (m.heap.alloc v).2 }, rfl, fun hsize => ?_⟩
  have hgrown : (m.heap.alloc v).2.size = m.heap.size + 1 := by simp [Heap.alloc, Heap.size]
  have hlt : m.heap.size < UInt32.size := Nat.lt_of_lt_of_le (by simp [hgrown]) hsize
  have hcell : (m.heap.alloc v).1.toNat = m.heap.size := UInt32.toNat_ofNat_of_lt' hlt
  refine ⟨hm.grow (by omega) ?_ ?_, g.fresh _ (hcell ▸ hm.size)⟩
  · intro c hc
    rw [Heap.load?_alloc, if_neg (Nat.ne_of_lt hc)]
  · intro c w hc hw
    rw [Heap.load?_alloc] at hw
    split at hw
    · cases hw
      exact hv
    · exact absurd (Heap.lt_of_load? hw) (Nat.not_lt.mpr hc)

theorem confines_allocUnits (k : Nat) : Confines g (allocUnits k) fun cells => ∀ c ∈ cells, g.mem c := by
  apply confines_of_cases
  intro m hm
  refine .inl ⟨(m.heap.allocUnits k).1, { m with heap := (m.heap.allocUnits k).2 }, rfl, fun hsize => ?_⟩
  have hgrown := Heap.size_allocUnits m.heap k
  refine ⟨hm.grow (by omega) ?_ ?_, ?_⟩
  · intro c hc
    rw [Heap.load?_allocUnits, if_pos hc]
  · intro c w hc hw
    rw [Heap.load?_allocUnits, if_neg (Nat.not_lt.mpr hc)] at hw
    split at hw
    · cases hw
      exact .of_isPrimitive rfl
    · cases hw
  · intro c hc
    obtain ⟨i, hi, rfl⟩ := List.mem_map.mp hc
    have hi := List.mem_range.mp hi
    have hlt : m.heap.size + i < UInt32.size := Nat.lt_of_lt_of_le (by simpa [hgrown] using hi) hsize
    apply g.fresh
    rw [UInt32.toNat_ofNat_of_lt' hlt]
    have := hm.size
    omega

theorem confines_promote {x : Operand} (hx : x.All g.mem) : Confines g (promote x) g.mem := by
  cases x with
  | owned v => exact confines_alloc hx
  | place c => exact confines_pure hx

theorem confines_newRecord (k : Int64) :
    Confines g (newRecord k) fun v => v.All g.mem ∧ ∀ c ∈ v.fields, g.mem c := by
  apply confines_bind (confines_ofOption fun _ _ => trivial) (by simp)
  intro size _
  apply confines_bind (confines_allocUnits size) (by simp)
  intro cells hcells
  exact confines_pure ⟨Value.all_record hcells, hcells⟩

theorem confines_storeAll {ps : List (CellId × Value)} (h : ∀ p ∈ ps, g.mem p.1 ∧ p.2.All g.mem) :
    Confines g (storeAll ps) fun _ => True := by
  induction ps with
  | nil => exact confines_pure trivial
  | cons p rest ih =>
    obtain ⟨⟨hc, hv⟩, hrest⟩ := List.forall_mem_cons.mp h
    exact confines_bind (confines_store hc hv) (by simp) fun _ _ => ih hrest

theorem confines_popInto (hprog : prog.Primitive) {cells : List CellId} (h : ∀ c ∈ cells, g.mem c) :
    Confines g (popInto prog cells) fun _ => True := by
  induction cells with
  | nil => exact confines_pure trivial
  | cons c rest ih =>
    obtain ⟨hc, hrest⟩ := List.forall_mem_cons.mp h
    apply confines_bind (confines_popValue hprog) (by simp)
    intro v hv
    exact confines_bind (confines_store hc hv) (by simp) fun _ _ => ih hrest

theorem confines_popArguments (k : Nat) {cells : List CellId} (h : ∀ c ∈ cells, g.mem c) :
    Confines g (popArguments k cells) fun cells => ∀ c ∈ cells, g.mem c := by
  induction k generalizing cells with
  | zero => exact confines_pure h
  | succ k ih =>
    apply confines_bind confines_pop fun _ => enlarges_bind (by simp) (by simp)
    intro x hx
    apply confines_bind (confines_promote hx) (by simp)
    intro c hc
    exact ih (List.forall_mem_cons.mpr ⟨hc, h⟩)

theorem confines_makeFrame {cells : List CellId} (h : ∀ c ∈ cells, g.mem c) (func : Int64) (back : Option Position) :
    Confines g (makeFrame func cells back) fun f => ∀ c ∈ f.locals, g.mem c :=
  confines_of_cases fun _ hm => .inl ⟨_, _, rfl, fun _ => ⟨⟨hm.stack, hm.frames, hm.heap, hm.kept, hm.size⟩, h⟩⟩

theorem confines_pushFrame {f : Frame} (h : ∀ c ∈ f.locals, g.mem c) : Confines g (pushFrame f) fun _ => True := by
  apply confines_of_cases
  intro m hm
  obtain ⟨top, above, hframes, hlocals⟩ := hm.frames
  refine .inl ⟨(), _, rfl, fun _ => ⟨⟨hm.stack, ⟨f, top :: above, ?_, ?_⟩, hm.heap, hm.kept, hm.size⟩, trivial⟩⟩
  · exact congrArg (f :: ·) hframes
  · exact List.forall_mem_cons.mpr ⟨h, hlocals⟩

theorem enlarges_frame {arguments : Exec (List CellId)} (h : Enlarges arguments) (n : Nat) (func : Int64)
    (back : Position) :
    Enlarges (do
      let cells ← arguments
      let fresh ← allocUnits n
      pushFrame (← makeFrame func (cells ++ fresh) (some back))
      return Transfer.enter ⟨func, 0⟩) :=
  enlarges_bind h fun _ => enlarges_bind (by simp) fun _ => enlarges_bind (by simp) (by simp)

theorem confines_frame {arguments : Exec (List CellId)} (h : Confines g arguments fun cells => ∀ c ∈ cells, g.mem c)
    (n : Nat) (func : Int64) (back : Position) :
    Confines g (do
      let cells ← arguments
      let fresh ← allocUnits n
      pushFrame (← makeFrame func (cells ++ fresh) (some back))
      return Transfer.enter ⟨func, 0⟩) fun _ => True := by
  apply confines_bind h fun _ => enlarges_bind (by simp) fun _ => enlarges_bind (by simp) (by simp)
  intro cells hcells
  apply confines_bind (confines_allocUnits n) fun _ => enlarges_bind (by simp) (by simp)
  intro fresh hfresh
  apply confines_bind (confines_makeFrame (List.forall_mem_append.mpr ⟨hcells, hfresh⟩) func (some back)) (by simp)
  intro f hf
  exact confines_bind (confines_pushFrame hf) (by simp) fun _ _ => confines_pure trivial

theorem confines_enter (func : Int64) (back : Position) (args : Bool) :
    Confines g (enter prog func back args) fun _ => True := by
  have hframe (params : Int64) (size : Nat) := enlarges_frame (enlarges_popArguments params.toNatClampNeg [])
    (size - params.toNatClampNeg) func back
  have hchecked (params : Int64) (size : Nat) := enlarges_ite (c := params < 0)
    (enlarges_bind enlarges_crash fun (_ : PUnit) => hframe params size) (hframe params size)
  apply confines_bind (confines_require fun _ _ => trivial)
  · intro f
    exact enlarges_check (enlarges_bind (by simp) (hchecked _))
  intro f _
  apply confines_check (confines_fault _) (enlarges_bind (by simp) (hchecked _))
  intro _
  apply confines_bind (confines_ofOption fun _ _ => trivial) (hchecked _)
  intro size _
  apply confines_check confines_crash (hframe _ _)
  intro _
  exact confines_frame (confines_popArguments _ (by simp)) _ func back

theorem confines_last {x : Exec α} (hx : Confines g x R) :
    Confines g (x >>= fun _ => pure Transfer.next) fun _ => True :=
  confines_bind hx (by simp) fun _ _ => confines_pure trivial

theorem confines_jumpTo (func pc : Int64) (taken : Bool) : Confines g (jumpTo func pc taken) fun _ => True :=
  confines_ite (fun _ => confines_fault _) fun _ => confines_pure trivial

theorem confines_tupleInit (hprog : prog.Primitive) (index : Int64) :
    Confines g (tupleInit prog index) fun _ => True := by
  have hstore (v r : Value) : Enlarges (do store (← field r index) v; return Transfer.next) :=
    enlarges_bind (by simp) (by simp)
  apply confines_bind (confines_popValue hprog) fun v => enlarges_bind (by simp) fun r => enlarges_check (hstore v r)
  intro v hv
  apply confines_bind (confines_peekValue hprog) fun r => enlarges_check (hstore v r)
  intro r hr
  apply confines_check (confines_fault _) (hstore v r)
  intro hk
  apply confines_bind (confines_field (hr.1 (Decidable.of_not_not hk)) index) (by simp)
  intro c hc
  exact confines_last (confines_store hc hv)

theorem confines_tupleGet (hprog : prog.Primitive) (index : Int64) :
    Confines g (tupleGet prog index) fun _ => True := by
  apply confines_bind (confines_popRecord hprog) (by simp)
  intro r hr
  apply confines_bind (confines_field hr index) (by simp)
  intro c hc
  exact confines_last (confines_push (x := .place c) hc)

theorem confines_tupleSet (hprog : prog.Primitive) (index : Int64) :
    Confines g (tupleSet prog index) fun _ => True := by
  apply confines_bind (confines_popRecord hprog) fun _ => enlarges_bind (by simp) (by simp)
  intro r hr
  apply confines_bind (confines_popValue hprog) (by simp)
  intro v hv
  apply confines_bind (confines_field hr index) (by simp)
  intro c hc
  exact confines_last (confines_store hc hv)

theorem confines_makeArray (hprog : prog.Primitive) (k : Int64) :
    Confines g (makeArray prog k) fun _ => True := by
  apply confines_check (confines_fault _) (enlarges_bind (by simp) (by simp))
  intro _
  apply confines_bind (confines_newRecord k) (by simp)
  rintro r ⟨hr, hfields⟩
  apply confines_bind (confines_popInto hprog fun c hc => hfields c (List.mem_reverse.mp hc)) (by simp)
  intro _ _
  exact confines_last (confines_pushValue hr)

theorem confines_fillArray (hprog : prog.Primitive) (k : Int64) :
    Confines g (fillArray prog k) fun _ => True := by
  apply confines_check (confines_fault _) (enlarges_bind (by simp) fun _ => enlarges_bind (by simp) (by simp))
  intro _
  apply confines_bind (confines_popValue hprog) fun _ => enlarges_bind (by simp) (by simp)
  intro v hv
  apply confines_bind (confines_newRecord k) (by simp)
  rintro r ⟨hr, hfields⟩
  apply confines_bind (confines_storeAll (List.forall_mem_map.mpr fun c hc => ⟨hfields c hc, hv⟩)) (by simp)
  intro _ _
  exact confines_last (confines_pushValue hr)

theorem confines_getIndex (hprog : prog.Primitive) : Confines g (getIndex prog) fun _ => True := by
  apply confines_bind (confines_popRecord hprog) fun _ => enlarges_bind (by simp) (by simp)
  intro r hr
  apply confines_bind (confines_popIndex hprog) (by simp)
  intro index _
  apply confines_bind (confines_field hr index) (by simp)
  intro c hc
  exact confines_last (confines_push (x := .place c) hc)

theorem confines_assignIndex (hprog : prog.Primitive) : Confines g (assignIndex prog) fun _ => True := by
  apply confines_bind (confines_popRecord hprog)
    fun _ => enlarges_bind (by simp) fun _ => enlarges_bind (by simp) (by simp)
  intro r hr
  apply confines_bind (confines_popIndex hprog) fun _ => enlarges_bind (by simp) (by simp)
  intro index _
  apply confines_bind (confines_popValue hprog) (by simp)
  intro v hv
  apply confines_bind (confines_field hr index) (by simp)
  intro c hc
  exact confines_last (confines_store hc hv)

theorem confines_binary (hprog : prog.Primitive) (o : Operator) :
    Confines g (binary prog o) fun v => v.All g.mem := by
  apply confines_bind (confines_popValue hprog) (by simp)
  intro r _
  apply confines_bind (confines_popValue hprog) (by simp)
  intro l _
  exact confines_ofExcept fun v hv => .of_isPrimitive (Operator.apply_isPrimitive hv)

theorem confines_checkedPair {v : Value} (hv : v.All g.mem) : Confines g (checkedPair v) fun r => r.All g.mem := by
  apply confines_bind (confines_newRecord 2) (by simp)
  rintro r ⟨hr, hfields⟩
  apply confines_bind (confines_storeAll (Value.all_zip_unmarked hfields hv)) (by simp)
  intro _ _
  exact confines_pure hr

theorem confines_dropTop : Confines g (modify Machine.dropTop) fun _ => True :=
  confines_of_cases fun _ hm =>
    .inl ⟨_, _, rfl, fun _ => ⟨hm.withStack fun x hx => hm.stack x (List.mem_of_mem_tail hx), trivial⟩⟩

theorem confines_guard (hprog : prog.Primitive) (i : Guard) (inTrace : Bool) :
    Confines g (guard prog i inTrace) fun _ => True := by
  have hdrop (cond : Bool) : Enlarges (if cond = i.expected then do modify Machine.dropTop; return Transfer.next
      else return Transfer.guardFailed) :=
    enlarges_ite (enlarges_last fun _ => Nat.le_refl _) (by simp)
  apply confines_check (confines_fault _) (enlarges_bind (by simp) fun _ => enlarges_bind (by simp) hdrop)
  intro _
  apply confines_bind (confines_peekValue hprog) fun _ => enlarges_bind (by simp) hdrop
  intro v _
  apply confines_bind (confines_asBool v) hdrop
  intro cond _
  exact confines_ite (fun _ => confines_last confines_dropTop) fun _ => confines_pure trivial

theorem confines_get : Confines g get fun _ => True :=
  confines_of_cases fun m hm => .inl ⟨m, m, rfl, fun _ => ⟨hm, trivial⟩⟩

theorem confines_address {x : Operand} (hx : x.All g.mem) :
    Confines g (ofShape (Heap.address x)) fun v => v.All g.mem := by
  apply confines_ofShape
  intro v hv
  cases x with
  | owned w => cases hv
  | place c =>
    cases hv
    exact Value.all_pointer hx

theorem confines_deref {v : Value} (hv : v.All g.mem) (heap : Heap) : Confines g (ofShape (heap.deref v)) g.mem := by
  apply confines_ofShape
  intro c hc
  unfold Heap.deref at hc
  split at hc
  · split at hc
    · cases hc
      exact hv.2 ‹_›
    · cases hc
  · cases hc

theorem confines_step (hprog : prog.Primitive) {i : Instr} (hi : i.Primitive) (hret : i.code ≠ .ret) (pos : Position)
    (inTrace : Bool) : Confines g (step prog i pos inTrace) fun _ => True := by
  unfold step
  cases hc : i.code with
  | noop => exact confines_pure trivial
  | panic => exact confines_fault _
  | const => exact confines_last (confines_pushValue (.of_isPrimitive (hi hc)))
  | pop => exact confines_last confines_pop
  | tuple =>
    apply confines_check (confines_fault _) (enlarges_bind (by simp) (by simp))
    intro _
    apply confines_bind (confines_newRecord i.n) (by simp)
    rintro r ⟨hr, _⟩
    exact confines_last (confines_pushValue hr)
  | tupleInit => exact confines_tupleInit hprog i.n
  | tupleGet => exact confines_tupleGet hprog i.n
  | tupleSet => exact confines_tupleSet hprog i.n
  | array => exact confines_makeArray hprog i.n
  | fill => exact confines_fillArray hprog i.n
  | len =>
    apply confines_bind (confines_popRecord hprog) (by simp)
    intro r _
    exact confines_last (confines_pushValue (.of_isPrimitive rfl))
  | getIndex => exact confines_getIndex hprog
  | assignIndex => exact confines_assignIndex hprog
  | materialize | unsize =>
    apply confines_bind (confines_popValue hprog) (by simp)
    intro v hv
    exact confines_last (confines_pushValue hv)
  | address =>
    apply confines_bind confines_pop (by simp)
    intro x hx
    apply confines_bind (confines_address hx) (by simp)
    intro v hv
    exact confines_last (confines_pushValue hv)
  | deref =>
    apply confines_bind confines_pop fun _ => enlarges_bind (by simp) fun _ => enlarges_bind (by simp) (by simp)
    intro x hx
    apply confines_bind (confines_materialize hx) fun _ => enlarges_bind (by simp) (by simp)
    intro v hv
    apply confines_bind confines_get (by simp)
    intro m _
    apply confines_bind (confines_deref hv m.heap) (by simp)
    intro c hc
    exact confines_last (confines_push (x := .place c) hc)
  | load =>
    apply confines_bind (confines_localCell i.n) (by simp)
    intro c hc
    exact confines_last (confines_push (x := .place c) hc)
  | store =>
    apply confines_bind (confines_popValue hprog) (by simp)
    intro v hv
    apply confines_bind (confines_localCell i.n) (by simp)
    intro c hc
    exact confines_last (confines_store hc hv)
  | binary =>
    apply confines_bind (confines_binary hprog i.operator) (by simp)
    intro v hv
    exact confines_last (confines_pushValue hv)
  | checkedBinary =>
    apply confines_bind (confines_binary hprog i.operator) (by simp)
    intro v hv
    apply confines_bind (confines_checkedPair hv) (by simp)
    intro r hr
    exact confines_last (confines_pushValue hr)
  | not | neg =>
    apply confines_bind (confines_popValue hprog) fun _ => enlarges_check (by simp)
    intro v _
    apply confines_check (confines_fault _) (by simp)
    intro _
    exact confines_last (confines_pushValue (.of_isPrimitive rfl))
  | skip | jumpBack => exact confines_jumpTo _ _ _
  | skipIf | jumpBackIf =>
    apply confines_bind (confines_popValue hprog) (by simp)
    intro v _
    apply confines_bind (confines_asBool v) (by simp)
    intro cond _
    exact confines_ite (fun _ => confines_jumpTo _ _ _) fun _ => confines_pure trivial
  | call =>
    apply confines_bind (confines_popValue hprog) fun _ => enlarges_check (by simp)
    intro v _
    apply confines_check (confines_fault _) (by simp)
    intro _
    exact confines_enter _ _ _
  | static => exact confines_enter _ _ _
  | ret => exact absurd hc hret
  | guard => exact confines_guard hprog i.guard inTrace
  | other n => exact confines_fault _

end Exec

structure Machine.Returned (g : Region) (m : Machine) : Prop where
  frames : m.frames = g.frames
  kept : ∀ c, ¬g.mem c → m.heap.load? c = g.heap.load? c

namespace Machine.Confined

open Exec

variable {g : Region} {m : Machine} {prog : Program}

theorem leave (h : m.Confined g) : (after leave m).Confined g ∨ (after leave m).Returned g := by
  obtain ⟨f, above, hframes, hlocals⟩ := h.frames
  obtain ⟨_, habove⟩ := List.forall_mem_cons.mp hlocals
  have hleave := leave_eq_ok.mpr ⟨f, above ++ g.frames, hframes, rfl, rfl⟩
  have hafter : after Exec.leave m = { m with frames := above ++ g.frames } := by rw [after, hleave]
  rw [hafter]
  cases above with
  | nil => exact .inr ⟨rfl, h.kept⟩
  | cons k above => exact .inl ⟨h.stack, ⟨k, above, rfl, habove⟩, h.heap, h.kept, h.size⟩

theorem step (h : m.Confined g) (hprog : prog.Primitive) {i : Instr} (hi : i.Primitive) (pos : Position)
    (inTrace : Bool) (hsize : (after (step prog i pos inTrace) m).heap.size ≤ UInt32.size) :
    (after (Exec.step prog i pos inTrace) m).Confined g ∨ (after (Exec.step prog i pos inTrace) m).Returned g := by
  by_cases hc : i.code = .ret
  · have hstep : Exec.step prog i pos inTrace = Exec.leave := by simp only [Exec.step, hc]
    rw [hstep]
    exact h.leave
  · exact .inl (confines_step hprog hi hc pos inTrace m h hsize).1

end Machine.Confined

namespace Walk

open Exec

variable {prog : Program} {w : Window} {home root : Frame} {g : Region} {s t : Walk}

theorem confined_of_again (hprog : prog.Primitive) (hs : s.machine.Confined g)
    (h : turn prog w home root s = .again t) (hsize : t.machine.heap.size ≤ UInt32.size) :
    t.machine.Confined g ∨ t.machine.Returned g := by
  obtain ⟨i, hi, hm⟩ := machine_of_again h
  obtain ⟨f, hf, hmem⟩ := Program.mem_of_instr? hi
  rw [hm] at hsize ⊢
  exact hs.step hprog (hprog f hf i hmem) s.pos false hsize

theorem confined_of_done (hprog : prog.Primitive) (hs : s.machine.Confined g) {r : Ended Exit}
    (h : turn prog w home root s = .done r) (hsize : r.machine.heap.size ≤ UInt32.size) :
    r.machine.Confined g ∨ r.machine.Returned g := by
  obtain ⟨hm, _⟩ | ⟨i, hi, hm, _⟩ := machine_of_done h
  · exact .inl (hm ▸ hs)
  · obtain ⟨f, hf, hmem⟩ := Program.mem_of_instr? hi
    rw [hm] at hsize ⊢
    exact hs.step hprog (hprog f hf i hmem) s.pos false hsize

theorem size_le_of_again (h : turn prog w home root s = .again t) : s.machine.heap.size ≤ t.machine.heap.size := by
  obtain ⟨i, _, hm⟩ := machine_of_again h
  exact hm ▸ enlarges_step prog i s.pos false s.machine

theorem size_le_of_done {r : Ended Exit} (h : turn prog w home root s = .done r) :
    s.machine.heap.size ≤ r.machine.heap.size := by
  obtain ⟨hm, _⟩ | ⟨i, _, hm, _⟩ := machine_of_done h
  · exact Nat.le_of_eq (by rw [hm])
  · exact hm ▸ enlarges_step prog i s.pos false s.machine

/-- The machines that a run goes through while more than `depth` frames are active, up to the one on which they are
no more or on which the run ends, be it by a fault or a crash. -/
inductive During (prog : Program) (w : Window) (home root : Frame) (depth : Nat) : Walk → Machine → Prop
  | here (s : Walk) : During prog w home root depth s s.machine
  | again {s t : Walk} {m : Machine} (active : depth < s.machine.depth) (goes : turn prog w home root s = .again t)
    (rest : During prog w home root depth t m) : During prog w home root depth s m
  | done {s : Walk} {r : Ended Exit} (active : depth < s.machine.depth) (ends : turn prog w home root s = .done r) :
    During prog w home root depth s r.machine

namespace During

variable {m : Machine}

theorem size_le {depth : Nat} (h : During prog w home root depth s m) : s.machine.heap.size ≤ m.heap.size := by
  induction h with
  | here => exact Nat.le_refl _
  | again _ goes _ ih => exact Nat.le_trans (size_le_of_again goes) ih
  | done _ ends => exact size_le_of_done ends

theorem confined (h : During prog w home root g.frames.length s m) (hprog : prog.Primitive)
    (hsize : m.heap.size ≤ UInt32.size) (hs : s.machine.Confined g ∨ s.machine.Returned g) :
    m.Confined g ∨ m.Returned g := by
  -- once the callee has returned, no turn is left
  have hactive : ∀ t : Walk, t.machine.Confined g ∨ t.machine.Returned g → g.frames.length < t.machine.depth →
      t.machine.Confined g := by
    rintro t (ht | ht) hdepth
    · exact ht
    · rw [Machine.depth, ht.frames] at hdepth
      exact absurd hdepth (Nat.lt_irrefl _)
  induction h with
  | here => exact hs
  | again active goes rest ih =>
    exact ih hsize (confined_of_again hprog (hactive _ hs active) goes (Nat.le_trans rest.size_le hsize))
  | done active ends => exact confined_of_done hprog (hactive _ hs active) ends hsize

theorem of_advance {depth n : Nat} (h : (advance (turn prog w home root) n s).map Walk.machine = some m)
    (hactive : ∀ k < n, (advance (turn prog w home root) k s).all (fun u => decide (depth < u.machine.depth)) = true) :
    During prog w home root depth s m := by
  obtain ⟨t, ht, rfl⟩ := Option.map_eq_some_iff.mp h
  clear h
  induction n generalizing s with
  | zero => exact Option.some.inj ht ▸ .here s
  | succ n ih =>
    obtain ⟨u, hu, ht⟩ := again_of_advance_succ ht
    have hs : depth < s.machine.depth := by simpa using hactive 0 (Nat.succ_pos n)
    apply During.again hs hu
    apply ih _ ht
    intro k hk
    simpa only [advance_succ_of_again hu] using hactive (k + 1) (Nat.succ_lt_succ hk)

end During

end Walk

namespace Machine

def region (m : Machine) (frames : List Frame) : Region where
  mem c := m.Reachable c ∨ m.heap.size ≤ c.toNat
  heap := m.heap
  frames := frames
  fresh _ hc := .inr hc

variable {m m' : Machine} {f : Frame} {rest : List Frame}

theorem confined_region (h : m.frames = f :: rest) : m.Confined (m.region rest) := by
  have htop : m.top? = some f := by rw [top?, h]; rfl
  refine ⟨?_, ⟨f, [], h, ?_⟩, ?_, fun _ _ => rfl, Nat.le_refl _⟩
  · intro x hx
    exact Operand.all_iff.mpr fun c hc => .inl (.start (.inl ⟨x, hx, hc⟩))
  · intro k hk c hc
    obtain rfl := List.mem_singleton.mp hk
    exact .inl (.start (.inr ⟨k, htop, hc⟩))
  · rintro c v (hreach | hle) hv
    · exact Value.all_iff.mpr fun d hd => .inl (.through hreach hv hd)
    · exact absurd (Heap.lt_of_load? hv) (Nat.not_lt.mpr hle)

theorem untouched_of_kept (h : ∀ c, ¬(m.region rest).mem c → m'.heap.load? c = m.heap.load? c) : m.Untouched m' := by
  intro c hlt hc
  exact h c (not_or.mpr ⟨hc, Nat.not_le.mpr hlt⟩)

end Machine

/-- A callee touches no cell that it was not given: while it is active, through any instructions, nested calls and
faults, and up to its return, after which the frames and thus the locals are those of its caller. -/
theorem Walk.callee_confined {prog : Program} (hprog : prog.Primitive) {s : Walk} {v : Move}
    (hv : v.From prog s.pos s.machine) (hcall : v.instr.code.isCall = true) {w : Window} {home root : Frame}
    {log : List Event} {m : Machine}
    (hm : During prog w home root s.machine.depth ⟨v.landing, v.machine, log⟩ m) (hsize : m.heap.size ≤ UInt32.size) :
    v.machine.Untouched m ∧ (m.depth ≤ s.machine.depth → m.frames = s.machine.frames) := by
  obtain ⟨f, _, hframes, _⟩ := Exec.frames_of_isCall hcall hv.step
  have hstart : v.machine.Confined (v.machine.region s.machine.frames) := Machine.confined_region hframes
  rcases hm.confined (g := v.machine.region s.machine.frames) hprog hsize (.inl hstart) with hconfined | hreturned
  · refine ⟨Machine.untouched_of_kept hconfined.kept, fun hdepth => ?_⟩
    exact absurd hconfined.depth_lt (Nat.not_lt.mpr hdepth)
  · exact ⟨Machine.untouched_of_kept hreturned.kept, fun _ => hreturned.frames⟩

def drainCalling : Walk where
  pos := ⟨0, 2⟩
  machine := { seededMachine 2 0 with stack := [.owned (Value.func 1), .place 2] }

def drainCall : Move where
  instr := .plain .call
  pos := ⟨0, 2⟩
  transfer := .enter ⟨1, 0⟩
  machine := { seededMachine 2 0 with frames := [⟨1, 1, [2], some ⟨0, 3⟩⟩, fiveLocals], made := 2 }

def drainReturned : Machine := { seededMachine 1 0 with stack := [.owned (Value.ofBool false)], made := 2 }

theorem drainCall_reachable {c : CellId} (h : drainCall.machine.Reachable c) : c = 2 := by
  induction h with
  | start mem =>
    rcases mem with ⟨x, hx, _⟩ | ⟨f, hf, hc⟩
    · cases hx
    · obtain rfl := Option.some.inj hf
      exact List.mem_singleton.mp hc
  | through _ held named ih =>
    subst ih
    obtain rfl := Option.some.inj held
    rcases named with ⟨hk, _⟩ | ⟨hk, _⟩
    · cases hk
    · cases hk

theorem Walk.callee_confined_drain : drainLoop.Primitive ∧
    drainCall.From drainLoop drainCalling.pos drainCalling.machine ∧
      During drainLoop {} fiveLocals fiveLocals 1 ⟨⟨1, 0⟩, drainCall.machine, []⟩ drainReturned ∧
        (∀ c : CellId, c.toNat < 5 → c ≠ 2 → drainReturned.heap.load? c = drainCall.machine.heap.load? c) ∧
          drainReturned.frames = [fiveLocals] ∧
            drainReturned.heap.load? 2 ≠ drainCall.machine.heap.load? 2 := by
  have hprog : drainLoop.Primitive := Program.primitive_of_check (by decide)
  have hcall : drainCall.From drainLoop drainCalling.pos drainCalling.machine := ⟨rfl, rfl, rfl⟩
  have hduring : During drainLoop {} fiveLocals fiveLocals 1 ⟨⟨1, 0⟩, drainCall.machine, []⟩ drainReturned :=
    .of_advance (n := 10) (by decide +kernel) (by decide +kernel)
  obtain ⟨huntouched, hframes⟩ := callee_confined hprog hcall rfl hduring (by decide)
  refine ⟨hprog, hcall, hduring, ?_, hframes (Nat.le_refl 1), by decide⟩
  intro c hlt hne
  exact huntouched c hlt fun hc => hne (drainCall_reachable hc)

end HotLoop
