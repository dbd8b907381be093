import HotLoop.Machine.Step

namespace HotLoop

namespace Opcode

def isPlain : Opcode → Bool
  | skip | jumpBack | skipIf | jumpBackIf | call | static | ret | guard => false
  | _ => true

end Opcode

namespace Exec

variable {α β : Type}

theorem bind_apply (x : Exec α) (f : α → Exec β) (m : Machine) :
    (x >>= f) m = match x m with
      | .ok a m => f a m
      | .error e m => .error e m := by
  cases h : x m <;> simp [bind, EStateM.bind, h]

theorem bind_eq_ok {x : Exec α} {f : α → Exec β} {m m' : Machine} {b : β} :
    (x >>= f) m = .ok b m' ↔ ∃ a m₁, x m = .ok a m₁ ∧ f a m₁ = .ok b m' := by
  rw [bind_apply]
  cases h : x m with
  | error e m₁ => simp
  | ok a m₁ =>
    constructor
    · intro hf
      exact ⟨a, m₁, rfl, hf⟩
    · rintro ⟨a', m₂, he, hf⟩
      cases he
      exact hf

theorem bind_eq_error {x : Exec α} {f : α → Exec β} {m m' : Machine} {e : Stop} :
    (x >>= f) m = .error e m' ↔ x m = .error e m' ∨ ∃ a m₁, x m = .ok a m₁ ∧ f a m₁ = .error e m' := by
  rw [bind_apply]
  cases h : x m with
  | error e m₁ => simp
  | ok a m₁ =>
    constructor
    · intro hf
      exact .inr ⟨a, m₁, rfl, hf⟩
    · rintro (he | ⟨a', m₂, he, hf⟩)
      · cases he
      · cases he
        exact hf

theorem map_apply (f : α → β) (x : Exec α) (m : Machine) :
    (f <$> x) m = match x m with
      | .ok a m => .ok (f a) m
      | .error e m => .error e m := by
  cases h : x m <;> simp [Functor.map, EStateM.map, h]

def after (x : Exec α) (m : Machine) : Machine :=
  match x m with
  | .ok _ m => m
  | .error _ m => m

def KeepsFrames (x : Exec α) : Prop :=
  ∀ m, (after x m).frames = m.frames ∧ (after x m).made = m.made

theorem KeepsFrames.of_ok {x : Exec α} (hx : KeepsFrames x) {m m' : Machine} {a : α} (h : x m = .ok a m') :
    m'.frames = m.frames ∧ m'.made = m.made := by
  have := hx m
  simpa only [after, h] using this

@[simp] theorem keepsFrames_pure (a : α) : KeepsFrames (pure a) := fun _ => ⟨rfl, rfl⟩

@[simp] theorem keepsFrames_fault (c : Cause) : KeepsFrames (fault c : Exec α) := fun _ => ⟨rfl, rfl⟩

@[simp] theorem keepsFrames_crash : KeepsFrames (crash : Exec α) := fun _ => ⟨rfl, rfl⟩

@[simp] theorem keepsFrames_get : KeepsFrames get := fun _ => ⟨rfl, rfl⟩

@[simp] theorem keepsFrames_bind {x : Exec α} {f : α → Exec β} (hx : KeepsFrames x)
    (hf : ∀ a, KeepsFrames (f a)) : KeepsFrames (x >>= f) := by
  intro m
  have h := hx m
  unfold after at h ⊢
  rw [bind_apply]
  cases hr : x m with
  | error e m₁ => simpa only [hr] using h
  | ok a m₁ =>
    simp only [hr] at h
    have h' := hf a m₁
    exact ⟨h'.1.trans h.1, h'.2.trans h.2⟩

@[simp] theorem keepsFrames_map {x : Exec α} (f : α → β) (hx : KeepsFrames x) : KeepsFrames (f <$> x) := by
  intro m
  have h := hx m
  unfold after at h ⊢
  rw [map_apply]
  cases hr : x m <;> simpa only [hr] using h

@[simp] theorem keepsFrames_ite {c : Prop} [Decidable c] {x y : Exec α} (hx : KeepsFrames x)
    (hy : KeepsFrames y) : KeepsFrames (if c then x else y) := by
  split
  · exact hx
  · exact hy

@[simp] theorem keepsFrames_require (c : Cause) (o : Option α) : KeepsFrames (require c o) := by
  cases o <;> simp [require]

@[simp] theorem keepsFrames_ofOption (o : Option α) : KeepsFrames (ofOption o) := by
  cases o <;> simp [ofOption]

@[simp] theorem keepsFrames_ofExcept (r : Except Cause α) : KeepsFrames (ofExcept r) := by
  cases r <;> simp [ofExcept]

@[simp] theorem keepsFrames_ofShape (r : Except ShapeError α) : KeepsFrames (ofShape r) := by
  cases r <;> simp [ofShape]

@[simp] theorem keepsFrames_push (x : Operand) : KeepsFrames (push x) := fun _ => ⟨rfl, rfl⟩

@[simp] theorem keepsFrames_pushValue (v : Value) : KeepsFrames (pushValue v) := fun _ => ⟨rfl, rfl⟩

@[simp] theorem keepsFrames_pop : KeepsFrames pop := by
  rintro ⟨heap, _ | ⟨x, rest⟩, frames, made⟩ <;> exact ⟨rfl, rfl⟩

@[simp] theorem keepsFrames_peek : KeepsFrames peek := by simp [peek]

theorem store_apply_eq (c : CellId) (v : Value) (m : Machine) :
    store c v m = match m.heap.store? c v with
      | some heap => .ok () { m with heap }
      | none => .error .crash m := by
  rw [store, bind_apply]
  change (ofOption (m.heap.store? c v) >>= fun heap => set { m with heap }) m = _
  cases m.heap.store? c v <;> rfl

@[simp] theorem keepsFrames_store (c : CellId) (v : Value) : KeepsFrames (store c v) := by
  intro m
  unfold after
  rw [store_apply_eq]
  cases m.heap.store? c v <;> exact ⟨rfl, rfl⟩

@[simp] theorem keepsFrames_alloc (v : Value) : KeepsFrames (alloc v) := fun _ => ⟨rfl, rfl⟩

@[simp] theorem keepsFrames_allocUnits (n : Nat) : KeepsFrames (allocUnits n) := fun _ => ⟨rfl, rfl⟩

@[simp] theorem keepsFrames_promote (x : Operand) : KeepsFrames (promote x) := by
  cases x <;> simp [promote]

@[simp] theorem keepsFrames_newRecord (n : Int64) : KeepsFrames (newRecord n) := by simp [newRecord]

@[simp] theorem keepsFrames_topFrame : KeepsFrames topFrame := by simp [topFrame]

@[simp] theorem keepsFrames_materialize (x : Operand) : KeepsFrames (materialize x) := by simp [materialize]

@[simp] theorem keepsFrames_valueOf (prog : Program) (x : Operand) : KeepsFrames (valueOf prog x) := by
  simp [valueOf]

@[simp] theorem keepsFrames_popValue (prog : Program) : KeepsFrames (popValue prog) := by simp [popValue]

@[simp] theorem keepsFrames_peekValue (prog : Program) : KeepsFrames (peekValue prog) := by simp [peekValue]

@[simp] theorem keepsFrames_popRecord (prog : Program) : KeepsFrames (popRecord prog) := by simp [popRecord]

@[simp] theorem keepsFrames_popIndex (prog : Program) : KeepsFrames (popIndex prog) := by simp [popIndex]

@[simp] theorem keepsFrames_field (v : Value) (index : Int64) : KeepsFrames (field v index) := by simp [field]

@[simp] theorem keepsFrames_localCell (slot : Int64) : KeepsFrames (localCell slot) := by simp [localCell]

@[simp] theorem keepsFrames_storeAll (ps : List (CellId × Value)) : KeepsFrames (storeAll ps) := by
  induction ps with
  | nil => simp [storeAll]
  | cons p rest ih => simp [storeAll, ih]

@[simp] theorem keepsFrames_popInto (prog : Program) (cells : List CellId) : KeepsFrames (popInto prog cells) := by
  induction cells with
  | nil => simp [popInto]
  | cons c rest ih => simp [popInto, ih]

@[simp] theorem keepsFrames_popArguments (n : Nat) (cells : List CellId) :
    KeepsFrames (popArguments n cells) := by
  induction n generalizing cells with
  | zero => simp [popArguments]
  | succ n ih => simp [popArguments, ih]

@[simp] theorem keepsFrames_binary (prog : Program) (o : Operator) : KeepsFrames (binary prog o) := by
  simp [binary]

@[simp] theorem keepsFrames_checkedPair (v : Value) : KeepsFrames (checkedPair v) := by simp [checkedPair]

structure Plain (x : Exec Transfer) : Prop where
  keeps : KeepsFrames x
  next : ∀ {m t m'}, x m = .ok t m' → t = .next

theorem plain_fault (c : Cause) : Plain (fault c) := ⟨keepsFrames_fault c, fun h => by cases h⟩

theorem plain_next : Plain (pure .next) := ⟨keepsFrames_pure _, fun h => by cases h; rfl⟩

theorem plain_bind {x : Exec α} {f : α → Exec Transfer} (hx : KeepsFrames x) (hf : ∀ a, Plain (f a)) :
    Plain (x >>= f) := by
  refine ⟨keepsFrames_bind hx fun a => (hf a).keeps, fun h => ?_⟩
  obtain ⟨a, m₁, _, hr⟩ := bind_eq_ok.mp h
  exact (hf a).next hr

theorem plain_ite {c : Prop} [Decidable c] {x y : Exec Transfer} (hx : Plain x) (hy : Plain y) :
    Plain (if c then x else y) := by
  split
  · exact hx
  · exact hy

theorem plain_last {x : Exec α} (hx : KeepsFrames x) : Plain (x >>= fun _ => pure .next) :=
  plain_bind hx fun _ => plain_next

theorem plain_check {c : Prop} [Decidable c] (e : Cause) {x : Exec Transfer} (hx : Plain x) :
    Plain (if c then fault e >>= fun (_ : PUnit) => x else x) :=
  plain_ite (plain_bind (keepsFrames_fault e) fun _ => hx) hx

theorem plain_tupleInit (prog : Program) (index : Int64) : Plain (tupleInit prog index) :=
  plain_bind (by simp) fun _ => plain_bind (by simp) fun _ => plain_check _
    (plain_bind (by simp) fun _ => plain_last (by simp))

theorem plain_tupleGet (prog : Program) (index : Int64) : Plain (tupleGet prog index) :=
  plain_bind (by simp) fun _ => plain_bind (by simp) fun _ => plain_last (by simp)

theorem plain_tupleSet (prog : Program) (index : Int64) : Plain (tupleSet prog index) :=
  plain_bind (by simp) fun _ => plain_bind (by simp) fun _ => plain_bind (by simp) fun _ => plain_last (by simp)

theorem plain_makeArray (prog : Program) (n : Int64) : Plain (makeArray prog n) :=
  plain_check _ (plain_bind (by simp) fun _ => plain_bind (by simp) fun _ => plain_last (by simp))

theorem plain_fillArray (prog : Program) (n : Int64) : Plain (fillArray prog n) :=
  plain_check _ (plain_bind (by simp) fun _ => plain_bind (by simp) fun _ => plain_bind (by simp) fun _ =>
    plain_last (by simp))

theorem plain_getIndex (prog : Program) : Plain (getIndex prog) :=
  plain_bind (by simp) fun _ => plain_bind (by simp) fun _ => plain_bind (by simp) fun _ => plain_last (by simp)

theorem plain_assignIndex (prog : Program) : Plain (assignIndex prog) :=
  plain_bind (by simp) fun _ => plain_bind (by simp) fun _ => plain_bind (by simp) fun _ =>
    plain_bind (by simp) fun _ => plain_last (by simp)

theorem plain_step {i : Instr} (hi : i.code.isPlain) (prog : Program) (pos : Position) (inTrace : Bool) :
    Plain (step prog i pos inTrace) := by
  unfold step
  cases hc : i.code with
  | noop => exact plain_next
  | panic => exact plain_fault _
  | const => exact plain_last (by simp)
  | pop => exact plain_last (by simp)
  | tuple => exact plain_check _ (plain_bind (by simp) fun _ => plain_last (by simp))
  | tupleInit => exact plain_tupleInit prog i.n
  | tupleGet => exact plain_tupleGet prog i.n
  | tupleSet => exact plain_tupleSet prog i.n
  | array => exact plain_makeArray prog i.n
  | fill => exact plain_fillArray prog i.n
  | len => exact plain_bind (by simp) fun _ => plain_last (by simp)
  | getIndex => exact plain_getIndex prog
  | assignIndex => exact plain_assignIndex prog
  | materialize | unsize => exact plain_bind (by simp) fun _ => plain_last (by simp)
  | address => exact plain_bind (by simp) fun _ => plain_bind (by simp) fun _ => plain_last (by simp)
  | deref =>
    exact plain_bind (by simp) fun _ => plain_bind (by simp) fun _ => plain_bind (by simp) fun _ =>
      plain_bind (by simp) fun _ => plain_last (by simp)
  | load => exact plain_bind (by simp) fun _ => plain_last (by simp)
  | store => exact plain_bind (by simp) fun _ => plain_bind (by simp) fun _ => plain_last (by simp)
  | binary => exact plain_bind (by simp) fun _ => plain_last (by simp)
  | checkedBinary => exact plain_bind (by simp) fun _ => plain_bind (by simp) fun _ => plain_last (by simp)
  | not | neg => exact plain_bind (by simp) fun _ => plain_check _ (plain_last (by simp))
  | skip | jumpBack | skipIf | jumpBackIf | call | static | ret | guard => simp [hc, Opcode.isPlain] at hi
  | other n => exact plain_fault _

theorem step_plain_pos {i : Instr} (hi : i.code.isPlain) (prog : Program) (pos pos' : Position)
    (inTrace inTrace' : Bool) : step prog i pos inTrace = step prog i pos' inTrace' := by
  cases hc : i.code <;> simp [hc, Opcode.isPlain] at hi <;> simp [step, hc]

end Exec

end HotLoop
