import HotLoop.Proofs.Cells

namespace HotLoop

@[simp] def Cause.OfReplay (c : Cause) : Prop := c = .noFrame ∨ c = .emptyTrace ∨ c = .badJump .leftTrace

theorem Operator.not_ofReplay_of_apply {o : Operator} {l r : Value} {c : Cause} (h : o.apply l r = .error c) :
    ¬c.OfReplay := by
  unfold apply at h
  split at h
  · split at h
    · cases o <;> simp only [onSigned] at h <;> (try split at h) <;> cases h <;> simp
    · cases o <;> simp only [onUnsigned] at h <;> (try split at h) <;> cases h <;> simp
    · cases o <;> simp only [onUnsigned] at h <;> (try split at h) <;> cases h <;> simp
    · cases o <;> simp only [onBool] at h <;> cases h <;> simp
    · cases h
      simp
  · cases h
    simp

namespace Exec

variable {α β : Type}

def Blameless (x : Exec α) : Prop :=
  ∀ m c m', m.frames ≠ [] → x m = .error (.fault c) m' → ¬c.OfReplay

@[simp] theorem blameless_pure (a : α) : Blameless (pure a) := by
  intro m c m' _ h
  cases h

@[simp] theorem blameless_fault {c : Cause} (hc : ¬c.OfReplay) : Blameless (fault c : Exec α) := by
  intro m c' m' _ h
  cases h
  exact hc

@[simp] theorem blameless_crash : Blameless (crash : Exec α) := by
  intro m c m' _ h
  cases h

@[simp] theorem blameless_get : Blameless get := by
  intro m c m' _ h
  cases h

@[simp] theorem blameless_modify (f : Machine → Machine) : Blameless (modify f) := by
  intro m c m' _ h
  cases h

@[simp] theorem blameless_bind {x : Exec α} {f : α → Exec β} (hx : Blameless x) (hk : KeepsFrames x)
    (hf : ∀ a, Blameless (f a)) : Blameless (x >>= f) := by
  intro m c m' hm h
  rcases bind_eq_error.mp h with h | ⟨a, m₁, hr, h⟩
  · exact hx m c m' hm h
  · exact hf a m₁ c m' ((hk.of_ok hr).1 ▸ hm) h

@[simp] theorem blameless_map {x : Exec α} (f : α → β) (hx : Blameless x) : Blameless (f <$> x) := by
  intro m c m' hm h
  rw [map_apply] at h
  cases hr : x m with
  | ok a m₁ => simp [hr] at h
  | error e m₁ =>
    simp only [hr, EStateM.Result.error.injEq] at h
    obtain ⟨rfl, rfl⟩ := h
    exact hx m c m₁ hm hr

@[simp] theorem blameless_ite {c : Prop} [Decidable c] {x y : Exec α} (hx : Blameless x) (hy : Blameless y) :
    Blameless (if c then x else y) := by
  split
  · exact hx
  · exact hy

theorem blameless_check {c : Prop} [Decidable c] {e : Cause} (he : ¬e.OfReplay) {x : Exec α} (hx : Blameless x) :
    Blameless (if c then fault e >>= fun (_ : PUnit) => x else x) :=
  blameless_ite (blameless_bind (blameless_fault he) (by simp) fun _ => hx) hx

@[simp] theorem blameless_require {c : Cause} (hc : ¬c.OfReplay) (o : Option α) : Blameless (require c o) := by
  cases o with
  | none => exact blameless_fault hc
  | some a => exact blameless_pure a

@[simp] theorem blameless_ofOption (o : Option α) : Blameless (ofOption o) := by
  cases o <;> simp [ofOption]

theorem blameless_ofExcept {r : Except Cause α} (h : ∀ c, r = .error c → ¬c.OfReplay) : Blameless (ofExcept r) := by
  cases r with
  | error c => exact blameless_fault (h c rfl)
  | ok a => exact blameless_pure a

@[simp] theorem blameless_ofShape (r : Except ShapeError α) : Blameless (ofShape r) := by
  cases r <;> simp [ofShape]

@[simp] theorem blameless_push (x : Operand) : Blameless (push x) := by simp [push]

@[simp] theorem blameless_pushValue (v : Value) : Blameless (pushValue v) := by simp [pushValue]

@[simp] theorem blameless_pop : Blameless pop := by
  intro m c m' _ h
  cases hs : m.stack with
  | nil =>
    cases (pop_nil hs).symm.trans h
    simp
  | cons x rest => cases (pop_cons hs).symm.trans h

@[simp] theorem blameless_peek : Blameless peek := by simp [peek]

@[simp] theorem blameless_store (c : CellId) (v : Value) : Blameless (store c v) := by
  intro m e m' _ h
  rw [store_apply_eq] at h
  split at h <;> cases h

@[simp] theorem blameless_alloc (v : Value) : Blameless (alloc v) := by
  intro m c m' _ h
  cases h

@[simp] theorem blameless_allocUnits (k : Nat) : Blameless (allocUnits k) := by
  intro m c m' _ h
  cases h

@[simp] theorem blameless_newRecord (k : Int64) : Blameless (newRecord k) := by simp [newRecord]

@[simp] theorem blameless_topFrame : Blameless topFrame := by
  intro m c m' hm h
  have happly : topFrame m = require .noFrame m.top? m := rfl
  have htop : m.top? = some (m.frames.head hm) := List.head?_eq_some_head hm
  rw [happly, htop] at h
  cases h

@[simp] theorem blameless_localCell (slot : Int64) : Blameless (localCell slot) := by simp [localCell]

@[simp] theorem blameless_valueOf (prog : Program) (x : Operand) : Blameless (valueOf prog x) := by
  apply blameless_bind (by simp [materialize]) (by simp)
  intro v
  apply blameless_ofExcept
  intro c hc
  obtain ⟨e, rfl⟩ := Program.resolve_error hc
  simp

@[simp] theorem blameless_materialize (x : Operand) : Blameless (materialize x) := by simp [materialize]

@[simp] theorem blameless_popValue (prog : Program) : Blameless (popValue prog) := by simp [popValue]

@[simp] theorem blameless_peekValue (prog : Program) : Blameless (peekValue prog) := by simp [peekValue]

@[simp] theorem blameless_asBool (v : Value) : Blameless (asBool v) := by simp [asBool]

@[simp] theorem blameless_popRecord (prog : Program) : Blameless (popRecord prog) :=
  blameless_bind (by simp) (by simp) fun _ => by simp

@[simp] theorem blameless_popIndex (prog : Program) : Blameless (popIndex prog) :=
  blameless_bind (by simp) (by simp) fun _ => by simp

@[simp] theorem blameless_field (v : Value) (index : Int64) : Blameless (field v index) := by simp [field]

@[simp] theorem blameless_jumpTo (func pc : Int64) (taken : Bool) : Blameless (jumpTo func pc taken) := by
  simp [jumpTo]

@[simp] theorem blameless_storeAll (ps : List (CellId × Value)) : Blameless (storeAll ps) := by
  induction ps with
  | nil => simp [storeAll]
  | cons p rest ih => simp [storeAll, ih]

@[simp] theorem blameless_popInto (prog : Program) (cells : List CellId) : Blameless (popInto prog cells) := by
  induction cells with
  | nil => simp [popInto]
  | cons c rest ih => simp [popInto, ih]

@[simp] theorem blameless_promote (x : Operand) : Blameless (promote x) := by
  cases x <;> simp [promote]

@[simp] theorem blameless_popArguments (k : Nat) (cells : List CellId) : Blameless (popArguments k cells) := by
  induction k generalizing cells with
  | zero => simp [popArguments]
  | succ k ih => simp [popArguments, ih]

@[simp] theorem blameless_binary (prog : Program) (o : Operator) : Blameless (binary prog o) := by
  apply blameless_bind (by simp) (by simp)
  intro r
  apply blameless_bind (by simp) (by simp)
  intro l
  exact blameless_ofExcept fun c hc => Operator.not_ofReplay_of_apply hc

@[simp] theorem blameless_checkedPair (v : Value) : Blameless (checkedPair v) := by simp [checkedPair]

theorem blameless_last {x : Exec α} (hx : Blameless x) (hk : KeepsFrames x) :
    Blameless (x >>= fun _ => pure Transfer.next) :=
  blameless_bind hx hk fun _ => blameless_pure _

theorem blameless_enter (prog : Program) (func : Int64) (back : Position) (args : Bool) :
    Blameless (enter prog func back args) := by
  refine blameless_bind (by simp) (by simp) fun f => blameless_check (by simp) ?_
  refine blameless_bind (by simp) (by simp) fun size => ?_
  refine blameless_ite (blameless_bind (by simp) (by simp) fun _ => ?_) ?_
  all_goals
    refine blameless_bind (by simp) (by simp) fun cells => blameless_bind (by simp) (by simp) fun fresh => ?_
    -- the frame is made and pushed without fail
    intro m c m' _ h
    cases h

theorem blameless_leave : Blameless leave := by
  intro m c m' hm h
  obtain ⟨f, rest, hframes⟩ := List.exists_cons_of_ne_nil hm
  cases (leave_eq_ok.mpr ⟨f, rest, hframes, rfl, rfl⟩).symm.trans h

theorem blameless_guard (prog : Program) (g : Guard) (inTrace : Bool) : Blameless (guard prog g inTrace) := by
  refine blameless_check (by simp) (blameless_bind (by simp) (by simp) fun v => ?_)
  refine blameless_bind (by simp) (by simp [asBool]) fun cond => ?_
  exact blameless_ite (blameless_last (by simp) fun _ => ⟨rfl, rfl⟩) (by simp)

theorem blameless_step (prog : Program) (i : Instr) (pos : Position) (inTrace : Bool) :
    Blameless (step prog i pos inTrace) := by
  unfold step
  cases i.code with
  | noop => exact blameless_pure _
  | panic => exact blameless_fault (by simp)
  | const | pop => exact blameless_last (by simp) (by simp)
  | tuple => exact blameless_check (by simp) (blameless_bind (by simp) (by simp) (by simp))
  | tupleInit =>
    refine blameless_bind (by simp) (by simp) fun v => blameless_bind (by simp) (by simp) fun r => ?_
    exact blameless_check (by simp) (blameless_bind (by simp) (by simp) (by simp))
  | tupleGet => exact blameless_bind (by simp) (by simp) fun r => blameless_bind (by simp) (by simp) (by simp)
  | tupleSet | getIndex =>
    refine blameless_bind (by simp) (by simp) fun r => blameless_bind (by simp) (by simp) fun v => ?_
    exact blameless_bind (by simp) (by simp) (by simp)
  | array =>
    refine blameless_check (by simp) (blameless_bind (by simp) (by simp) fun r => ?_)
    exact blameless_bind (by simp) (by simp) (by simp)
  | fill =>
    refine blameless_check (by simp) (blameless_bind (by simp) (by simp) fun v => ?_)
    refine blameless_bind (by simp) (by simp) fun r => blameless_bind (by simp) (by simp) (by simp)
  | assignIndex =>
    refine blameless_bind (by simp) (by simp) fun r => blameless_bind (by simp) (by simp) fun index => ?_
    exact blameless_bind (by simp) (by simp) fun v => blameless_bind (by simp) (by simp) (by simp)
  | len | load | binary | materialize | unsize => exact blameless_bind (by simp) (by simp) (by simp)
  | address | store | checkedBinary =>
    exact blameless_bind (by simp) (by simp) fun _ => blameless_bind (by simp) (by simp) (by simp)
  | deref =>
    refine blameless_bind (by simp) (by simp) fun x => blameless_bind (by simp) (by simp) fun v => ?_
    exact blameless_bind (by simp) (by simp) fun m => blameless_bind (by simp) (by simp) (by simp)
  | not | neg => exact blameless_bind (by simp) (by simp) fun v => blameless_check (by simp) (by simp)
  | skip | jumpBack => exact blameless_jumpTo _ _ _
  | skipIf | jumpBackIf =>
    exact blameless_bind (by simp) (by simp) fun v => blameless_bind (by simp) (by simp [asBool]) (by simp)
  | call => exact blameless_bind (by simp) (by simp) fun v => blameless_check (by simp) (blameless_enter _ _ _ _)
  | static => exact blameless_enter _ _ _ _
  | ret => exact blameless_leave
  | guard => exact blameless_guard _ _ _
  | other n => exact blameless_fault (by simp)

end Exec

end HotLoop
