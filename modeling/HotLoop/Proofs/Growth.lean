import HotLoop.Proofs.Control

namespace HotLoop

namespace Heap

variable {h h' : Heap} {c d : CellId} {v : Value}

theorem lt_of_load? (hc : h.load? c = some v) : c.toNat < h.size := by
  unfold load? at hc
  exact (Array.getElem?_eq_some_iff.mp hc).1

theorem lt_of_store? (hs : h.store? d v = some h') : d.toNat < h.size := by
  unfold store? at hs
  split at hs
  · assumption
  · cases hs

theorem load?_of_store? (hs : h.store? d v = some h') (c : CellId) :
    h'.load? c = if c = d then some v else h.load? c := by
  unfold store? at hs
  split at hs
  · rename_i hd
    obtain rfl := Option.some.inj hs
    by_cases hcd : c = d
    · subst hcd
      simp [load?, hd]
    · have hne : d.toNat ≠ c.toNat := fun he => hcd (UInt32.toNat_inj.mp he.symm)
      simp [load?, hcd, hne]
  · cases hs

theorem size_of_store? (hs : h.store? d v = some h') : h'.size = h.size := by
  unfold store? at hs
  split at hs
  · obtain rfl := Option.some.inj hs
    simp [size]
  · cases hs

theorem load?_alloc (h : Heap) (v : Value) (c : CellId) :
    (h.alloc v).2.load? c = if c.toNat = h.size then some v else h.load? c := by
  unfold alloc load? size
  by_cases hc : c.toNat = h.cells.size
  · simp [hc]
  · simp [Array.getElem?_push, hc]

theorem load?_allocUnits (h : Heap) (k : Nat) (c : CellId) :
    (h.allocUnits k).2.load? c =
      if c.toNat < h.size then h.load? c else if c.toNat < h.size + k then some Value.unit else none := by
  unfold allocUnits load? size
  rw [Array.getElem?_append]
  split
  · rfl
  · rw [Array.getElem?_replicate]
    congr 1
    simp only [eq_iff_iff]
    omega

theorem eq_of_load? (hsize : h'.size = h.size) (hle : h.size ≤ UInt32.size) (hload : ∀ c, h'.load? c = h.load? c) :
    h' = h := by
  obtain ⟨cells⟩ := h
  obtain ⟨cells'⟩ := h'
  congr 1
  apply Array.ext_getElem?
  intro k
  by_cases hk : k < cells.size
  · have hread := hload (UInt32.ofNat k)
    simpa only [load?, UInt32.toNat_ofNat_of_lt' (Nat.lt_of_lt_of_le hk hle)] using hread
  · rw [Array.getElem?_eq_none (Nat.le_of_not_lt hk), Array.getElem?_eq_none]
    exact Nat.le_trans (Nat.le_of_eq hsize) (Nat.le_of_not_lt hk)

end Heap

namespace Exec

variable {α β : Type}

def Enlarges (x : Exec α) : Prop := ∀ m, m.heap.size ≤ (after x m).heap.size

theorem Enlarges.of_ok {x : Exec α} (hx : Enlarges x) {m m' : Machine} {a : α} (h : x m = .ok a m') :
    m.heap.size ≤ m'.heap.size := by
  have := hx m
  simpa only [after, h] using this

@[simp] theorem enlarges_pure (a : α) : Enlarges (pure a) := fun _ => Nat.le_refl _

@[simp] theorem enlarges_fault (c : Cause) : Enlarges (fault c : Exec α) := fun _ => Nat.le_refl _

@[simp] theorem enlarges_crash : Enlarges (crash : Exec α) := fun _ => Nat.le_refl _

@[simp] theorem enlarges_get : Enlarges get := fun _ => Nat.le_refl _

@[simp] theorem enlarges_bind {x : Exec α} {f : α → Exec β} (hx : Enlarges x) (hf : ∀ a, Enlarges (f a)) :
    Enlarges (x >>= f) := by
  intro m
  have h := hx m
  unfold after at h ⊢
  rw [bind_apply]
  cases hr : x m with
  | error e m₁ => simpa only [hr] using h
  | ok a m₁ =>
    simp only [hr] at h
    exact Nat.le_trans h (hf a m₁)

@[simp] theorem enlarges_map {x : Exec α} (f : α → β) (hx : Enlarges x) : Enlarges (f <$> x) := by
  intro m
  have h := hx m
  unfold after at h ⊢
  rw [map_apply]
  cases hr : x m <;> simpa only [hr] using h

@[simp] theorem enlarges_ite {c : Prop} [Decidable c] {x y : Exec α} (hx : Enlarges x) (hy : Enlarges y) :
    Enlarges (if c then x else y) := by
  split
  · exact hx
  · exact hy

theorem enlarges_check {c : Prop} [Decidable c] {e : Cause} {x : Exec α} (hx : Enlarges x) :
    Enlarges (if c then fault e >>= fun (_ : PUnit) => x else x) :=
  enlarges_ite (enlarges_bind (enlarges_fault e) fun _ => hx) hx

@[simp] theorem enlarges_require (c : Cause) (o : Option α) : Enlarges (require c o) := by
  cases o <;> simp [require]

@[simp] theorem enlarges_ofOption (o : Option α) : Enlarges (ofOption o) := by
  cases o <;> simp [ofOption]

@[simp] theorem enlarges_ofExcept (r : Except Cause α) : Enlarges (ofExcept r) := by
  cases r <;> simp [ofExcept]

@[simp] theorem enlarges_ofShape (r : Except ShapeError α) : Enlarges (ofShape r) := by
  cases r <;> simp [ofShape]

@[simp] theorem enlarges_push (x : Operand) : Enlarges (push x) := fun _ => Nat.le_refl _

@[simp] theorem enlarges_pushValue (v : Value) : Enlarges (pushValue v) := fun _ => Nat.le_refl _

@[simp] theorem enlarges_pop : Enlarges pop := by
  rintro ⟨heap, _ | ⟨x, rest⟩, frames, made⟩ <;> exact Nat.le_refl _

@[simp] theorem enlarges_peek : Enlarges peek := by simp [peek]

@[simp] theorem enlarges_store (c : CellId) (v : Value) : Enlarges (store c v) := by
  intro m
  unfold after
  rw [store_apply_eq]
  cases hs : m.heap.store? c v with
  | none => exact Nat.le_refl _
  | some heap => exact Nat.le_of_eq (Heap.size_of_store? hs).symm

@[simp] theorem enlarges_alloc (v : Value) : Enlarges (alloc v) := by
  intro m
  change m.heap.size ≤ (m.heap.alloc v).2.size
  simp [Heap.alloc, Heap.size]

@[simp] theorem enlarges_allocUnits (k : Nat) : Enlarges (allocUnits k) := by
  intro m
  change m.heap.size ≤ (m.heap.allocUnits k).2.size
  simp [Heap.allocUnits, Heap.size]

@[simp] theorem enlarges_newRecord (k : Int64) : Enlarges (newRecord k) := by simp [newRecord]

@[simp] theorem enlarges_topFrame : Enlarges topFrame := by simp [topFrame]

@[simp] theorem enlarges_materialize (x : Operand) : Enlarges (materialize x) := by simp [materialize]

@[simp] theorem enlarges_popValue (prog : Program) : Enlarges (popValue prog) := by simp [popValue, valueOf]

@[simp] theorem enlarges_peekValue (prog : Program) : Enlarges (peekValue prog) := by simp [peekValue, valueOf]

@[simp] theorem enlarges_popRecord (prog : Program) : Enlarges (popRecord prog) := by simp [popRecord]

@[simp] theorem enlarges_popIndex (prog : Program) : Enlarges (popIndex prog) := by simp [popIndex]

@[simp] theorem enlarges_field (v : Value) (index : Int64) : Enlarges (field v index) := by simp [field]

@[simp] theorem enlarges_localCell (slot : Int64) : Enlarges (localCell slot) := by simp [localCell]

@[simp] theorem enlarges_storeAll (ps : List (CellId × Value)) : Enlarges (storeAll ps) := by
  induction ps with
  | nil => simp [storeAll]
  | cons p rest ih => simp [storeAll, ih]

@[simp] theorem enlarges_popInto (prog : Program) (cells : List CellId) : Enlarges (popInto prog cells) := by
  induction cells with
  | nil => simp [popInto]
  | cons c rest ih => simp [popInto, ih]

@[simp] theorem enlarges_binary (prog : Program) (o : Operator) : Enlarges (binary prog o) := by simp [binary]

@[simp] theorem enlarges_checkedPair (v : Value) : Enlarges (checkedPair v) := by simp [checkedPair]

@[simp] theorem enlarges_promote (x : Operand) : Enlarges (promote x) := by
  cases x <;> simp [promote]

@[simp] theorem enlarges_popArguments (k : Nat) (cells : List CellId) : Enlarges (popArguments k cells) := by
  induction k generalizing cells with
  | zero => simp [popArguments]
  | succ k ih => exact enlarges_bind (by simp) fun _ => enlarges_bind (by simp) fun _ => ih _

@[simp] theorem enlarges_pushFrame (f : Frame) : Enlarges (pushFrame f) := fun _ => Nat.le_refl _

@[simp] theorem enlarges_makeFrame (func : Int64) (locals : List CellId) (back : Option Position) :
    Enlarges (makeFrame func locals back) := fun _ => Nat.le_refl _

@[simp] theorem enlarges_enter (prog : Program) (func : Int64) (back : Position) (args : Bool) :
    Enlarges (enter prog func back args) := by
  refine enlarges_bind (by simp) fun f => enlarges_check (enlarges_bind (by simp) fun size => ?_)
  refine enlarges_ite (enlarges_bind enlarges_crash fun _ => ?_) ?_
  all_goals
    refine enlarges_bind (by simp) fun arguments => enlarges_bind (by simp) fun fresh => ?_
    exact enlarges_bind (by simp) fun frame => enlarges_bind (by simp) fun _ => by simp

@[simp] theorem enlarges_leave : Enlarges leave := by
  refine enlarges_bind (by simp) fun f => enlarges_bind (fun _ => Nat.le_refl _) fun _ => ?_
  cases f.back <;> simp

@[simp] theorem enlarges_asBool (v : Value) : Enlarges (asBool v) := by simp [asBool]

@[simp] theorem enlarges_jumpTo (func pc : Int64) (taken : Bool) : Enlarges (jumpTo func pc taken) := by
  simp [jumpTo]

theorem enlarges_last {x : Exec α} (hx : Enlarges x) : Enlarges (x >>= fun _ => pure Transfer.next) :=
  enlarges_bind hx fun _ => enlarges_pure _

theorem enlarges_guard (prog : Program) (g : Guard) (inTrace : Bool) : Enlarges (guard prog g inTrace) := by
  refine enlarges_check (enlarges_bind (by simp) fun v => enlarges_bind (by simp) fun cond => ?_)
  exact enlarges_ite (enlarges_last fun _ => Nat.le_refl _) (enlarges_pure _)

theorem enlarges_step (prog : Program) (i : Instr) (pos : Position) (inTrace : Bool) :
    Enlarges (step prog i pos inTrace) := by
  unfold step
  cases i.code with
  | noop => exact enlarges_pure _
  | panic => exact enlarges_fault _
  | const | pop => exact enlarges_last (by simp)
  | tuple => exact enlarges_check (enlarges_bind (by simp) fun _ => enlarges_last (by simp))
  | tupleInit =>
    exact enlarges_bind (by simp) fun _ => enlarges_bind (by simp) fun _ =>
      enlarges_check (enlarges_bind (by simp) fun _ => enlarges_last (by simp))
  | tupleGet => exact enlarges_bind (by simp) fun _ => enlarges_bind (by simp) fun _ => enlarges_last (by simp)
  | tupleSet =>
    exact enlarges_bind (by simp) fun _ => enlarges_bind (by simp) fun _ => enlarges_bind (by simp) fun _ =>
      enlarges_last (by simp)
  | array =>
    exact enlarges_check (enlarges_bind (by simp) fun _ => enlarges_bind (by simp) fun _ => enlarges_last (by simp))
  | fill =>
    exact enlarges_check (enlarges_bind (by simp) fun _ => enlarges_bind (by simp) fun _ =>
      enlarges_bind (by simp) fun _ => enlarges_last (by simp))
  | len => exact enlarges_bind (by simp) fun _ => enlarges_last (by simp)
  | getIndex =>
    exact enlarges_bind (by simp) fun _ => enlarges_bind (by simp) fun _ => enlarges_bind (by simp) fun _ =>
      enlarges_last (by simp)
  | assignIndex =>
    exact enlarges_bind (by simp) fun _ => enlarges_bind (by simp) fun _ => enlarges_bind (by simp) fun _ =>
      enlarges_bind (by simp) fun _ => enlarges_last (by simp)
  | materialize | unsize => exact enlarges_bind (by simp) fun _ => enlarges_last (by simp)
  | address => exact enlarges_bind (by simp) fun _ => enlarges_bind (by simp) fun _ => enlarges_last (by simp)
  | deref =>
    exact enlarges_bind (by simp) fun _ => enlarges_bind (by simp) fun _ => enlarges_bind (by simp) fun _ =>
      enlarges_bind (by simp) fun _ => enlarges_last (by simp)
  | load => exact enlarges_bind (by simp) fun _ => enlarges_last (by simp)
  | store => exact enlarges_bind (by simp) fun _ => enlarges_bind (by simp) fun _ => enlarges_last (by simp)
  | binary => exact enlarges_bind (by simp) fun _ => enlarges_last (by simp)
  | checkedBinary => exact enlarges_bind (by simp) fun _ => enlarges_bind (by simp) fun _ => enlarges_last (by simp)
  | not | neg => exact enlarges_bind (by simp) fun _ => enlarges_check (enlarges_last (by simp))
  | skip | jumpBack => exact enlarges_jumpTo _ _ _
  | skipIf | jumpBackIf =>
    exact enlarges_bind (by simp) fun _ => enlarges_bind (by simp) fun _ => enlarges_ite (by simp) (by simp)
  | call => exact enlarges_bind (by simp) fun _ => enlarges_check (by simp)
  | static => exact enlarges_enter _ _ _ _
  | ret => exact enlarges_leave
  | guard => exact enlarges_guard _ _ _
  | other n => exact enlarges_fault _

end Exec

end HotLoop
