import HotLoop.Machine.Arith
import HotLoop.Machine.State

namespace HotLoop

inductive Transfer
  | next
  | jump (target : Position) (taken : Bool)
  | enter (target : Position)
  | leave (target : Position)
  | stop
  | guardFailed
deriving DecidableEq, Repr, Inhabited

def Transfer.taken : Transfer → Bool
  | jump _ t => t
  | _ => false

namespace Program

def constant (prog : Program) : Nat → Value → Except Cause Value
  | hops, v =>
    if v.kind = .static then
      match hops with
      | 0 => .error (.mismatch (.staticCycle v.index))
      | hops + 1 =>
        match (prog.function? v.index).bind fun f => f.instrs.head? with
        | some i =>
          if i.code = .const then prog.constant hops i.value
          else .error (.mismatch (.notConstant v.index))
        | none => .error (.mismatch (.notConstant v.index))
    else .ok v

def resolve (prog : Program) (v : Value) : Except Cause Value :=
  prog.constant (prog.entries.length + 1) v

end Program

namespace Exec

def materialize (x : Operand) : Exec Value := do
  ofOption ((← get).heap.materialize? x)

def valueOf (prog : Program) (x : Operand) : Exec Value := do
  ofExcept (prog.resolve (← materialize x))

def popValue (prog : Program) : Exec Value := do
  valueOf prog (← pop)

def peekValue (prog : Program) : Exec Value := do
  valueOf prog (← peek)

def asBool (v : Value) : Exec Bool :=
  if v.kind = .bool then pure v.bool else fault (.mismatch (.boolExpected v.kind))

def popRecord (prog : Program) : Exec Value := do
  let v ← popValue prog
  if v.kind = .record then pure v else fault (.mismatch (.recordExpected v.kind))

def popIndex (prog : Program) : Exec Int64 := do
  let v ← popValue prog
  if v.kind = .usize ∨ v.kind = .u64 then pure v.index else fault (.mismatch (.indexKind v.kind))

def field (v : Value) (index : Int64) : Exec CellId :=
  require (.outOfRange (.noField index v.fields.length)) (nth? v.fields index)

def localCell (slot : Int64) : Exec CellId := do
  let f ← topFrame
  require (.outOfRange (.noLocal slot f.locals.length)) (f.local? slot)

def jumpTo (func pc : Int64) (taken : Bool) : Exec Transfer :=
  if pc < 0 then fault (.badJump (.before pc)) else pure (.jump ⟨func, pc⟩ taken)

def storeAll : List (CellId × Value) → Exec Unit
  | [] => pure ()
  | p :: rest => do
    store p.1 p.2
    storeAll rest

def popInto (prog : Program) : List CellId → Exec Unit
  | [] => pure ()
  | c :: rest => do
    let v ← popValue prog
    store c v
    popInto prog rest

def popArguments : Nat → List CellId → Exec (List CellId)
  | 0, cells => pure cells
  | n + 1, cells => do
    let c ← promote (← pop)
    popArguments n (c :: cells)

/-- Enters a function. With arguments, its parameters are popped; a place passed as an argument shares the
caller's cell. -/
def enter (prog : Program) (func : Int64) (back : Position) (withArguments : Bool) : Exec Transfer := do
  let f ← require (.noFunction func) (prog.function? func)
  let params := if withArguments then f.params else 0
  if f.locals < params then fault (.outOfRange (.parameters func params f.locals))
  let size ← ofOption (Heap.blockSize? f.locals)
  if params < 0 then crash
  let arguments ← popArguments params.toNatClampNeg []
  let fresh ← allocUnits (size - params.toNatClampNeg)
  pushFrame (← makeFrame func (arguments ++ fresh) (some back))
  return .enter ⟨func, 0⟩

def leave : Exec Transfer := do
  let f ← topFrame
  modify fun m => { m with frames := m.frames.tail }
  match f.back with
  | none => return .stop
  | some target => return .leave target

def tupleInit (prog : Program) (index : Int64) : Exec Transfer := do
  let v ← popValue prog
  let r ← peekValue prog
  if r.kind ≠ .record then fault (.mismatch (.initOf r.kind))
  store (← field r index) v
  return .next

def tupleGet (prog : Program) (index : Int64) : Exec Transfer := do
  let r ← popRecord prog
  push (.place (← field r index))
  return .next

def tupleSet (prog : Program) (index : Int64) : Exec Transfer := do
  let r ← popRecord prog
  let v ← popValue prog
  store (← field r index) v
  return .next

def makeArray (prog : Program) (n : Int64) : Exec Transfer := do
  if n < 0 then fault (.outOfRange (.arraySize n))
  let r ← newRecord n
  popInto prog r.fields.reverse
  pushValue r
  return .next

def fillArray (prog : Program) (n : Int64) : Exec Transfer := do
  if n < 0 then fault (.outOfRange (.fillCount n))
  let v ← popValue prog
  let r ← newRecord n
  storeAll (r.fields.map fun c => (c, v))
  pushValue r
  return .next

def getIndex (prog : Program) : Exec Transfer := do
  let r ← popRecord prog
  let index ← popIndex prog
  push (.place (← field r index))
  return .next

def assignIndex (prog : Program) : Exec Transfer := do
  let r ← popRecord prog
  let index ← popIndex prog
  let v ← popValue prog
  store (← field r index) v
  return .next

def binary (prog : Program) (o : Operator) : Exec Value := do
  let right ← popValue prog
  let left ← popValue prog
  ofExcept (o.apply left right)

/-- A record of a result and of an overflow mark that is never set, since arithmetic wraps. -/
def checkedPair (v : Value) : Exec Value := do
  let r ← newRecord 2
  storeAll (r.fields.zip [v, Value.ofBool false])
  return r

/-- A guard pops its condition if it is as expected, and leaves it on the stack otherwise. -/
def guard (prog : Program) (g : Guard) (inTrace : Bool) : Exec Transfer := do
  if !inTrace then fault .guardOutsideTrace
  let cond ← asBool (← peekValue prog)
  if cond = g.expected then
    modify fun m => { m with stack := m.stack.tail }
    return .next
  else return .guardFailed

/-- Evaluates one instruction. Jumps are relative to `pos`, and a call returns to the place after it. -/
def step (prog : Program) (i : Instr) (pos : Position) (inTrace : Bool) : Exec Transfer :=
  match i.code with
  | .noop => return .next
  | .panic => fault .panicked
  | .const => do
    pushValue i.value
    return .next
  | .pop => do
    let _ ← pop
    return .next
  | .tuple => do
    if i.n < 0 then fault (.outOfRange (.recordSize i.n))
    pushValue (← newRecord i.n)
    return .next
  | .tupleInit => tupleInit prog i.n
  | .tupleGet => tupleGet prog i.n
  | .tupleSet => tupleSet prog i.n
  | .array => makeArray prog i.n
  | .fill => fillArray prog i.n
  | .len => do
    let r ← popRecord prog
    pushValue (Value.usize (UInt64.ofNat r.fields.length))
    return .next
  | .getIndex => getIndex prog
  | .assignIndex => assignIndex prog
  | .materialize | .unsize => do
    pushValue (← popValue prog)
    return .next
  | .address => do
    let x ← pop
    pushValue (← ofShape (Heap.address x))
    return .next
  | .deref => do
    let v ← materialize (← pop)
    let m ← get
    push (.place (← ofShape (m.heap.deref v)))
    return .next
  | .load => do
    push (.place (← localCell i.n))
    return .next
  | .store => do
    let v ← popValue prog
    store (← localCell i.n) v
    return .next
  | .binary => do
    pushValue (← binary prog i.operator)
    return .next
  | .checkedBinary => do
    pushValue (← checkedPair (← binary prog i.operator))
    return .next
  | .not => do
    let v ← popValue prog
    if v.kind ≠ .bool then fault (.mismatch (.notOf v.kind))
    pushValue (Value.ofBool (!v.bool))
    return .next
  | .neg => do
    let v ← popValue prog
    if v.kind ≠ .i64 then fault (.mismatch (.negOf v.kind))
    pushValue (Value.i64 (-v.int))
    return .next
  | .skip => jumpTo pos.func (pos.pc + i.n) false
  | .jumpBack => jumpTo pos.func (pos.pc - i.n) false
  | .skipIf => do
    if ← asBool (← popValue prog) then jumpTo pos.func (pos.pc + i.n) true else return .next
  | .jumpBackIf => do
    if ← asBool (← popValue prog) then jumpTo pos.func (pos.pc - i.n) true else return .next
  | .call => do
    let f ← popValue prog
    if f.kind ≠ .func then fault (.mismatch (.callOf f.kind))
    enter prog f.index pos.next true
  | .static => enter prog i.n pos.next false
  | .ret => leave
  | .guard => guard prog i.guard inTrace
  | .other n => fault (.unknownOpcode (.other n))

end Exec

end HotLoop
