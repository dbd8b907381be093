import HotLoop.Code.Program
import HotLoop.Heap.Basic
import HotLoop.Machine.Fault

/-!
The state of a machine: the heap, the operand stack and the active frames, both with their top first. Frames
are numbered as they are made, so that two frames are the same exactly when their numbers are.

Actions on a machine end with a value, with the cause of a fault, or in a crash, which stands for an access
outside the heap or a block that cannot be allocated. What an action has done before it fails stays done.
-/

namespace HotLoop

structure Frame where
  serial : Nat
  func : Int64
  locals : List CellId
  back : Option Position := none
deriving DecidableEq, Repr, Inhabited

def Frame.local? (f : Frame) (slot : Int64) : Option CellId := nth? f.locals slot

structure Machine where
  heap : Heap := {}
  stack : List Operand := []
  frames : List Frame := []
  made : Nat := 0
deriving DecidableEq, Repr, Inhabited

inductive Stop
  | fault (c : Cause)
  | crash
deriving DecidableEq, Repr

abbrev Exec := EStateM Stop Machine

namespace Machine

def top? (m : Machine) : Option Frame := m.frames.head?

def root? (m : Machine) : Option Frame := m.frames.getLast?

def depth (m : Machine) : Nat := m.frames.length

end Machine

namespace Exec

variable {α : Type}

def fault (c : Cause) : Exec α := throw (.fault c)

def crash : Exec α := throw .crash

def ofExcept : Except Cause α → Exec α
  | .ok a => pure a
  | .error c => fault c

def ofShape : Except ShapeError α → Exec α
  | .ok a => pure a
  | .error e => fault (.shape e)

def ofOption : Option α → Exec α
  | some a => pure a
  | none => crash

def require (c : Cause) : Option α → Exec α
  | some a => pure a
  | none => fault c

def push (x : Operand) : Exec Unit := modify fun m => { m with stack := x :: m.stack }

def pushValue (v : Value) : Exec Unit := push (.owned v)

def pop : Exec Operand := do
  let m ← get
  match m.stack with
  | [] => fault .underflow
  | x :: rest =>
    set { m with stack := rest }
    return x

def peek : Exec Operand := do
  require .underflow (← get).stack.head?

def load (c : CellId) : Exec Value := do
  ofOption ((← get).heap.load? c)

def store (c : CellId) (v : Value) : Exec Unit := do
  let m ← get
  let heap ← ofOption (m.heap.store? c v)
  set { m with heap }

def alloc (v : Value) : Exec CellId :=
  modifyGet fun m =>
    let (c, heap) := m.heap.alloc v
    (c, { m with heap })

def allocUnits (n : Nat) : Exec (List CellId) :=
  modifyGet fun m =>
    let (cells, heap) := m.heap.allocUnits n
    (cells, { m with heap })

def promote : Operand → Exec CellId
  | .owned v => alloc v
  | .place c => pure c

def newRecord (n : Int64) : Exec Value := do
  return Value.record (← allocUnits (← ofOption (Heap.blockSize? n)))

def topFrame : Exec Frame := do
  require .noFrame (← get).top?

def pushFrame (f : Frame) : Exec Unit := modify fun m => { m with frames := f :: m.frames }

def makeFrame (func : Int64) (locals : List CellId) (back : Option Position) : Exec Frame :=
  modifyGet fun m => (⟨m.made, func, locals, back⟩, { m with made := m.made + 1 })

/-- A frame for a function, with every local holding the unit value. It is not active until pushed. -/
def newFrame (prog : Program) (func : Int64) : Exec Frame := do
  let f ← require (.noFunction func) (prog.function? func)
  let n ← ofOption (Heap.blockSize? f.locals)
  let locals ← allocUnits n
  makeFrame func locals none

/-- A frame for a function of a program that may be absent. An absent program has no table to look into, and only
negative indices are known to find nothing. -/
def newFrameIn : Option Program → Int64 → Exec Frame
  | some prog, func => newFrame prog func
  | none, func => if func < 0 then fault (.noFunction func) else crash

end Exec

end HotLoop
