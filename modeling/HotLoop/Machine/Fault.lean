import HotLoop.Code.Instr
import HotLoop.Value.Operand

namespace HotLoop

inductive Mismatch
  | staticCycle (index : Int64)
  | notConstant (index : Int64)
  | operands (left : Kind) (o : Operator) (right : Kind)
  | operator (o : Operator) (k : Kind)
  | notOf (k : Kind)
  | negOf (k : Kind)
  | callOf (k : Kind)
  | initOf (k : Kind)
  | boolExpected (k : Kind)
  | recordExpected (k : Kind)
  | indexKind (k : Kind)
  | results (cell pc : Kind)
deriving DecidableEq, Repr

inductive OutOfRange
  | recordSize (n : Int64)
  | arraySize (n : Int64)
  | fillCount (n : Int64)
  | noLocal (slot : Int64) (count : Nat)
  | noField (index : Int64) (size : Nat)
  | parameters (index params locals : Int64)
  | fewLocals (index : Int64) (count needed : Nat)
deriving DecidableEq, Repr

inductive BadJump
  | before (target : Int64)
  | nowhere (pos : Position)
  | leftTrace
deriving DecidableEq, Repr

inductive Cause
  | underflow
  | noFrame
  | noFunction (index : Int64)
  | mismatch (m : Mismatch)
  | outOfRange (r : OutOfRange)
  | panicked
  | unknownOpcode (c : Opcode)
  | unknownOperator (o : Operator)
  | badJump (j : BadJump)
  | divideByZero
  | guardOutsideTrace
  | emptyTrace
  | shape (e : ShapeError)
deriving DecidableEq, Repr

def Mismatch.message (m : Mismatch) : String :=
  "type mismatch: " ++
    match m with
    | staticCycle i => "static reference cycle through function " ++ Text.decimal i
    | notConstant i => "function " ++ Text.decimal i ++ " does not define a constant"
    | operands l o r => l.name ++ " " ++ o.name ++ " " ++ r.name
    | operator o k => o.name ++ " on " ++ k.name
    | notOf k => "not of " ++ k.name
    | negOf k => "neg of " ++ k.name
    | callOf k => "call of " ++ k.name
    | initOf k => "tuple init of " ++ k.name
    | boolExpected k => "expected bool, got " ++ k.name
    | recordExpected k => "expected struct, got " ++ k.name
    | indexKind k => "index of kind " ++ k.name
    | results c p => "cell is " ++ c.name ++ " and pc is " ++ p.name ++ ", want usize"

def OutOfRange.message (r : OutOfRange) : String :=
  "index out of range: " ++
    match r with
    | recordSize n => "record size " ++ Text.decimal n
    | arraySize n => "array size " ++ Text.decimal n
    | fillCount n => "repeat count " ++ Text.decimal n
    | noLocal s n => "local " ++ Text.decimal s ++ " of " ++ toString n
    | noField i n => "field " ++ Text.decimal i ++ " of record of " ++ toString n
    | parameters i p l =>
      "function " ++ Text.decimal i ++ " takes " ++ Text.decimal p ++ " params into " ++ Text.decimal l ++
        " locals"
    | fewLocals i n k =>
      "merge-point function " ++ Text.decimal i ++ " has " ++ toString n ++ " locals, need " ++ toString k

def BadJump.message (j : BadJump) : String :=
  "control transfer out of range: " ++
    match j with
    | before t => "target " ++ Text.decimal t
    | nowhere pos => "no opcode at " ++ pos.text
    | leftTrace => "outermost frame returned inside a trace"

def Cause.message : Cause → String
  | underflow => "operand stack underflow"
  | noFrame => "no active frame"
  | noFunction i => "no such function: " ++ Text.decimal i
  | mismatch m => m.message
  | outOfRange r => r.message
  | panicked => "panic opcode executed"
  | unknownOpcode c => "unimplemented opcode: " ++ c.name
  | unknownOperator o => "unimplemented opcode: binary operator " ++ o.name
  | badJump j => j.message
  | divideByZero => "integer division by zero"
  | guardOutsideTrace => "guard executed outside a trace"
  | emptyTrace => "empty trace"
  | shape e => e.message

/-- A failed instruction. In a trace, the position counts the instructions of the trace. -/
structure Fault where
  instr : Instr := {}
  pos : Position := {}
  inTrace : Bool := false
  cause : Cause
deriving DecidableEq, Repr

def Fault.message (f : Fault) : String :=
  let place := if f.inTrace then "trace+" ++ Text.decimal f.pos.pc else f.pos.text
  "fault at " ++ place ++ " (" ++ f.instr.text ++ "): " ++ f.cause.message

end HotLoop
