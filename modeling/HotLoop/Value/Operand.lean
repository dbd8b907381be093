import HotLoop.Value.Basic

namespace HotLoop

inductive Operand
  | owned (v : Value)
  | place (c : CellId)
deriving DecidableEq, Repr, Inhabited

inductive ShapeError
  | ownedExpected (c : CellId)
  | placeExpected (k : Kind)
  | recordExpected (k : Kind)
  | fieldRange (index : Int64) (size : Nat)
  | noAddress (k : Kind)
  | pointerExpected (k : Kind)
  | dangling (c : CellId)
deriving DecidableEq, Repr

def ShapeError.message (e : ShapeError) : String :=
  "value shape mismatch: " ++
    match e with
    | ownedExpected c => "expected owned value, got reference to " ++ Value.cellName c
    | placeExpected k => "expected reference, got owned " ++ k.name
    | recordExpected k => "expected struct, got " ++ k.name
    | fieldRange i n => "field " ++ toString i.toInt ++ " out of range for record of " ++ toString n
    | noAddress k => "cannot take the address of owned " ++ k.name
    | pointerExpected k => "expected ptr, got " ++ k.name
    | dangling c => "dangling pointer to " ++ Value.cellName c

namespace Operand

def isPlace : Operand → Bool
  | owned _ => false
  | place _ => true

def value : Operand → Except ShapeError Value
  | owned v => .ok v
  | place c => .error (.ownedExpected c)

def cell : Operand → Except ShapeError CellId
  | owned v => .error (.placeExpected v.kind)
  | place c => .ok c

def text : Operand → String
  | owned v => v.text
  | place c => "ref(" ++ Value.cellName c ++ ")"

end Operand

end HotLoop
