import HotLoop.Value.Kind

namespace HotLoop

abbrev CellId := UInt32

structure Value where
  kind : Kind := .unit
  int : Int64 := 0
  uint : UInt64 := 0
  bool : Bool := false
  cell : CellId := 0
  fields : List CellId := []
deriving DecidableEq, Repr, Inhabited

namespace Value

def unit : Value := {}

def i64 (n : Int64) : Value := { kind := .i64, int := n }

def u64 (n : UInt64) : Value := { kind := .u64, uint := n }

def usize (n : UInt64) : Value := { kind := .usize, uint := n }

def ofBool (b : Bool) : Value := { kind := .bool, bool := b }

def func (index : Int64) : Value := { kind := .func, uint := index.toUInt64 }

def static (index : Int64) : Value := { kind := .static, uint := index.toUInt64 }

def pointer (c : CellId) : Value := { kind := .pointer, cell := c }

def record (cells : List CellId) : Value := { kind := .record, fields := cells }

def index (v : Value) : Int64 := v.uint.toInt64

def isPrimitive (v : Value) : Bool := v.kind ≠ .record ∧ v.kind ≠ .pointer

/-- Equality of the payload that the kind gives meaning to. Records and pointers are compared by the cells
they name. A value of an unknown kind equals nothing. -/
def equal (v w : Value) : Bool :=
  if v.kind = w.kind then
    match v.kind with
    | .unit => true
    | .i64 => v.int == w.int
    | .u64 | .usize | .func | .static => v.uint == w.uint
    | .bool => v.bool == w.bool
    | .pointer => v.cell == w.cell
    | .record => v.fields == w.fields
    | .other _ => false
  else false

def cellName (c : CellId) : String := "cell" ++ toString c.toNat

def text (v : Value) : String :=
  match v.kind with
  | .unit => "()"
  | .i64 => toString v.int.toInt ++ "i64"
  | .u64 => toString v.uint.toNat ++ "u64"
  | .usize => toString v.uint.toNat ++ "usize"
  | .bool => if v.bool then "true" else "false"
  | .func => "fn#" ++ toString v.uint.toNat
  | .static => "static#" ++ toString v.uint.toNat
  | .pointer => "&" ++ cellName v.cell
  | .record => "(" ++ String.intercalate ", " (v.fields.map cellName) ++ ")"
  | .other _ => "<invalid>"

end Value

end HotLoop
