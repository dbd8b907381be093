import HotLoop.Code.Opcode
import HotLoop.Code.Operator
import HotLoop.Value.Basic

namespace HotLoop

structure Position where
  func : Int64 := 0
  pc : Int64 := 0
deriving DecidableEq, Repr, Inhabited

namespace Position

def next (p : Position) : Position := { p with pc := p.pc + 1 }

def text (p : Position) : String := Text.decimal p.func ++ ":" ++ Text.decimal p.pc

end Position

structure Guard where
  expected : Bool := false
  recovery : Position := {}
deriving DecidableEq, Repr, Inhabited

structure Instr where
  code : Opcode := .noop
  n : Int64 := 0
  value : Value := {}
  operator : Operator := .add
  guard : Guard := {}
  site : Position := {}
deriving DecidableEq, Repr, Inhabited

/-- A sequence of instructions, which may be absent. Absent and empty code run alike and are written apart. -/
abbrev Code := Option (List Instr)

namespace Instr

def plain (c : Opcode) : Instr := { code := c }

def sized (c : Opcode) (n : Int64) : Instr := { code := c, n := n }

def const (v : Value) : Instr := { code := .const, value := v }

def binary (o : Operator) : Instr := { code := .binary, operator := o }

def checkedBinary (o : Operator) : Instr := { code := .checkedBinary, operator := o }

def ofGuard (g : Guard) : Instr := { code := .guard, guard := g }

def pop : Instr := plain .pop

def load (slot : Int64) : Instr := sized .load slot

def store (slot : Int64) : Instr := sized .store slot

def equal (i j : Instr) : Bool :=
  i.code = j.code && i.n == j.n && i.value.equal j.value && i.operator = j.operator &&
    i.guard = j.guard && i.site = j.site

def listEqual : List Instr → List Instr → Bool
  | [], [] => true
  | i :: is, j :: js => i.equal j && listEqual is js
  | _, _ => false

def isGuard (i : Instr) : Bool := i.code = .guard

def guardCount (code : List Instr) : Nat := code.countP isGuard

def text (i : Instr) : String :=
  match i.code with
  | .const => i.code.name ++ " " ++ i.value.text
  | .binary | .checkedBinary => i.code.name ++ " " ++ i.operator.name
  | .guard =>
    i.code.name ++ " expect=" ++ (if i.guard.expected then "true" else "false") ++ " recover=" ++
      i.guard.recovery.text
  | .call => if i.site = {} then i.code.name else i.code.name ++ " site=" ++ i.site.text
  | c => if c.hasOperand then c.name ++ " " ++ Text.decimal i.n else c.name

end Instr

end HotLoop
