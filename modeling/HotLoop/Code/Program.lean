import HotLoop.Code.Instr
import HotLoop.Word

namespace HotLoop

structure Function where
  name : Bytes := []
  params : Int64 := 0
  locals : Int64 := 0
  mergePoint : Int64 := 0
  body : Code := none
deriving DecidableEq, Repr, Inhabited

namespace Function

def instrs (f : Function) : List Instr := f.body.getD []

def ofCode (locals mergePoint : Int64) (body : Code) : Function :=
  { params := locals, locals := locals, mergePoint := mergePoint, body := body }

def constant (i : Instr) : Function := { body := some [i] }

end Function

structure Program where
  table : Option (List (Option Function)) := none
deriving DecidableEq, Repr, Inhabited

namespace Program

def entries (p : Program) : List (Option Function) := p.table.getD []

def function? (p : Program) (index : Int64) : Option Function := (nth? p.entries index).join

def instr? (p : Program) (pos : Position) : Option Instr := do
  let f ← p.function? pos.func
  nth? f.instrs pos.pc

end Program

end HotLoop
