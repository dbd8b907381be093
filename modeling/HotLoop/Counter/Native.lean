import HotLoop.Iterate
import HotLoop.Word

/-!
The counter language: opcodes over a single cell. `dec` and `inc` count, and every other opcode goes back one
place while the cell is positive. Numbers wrap.
-/

namespace HotLoop.Counter

def dec : UInt64 := 0
def rep : UInt64 := 1
def inc : UInt64 := 2

def countdown : List UInt64 := [dec, rep]

def interleaved : List UInt64 := [dec, rep, inc, inc, inc, inc, inc, dec, rep, inc]

structure State where
  pc : UInt64 := 0
  cell : UInt64
deriving DecidableEq, Repr, Inhabited

def State.apply (s : State) (op : UInt64) : State :=
  if op = dec then ⟨s.pc + 1, s.cell - 1⟩
  else if op = inc then ⟨s.pc + 1, s.cell + 1⟩
  else if 0 < s.cell then ⟨s.pc - 1, s.cell⟩
  else ⟨s.pc + 1, s.cell⟩

def State.step? (user : List UInt64) (s : State) : Option State :=
  user[s.pc.toNat]?.map s.apply

def native (user : List UInt64) (fuel : Nat) (cell : UInt64) : Option State :=
  iterate (fun s =>
    match s.step? user with
    | some s => .again s
    | none => .done s) fuel { cell }

end HotLoop.Counter
