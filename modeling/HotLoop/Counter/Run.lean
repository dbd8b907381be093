import HotLoop.Counter.Bytecode
import HotLoop.Engine.MergePoint

namespace HotLoop.Counter

structure Finished where
  engine : Engine
  state : State
  error : Option EngineError := none
  crashed : Bool := false

def turn (user : List UInt64) (fuel id : Nat) (s : Engine × State) : Turn (Engine × State) (Option Finished) :=
  let (e, s) := s
  match e.mergePoint fuel (some ⟨id, program⟩) header user s.pc s.cell with
  | none => .done none
  | some ⟨e, .crash⟩ => .done (some { engine := e, state := s, crashed := true })
  | some ⟨e, .error _ cell err⟩ => .done (some { engine := e, state := { s with cell }, error := some err })
  | some ⟨e, .ok pc cell⟩ =>
    let s : State := ⟨pc, cell⟩
    match s.step? user with
    | some s => .again (e, s)
    | none => .done (some { engine := e, state := s })

/-- Runs a user program with an engine, which knows the counter program under `id`. -/
def run (fuel id : Nat) (e : Engine) (user : List UInt64) (cell : UInt64) : Option Finished :=
  (iterate (turn user fuel id) fuel (e, { cell })).join

end HotLoop.Counter
