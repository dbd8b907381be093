import HotLoop.Machine.Run
import HotLoop.Wire.Hash

/-!
Loop keys and traces. A trace is the straight-line form of one turn of a loop: jumps are dropped, conditional
jumps become guards, and calls remember where they stood.
-/

namespace HotLoop

/-- The key of a loop: a hash of a program's fingerprint, a merge point in it and the embedding program's
counter there. -/
abbrev LoopKey := UInt64

def wordBytes (n : UInt64) : Bytes :=
  (List.range 8).map fun i => (n >>> (8 * UInt64.ofNat i)).toUInt8

def loopKeyBytes (fingerprint : UInt64) (pos : Position) (pc : UInt64) : Bytes :=
  wordBytes fingerprint ++ wordBytes pos.func.toUInt64 ++ wordBytes pos.pc.toUInt64 ++ wordBytes pc

def loopKey (fingerprint : UInt64) (pos : Position) (pc : UInt64) : LoopKey :=
  Wire.hash (loopKeyBytes fingerprint pos pc)

structure Trace where
  key : LoopKey := 0
  start : Position := {}
  code : Code := none
deriving DecidableEq, Repr, Inhabited

def Trace.instrs (t : Trace) : List Instr := t.code.getD []

def Trace.guards (t : Trace) : Nat := Instr.guardCount t.instrs

/-- The trace form of an executed instruction. A guard expects what was seen and recovers at the jump. -/
def Event.traced? (e : Event) : Option Instr :=
  match e.instr.code with
  | .skip | .jumpBack => none
  | .skipIf | .jumpBackIf => some (Instr.ofGuard ⟨e.taken, e.pos⟩)
  | .call | .static => some { e.instr with site := e.pos }
  | _ => some e.instr

end HotLoop
