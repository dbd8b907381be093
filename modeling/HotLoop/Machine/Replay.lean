import HotLoop.Machine.Run

namespace HotLoop

structure Lap where
  index : Nat := 0
  machine : Machine
deriving DecidableEq

namespace Lap

/-- Where an instruction of a trace counts as being: at its index in the trace, or, for calls, where it was
recorded. -/
def position (i : Instr) (f : Frame) (index : Nat) : Position :=
  if i.code.isCall then i.site else ⟨f.func, Int64.ofNat index⟩

/-- One instruction of a trace. Calls and returns switch frames, but what they lead to follows in the trace. -/
def perform (prog : Program) (i : Instr) (index : Nat) (m : Machine) : Turn Lap (Ended Guard) :=
  match m.top? with
  | none =>
    .done ⟨.fault { instr := i, pos := ⟨0, Int64.ofNat index⟩, inTrace := true, cause := .noFrame }, m, []⟩
  | some f =>
    let fault (c : Cause) (m : Machine) : Turn Lap (Ended Guard) :=
      .done ⟨.fault { instr := i, pos := ⟨f.func, Int64.ofNat index⟩, inTrace := true, cause := c }, m, []⟩
    match Exec.step prog i (position i f index) true m with
    | .error .crash m => .done ⟨.crash, m, []⟩
    | .error (.fault c) m => fault c m
    | .ok .guardFailed m => .done ⟨.ok i.guard, m, []⟩
    | .ok (.jump target _) m => .again ⟨target.pc.toNatClampNeg, m⟩
    | .ok .stop m => fault (.badJump .leftTrace) m
    | .ok _ m => .again ⟨index + 1, m⟩

/-- One turn of a replay. Past the last instruction, the first one follows. -/
def turn (prog : Program) (first : Instr) (code : List Instr) (s : Lap) : Turn Lap (Ended Guard) :=
  match code[s.index]? with
  | some i => perform prog i s.index s.machine
  | none => perform prog first 0 s.machine

end Lap

namespace Machine

def replay (prog : Program) (fuel : Nat) (code : List Instr) (m : Machine) : Option (Ended Guard) :=
  match code with
  | [] => some ⟨.fault { inTrace := true, cause := .emptyTrace }, m, []⟩
  | first :: _ => iterate (Lap.turn prog first code) fuel ⟨0, m⟩

end Machine

end HotLoop
