import HotLoop.Iterate
import HotLoop.Machine.Step

/-!
Baseline runs of a program: to the end, once round a loop while keeping a log, and from the recovery point of a
failed guard to the end of the iteration that it interrupted. All of them are one loop with a window that says
when to stop early.
-/

namespace HotLoop

inductive Exit
  | returned
  | looped
  | merged
deriving DecidableEq, Repr, Inhabited

def Exit.name : Exit → String
  | returned => "return"
  | looped => "loop"
  | merged => "merge-point"

def Exit.nameOfNumber (n : Nat) : String :=
  match [returned, looped, merged][n]? with
  | some e => e.name
  | none => "Exit(" ++ toString n ++ ")"

structure Event where
  instr : Instr
  pos : Position
  taken : Bool
deriving DecidableEq, Repr, Inhabited

structure Window where
  logged : Bool := false
  closeAt : Option Int64 := none
  mergePoint : Option Position := none
deriving DecidableEq, Repr, Inhabited

inductive Outcome (α : Type)
  | ok (a : α)
  | fault (f : Fault)
  | crash
deriving DecidableEq, Repr

structure Ended (α : Type) where
  outcome : Outcome α
  machine : Machine
  log : List Event := []
deriving DecidableEq

/-- A run under way. The log has the latest instruction first. -/
structure Walk where
  pos : Position
  machine : Machine
  log : List Event := []

namespace Walk

def closes : Transfer → Bool
  | .jump _ _ | .leave _ => true
  | _ => false

def isTop (f : Frame) (m : Machine) : Bool := m.top?.map Frame.serial = some f.serial

def exit? (w : Window) (home root : Frame) (t : Transfer) (pos : Position) (m : Machine) : Option Exit :=
  if closes t && isTop home m && w.closeAt.any (pos.pc ≤ ·) then some .looped
  else if isTop root m && w.mergePoint = some pos then some .merged
  else none

def target (pos : Position) : Transfer → Position
  | .jump target _ | .enter target | .leave target => target
  | _ => pos.next

def turn (prog : Program) (w : Window) (home root : Frame) (s : Walk) : Turn Walk (Ended Exit) :=
  match prog.instr? s.pos with
  | none =>
    .done ⟨.fault { pos := s.pos, cause := .badJump (.nowhere s.pos) }, s.machine, s.log.reverse⟩
  | some i =>
    match Exec.step prog i s.pos false s.machine with
    | .error .crash m => .done ⟨.crash, m, s.log.reverse⟩
    | .error (.fault c) m => .done ⟨.fault { instr := i, pos := s.pos, cause := c }, m, s.log.reverse⟩
    | .ok t m =>
      let log := if w.logged then ⟨i, s.pos, t.taken⟩ :: s.log else s.log
      if t = .stop then .done ⟨.ok .returned, m, log.reverse⟩
      else
        let pos := target s.pos t
        match exit? w home root t pos m with
        | some e => .done ⟨.ok e, m, log.reverse⟩
        | none => .again ⟨pos, m, log⟩

end Walk

namespace Machine

def run (prog : Program) (w : Window) (fuel : Nat) (start : Position) (m : Machine) : Option (Ended Exit) :=
  match m.top?, m.root? with
  | some home, some root => iterate (Walk.turn prog w home root) fuel ⟨start, m, []⟩
  | _, _ => some ⟨.fault { pos := start, cause := .noFrame }, m, []⟩

def execute (prog : Program) : Nat → Position → Machine → Option (Ended Exit) := run prog {}

/-- Runs once round the loop at `start`, keeping a log: until a jump or return in the starting frame lands at
`start` or before, or the outermost frame returns. -/
def record (prog : Program) (fuel : Nat) (start : Position) : Machine → Option (Ended Exit) :=
  run prog { logged := true, closeAt := some start.pc } fuel start

/-- Completes the iteration that a guard interrupted: until a jump or return in the starting frame lands before
the recovery point, or the outermost frame comes to the merge point or returns. -/
def finishIteration (prog : Program) (fuel : Nat) (recovery mergePoint : Position) :
    Machine → Option (Ended Exit) :=
  run prog { closeAt := some (recovery.pc - 1), mergePoint := some mergePoint } fuel recovery

end Machine

end HotLoop
