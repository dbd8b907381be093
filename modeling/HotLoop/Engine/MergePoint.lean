import HotLoop.Engine.Basic

namespace HotLoop

namespace Engine

def programSlot : Nat := 1

def cellSlot : Nat := 2

def pcSlot : Nat := 3

def slotsNeeded : Nat := 4

def storeWords : List CellId → List UInt64 → Exec Unit
  | c :: cells, n :: words => do
    Exec.store c (Value.usize n)
    storeWords cells words
  | _, _ => pure ()

/-- Prepares an outermost frame with the embedding program, its cell and its counter in their slots. -/
def seed (prog : Program) (pos : Position) (user : List UInt64) (pc cell : UInt64) : Exec Frame := do
  let frame ← Exec.newFrame prog pos.func
  if frame.locals.length < slotsNeeded then
    Exec.fault (.outOfRange (.fewLocals pos.func frame.locals.length slotsNeeded))
  let record ← Exec.newRecord (wordLength user)
  storeWords record.fields user
  Exec.store (← Exec.ofOption frame.locals[programSlot]?) record
  Exec.store (← Exec.ofOption frame.locals[cellSlot]?) (Value.usize cell)
  Exec.store (← Exec.ofOption frame.locals[pcSlot]?) (Value.usize pc)
  Exec.pushFrame frame
  return frame

def readBack (frame : Frame) : Exec (UInt64 × UInt64) := do
  let cell ← Exec.load (← Exec.ofOption frame.locals[cellSlot]?)
  let pc ← Exec.load (← Exec.ofOption frame.locals[pcSlot]?)
  if cell.kind = .usize ∧ pc.kind = .usize then return (pc.uint, cell.uint)
  else Exec.fault (.mismatch (.results cell.kind pc.kind))

def results (frame : Frame) (m : Machine) : Outcome (UInt64 × UInt64) :=
  match readBack frame m with
  | .ok r _ => .ok r
  | .error .crash _ => .crash
  | .error (.fault c) _ => .fault { pos := ⟨frame.func, 0⟩, cause := c }

inductive Answer
  | ok (pc cell : UInt64)
  | error (pc cell : UInt64) (e : EngineError)
  | crash
deriving DecidableEq, Repr

structure Visit where
  engine : Engine
  answer : Answer

def failed (e : Engine) (pc cell : UInt64) (err : EngineError) : Visit :=
  ⟨{ e with faults := e.faults + 1 }, .error pc cell err⟩

def failedRecording (e : Engine) (pc cell : UInt64) (f : Fault) : Visit :=
  failed { e with tracer := e.tracer.abort } pc cell (.fault f)

def finishRecording (e : Engine) : Engine :=
  match e.tracer.finish with
  | .ok (trace, tracer) => publish { e with tracer } trace
  | .error _ => e

/-- Ends a recording run: a run once round the loop makes a trace, one that left the loop makes none. -/
def endRecording (e : Engine) (exit : Exit) (log : List Event) : Engine :=
  let e := { e with tracer := e.tracer.recordLog log }
  if exit = .looped then e.finishRecording else { e with tracer := e.tracer.abort }

def record (fuel : Nat) (e : Engine) (prog : Program) (pos : Position) (user : List UInt64)
    (pc cell : UInt64) : Option Visit :=
  let e := { e with recordings := e.recordings + 1 }
  match seed prog pos user pc cell {} with
  | .error .crash _ => some ⟨e, .crash⟩
  | .error (.fault c) _ => some (e.failedRecording pc cell { pos, cause := c })
  | .ok frame m =>
    (m.record prog fuel pos).map fun run =>
      match run.outcome with
      | .crash => ⟨{ e with tracer := e.tracer.recordLog run.log }, .crash⟩
      | .fault f => e.failedRecording pc cell f
      | .ok exit =>
        let e := e.endRecording exit run.log
        match results frame run.machine with
        | .crash => ⟨e, .crash⟩
        | .fault f => e.failedRecording pc cell f
        | .ok (pc, cell) => ⟨e, .ok pc cell⟩

def replay (fuel : Nat) (e : Engine) (prog : Program) (pos : Position) (t : Trace) (user : List UInt64)
    (pc cell : UInt64) : Option Visit :=
  let e := { e with replays := e.replays + 1 }
  match seed prog pos user pc cell {} with
  | .error .crash _ => some ⟨e, .crash⟩
  | .error (.fault c) _ => some (e.failed pc cell (.fault { pos, cause := c }))
  | .ok frame m => do
    let run ← m.replay prog fuel t.instrs
    match run.outcome with
    | .crash => return ⟨e, .crash⟩
    | .fault f => return e.failed pc cell (.fault f)
    | .ok guard =>
      let e := { e with guardFailures := e.guardFailures + 1 }
      let rest ← run.machine.finishIteration prog fuel guard.recovery pos
      match rest.outcome with
      | .crash => return ⟨e, .crash⟩
      | .fault f => return e.failed pc cell (.fault f)
      | .ok _ =>
        match results frame rest.machine with
        | .crash => return ⟨e, .crash⟩
        | .fault f => return e.failed pc cell (.fault f)
        | .ok (pc, cell) => return ⟨e, .ok pc cell⟩

/-- A visit of the embedding program's loop header. Runs are given `fuel` instructions each; without an answer,
they needed more. -/
def mergePoint (fuel : Nat) (e : Engine) (prog : Option ProgramRef) (pos : Position) (user : List UInt64)
    (pc cell : UInt64) : Option Visit :=
  let e := { e with visits := e.visits + 1 }
  if e.options.disabled then some ⟨e, .ok pc cell⟩
  else
    match e.fingerprint prog, prog with
    | (.error err, e), _ => some (e.failed pc cell (.invalid err))
    | (.ok _, e), none => some ⟨e, .ok pc cell⟩
    | (.ok fingerprint, e), some p =>
      let (decision, tracer) := e.tracer.handle (loopKey fingerprint pos pc)
      let e := publish { e with tracer } decision.finished
      match decision.action with
      | .none => some ⟨e, .ok pc cell⟩
      | .startTrace => e.record fuel p.program pos user pc cell
      | .trace t => e.replay fuel p.program pos t user pc cell

end Engine

end HotLoop
