import HotLoop.Code.Check
import HotLoop.Journal.Session
import HotLoop.Machine.Replay
import HotLoop.Trace.Tracer

namespace HotLoop

def defaultThreshold : UInt64 := 2

structure Options where
  threshold : UInt64 := defaultThreshold
  maxTraces : Int64 := 0
  optimize : Bool := false
  disabled : Bool := false
deriving DecidableEq, Repr, Inhabited

structure ProgramRef where
  id : Nat
  program : Program
deriving DecidableEq, Repr, Inhabited

structure Offer where
  session : Session
  trace : Trace
  accepted : Bool
deriving DecidableEq, Repr, Inhabited

structure Engine where
  options : Options
  tracer : Tracer
  session : Session := default
  journal : Option (Trace → Bool) := none
  offers : List Offer := []
  known : Std.HashMap Nat (Except InvalidProgram UInt64) := {}
  visits : UInt64 := 0
  recordings : UInt64 := 0
  replays : UInt64 := 0
  guardFailures : UInt64 := 0
  faults : UInt64 := 0
  journalErrors : UInt64 := 0

inductive EngineError
  | invalid (e : InvalidProgram)
  | fault (f : Fault)
deriving DecidableEq, Repr

def EngineError.message : EngineError → String
  | invalid e => e.message
  | fault f => f.message

namespace Engine

def ofOptions (o : Options) (session : Session) : Engine :=
  { options := o
    tracer := { Tracer.ofThreshold o.threshold with maxTraces := o.maxTraces, optimize := o.optimize }
    session }

def withJournal (e : Engine) (accepts : Trace → Bool) : Engine := { e with journal := some accepts }

def traces (e : Engine) : List Trace := e.tracer.traces

def warm (e : Engine) (traces : List Trace) : Engine :=
  { e with tracer := traces.foldl Tracer.install e.tracer }

def forget (e : Engine) (id : Nat) : Engine := { e with known := e.known.erase id }

def knownLimit : Nat := 64

def examine (p : Program) : Except InvalidProgram UInt64 :=
  match p.check with
  | .ok () => .ok (Program.fingerprint (some p))
  | .error e => .error e

/-- The fingerprint of a program, which is examined on its first visit. When the engine remembers as many programs
as it can, it forgets them all first. -/
def fingerprint (e : Engine) : Option ProgramRef → Except InvalidProgram UInt64 × Engine
  | none => (.error .absentProgram, e)
  | some p =>
    match e.known[p.id]? with
    | some known => (known, e)
    | none =>
      let result := examine p.program
      let known := if knownLimit ≤ e.known.size then {} else e.known
      (result, { e with known := known.insert p.id result })

def publish (e : Engine) : Option Trace → Engine
  | none => e
  | some t =>
    match e.journal with
    | none => e
    | some accepts =>
      let accepted := accepts t
      { e with
        offers := e.offers ++ [{ session := e.session, trace := t, accepted }]
        journalErrors := if accepted then e.journalErrors else e.journalErrors + 1 }

end Engine

end HotLoop
