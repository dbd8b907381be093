import HotLoop.Code.DeadStore
import HotLoop.Trace.Cache
import HotLoop.Trace.Profile

namespace HotLoop

structure Recording where
  key : LoopKey
  start : Option Position := none
  code : Array Instr := #[]
deriving DecidableEq, Repr, Inhabited

def Recording.add (r : Recording) (e : Event) : Recording :=
  { r with
    start := some (r.start.getD e.pos)
    code :=
      match e.traced? with
      | some i => r.code.push i
      | none => r.code }

structure Tracer where
  profiler : Profiler
  cache : Cache := {}
  recording : Option Recording := none
  lastKey : LoopKey := 0
  maxTraces : Int64 := 0
  optimize : Bool := false
  recordings : UInt64 := 0
  aborted : UInt64 := 0
  installed : UInt64 := 0
  evicted : UInt64 := 0
  hits : UInt64 := 0

inductive Action
  | none
  | startTrace
  | trace (t : Trace)
deriving DecidableEq, Repr, Inhabited

def Action.name : Action → String
  | none => "none"
  | startTrace => "start-trace"
  | trace _ => "trace"

def Action.nameOfNumber (n : Nat) : String :=
  match [none, startTrace, trace {}][n]? with
  | some a => a.name
  | Option.none => "Action(" ++ toString n ++ ")"

inductive Misuse
  | alreadyRecording (key current : LoopKey)
  | eventWhileIdle (e : Event)
  | finishWhileIdle
deriving DecidableEq, Repr

def Misuse.message : Misuse → String
  | alreadyRecording key current =>
    "vm: recording of loop " ++ Text.hexWord key ++ " started while " ++ Text.hexWord current ++ " is in flight"
  | eventWhileIdle e =>
    "vm: opcode " ++ e.instr.text ++ " at " ++ e.pos.text ++ " recorded with no recording in flight"
  | finishWhileIdle => "vm: finish with no recording in flight"

namespace Tracer

def ofThreshold (threshold : UInt64) : Tracer := { profiler := { threshold } }

def traces (t : Tracer) : List Trace := t.cache.traces

def insert (t : Tracer) (trace : Trace) : Tracer :=
  let (cache, dropped) := t.cache.insert t.maxTraces trace
  { t with cache, evicted := t.evicted + UInt64.ofNat dropped }

def beginRecording (t : Tracer) (key : LoopKey) : Tracer :=
  { t with recording := some { key }, lastKey := key }

def startRecording (t : Tracer) (key : LoopKey) : Except Misuse Tracer :=
  match t.recording with
  | some _ => .error (.alreadyRecording key t.lastKey)
  | none => .ok (t.beginRecording key)

def recordEvent (t : Tracer) (e : Event) : Except Misuse Tracer :=
  match t.recording with
  | some r => .ok { t with recording := some (r.add e) }
  | none => .error (.eventWhileIdle e)

def recordLog (t : Tracer) (log : List Event) : Tracer :=
  { t with recording := t.recording.map fun r => log.foldl Recording.add r }

def ofRecording (optimize : Bool) (r : Recording) : Trace :=
  let code := r.code.toList
  { key := r.key
    start := r.start.getD {}
    code := some (if optimize then DeadStore.eliminate code (DeadStore.slots code) else code) }

def complete (t : Tracer) (r : Recording) : Option Trace × Tracer :=
  let t := { t with recording := none }
  if r.code.isEmpty then (none, { t with aborted := t.aborted + 1 })
  else
    let trace := ofRecording t.optimize r
    (some trace, { t.insert trace with recordings := t.recordings + 1 })

def finish (t : Tracer) : Except Misuse (Option Trace × Tracer) :=
  match t.recording with
  | some r => .ok (t.complete r)
  | none => .error .finishWhileIdle

def abort (t : Tracer) : Tracer :=
  match t.recording with
  | some _ => { t with recording := none, aborted := t.aborted + 1 }
  | none => t

def install (t : Tracer) (trace : Trace) : Tracer :=
  if trace.instrs.isEmpty then t
  else { t.insert trace with installed := t.installed + 1 }

structure Decision where
  action : Action := .none
  finished : Option Trace := none
deriving DecidableEq, Repr, Inhabited

/-- A visit to a loop. A cached trace is replayed, with no count changed. Otherwise an idle tracer counts the
visit and starts to record a loop that it finds hot, for which all counts restart; and a recording tracer
finishes its recording when it comes back to the recorded loop. -/
def handle (t : Tracer) (key : LoopKey) : Decision × Tracer :=
  match t.cache.get? key with
  | some trace => ({ action := .trace trace }, { t with hits := t.hits + 1 })
  | none =>
    match t.recording with
    | none =>
      let (hot, profiler) := t.profiler.visit key
      if hot then
        ({ action := .startTrace }, { t with profiler := profiler.reset }.beginRecording key)
      else ({}, { t with profiler })
    | some r =>
      if key = r.key then
        let (finished, t) := t.complete r
        ({ finished }, t)
      else ({}, t)

end Tracer

end HotLoop
