import HotLoop.Proofs.Eviction
import HotLoop.Proofs.Fit

namespace HotLoop

namespace Tracer

variable {t : Tracer} {key : LoopKey} {r : Recording}

theorem handle_cached {trace : Trace} (h : t.cache.get? key = some trace) :
    t.handle key = ({ action := .trace trace }, { t with hits := t.hits + 1 }) := by
  simp only [handle, h]

theorem handle_uncached (hidle : t.recording = none) (h : t.cache.get? key = none) :
    t.handle key = if (t.profiler.visit key).1 then
        ({ action := .startTrace }, ({ t with profiler := (t.profiler.visit key).2.reset } : Tracer).beginRecording key)
      else ({}, { t with profiler := (t.profiler.visit key).2 }) := by
  simp only [handle, h, hidle]

theorem handle_busy (busy : t.recording = some r) (h : t.cache.get? key = none) :
    t.handle key = if key = r.key then ({ finished := (t.complete r).1 }, (t.complete r).2) else ({}, t) := by
  simp only [handle, h, busy]

end Tracer

namespace Engine

variable {e : Engine} {prog : Program} {pos : Position} {user : List UInt64} {pc cell : UInt64} {fuel : Nat} {v : Visit}

def Ran (fuel : Nat) (prog : Program) (pos : Position) (user : List UInt64) (pc cell : UInt64) (frame : Frame)
    (r : Ended Exit) : Prop :=
  ∃ m, seed prog pos user pc cell {} = .ok frame m ∧ m.record prog fuel pos = some r

theorem Ran.unique {frame frame' : Frame} {r r' : Ended Exit} (h : Ran fuel prog pos user pc cell frame r)
    (h' : Ran fuel prog pos user pc cell frame' r') : frame = frame' ∧ r = r' := by
  obtain ⟨m, hseed, hrun⟩ := h
  obtain ⟨m', hseed', hrun'⟩ := h'
  cases hseed.symm.trans hseed'
  cases hrun.symm.trans hrun'
  exact ⟨rfl, rfl⟩

def conclude (e : Engine) (pc cell : UInt64) : Outcome (UInt64 × UInt64) → Visit
  | .ok r => ⟨e, .ok r.1 r.2⟩
  | .fault f => e.failedRecording pc cell f
  | .crash => ⟨e, .crash⟩

theorem record_of_ended {frame : Frame} {m : Machine} {exit : Exit} {log : List Event}
    (h : Ran fuel prog pos user pc cell frame ⟨.ok exit, m, log⟩) (e : Engine) :
    e.record fuel prog pos user pc cell =
      some ((({ e with recordings := e.recordings + 1 } : Engine).endRecording exit log).conclude pc cell
        (results frame m)) := by
  obtain ⟨m₀, hseed, hrun⟩ := h
  cases hresults : results frame m <;> simp only [record, hseed, hrun, Option.map_some, hresults, conclude]

theorem record_of_crashed {frame : Frame} {m : Machine} {log : List Event}
    (h : Ran fuel prog pos user pc cell frame ⟨.crash, m, log⟩) (e : Engine) :
    e.record fuel prog pos user pc cell =
      some ⟨{ e with recordings := e.recordings + 1, tracer := e.tracer.recordLog log }, .crash⟩ := by
  obtain ⟨m₀, hseed, hrun⟩ := h
  simp only [record, hseed, hrun, Option.map_some]

theorem record_of_unseeded {m : Machine} (h : seed prog pos user pc cell {} = .error .crash m) (e : Engine) :
    e.record fuel prog pos user pc cell = some ⟨{ e with recordings := e.recordings + 1 }, .crash⟩ := by
  simp only [record, h]

inductive Recorded (fuel : Nat) (e : Engine) (prog : Program) (pos : Position) (user : List UInt64) (pc cell : UInt64) :
    Visit → Prop
  | unseeded {m : Machine} (unframed : seed prog pos user pc cell {} = .error .crash m) :
    Recorded fuel e prog pos user pc cell ⟨e, .crash⟩
  | failed (f : Fault)
    (unended : ∀ frame exit m log, ¬Ran fuel prog pos user pc cell frame ⟨.ok exit, m, log⟩) :
    Recorded fuel e prog pos user pc cell (e.failedRecording pc cell f)
  | crashed {frame : Frame} {m : Machine} {log : List Event}
    (ran : Ran fuel prog pos user pc cell frame ⟨.crash, m, log⟩) :
    Recorded fuel e prog pos user pc cell ⟨{ e with tracer := e.tracer.recordLog log }, .crash⟩
  | ended {frame : Frame} {m : Machine} {exit : Exit} {log : List Event}
    (ran : Ran fuel prog pos user pc cell frame ⟨.ok exit, m, log⟩) :
    Recorded fuel e prog pos user pc cell ((e.endRecording exit log).conclude pc cell (results frame m))

theorem recorded (h : e.record fuel prog pos user pc cell = some v) :
    Recorded fuel { e with recordings := e.recordings + 1 } prog pos user pc cell v := by
  cases hseed : seed prog pos user pc cell {} with
  | error stop m =>
    cases stop with
    | crash =>
      obtain rfl := Option.some.inj ((record_of_unseeded hseed e).symm.trans h)
      exact .unseeded hseed
    | fault c =>
      simp only [record, hseed, Option.some.injEq] at h
      subst h
      refine .failed _ ?_
      rintro _ _ _ _ ⟨_, hok, _⟩
      cases hseed.symm.trans hok
  | ok frame m =>
    have hmap := h
    simp only [record, hseed] at hmap
    obtain ⟨⟨outcome, m', log⟩, hrun, hv⟩ := Option.map_eq_some_iff.mp hmap
    have hran : Ran fuel prog pos user pc cell frame ⟨outcome, m', log⟩ := ⟨m, hseed, hrun⟩
    cases outcome with
    | crash =>
      obtain rfl := Option.some.inj ((record_of_crashed hran e).symm.trans h)
      exact .crashed hran
    | fault f =>
      subst hv
      refine .failed f ?_
      intro _ _ _ _ hok
      cases (hran.unique hok).2
    | ok exit =>
      obtain rfl := Option.some.inj ((record_of_ended hran e).symm.trans h)
      exact .ended hran

def replayed (e : Engine) (failed : Bool) : Engine :=
  { e with
    replays := e.replays + 1
    guardFailures := if failed then e.guardFailures + 1 else e.guardFailures }

theorem replay_ends {t : Trace} (h : e.replay fuel prog pos t user pc cell = some v) :
    ∃ failed, (∃ pc' cell', v = ⟨e.replayed failed, .ok pc' cell'⟩) ∨
      (∃ err, v = (e.replayed failed).failed pc cell err) ∨ v = ⟨e.replayed failed, .crash⟩ := by
  unfold replay at h
  dsimp only at h
  split at h
  · cases h
    exact ⟨false, .inr (.inr rfl)⟩
  · cases h
    exact ⟨false, .inr (.inl ⟨_, rfl⟩)⟩
  · obtain ⟨run, _, h⟩ := Option.bind_eq_some_iff.mp h
    split at h
    · cases h
      exact ⟨false, .inr (.inr rfl)⟩
    · cases h
      exact ⟨false, .inr (.inl ⟨_, rfl⟩)⟩
    · obtain ⟨rest, _, h⟩ := Option.bind_eq_some_iff.mp h
      refine ⟨true, ?_⟩
      split at h
      · cases h
        exact .inr (.inr rfl)
      · cases h
        exact .inr (.inl ⟨_, rfl⟩)
      · split at h
        · cases h
          exact .inr (.inr rfl)
        · cases h
          exact .inr (.inl ⟨_, rfl⟩)
        · cases h
          exact .inl ⟨_, _, rfl⟩

theorem replay_of_failed {t : Trace} {frame : Frame} {m₀ : Machine} {g : Guard} {exit : Exit} {res : UInt64 × UInt64}
    (hseed : seed prog pos user pc cell {} = .ok frame m₀)
    (hrun : (m₀.replay prog fuel t.instrs).bind (fun run =>
      (run.machine.finishIteration prog fuel g.recovery pos).map fun rest =>
        (run.outcome, rest.outcome, results frame rest.machine)) = some (.ok g, .ok exit, .ok res)) :
    e.replay fuel prog pos t user pc cell = some ⟨e.replayed true, .ok res.1 res.2⟩ := by
  obtain ⟨run, hreplay, hrest⟩ := Option.bind_eq_some_iff.mp hrun
  obtain ⟨rest, hfinish, hends⟩ := Option.map_eq_some_iff.mp hrest
  simp only [Prod.mk.injEq] at hends
  obtain ⟨hguard, hexit, hresults⟩ := hends
  simp [replay, hseed, hreplay, hguard, hfinish, hexit, hresults, replayed]

theorem fingerprint_unknown {p : ProgramRef} (h : e.known[p.id]? = none) :
    (e.fingerprint (some p)).1 = examine p.program := by
  simp only [fingerprint, h]

end Engine

namespace Call

open Engine (Visit)

variable {c : Call} {v : Visit} {t : Trace} {key : LoopKey} {p : ProgramRef} {r : Recording}

/-- The key of the visited loop, if the engine is enabled and accepts the program. -/
def key? (c : Call) : Option LoopKey :=
  if c.engine.options.disabled then none
  else
    match (c.engine.fingerprint c.program).1 with
    | .ok fingerprint => some (loopKey fingerprint c.pos c.pc)
    | .error _ => none

theorem key?_eq_some_iff : c.key? = some key ↔ c.engine.options.disabled = false ∧
    ∃ fingerprint, (c.engine.fingerprint c.program).1 = .ok fingerprint ∧ key = loopKey fingerprint c.pos c.pc := by
  unfold key?
  split
  · next off => simp [off]
  · next on =>
    have hon : c.engine.options.disabled = false := by simpa using on
    split
    · next fingerprint found => simp [hon, found, eq_comm]
    · next found => simp [found]

theorem key?_of_unknown (enabled : c.engine.options.disabled = false) (given : c.program = some p)
    (unknown : c.engine.known[p.id]? = none) (valid : p.program.check = .ok ()) :
    c.key? = some (loopKey (Program.fingerprint (some p.program)) c.pos c.pc) := by
  refine key?_eq_some_iff.mpr ⟨enabled, _, ?_, rfl⟩
  rw [given, Engine.fingerprint_unknown unknown, Engine.examine, valid]

theorem exists_program (found : c.key? = some key) : ∃ p, c.program = some p := by
  obtain ⟨_, fingerprint, hfound, _⟩ := key?_eq_some_iff.mp found
  cases hp : c.program with
  | none =>
    rw [hp] at hfound
    cases hfound
  | some p => exact ⟨p, rfl⟩

def examined (c : Call) : Engine := (({ c.engine with visits := c.engine.visits + 1 } : Engine).fingerprint c.program).2

theorem examined_eq (c : Call) : ∃ known, c.examined = { c.engine with visits := c.engine.visits + 1, known } := by
  unfold examined Engine.fingerprint
  split
  · exact ⟨_, rfl⟩
  · split
    · exact ⟨_, rfl⟩
    · exact ⟨_, rfl⟩

def decided (c : Call) (key : LoopKey) : Engine :=
  Engine.publish { c.examined with tracer := (c.engine.tracer.handle key).2 } (c.engine.tracer.handle key).1.finished

theorem visit_disabled (off : c.engine.options.disabled = true) :
    c.visit = some ⟨{ c.engine with visits := c.engine.visits + 1 }, .ok c.pc c.cell⟩ := by
  simp only [visit, Engine.mergePoint, off, if_true]

def perform (c : Call) (e : Engine) (prog : Program) : Action → Option Visit
  | .none => some ⟨e, .ok c.pc c.cell⟩
  | .startTrace => e.record c.fuel prog c.pos c.user c.pc c.cell
  | .trace t => e.replay c.fuel prog c.pos t c.user c.pc c.cell

theorem visit_enabled (enabled : c.engine.options.disabled = false) :
    (∀ err, (c.engine.fingerprint c.program).1 = .error err →
      c.visit = some (c.examined.failed c.pc c.cell (.invalid err))) ∧
    ∀ fingerprint p, (c.engine.fingerprint c.program).1 = .ok fingerprint → c.program = some p →
      c.visit = c.perform (c.decided (loopKey fingerprint c.pos c.pc)) p.program
        (c.engine.tracer.handle (loopKey fingerprint c.pos c.pc)).1.action := by
  have hfirst := Engine.fingerprint_visits c.engine c.program (c.engine.visits + 1)
  have hsecond : (({ c.engine with visits := c.engine.visits + 1 } : Engine).fingerprint c.program).2 = c.examined :=
    rfl
  have htracer : c.examined.tracer = c.engine.tracer := Engine.tracer_fingerprint _ _
  simp only [visit, Engine.mergePoint, enabled, Bool.false_eq_true, if_false]
  generalize ({ c.engine with visits := c.engine.visits + 1 } : Engine).fingerprint c.program = found
    at hfirst hsecond
  obtain ⟨result, e⟩ := found
  subst hsecond
  rw [← hfirst]
  constructor
  · rintro err rfl
    rfl
  · rintro fingerprint p rfl given
    simp only [given, htracer, decided]
    cases (c.engine.tracer.handle (loopKey fingerprint c.pos c.pc)).1.action <;> rfl

theorem visit_refused (enabled : c.engine.options.disabled = false) (found : c.key? = none) :
    ∃ err, c.visit = some (c.examined.failed c.pc c.cell (.invalid err)) := by
  cases hresult : (c.engine.fingerprint c.program).1 with
  | ok fingerprint =>
    have hkey := key?_eq_some_iff.mpr ⟨enabled, fingerprint, hresult, rfl⟩
    cases found.symm.trans hkey
  | error err => exact ⟨err, (visit_enabled enabled).1 err hresult⟩

theorem visit_found (given : c.program = some p) (found : c.key? = some key) :
    c.visit = c.perform (c.decided key) p.program (c.engine.tracer.handle key).1.action := by
  obtain ⟨enabled, fingerprint, hresult, rfl⟩ := key?_eq_some_iff.mp found
  exact (visit_enabled enabled).2 fingerprint p hresult given

structure Starts (c : Call) (p : ProgramRef) (key : LoopKey) : Prop where
  given : c.program = some p
  found : c.key? = some key
  idle : c.engine.tracer.recording = none
  uncached : c.engine.tracer.cache.get? key = none
  often : (c.engine.tracer.profiler.visit key).1 = true

def begun (c : Call) (key : LoopKey) : Tracer :=
  ({ c.engine.tracer with profiler := (c.engine.tracer.profiler.visit key).2.reset } : Tracer).beginRecording key

def started (c : Call) (key : LoopKey) : Engine := { c.examined with tracer := c.begun key }

theorem Starts.visit_eq (h : c.Starts p key) :
    c.visit = (c.started key).record c.fuel p.program c.pos c.user c.pc c.cell := by
  have hhandle := Tracer.handle_uncached h.idle h.uncached
  rw [if_pos h.often] at hhandle
  rw [visit_found h.given h.found, decided, hhandle]
  rfl

def served (c : Call) : Engine :=
  { c.examined with tracer := { c.engine.tracer with hits := c.engine.tracer.hits + 1 } }

theorem visit_cached (given : c.program = some p) (found : c.key? = some key)
    (hit : c.engine.tracer.cache.get? key = some t) :
    c.visit = c.served.replay c.fuel p.program c.pos t c.user c.pc c.cell := by
  rw [visit_found given found, decided, Tracer.handle_cached hit]
  rfl

theorem visit_cold (found : c.key? = some key) (idle : c.engine.tracer.recording = none)
    (uncached : c.engine.tracer.cache.get? key = none) (rare : (c.engine.tracer.profiler.visit key).1 = false) :
    c.visit = some ⟨{ c.examined with
      tracer := { c.engine.tracer with profiler := (c.engine.tracer.profiler.visit key).2 } }, .ok c.pc c.cell⟩ := by
  obtain ⟨p, given⟩ := exists_program found
  have hhandle := Tracer.handle_uncached idle uncached
  rw [if_neg (ne_true_of_eq_false rare)] at hhandle
  rw [visit_found given found, decided, hhandle]
  rfl

/-- The visit comes to the loop under recording, of which no trace is cached. -/
def Returns (c : Call) (r : Recording) : Prop :=
  c.key? = some r.key ∧ c.engine.tracer.cache.get? r.key = none

theorem Returns.visit_eq (h : c.Returns r) (busy : c.engine.tracer.recording = some r) :
    c.visit = some ⟨Engine.publish { c.examined with tracer := (c.engine.tracer.complete r).2 }
      (c.engine.tracer.complete r).1, .ok c.pc c.cell⟩ := by
  obtain ⟨p, given⟩ := exists_program h.1
  have hhandle := Tracer.handle_busy busy h.2
  rw [if_pos rfl] at hhandle
  rw [visit_found given h.1, decided, hhandle]
  rfl

theorem visit_elsewhere (found : c.key? = some key) (busy : c.engine.tracer.recording = some r)
    (uncached : c.engine.tracer.cache.get? key = none) (other : key ≠ r.key) :
    c.visit = some ⟨c.examined, .ok c.pc c.cell⟩ := by
  obtain ⟨p, given⟩ := exists_program found
  have hhandle := Tracer.handle_busy busy uncached
  rw [if_neg other] at hhandle
  have hsame : ({ c.examined with tracer := c.engine.tracer } : Engine) = c.examined := by
    obtain ⟨known, hknown⟩ := c.examined_eq
    rw [hknown]
  rw [visit_found given found, decided, hhandle]
  exact congrArg (fun e => some (Visit.mk e (.ok c.pc c.cell))) hsame

structure Rounds (c : Call) (p : ProgramRef) (key : LoopKey) (frame : Frame) (m : Machine) (log : List Event) : Prop
    extends Starts c p key where
  looped : Engine.Ran c.fuel p.program c.pos c.user c.pc c.cell frame ⟨.ok .looped, m, log⟩

def traceOf (c : Call) (key : LoopKey) (log : List Event) : Trace :=
  Tracer.ofRecording c.engine.tracer.optimize (log.foldl Recording.add { key })

theorem key_traceOf (c : Call) (key : LoopKey) (log : List Event) : (c.traceOf key log).key = key :=
  Recording.key_foldl_add { key } log

/-- The call records a trace: its run comes round the loop, and leaves instructions to replay. -/
def Records (c : Call) (t : Trace) : Prop :=
  ∃ p key frame m log, c.Rounds p key frame m log ∧ log.filterMap Event.traced? ≠ [] ∧ t = c.traceOf key log

theorem Records.starts (h : c.Records t) : ∃ p, c.Starts p t.key := by
  obtain ⟨p, key, frame, m, log, hround, _, rfl⟩ := h
  rw [key_traceOf]
  exact ⟨p, hround.toStarts⟩

/-- The call ends a recording that an earlier one has left in flight, and makes a trace of it. -/
def Finishes (c : Call) (t : Trace) : Prop :=
  ∃ r, c.engine.tracer.recording = some r ∧ c.Returns r ∧ (c.engine.tracer.complete r).1 = some t

/-- The call crashes while it records, and leaves a recording with the given log in flight. -/
inductive Breaks (c : Call) : LoopKey → List Event → Prop
  | unseeded {p : ProgramRef} {key : LoopKey} {m : Machine} (starts : c.Starts p key)
    (unframed : Engine.seed p.program c.pos c.user c.pc c.cell {} = .error .crash m) : Breaks c key []
  | crashed {p : ProgramRef} {key : LoopKey} {frame : Frame} {m : Machine} {log : List Event} (starts : c.Starts p key)
    (ran : Engine.Ran c.fuel p.program c.pos c.user c.pc c.cell frame ⟨.crash, m, log⟩) : Breaks c key log

theorem Breaks.visit_eq {log : List Event} (h : c.Breaks key log) :
    c.visit = some ⟨{ c.started key with
      recordings := (c.started key).recordings + 1
      tracer := (c.begun key).recordLog log }, .crash⟩ := by
  cases h with
  | unseeded starts unframed => exact starts.visit_eq.trans (Engine.record_of_unseeded unframed _)
  | crashed starts ran => exact starts.visit_eq.trans (Engine.record_of_crashed ran _)

theorem Breaks.crashes {log : List Event} (h : c.Breaks key log) : (Act.visited c).crashes = true := by
  rw [Act.crashes_visited h.visit_eq]
  rfl

theorem Starts.of_unknown (enabled : c.engine.options.disabled = false) (given : c.program = some p)
    (unknown : c.engine.known[p.id]? = none) (valid : p.program.check = .ok ())
    (idle : c.engine.tracer.recording = none)
    (uncached : c.engine.tracer.cache.get? (loopKey (Program.fingerprint (some p.program)) c.pos c.pc) = none)
    (often : (c.engine.tracer.profiler.visit (loopKey (Program.fingerprint (some p.program)) c.pos c.pc)).1 = true) :
    c.Starts p (loopKey (Program.fingerprint (some p.program)) c.pos c.pc) :=
  ⟨given, key?_of_unknown enabled given unknown valid, idle, uncached, often⟩

theorem Starts.records (h : c.Starts p key) {frame : Frame} {m₀ : Machine} {res : Outcome (UInt64 × UInt64)}
    {code : List Instr} (hseed : Engine.seed p.program c.pos c.user c.pc c.cell {} = .ok frame m₀)
    (hrun : (m₀.record p.program c.fuel c.pos).map
      (fun r => (r.outcome, Engine.results frame r.machine, r.log.filterMap Event.traced?)) =
        some (.ok .looped, res, code)) (hne : code ≠ []) :
    ∃ e t, c.Records t ∧ (c.engine.tracer.optimize = false → t.instrs = code) ∧
      c.visit = some (Engine.conclude e c.pc c.cell res) := by
  obtain ⟨⟨outcome, m, log⟩, hrecord, hends⟩ := Option.map_eq_some_iff.mp hrun
  simp only [Prod.mk.injEq] at hends
  obtain ⟨rfl, rfl, rfl⟩ := hends
  have hran : Engine.Ran c.fuel p.program c.pos c.user c.pc c.cell frame ⟨.ok .looped, m, log⟩ := ⟨m₀, hseed, hrecord⟩
  refine ⟨_, c.traceOf key log, ⟨p, key, frame, m, log, ⟨h, hran⟩, hne, rfl⟩, ?_,
    h.visit_eq.trans (Engine.record_of_ended hran _)⟩
  intro hplain
  rw [traceOf, Tracer.instrs_ofRecording, hplain, if_neg Bool.false_ne_true]

end Call

end HotLoop
