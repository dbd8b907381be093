import HotLoop.Proofs.Recall
import HotLoop.Proofs.Visit

namespace HotLoop

namespace Tracer

variable {t : Tracer} {r : Recording}

def ended (t : Tracer) : Option Trace → Tracer
  | none => { t with recording := none, aborted := t.aborted + 1 }
  | some u => { ({ t with recording := none } : Tracer).insert u with recordings := t.recordings + 1 }

theorem ended_recordLog (t : Tracer) (log : List Event) (trace : Option Trace) :
    (t.recordLog log).ended trace = t.ended trace := by
  cases trace <;> rfl

theorem recording_ended (t : Tracer) (trace : Option Trace) : (t.ended trace).recording = none := by
  cases trace <;> rfl

theorem profiler_ended (t : Tracer) (trace : Option Trace) : (t.ended trace).profiler = t.profiler := by
  cases trace <;> rfl

theorem abort_of_busy (h : t.recording = some r) : t.abort = t.ended none := by
  simp only [abort, h, ended]

theorem complete_eq (t : Tracer) (r : Recording) : (t.complete r).2 = t.ended (t.complete r).1 := by
  by_cases hempty : r.code.isEmpty = true
  · rw [complete_of_isEmpty hempty]
    rfl
  · rw [complete_of_not_isEmpty hempty]
    rfl

theorem complete_recordLog (t : Tracer) (log : List Event) (r : Recording) :
    (t.recordLog log).complete r = t.complete r := rfl

def made (t : Tracer) (key : LoopKey) (exit : Exit) (log : List Event) : Option Trace :=
  if exit = .looped then (t.complete (log.foldl Recording.add { key })).1 else none

end Tracer

namespace Engine

variable {e : Engine} {key : LoopKey} {trace : Option Trace}

def Answer.errors : Answer → Nat
  | .error .. => 1
  | _ => 0

def Answer.Keeps (pc cell : UInt64) (a : Answer) : Prop :=
  ∀ pc' cell' err, a = .error pc' cell' err → pc' = pc ∧ cell' = cell

theorem Answer.Keeps.ok (pc cell pc' cell' : UInt64) : (Answer.ok pc' cell').Keeps pc cell := by
  intro _ _ _ h
  cases h

theorem Answer.Keeps.crash (pc cell : UInt64) : Answer.crash.Keeps pc cell := by
  intro _ _ _ h
  cases h

theorem Answer.Keeps.error (pc cell : UInt64) (err : EngineError) : (Answer.error pc cell err).Keeps pc cell := by
  intro _ _ _ h
  cases h
  exact ⟨rfl, rfl⟩

theorem publish_eq (e : Engine) (trace : Option Trace) :
    ∃ offers journalErrors, e.publish trace = { e with offers, journalErrors } := by
  unfold publish
  split
  · exact ⟨_, _, rfl⟩
  · split
    · exact ⟨_, _, rfl⟩
    · exact ⟨_, _, rfl⟩

theorem recordings_publish (e : Engine) (trace : Option Trace) : (e.publish trace).recordings = e.recordings := by
  obtain ⟨_, _, h⟩ := e.publish_eq trace
  rw [h]

theorem replays_publish (e : Engine) (trace : Option Trace) : (e.publish trace).replays = e.replays := by
  obtain ⟨_, _, h⟩ := e.publish_eq trace
  rw [h]

theorem failed_publish (e : Engine) (trace : Option Trace) (pc cell : UInt64) (err : EngineError) :
    (e.publish trace).failed pc cell err =
      ⟨({ e with faults := e.faults + 1 } : Engine).publish trace, .error pc cell err⟩ := by
  rcases e with ⟨_, _, _, _ | _⟩ <;> cases trace <;> rfl

theorem endRecording_eq (h : e.tracer.recording = some { key }) (exit : Exit) (log : List Event) :
    e.endRecording exit log =
      ({ e with tracer := e.tracer.ended (e.tracer.made key exit log) } : Engine).publish
        (e.tracer.made key exit log) := by
  have hlogged : (e.tracer.recordLog log).recording = some (log.foldl Recording.add { key }) := by
    simp only [Tracer.recordLog, h, Option.map_some]
  by_cases hexit : exit = .looped
  · have hmade : e.tracer.made key exit log = (e.tracer.complete (log.foldl Recording.add { key })).1 := if_pos hexit
    rw [hmade, ← Tracer.complete_eq, endRecording, if_pos hexit]
    simp only [finishRecording, Tracer.finish, hlogged, Tracer.complete_recordLog]
  · have hmade : e.tracer.made key exit log = none := if_neg hexit
    rw [hmade, endRecording, if_neg hexit, Tracer.abort_of_busy hlogged, Tracer.ended_recordLog]
    rfl

theorem conclude_publish (h : e.tracer.recording = none) (trace : Option Trace) (pc cell : UInt64)
    (res : Outcome (UInt64 × UInt64)) :
    ∃ answer, answer.Keeps pc cell ∧ (e.publish trace).conclude pc cell res =
      ⟨({ e with faults := e.faults + UInt64.ofNat answer.errors } : Engine).publish trace, answer⟩ := by
  have habort : (e.publish trace).tracer.abort = (e.publish trace).tracer := by
    simp only [tracer_publish, Tracer.abort, h]
  cases res with
  | ok r =>
    refine ⟨.ok r.1 r.2, .ok pc cell r.1 r.2, ?_⟩
    simp [conclude, Answer.errors]
  | crash =>
    refine ⟨.crash, .crash pc cell, ?_⟩
    simp [conclude, Answer.errors]
  | fault f =>
    refine ⟨.error pc cell (.fault f), .error pc cell (.fault f), ?_⟩
    simp only [conclude, failedRecording, habort]
    exact failed_publish e trace pc cell (.fault f)

theorem conclude_endRecording (h : e.tracer.recording = some { key }) (exit : Exit) (log : List Event)
    (pc cell : UInt64) (res : Outcome (UInt64 × UInt64)) :
    ∃ answer, answer.Keeps pc cell ∧ (e.endRecording exit log).conclude pc cell res =
      ⟨({ e with
        tracer := e.tracer.ended (e.tracer.made key exit log)
        faults := e.faults + UInt64.ofNat answer.errors } : Engine).publish (e.tracer.made key exit log), answer⟩ := by
  rw [endRecording_eq h]
  exact conclude_publish (Tracer.recording_ended _ _) _ pc cell res

end Engine

namespace Call

open Engine (Visit Memory Answer)

variable {c : Call} {v : Visit} {key : LoopKey} {p : ProgramRef} {t : Trace} {r : Recording} {trace : Option Trace}

/-- The engine after a visit, and the answer. -/
inductive Effect (c : Call) : Visit → Prop
  | disabled (off : c.engine.options.disabled = true) :
    Effect c ⟨{ c.engine with visits := c.engine.visits + 1 }, .ok c.pc c.cell⟩
  | refused (found : c.key? = none) (known : Memory) (err : EngineError) :
    Effect c ⟨{ c.engine with
      visits := c.engine.visits + 1
      known
      faults := c.engine.faults + 1 }, .error c.pc c.cell err⟩
  | cold {key : LoopKey} (found : c.key? = some key) (idle : c.engine.tracer.recording = none)
    (uncached : c.engine.tracer.cache.get? key = none) (rare : (c.engine.tracer.profiler.visit key).1 = false)
    (known : Memory) :
    Effect c ⟨{ c.engine with
      visits := c.engine.visits + 1
      known
      tracer := { c.engine.tracer with profiler := (c.engine.tracer.profiler.visit key).2 } }, .ok c.pc c.cell⟩
  | hot {p : ProgramRef} {key : LoopKey} (starts : c.Starts p key) (known : Memory) {trace : Option Trace}
    (records : ∀ t, trace = some t ↔ c.Records t) {answer : Answer} (keeps : answer.Keeps c.pc c.cell) :
    Effect c ⟨Engine.publish { c.engine with
      visits := c.engine.visits + 1
      known
      recordings := c.engine.recordings + 1
      tracer := (c.begun key).ended trace
      faults := c.engine.faults + UInt64.ofNat answer.errors } trace, answer⟩
  | broken {key : LoopKey} {log : List Event} (breaks : c.Breaks key log) (known : Memory) :
    Effect c ⟨{ c.engine with
      visits := c.engine.visits + 1
      known
      recordings := c.engine.recordings + 1
      tracer := (c.begun key).recordLog log }, .crash⟩
  | cached {key : LoopKey} {t : Trace} (found : c.key? = some key) (hit : c.engine.tracer.cache.get? key = some t)
    (known : Memory) (failed : Bool) {answer : Answer} (keeps : answer.Keeps c.pc c.cell) :
    Effect c ⟨{ c.engine.replayed failed with
      visits := c.engine.visits + 1
      known
      tracer := { c.engine.tracer with hits := c.engine.tracer.hits + 1 }
      faults := c.engine.faults + UInt64.ofNat answer.errors }, answer⟩
  | back {r : Recording} (busy : c.engine.tracer.recording = some r) (returns : c.Returns r) (known : Memory) :
    Effect c ⟨Engine.publish { c.engine with
      visits := c.engine.visits + 1
      known
      tracer := c.engine.tracer.ended (c.engine.tracer.complete r).1 } (c.engine.tracer.complete r).1,
      .ok c.pc c.cell⟩
  | elsewhere {key : LoopKey} {r : Recording} (found : c.key? = some key) (busy : c.engine.tracer.recording = some r)
    (uncached : c.engine.tracer.cache.get? key = none) (other : key ≠ r.key) (known : Memory) :
    Effect c ⟨{ c.engine with
      visits := c.engine.visits + 1
      known }, .ok c.pc c.cell⟩

theorem Starts.not_records (h : c.Starts p key)
    (hnone : ∀ frame exit m log,
      ¬Engine.Ran c.fuel p.program c.pos c.user c.pc c.cell frame ⟨.ok exit, m, log⟩) (t : Trace) : ¬c.Records t := by
  rintro ⟨p', _, frame, m, log, hround, _⟩
  obtain rfl := Option.some.inj (h.given.symm.trans hround.given)
  exact hnone _ _ _ _ hround.looped

theorem Starts.made_iff (h : c.Starts p key) {frame : Frame} {m : Machine} {exit : Exit} {log : List Event}
    (ran : Engine.Ran c.fuel p.program c.pos c.user c.pc c.cell frame ⟨.ok exit, m, log⟩) (t : Trace) :
    (c.begun key).made key exit log = some t ↔ c.Records t := by
  unfold Tracer.made
  constructor
  · intro hmade
    split at hmade
    · next hexit =>
      subst hexit
      obtain ⟨hne, rfl⟩ := Tracer.complete_logged_eq_some_iff.mp hmade
      exact ⟨p, key, frame, m, log, ⟨h, ran⟩, hne, rfl⟩
    · cases hmade
  · rintro ⟨p', key', frame', m', log', hround, hne, rfl⟩
    obtain rfl := Option.some.inj (h.given.symm.trans hround.given)
    obtain rfl := Option.some.inj (h.found.symm.trans hround.found)
    cases (ran.unique hround.looped).2
    rw [if_pos rfl]
    exact Tracer.complete_logged_eq_some_iff.mpr ⟨hne, rfl⟩

theorem Starts.effect (h : c.Starts p key) (hv : c.visit = some v) : c.Effect v := by
  obtain ⟨known, hknown⟩ := c.examined_eq
  rw [h.visit_eq, started, hknown] at hv
  cases Engine.recorded hv with
  | unseeded unframed => exact .broken (.unseeded h unframed) known
  | crashed ran => exact .broken (.crashed h ran) known
  | failed f unended =>
    have habort : (c.begun key).abort = (c.begun key).ended none := Tracer.abort_of_busy rfl
    -- the run failed before it came to an end, so there is no way in which it could have made a trace
    have hnone : ∀ t, none = some t ↔ c.Records t := fun t => ⟨nofun, fun ht => absurd ht (h.not_records unended t)⟩
    simp only [Engine.failedRecording, habort]
    exact .hot h known hnone (.error c.pc c.cell (.fault f))
  | @ended frame m exit log ran =>
    have hbusy : (c.begun key).recording = some { key } := rfl
    obtain ⟨answer, keeps, hconclude⟩ := Engine.conclude_endRecording (e := { c.engine with
      visits := c.engine.visits + 1
      known
      recordings := c.engine.recordings + 1
      tracer := c.begun key }) hbusy exit log c.pc c.cell (Engine.results frame m)
    rw [hconclude]
    exact .hot h known (h.made_iff ran) keeps

theorem effect (hv : c.visit = some v) : c.Effect v := by
  -- the cases are split as the visit does: by the program, then by the cache, then by the recording in flight
  obtain ⟨known, hknown⟩ := c.examined_eq
  cases hoff : c.engine.options.disabled with
  | true =>
    obtain rfl := Option.some.inj ((visit_disabled hoff).symm.trans hv)
    exact .disabled hoff
  | false =>
    cases found : c.key? with
    | none =>
      obtain ⟨err, hrefused⟩ := visit_refused hoff found
      obtain rfl := Option.some.inj (hrefused.symm.trans hv)
      rw [hknown]
      exact .refused found known _
    | some key =>
      obtain ⟨p, given⟩ := exists_program found
      cases hget : c.engine.tracer.cache.get? key with
      | some t =>
        rw [visit_cached given found hget, served, hknown] at hv
        obtain ⟨failed, ⟨pc', cell', rfl⟩ | ⟨err, rfl⟩ | rfl⟩ := Engine.replay_ends hv
        · simpa [Engine.replayed, Answer.errors] using
            Effect.cached found hget known failed (.ok c.pc c.cell pc' cell')
        · exact .cached found hget known failed (.error c.pc c.cell err)
        · simpa [Engine.replayed, Answer.errors] using
            Effect.cached found hget known failed (.crash c.pc c.cell)
      | none =>
        cases hrecording : c.engine.tracer.recording with
        | none =>
          cases hvisit : (c.engine.tracer.profiler.visit key).1 with
          | true => exact Starts.effect ⟨given, found, hrecording, hget, hvisit⟩ hv
          | false =>
            obtain rfl := Option.some.inj ((visit_cold found hrecording hget hvisit).symm.trans hv)
            rw [hknown]
            exact .cold found hrecording hget hvisit known
        | some r =>
          by_cases hkey : key = r.key
          · subst hkey
            have hreturns : c.Returns r := ⟨found, hget⟩
            obtain rfl := Option.some.inj ((hreturns.visit_eq hrecording).symm.trans hv)
            rw [hknown, Tracer.complete_eq]
            exact .back hrecording hreturns known
          · obtain rfl := Option.some.inj ((visit_elsewhere found hrecording hget hkey).symm.trans hv)
            rw [hknown]
            exact .elsewhere found hrecording hget hkey known

end Call

namespace Engine

def offered (e : Engine) (t : Trace) : List Offer :=
  match e.journal with
  | none => []
  | some accepts => [{ session := e.session, trace := t, accepted := accepts t }]

theorem offers_publish (e : Engine) (trace : Option Trace) :
    (e.publish trace).offers = e.offers ++ trace.elim [] e.offered := by
  cases trace with
  | none => exact (List.append_nil _).symm
  | some t =>
    unfold publish offered
    cases e.journal <;> simp

/-- `e'` follows `e` after a visit that published the given trace, if any. -/
structure Follows (e : Engine) (trace : Option Trace) (e' : Engine) : Prop where
  options : e'.options = e.options
  session : e'.session = e.session
  journal : e'.journal = e.journal
  optimize : e'.tracer.optimize = e.tracer.optimize
  bound : e'.tracer.maxTraces = e.tracer.maxTraces
  cache : e'.tracer.cache = trace.elim e.tracer.cache fun t => (e.tracer.cache.insert e.tracer.maxTraces t).1
  evicted : e'.tracer.evicted = trace.elim e.tracer.evicted fun t =>
    e.tracer.evicted + UInt64.ofNat (e.tracer.cache.insert e.tracer.maxTraces t).2
  offers : e'.offers = e.offers ++ trace.elim [] e.offered

variable {e e' : Engine}

theorem Follows.same (hoptions : e'.options = e.options) (hsession : e'.session = e.session)
    (hjournal : e'.journal = e.journal) (hoptimize : e'.tracer.optimize = e.tracer.optimize)
    (hbound : e'.tracer.maxTraces = e.tracer.maxTraces) (hcache : e'.tracer.cache = e.tracer.cache)
    (hevicted : e'.tracer.evicted = e.tracer.evicted) (hoffers : e'.offers = e.offers) : e.Follows none e' :=
  ⟨hoptions, hsession, hjournal, hoptimize, hbound, hcache, hevicted, hoffers.trans (List.append_nil _).symm⟩

theorem Follows.ended (t : Tracer) (hoptimize : t.optimize = e.tracer.optimize)
    (hbound : t.maxTraces = e.tracer.maxTraces) (hcache : t.cache = e.tracer.cache)
    (hevicted : t.evicted = e.tracer.evicted) (visits recordings faults : UInt64) (known : Memory)
    (trace : Option Trace) : e.Follows trace (({ e with
      visits
      known
      recordings
      tracer := t.ended trace
      faults } : Engine).publish trace) := by
  obtain ⟨_, _, hpublish⟩ := publish_eq ({ e with visits, known, recordings, tracer := t.ended trace, faults }) trace
  constructor
  · rw [hpublish]
  · rw [hpublish]
  · rw [hpublish]
  · rw [tracer_publish, ← hoptimize]
    cases trace <;> rfl
  · rw [tracer_publish, ← hbound]
    cases trace <;> rfl
  · rw [tracer_publish, ← hbound, ← hcache]
    cases trace <;> rfl
  · rw [tracer_publish, ← hbound, ← hcache, ← hevicted]
    cases trace <;> rfl
  · exact offers_publish _ trace

end Engine

namespace Call

open Engine (Visit)

variable {c : Call} {v : Visit} {key : LoopKey} {t : Trace} {r : Recording}

theorem Breaks.not_records {log : List Event} (h : c.Breaks key log) (t : Trace) : ¬c.Records t := by
  rintro ⟨p, _, frame, m, log', hround, _⟩
  cases h with
  | unseeded starts unframed =>
    obtain rfl := Option.some.inj (starts.given.symm.trans hround.given)
    obtain ⟨m₀, hseed, _⟩ := hround.looped
    cases unframed.symm.trans hseed
  | crashed starts ran =>
    obtain rfl := Option.some.inj (starts.given.symm.trans hround.given)
    cases (ran.unique hround.looped).2

theorem Breaks.starts {log : List Event} (h : c.Breaks key log) : ∃ p, c.Starts p key := by
  cases h with
  | unseeded starts | crashed starts => exact ⟨_, starts⟩

theorem unpublished_iff (hrecords : ∀ t, ¬c.Records t)
    (hreturns : ∀ r, c.engine.tracer.recording = some r → ¬c.Returns r) (t : Trace) :
    none = some t ↔ c.Records t ∨ c.Finishes t := by
  refine ⟨nofun, ?_⟩
  rintro (ht | ⟨r, busy, returns, _⟩)
  · exact absurd ht (hrecords t)
  · exact absurd returns (hreturns r busy)

theorem unpublished_of_unfound (hkey : c.key? = none) (t : Trace) : none = some t ↔ c.Records t ∨ c.Finishes t := by
  apply unpublished_iff
  · intro t ht
    obtain ⟨p, starts⟩ := ht.starts
    cases hkey.symm.trans starts.found
  · intro r _ returns
    cases hkey.symm.trans returns.1

theorem not_returns_of_idle (idle : c.engine.tracer.recording = none) (r : Recording)
    (busy : c.engine.tracer.recording = some r) : ¬c.Returns r := by
  cases idle.symm.trans busy

theorem not_returns_of_hit (found : c.key? = some key) (hit : c.engine.tracer.cache.get? key = some t) (r : Recording) :
    ¬c.Returns r := by
  intro returns
  obtain rfl := Option.some.inj (found.symm.trans returns.1)
  cases hit.symm.trans returns.2

theorem Effect.follows (h : c.Effect v) :
    ∃ trace, (∀ t, trace = some t ↔ c.Records t ∨ c.Finishes t) ∧ c.engine.Follows trace v.engine := by
  cases h with
  | disabled off =>
    have hkey : c.key? = none := by simp [key?, off]
    exact ⟨none, unpublished_of_unfound hkey, .same rfl rfl rfl rfl rfl rfl rfl rfl⟩
  | refused found => exact ⟨none, unpublished_of_unfound found, .same rfl rfl rfl rfl rfl rfl rfl rfl⟩
  | cold found idle uncached rare =>
    refine ⟨none, unpublished_iff ?_ (not_returns_of_idle idle), .same rfl rfl rfl rfl rfl rfl rfl rfl⟩
    intro t ht
    obtain ⟨p, starts⟩ := ht.starts
    obtain rfl := Option.some.inj (found.symm.trans starts.found)
    cases rare.symm.trans starts.often
  | @hot _ key starts known trace records =>
    refine ⟨trace, ?_, .ended (c.begun key) rfl rfl rfl rfl _ _ _ _ _⟩
    intro t
    rw [records t]
    refine ⟨.inl, Or.rec id ?_⟩
    rintro ⟨r, busy, _⟩
    cases starts.idle.symm.trans busy
  | broken breaks =>
    obtain ⟨p, starts⟩ := breaks.starts
    exact ⟨none, unpublished_iff breaks.not_records (not_returns_of_idle starts.idle),
      .same rfl rfl rfl rfl rfl rfl rfl rfl⟩
  | cached found hit =>
    refine ⟨none, unpublished_iff ?_ ?_, .same rfl rfl rfl rfl rfl rfl rfl rfl⟩
    · intro t ht
      obtain ⟨p, starts⟩ := ht.starts
      obtain rfl := Option.some.inj (found.symm.trans starts.found)
      cases hit.symm.trans starts.uncached
    · intro r _
      exact not_returns_of_hit found hit r
  | @back r busy returns =>
    refine ⟨(c.engine.tracer.complete r).1, ?_, .ended c.engine.tracer rfl rfl rfl rfl _ _ _ _ _⟩
    intro t
    refine ⟨fun ht => .inr ⟨r, busy, returns, ht⟩, ?_⟩
    rintro (ht | ⟨r', busy', _, ht⟩)
    · obtain ⟨p, starts⟩ := ht.starts
      cases starts.idle.symm.trans busy
    · obtain rfl := Option.some.inj (busy.symm.trans busy')
      exact ht
  | elsewhere found busy uncached other =>
    refine ⟨none, unpublished_iff ?_ ?_, .same rfl rfl rfl rfl rfl rfl rfl rfl⟩
    · intro t ht
      obtain ⟨p, starts⟩ := ht.starts
      cases starts.idle.symm.trans busy
    · intro r' busy' returns
      obtain rfl := Option.some.inj (busy.symm.trans busy')
      exact other (Option.some.inj (found.symm.trans returns.1))

theorem Effect.recording_cases (h : c.Effect v) (hr : v.engine.tracer.recording = some r) :
    c.engine.tracer.recording = some r ∧ ¬c.Returns r ∨
      v.answer = .crash ∧ ∃ key log, c.Breaks key log ∧ r = log.foldl Recording.add { key } := by
  cases h with
  | disabled off =>
    refine .inl ⟨hr, ?_⟩
    rintro ⟨found, _⟩
    simp [key?, off] at found
  | refused found =>
    refine .inl ⟨hr, ?_⟩
    rintro ⟨found', _⟩
    cases found.symm.trans found'
  | cold found idle => cases idle.symm.trans hr
  | hot =>
    rw [Engine.tracer_publish] at hr
    cases (Tracer.recording_ended _ _).symm.trans hr
  | broken breaks => exact .inr ⟨rfl, _, _, breaks, (Option.some.inj hr).symm⟩
  | cached found hit => exact .inl ⟨hr, not_returns_of_hit found hit r⟩
  | back =>
    rw [Engine.tracer_publish] at hr
    cases (Tracer.recording_ended _ _).symm.trans hr
  | elsewhere found busy uncached other =>
    refine .inl ⟨hr, ?_⟩
    rintro ⟨found', _⟩
    obtain rfl := Option.some.inj (busy.symm.trans hr)
    exact other (Option.some.inj (found.symm.trans found'))

theorem Effect.recording_kept (h : c.Effect v) (busy : c.engine.tracer.recording = some r) (hreturns : ¬c.Returns r) :
    v.engine.tracer.recording = some r := by
  cases h with
  | disabled | refused | cached | elsewhere => exact busy
  | cold found idle => cases idle.symm.trans busy
  | hot starts => cases starts.idle.symm.trans busy
  | broken breaks =>
    obtain ⟨p, starts⟩ := breaks.starts
    cases starts.idle.symm.trans busy
  | back busy' returns =>
    obtain rfl := Option.some.inj (busy.symm.trans busy')
    exact absurd returns hreturns

theorem Effect.recording_iff (h : c.Effect v) (hcrash : v.answer ≠ .crash) :
    v.engine.tracer.recording = some r ↔ c.engine.tracer.recording = some r ∧ ¬c.Returns r := by
  constructor
  · intro hr
    rcases h.recording_cases hr with hkept | ⟨hcrashed, _⟩
    · exact hkept
    · exact absurd hcrashed hcrash
  · rintro ⟨busy, hreturns⟩
    exact h.recording_kept busy hreturns

theorem Effect.answer_keeps (h : c.Effect v) : v.answer.Keeps c.pc c.cell := by
  cases h with
  | disabled | cold | back | elsewhere => exact .ok _ _ _ _
  | refused => exact .error _ _ _
  | hot _ _ _ keeps => exact keeps
  | broken => exact .crash _ _
  | cached _ _ _ _ keeps => exact keeps

theorem Effect.faults_eq (h : c.Effect v) : v.engine.faults = c.engine.faults + UInt64.ofNat v.answer.errors := by
  cases h with
  | disabled | cold | elsewhere | broken => exact (UInt64.add_zero _).symm
  | refused | cached => rfl
  | @hot _ _ _ _ trace =>
    obtain ⟨_, _, hpublish⟩ := Engine.publish_eq _ trace
    rw [hpublish]
  | @back r =>
    obtain ⟨_, _, hpublish⟩ := Engine.publish_eq _ (c.engine.tracer.complete r).1
    rw [hpublish]
    exact (UInt64.add_zero _).symm

theorem Records.profiler (h : c.Records t) (hv : c.visit = some v) :
    v.engine.tracer.profiler = (c.engine.tracer.profiler.visit t.key).2.reset := by
  obtain ⟨p, key, frame, m, log, hround, _, rfl⟩ := h
  rw [hround.visit_eq, Engine.record_of_ended hround.looped] at hv
  have hbusy : (c.begun key).recording = some { key } := rfl
  obtain ⟨answer, _, hconclude⟩ := Engine.conclude_endRecording (e := { c.started key with
    recordings := (c.started key).recordings + 1 }) hbusy .looped log c.pc c.cell (Engine.results frame m)
  obtain rfl := Option.some.inj (hconclude ▸ hv)
  rw [Engine.tracer_publish, Tracer.profiler_ended, key_traceOf]
  rfl

theorem known_cases (hv : c.visit = some v) {id : Nat} {found : Except InvalidProgram UInt64}
    (hknown : v.engine.known[id]? = some found) : c.engine.known[id]? = some found ∨
      ∃ p, c.program = some p ∧ p.id = id ∧ found = Engine.examine p.program ∧ c.engine.options.disabled = false ∧
        c.engine.known[p.id]? = none := by
  rw [Engine.known_visit (a := ⟨c.fuel, c.program, c.pos, c.user, c.pc, c.cell⟩) hv] at hknown
  exact Engine.getElem?_learned hknown

end Call

end HotLoop
