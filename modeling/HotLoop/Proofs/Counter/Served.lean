import HotLoop.Proofs.Cache
import HotLoop.Proofs.Counter.Replay

namespace HotLoop.Counter

/-- Every name that the engine remembers is the counter program's, and every trace is of its loop. -/
structure Sound (recording : Option Recording) (e : Engine) : Prop where
  recording : e.tracer.recording = recording
  known : ∀ (id : Nat) r, e.known[id]? = some r → r = Engine.examine program
  cached : e.tracer.cache.All fun t => LoopCode t.instrs
  offered : ∀ o ∈ e.offers, LoopCode o.trace.instrs

namespace Sound

variable {e : Engine} {recording : Option Recording} {user : List UInt64} {pc cell : UInt64} {fuel id : Nat}

theorem publish (h : Sound recording e) {trace : Option Trace} (ht : ∀ t ∈ trace, LoopCode t.instrs) :
    Sound recording (e.publish trace) := by
  unfold Engine.publish
  split
  · exact h
  · split
    · exact h
    · refine ⟨h.recording, h.known, h.cached, ?_⟩
      intro o ho
      rcases List.mem_append.mp ho with ho | ho
      · exact h.offered o ho
      · obtain rfl := List.mem_singleton.mp ho
        exact ht _ rfl

theorem abort (h : Sound recording e) : Sound none { e with tracer := e.tracer.abort } := by
  have hcached := h.cached
  refine ⟨?_, h.known, ?_, h.offered⟩ <;> (unfold Tracer.abort; cases hr : e.tracer.recording <;> simp [hr, hcached])

theorem failed (h : Sound recording e) (err : EngineError) : Sound recording (e.failed pc cell err).engine :=
  ⟨h.recording, h.known, h.cached, h.offered⟩

theorem failedRecording (h : Sound recording e) (f : Fault) : Sound none (e.failedRecording pc cell f).engine :=
  h.abort.failed _

theorem finishRecording {r : Recording} (h : Sound (some r) e)
    (hr : ∀ optimize, LoopCode (Tracer.ofRecording optimize r).instrs) : Sound none e.finishRecording := by
  have hdone : Sound none { e with tracer := (e.tracer.complete r).2 } :=
    ⟨Tracer.recording_complete _ _, h.known, Tracer.all_complete h.cached (hr _), h.offered⟩
  have hfinish : e.tracer.finish = .ok (e.tracer.complete r) := by simp [Tracer.finish, h.recording]
  unfold Engine.finishRecording
  rw [hfinish]
  apply hdone.publish
  intro t ht
  rw [Tracer.eq_of_complete ht]
  exact hr _

theorem fingerprint (h : Sound recording e) (id : Nat) :
    ∃ e', e.fingerprint (some ⟨id, program⟩) = (.ok (Program.fingerprint (some program)), e') ∧
      Sound recording e' := by
  have hexamine : Engine.examine program = .ok (Program.fingerprint (some program)) := by
    have hcheck : program.check = .ok () := by decide
    simp [Engine.examine, hcheck]
  unfold Engine.fingerprint
  dsimp only
  cases hknown : e.known[id]? with
  | some r => exact ⟨e, by simp [h.known id r hknown, hexamine], h⟩
  | none =>
    refine ⟨_, Prod.ext hexamine rfl, h.recording, ?_, h.cached, h.offered⟩
    intro id' r hr
    change ((if Engine.knownLimit ≤ e.known.size then {} else e.known).insert id (Engine.examine program))[id']? =
      some r at hr
    rw [Std.HashMap.getElem?_insert] at hr
    split at hr
    · exact (Option.some.inj hr).symm
    · split at hr
      · simp at hr
      · exact h.known id' r hr

theorem handle (h : Sound none e) (key : LoopKey) :
    (e.tracer.handle key).1.finished = none ∧
      match (e.tracer.handle key).1.action with
      | .none => Sound none { e with tracer := (e.tracer.handle key).2 }
      | .startTrace => Sound (some { key }) { e with tracer := (e.tracer.handle key).2 }
      | .trace t => LoopCode t.instrs ∧ Sound none { e with tracer := (e.tracer.handle key).2 } := by
  unfold Tracer.handle
  cases hget : e.tracer.cache.get? key with
  | some t => exact ⟨rfl, h.cached key t hget, h.recording, h.known, h.cached, h.offered⟩
  | none =>
    simp only [h.recording]
    cases (e.tracer.profiler.visit key).1 with
    | false => exact ⟨rfl, rfl, h.known, h.cached, h.offered⟩
    | true => exact ⟨rfl, rfl, h.known, h.cached, h.offered⟩

theorem endRecording {key : LoopKey} (h : Sound (some { key }) e) {m m' : Machine} {home : Frame} {exit : Exit}
    {log : List Event} (hsep : m.Separate) (hframes : m.frames = [home]) (hback : home.back = none)
    (hrec : m.record program fuel header = some ⟨.ok exit, m', log⟩) : Sound none (e.endRecording exit log) := by
  have hlogged : Sound (some (log.foldl Recording.add { key })) { e with tracer := e.tracer.recordLog log } :=
    ⟨by simp [Tracer.recordLog, h.recording], h.known, h.cached, h.offered⟩
  unfold Engine.endRecording
  dsimp only
  split
  · rename_i hloop
    subst hloop
    obtain ⟨home', us, u, hround, rfl, rfl⟩ := record_looped_iff.mp ⟨fuel, hrec⟩
    obtain rfl : home' = home := by simpa [Machine.top?, hframes] using hround.top.symm
    obtain ⟨_, _, _, hdead⟩ := regular_of_round hround hframes hback
    have hcode (optimize : Bool) :
        LoopCode (Tracer.ofRecording optimize (((us ++ [u]).map Move.event).foldl Recording.add { key })).instrs := by
      refine ⟨m, home', us, u, hsep, hframes, hback, hround, ?_⟩
      rw [Move.trace_eq, Tracer.instrs_ofRecording]
      split
      · exact hdead
      · rfl
    exact hlogged.finishRecording hcode
  · exact hlogged.abort

theorem record {key : LoopKey} (h : Sound (some { key }) e) {v : Engine.Visit}
    (hv : e.record fuel program header user pc cell = some v) (hanswer : v.answer ≠ .crash) :
    Sound none v.engine := by
  have hcounted : Sound (some { key }) { e with recordings := e.recordings + 1 } :=
    ⟨h.recording, h.known, h.cached, h.offered⟩
  unfold Engine.record at hv
  dsimp only at hv
  split at hv
  · cases hv
    exact absurd rfl hanswer
  · cases hv
    exact hcounted.failedRecording _
  · rename_i frame m hseed
    obtain ⟨hsep, hframes, hback⟩ := Engine.seed_eq_ok hseed
    obtain ⟨⟨outcome, m', log⟩, hrec, hv⟩ := Option.map_eq_some_iff.mp hv
    cases outcome with
    | crash =>
      cases hv
      exact absurd rfl hanswer
    | fault f =>
      cases hv
      exact hcounted.failedRecording f
    | ok exit =>
      have hended := hcounted.endRecording hsep hframes hback hrec
      dsimp only at hv
      split at hv
      · cases hv
        exact absurd rfl hanswer
      · cases hv
        exact hended.failedRecording _
      · cases hv
        exact hended

theorem replay (h : Sound none e) {t : Trace} {v : Engine.Visit}
    (hv : e.replay fuel program header t user pc cell = some v) : Sound none v.engine := by
  have hcounted : Sound none { e with replays := e.replays + 1 } := ⟨h.recording, h.known, h.cached, h.offered⟩
  unfold Engine.replay at hv
  dsimp only at hv
  split at hv
  · cases hv
    exact hcounted
  · cases hv
    exact hcounted.failed _
  · obtain ⟨⟨outcome, m', log⟩, hrun, hv⟩ := Option.bind_eq_some_iff.mp hv
    cases outcome with
    | crash =>
      cases hv
      exact hcounted
    | fault f =>
      cases hv
      exact hcounted.failed _
    | ok guard =>
      have hguard : Sound none { e with replays := e.replays + 1, guardFailures := e.guardFailures + 1 } :=
        ⟨h.recording, h.known, h.cached, h.offered⟩
      obtain ⟨rest, _, hv⟩ := Option.bind_eq_some_iff.mp hv
      split at hv
      · cases hv
        exact hguard
      · cases hv
        exact hguard.failed _
      · split at hv
        · cases hv
          exact hguard
        · cases hv
          exact hguard.failed _
        · cases hv
          exact hguard

theorem mergePoint_cases (h : Sound none e) (fuel id : Nat) (user : List UInt64) (pc cell : UInt64) :
    (∃ e', Sound none e' ∧
      e.mergePoint fuel (some ⟨id, program⟩) header user pc cell = some ⟨e', .ok pc cell⟩) ∨
    (∃ e' key, Sound (some { key }) e' ∧
      e.mergePoint fuel (some ⟨id, program⟩) header user pc cell = e'.record fuel program header user pc cell) ∨
    ∃ e' t, Sound none e' ∧ LoopCode t.instrs ∧
      e.mergePoint fuel (some ⟨id, program⟩) header user pc cell = e'.replay fuel program header t user pc cell := by
  have hcounted : Sound none { e with visits := e.visits + 1 } := ⟨h.recording, h.known, h.cached, h.offered⟩
  unfold Engine.mergePoint
  dsimp only
  split
  · exact .inl ⟨_, hcounted, rfl⟩
  · obtain ⟨e₁, hfingerprint, h₁⟩ := hcounted.fingerprint id
    rw [hfingerprint]
    dsimp only
    generalize loopKey (Program.fingerprint (some program)) header pc = key
    obtain ⟨hfinished, haction⟩ := h₁.handle key
    rw [hfinished]
    generalize (e₁.tracer.handle key).1.action = action at haction
    cases action with
    | none => exact .inl ⟨_, haction, rfl⟩
    | startTrace => exact .inr (.inl ⟨_, _, haction, rfl⟩)
    | trace t => exact .inr (.inr ⟨_, t, haction.2, haction.1, rfl⟩)

theorem visit (h : Sound none e) {v : Engine.Visit}
    (hv : e.mergePoint fuel (some ⟨id, program⟩) header user pc cell = some v) (hanswer : v.answer ≠ .crash) :
    Sound none v.engine := by
  rcases h.mergePoint_cases fuel id user pc cell with ⟨e', h', he⟩ | ⟨e', key, h', he⟩ | ⟨e', t, h', _, he⟩
  · rw [he] at hv
    cases hv
    exact h'
  · exact h'.record (he.symm.trans hv) hanswer
  · exact h'.replay (he.symm.trans hv)

theorem ofOptions (o : Options) (session : Session) : Sound none (Engine.ofOptions o session) where
  recording := rfl
  known := by simp [Engine.ofOptions]
  cached := Cache.all_empty
  offered := by simp [Engine.ofOptions]

theorem warm (h : Sound recording e) (traces : List Trace) (ht : ∀ t ∈ traces, LoopCode t.instrs) :
    Sound recording (e.warm traces) := by
  unfold Engine.warm
  induction traces generalizing e with
  | nil => exact h
  | cons t traces ih =>
    have hinstall : Sound recording { e with tracer := e.tracer.install t } := by
      refine ⟨?_, h.known, Tracer.all_install h.cached fun _ => ht t List.mem_cons_self, h.offered⟩
      rw [← h.recording]
      unfold Tracer.install
      split <;> rfl
    exact ih hinstall fun u hu => ht u (List.mem_cons_of_mem t hu)

end Sound

/-- Engines that only ever served the counter program, with any options and user programs, and warmed with traces of
such engines. One that stopped with a crash is not used again. -/
inductive Served : Engine → Prop
  | fresh (o : Options) (session : Session) : Served (Engine.ofOptions o session)
  | journal {e : Engine} (he : Served e) (accepts : Trace → Bool) : Served (e.withJournal accepts)
  | warm {e : Engine} (he : Served e) (traces : List Trace) (source : Trace → Engine)
      (hs : ∀ t ∈ traces, Served (source t))
      (ht : ∀ t ∈ traces, t ∈ (source t).traces ∨ ∃ o ∈ (source t).offers, o.trace = t) : Served (e.warm traces)
  | visit {e : Engine} {v : Engine.Visit} (he : Served e) (fuel id : Nat) (user : List UInt64) (pc cell : UInt64)
      (hv : e.mergePoint fuel (some ⟨id, program⟩) header user pc cell = some v) (hanswer : v.answer ≠ .crash) :
      Served v.engine

theorem Served.sound {e : Engine} (h : Served e) : Sound none e := by
  induction h with
  | fresh o session => exact .ofOptions o session
  | journal he accepts ih => exact ⟨ih.recording, ih.known, ih.cached, ih.offered⟩
  | warm he traces source hs ht ih ihs =>
    apply ih.warm
    intro t hmem
    rcases ht t hmem with hcached | ⟨o, ho, rfl⟩
    · exact (ihs t hmem).cached.traces t hcached
    · exact (ihs _ hmem).offered o ho
  | visit he fuel id user pc cell hv hanswer ih => exact ih.visit hv hanswer

end HotLoop.Counter
