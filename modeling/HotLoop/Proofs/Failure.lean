import HotLoop.Proofs.Effect

namespace HotLoop

namespace Tracer

theorem get?_install {t : Tracer} {u : Trace} (h : t.cache.Ordered) {key : LoopKey} (hkey : key ≠ u.key)
    (hnew : t.cache.get? key = none) : (t.install u).cache.get? key = none := by
  unfold install
  split
  · exact hnew
  · rw [Option.eq_none_iff_forall_ne_some]
    intro v hv
    rcases h.get?_insert_cases hv with ⟨rfl, _⟩ | hv
    · exact hkey rfl
    · cases hnew.symm.trans hv

end Tracer

namespace Engine

variable {e e' : Engine} {trace : Option Trace} {o : Options} {session : Session} {acts : List Act} {r : Recording}

structure Settled (e : Engine) : Prop where
  ordered : e.tracer.cache.Ordered
  bounded : 0 < e.tracer.maxTraces → e.tracer.cache.order.length ≤ e.tracer.maxTraces.toNatClampNeg

theorem Settled.follows (h : e.Settled) (hf : e.Follows trace e') : e'.Settled := by
  cases trace with
  | none =>
    have hcache : e'.tracer.cache = e.tracer.cache := hf.cache
    constructor
    · rw [hcache]
      exact h.ordered
    · rw [hf.bound, hcache]
      exact h.bounded
  | some t =>
    have hcache : e'.tracer.cache = (e.tracer.cache.insert e.tracer.maxTraces t).1 := hf.cache
    constructor
    · rw [hcache]
      exact h.ordered.insert _ t
    · rw [hf.bound, hcache]
      intro hb
      exact h.ordered.length_insert_le hb t

theorem Settled.install (h : e.Settled) (t : Trace) : Settled { e with tracer := e.tracer.install t } := by
  unfold Tracer.install
  split
  · exact h
  · exact ⟨h.ordered.insert _ t, fun hb => h.ordered.length_insert_le hb t⟩

theorem Settled.warm (h : e.Settled) (traces : List Trace) : (e.warm traces).Settled := by
  unfold Engine.warm
  induction traces generalizing e with
  | nil => exact h
  | cons t traces ih => exact ih (h.install t)

theorem tracer_warm (e : Engine) (traces : List Trace) :
    ∃ cache installed evicted, (e.warm traces).tracer = { e.tracer with cache, installed, evicted } := by
  unfold warm
  dsimp only
  generalize e.tracer = tracer
  induction traces generalizing tracer with
  | nil => exact ⟨_, _, _, rfl⟩
  | cons t traces ih =>
    obtain ⟨cache, installed, evicted, hrest⟩ := ih (tracer.install t)
    refine ⟨cache, installed, evicted, hrest.trans ?_⟩
    unfold Tracer.install
    split <;> rfl

namespace History

theorem settled (h : History o session acts e) : e.Settled := by
  induction h with
  | fresh => exact ⟨.empty, fun _ => Nat.zero_le _⟩
  | attach _ _ ih | forget _ _ ih => exact ⟨ih.ordered, ih.bounded⟩
  | warm _ traces ih => exact ih.warm traces
  | visit _ visited ih =>
    obtain ⟨_, _, hfollows⟩ := (Call.effect visited).follows
    exact ih.follows hfollows

theorem options_eq (h : History o session acts e) : e.options = o := by
  induction h with
  | fresh => rfl
  | attach _ _ ih | forget _ _ ih | warm _ _ ih => exact ih
  | visit _ visited ih =>
    obtain ⟨_, _, hfollows⟩ := (Call.effect visited).follows
    exact hfollows.options.trans ih

theorem left (h : History o session acts e) (hr : e.tracer.recording = some r) :
    ∃ d key log, .visited d ∈ acts ∧ d.Breaks key log ∧ r = log.foldl Recording.add { key } := by
  induction h with
  | fresh => cases hr
  | attach _ _ ih | forget _ _ ih =>
    obtain ⟨d, key, log, hd, hleft⟩ := ih hr
    exact ⟨d, key, log, List.mem_cons_of_mem _ hd, hleft⟩
  | @warm _ e _ traces ih =>
    obtain ⟨_, _, _, hwarm⟩ := e.tracer_warm traces
    rw [hwarm] at hr
    obtain ⟨d, key, log, hd, hleft⟩ := ih hr
    exact ⟨d, key, log, List.mem_cons_of_mem _ hd, hleft⟩
  | @visit _ c _ _ visited ih =>
    rcases (Call.effect visited).recording_cases hr with ⟨hbefore, _⟩ | ⟨_, key, log, hleft⟩
    · obtain ⟨d, key, log, hd, hleft⟩ := ih hbefore
      exact ⟨d, key, log, List.mem_cons_of_mem _ hd, hleft⟩
    · exact ⟨c, key, log, List.mem_cons_self, hleft⟩

theorem idle (h : History o session acts e) (unbroken : ∀ a ∈ acts, a.crashes = false) :
    e.tracer.recording = none := by
  rw [Option.eq_none_iff_forall_ne_some]
  intro r hr
  obtain ⟨d, key, log, hd, hbreaks, _⟩ := h.left hr
  cases (unbroken _ hd).symm.trans hbreaks.crashes

end History

/-- `key` was the oldest of a full cache, and room was made at its place. -/
def Evicts (e : Engine) (key : LoopKey) (e' : Engine) : Prop :=
  0 < e.tracer.maxTraces ∧ e.tracer.cache.order.length = e.tracer.maxTraces.toNatClampNeg ∧
    e.tracer.cache.order.head? = some key ∧ e'.tracer.evicted = e.tracer.evicted + 1

end Engine

namespace Call

open Engine (Visit)

variable {c : Call} {v : Visit} {t : Trace} {pc cell : UInt64} {err : EngineError}

theorem uncached_of_published (h : c.Records t ∨ c.Finishes t) : c.engine.tracer.cache.get? t.key = none := by
  rcases h with ht | ⟨r, _, returns, ht⟩
  · obtain ⟨p, starts⟩ := ht.starts
    exact starts.uncached
  · rw [Tracer.eq_of_complete ht]
    exact returns.2

theorem kept_or_evicted (hsettled : c.engine.Settled) (hv : c.visit = some v) {key : LoopKey}
    (hget : c.engine.tracer.cache.get? key = some t) :
    v.engine.tracer.cache.get? key = some t ∨ c.engine.Evicts key v.engine := by
  obtain ⟨trace, hpublished, hfollows⟩ := (effect hv).follows
  cases trace with
  | none =>
    have hcache : v.engine.tracer.cache = c.engine.tracer.cache := hfollows.cache
    rw [hcache]
    exact .inl hget
  | some u =>
    have hcache : v.engine.tracer.cache = (c.engine.tracer.cache.insert c.engine.tracer.maxTraces u).1 :=
      hfollows.cache
    have hevicted : v.engine.tracer.evicted = c.engine.tracer.evicted +
        UInt64.ofNat (c.engine.tracer.cache.insert c.engine.tracer.maxTraces u).2 := hfollows.evicted
    have hnew := uncached_of_published ((hpublished u).mp rfl)
    rw [hcache]
    rcases hsettled.ordered.get?_insert_of_some hsettled.bounded hnew hget with hkept | ⟨hb, hfull, holdest, hcount⟩
    · exact .inl hkept
    · rw [hcount] at hevicted
      exact .inr ⟨hb, hfull, holdest, hevicted⟩

theorem Records.published (hsettled : c.engine.Settled) (hv : c.visit = some v) (h : c.Records t) :
    v.engine.traces = latest c.engine.tracer.maxTraces (c.engine.traces ++ [t]) ∧
      v.engine.offers = c.engine.offers ++ c.engine.offered t := by
  obtain ⟨trace, hpublished, hfollows⟩ := (effect hv).follows
  obtain rfl := (hpublished t).mpr (.inl h)
  refine ⟨?_, hfollows.offers⟩
  exact (congrArg Cache.traces hfollows.cache).trans
    (hsettled.ordered.traces_insert (uncached_of_published (.inl h)) _)

theorem cached_of_published (hsettled : c.engine.Settled) (hv : c.visit = some v) (h : c.Records t ∨ c.Finishes t) :
    v.engine.tracer.cache.get? t.key = some t := by
  obtain ⟨trace, hpublished, hfollows⟩ := (effect hv).follows
  obtain rfl := (hpublished t).mpr h
  have hcache : v.engine.tracer.cache = (c.engine.tracer.cache.insert c.engine.tracer.maxTraces t).1 := hfollows.cache
  rw [hcache]
  exact hsettled.ordered.get?_insert_self hsettled.bounded

theorem Finishes.answer_eq (hv : c.visit = some v) (h : c.Finishes t) : v.answer = .ok c.pc c.cell := by
  obtain ⟨r, busy, returns, _⟩ := h
  obtain rfl := Option.some.inj ((returns.visit_eq busy).symm.trans hv)
  rfl

theorem unpublished_of_error (hv : c.visit = some v) (herr : v.answer = .error pc cell err) (h : ∀ t, ¬c.Records t) :
    v.engine.traces = c.engine.traces ∧ v.engine.offers = c.engine.offers := by
  obtain ⟨trace, hpublished, hfollows⟩ := (effect hv).follows
  cases trace with
  | none => exact ⟨congrArg Cache.traces hfollows.cache, hfollows.offers.trans (List.append_nil _)⟩
  | some t =>
    rcases (hpublished t).mp rfl with ht | ht
    · exact absurd ht (h t)
    · cases (ht.answer_eq hv).symm.trans herr

theorem Records.misread (hv : c.visit = some v) (herr : v.answer = .error pc cell err) (h : c.Records t) :
    ∃ p key frame m log f, c.Rounds p key frame m log ∧ t = c.traceOf key log ∧ Engine.results frame m = .fault f ∧
      err = .fault f := by
  obtain ⟨p, key, frame, m, log, hround, _, rfl⟩ := h
  rw [hround.visit_eq, Engine.record_of_ended hround.looped] at hv
  obtain rfl := Option.some.inj hv
  cases hresults : Engine.results frame m with
  | ok | crash =>
    rw [hresults] at herr
    cases herr
  | fault f =>
    rw [hresults] at herr
    cases herr
    exact ⟨p, key, frame, m, log, f, hround, rfl, hresults, rfl⟩

end Call

def unreadable : Program where
  table := some [some { locals := 4, body := some [.const (Value.ofBool true), .store 2, .sized .jumpBack 2] }]

def unreadableKey : LoopKey := loopKey (Program.fingerprint (some unreadable)) {} 0

def unreadableCall (e : Engine) : Call where
  engine := e
  fuel := 3
  program := some ⟨0, unreadable⟩
  pos := {}
  user := []
  pc := 0
  cell := 7

theorem unreadable_fails {e : Engine} (enabled : e.options.disabled = false) (idle : e.tracer.recording = none)
    (unknown : e.known[0]? = none) (uncached : e.tracer.cache.get? unreadableKey = none)
    (often : (e.tracer.profiler.visit unreadableKey).1 = true) :
    ∃ v t, (unreadableCall e).visit = some v ∧
      v.answer = .error 0 7 (.fault { cause := .mismatch (.results .bool .usize) }) ∧ (unreadableCall e).Records t := by
  obtain ⟨frame, m₀, hseed, hrun⟩ : ∃ frame m₀, Engine.seed unreadable {} [] 0 7 {} = .ok frame m₀ ∧
      (m₀.record unreadable 3 {}).map
        (fun r => (r.outcome, Engine.results frame r.machine, r.log.filterMap Event.traced?)) =
          some (.ok .looped, .fault { cause := .mismatch (.results .bool .usize) },
            [.const (Value.ofBool true), .store 2]) :=
    ⟨_, _, rfl, by decide +kernel⟩
  have hstarts : (unreadableCall e).Starts ⟨0, unreadable⟩ unreadableKey :=
    .of_unknown enabled rfl unknown (by decide) idle uncached often
  obtain ⟨e', t, ht, _, hvisit⟩ := hstarts.records hseed hrun (by simp)
  exact ⟨_, t, hvisit, rfl, ht⟩

def waitLoop : Program where
  table := some [some { locals := 4, body := some [.load 2, .const (Value.usize 0), .binary .eq, .sized .skipIf 2,
    .sized .jumpBack 4, .plain .ret] }]

def waitKey : LoopKey := loopKey (Program.fingerprint (some waitLoop)) {} 0

def waitCall (e : Engine) (cell : UInt64) : Call where
  engine := e
  fuel := 5
  program := some ⟨0, waitLoop⟩
  pos := {}
  user := []
  pc := 0
  cell

theorem waitLoop_valid : waitLoop.check = .ok () := by decide

theorem waitCall_key {e : Engine} (enabled : e.options.disabled = false) (unknown : e.known[0]? = none)
    (cell : UInt64) : (waitCall e cell).key? = some waitKey :=
  Call.key?_of_unknown (p := ⟨0, waitLoop⟩) enabled rfl unknown waitLoop_valid

def waitCode : List Instr := [.load 2, .const (Value.usize 0), .binary .eq, .ofGuard { recovery := { pc := 3 } }]

theorem waitCall_records {e : Engine} (enabled : e.options.disabled = false) (idle : e.tracer.recording = none)
    (unknown : e.known[0]? = none) (uncached : e.tracer.cache.get? waitKey = none)
    (often : (e.tracer.profiler.visit waitKey).1 = true) :
    ∃ e' t, (waitCall e 2).visit = some ⟨e', .ok 0 2⟩ ∧ (waitCall e 2).Records t ∧
      (e.tracer.optimize = false → t.instrs = waitCode) := by
  obtain ⟨frame, m₀, hseed, hrun⟩ : ∃ frame m₀, Engine.seed waitLoop {} [] 0 2 {} = .ok frame m₀ ∧
      (m₀.record waitLoop 5 {}).map
        (fun r => (r.outcome, Engine.results frame r.machine, r.log.filterMap Event.traced?)) =
          some (.ok .looped, .ok (0, 2), waitCode) :=
    ⟨_, _, rfl, by decide +kernel⟩
  have hstarts : (waitCall e 2).Starts ⟨0, waitLoop⟩ waitKey :=
    .of_unknown enabled rfl unknown waitLoop_valid idle uncached often
  obtain ⟨e', t, ht, hcode, hvisit⟩ := hstarts.records hseed hrun (by simp [waitCode])
  exact ⟨e', t, hvisit, ht, hcode⟩

def negativeKey : LoopKey := loopKey (Program.fingerprint (some negativeLocals)) {} 0

def negativeCall (e : Engine) : Call where
  engine := e
  fuel := 1
  program := some ⟨1, negativeLocals⟩
  pos := {}
  user := []
  pc := 0
  cell := 0

def eager : Engine := .ofOptions { threshold := 0 } default

def journaled : Engine := eager.withJournal fun _ => true

theorem journaled_history :
    Engine.History { threshold := 0 } default [.attached (some fun _ => true)] journaled :=
  .attach .fresh _

theorem journaled_fails : ∃ v t, (unreadableCall journaled).visit = some v ∧
    v.answer = .error 0 7 (.fault { cause := .mismatch (.results .bool .usize) }) ∧
      (unreadableCall journaled).Records t :=
  unreadable_fails rfl rfl Std.HashMap.getElem?_empty Std.HashMap.getElem?_empty (Profiler.visit_first _)

def tightOptions : Options := { threshold := 0, maxTraces := 1 }

def stockTrace : Trace := { key := 1, code := some [.plain .noop] }

def full : Engine := (Engine.ofOptions tightOptions default).warm [stockTrace]

theorem full_history :
    Engine.History tightOptions default [.warmed (.ofOptions tightOptions default) [stockTrace]] full :=
  .warm .fresh _

theorem full_caches : full.tracer.cache.get? 1 = some stockTrace := by
  obtain ⟨_, _, htrim⟩ := (Cache.Ordered.empty.added stockTrace).trim 1
  rw [Cache.order_added Std.HashMap.getElem?_empty] at htrim
  refine (htrim 1).trans ?_
  simp [latest, Cache.get?_added, stockTrace]

theorem full_fails : ∃ v t, (unreadableCall full).visit = some v ∧
    v.answer = .error 0 7 (.fault { cause := .mismatch (.results .bool .usize) }) ∧
      (unreadableCall full).Records t := by
  have hkey : unreadableKey ≠ stockTrace.key := by decide +kernel
  have huncached : full.tracer.cache.get? unreadableKey = none :=
    Tracer.get?_install .empty hkey Std.HashMap.getElem?_empty
  exact unreadable_fails rfl rfl Std.HashMap.getElem?_empty huncached (Profiler.visit_first _)

theorem negativeCall_breaks : (negativeCall eager).Breaks negativeKey [] := by
  have hstarts : (negativeCall eager).Starts ⟨1, negativeLocals⟩ negativeKey :=
    .of_unknown rfl rfl Std.HashMap.getElem?_empty (by decide) rfl Std.HashMap.getElem?_empty (Profiler.visit_first _)
  exact .unseeded hstarts (m := {}) rfl

namespace Engine.History

variable {c : Call} {v : Visit} {o : Options} {session : Session} {acts : List Act}

/-- A visit leaves no recording in flight, unless an earlier one crashed and left it; such a recording stays until its
loop is visited. A visit that fails leaves the embedding program where it was, is counted, and leaves every cached trace
as it was, up to the eviction of the oldest. -/
theorem visit_settles (h : History o session acts c.engine) (hv : c.visit = some v) (hcrash : v.answer ≠ .crash) :
    ((∀ a ∈ acts, a.crashes = false) → v.engine.tracer.recording = none) ∧
    (∀ r, v.engine.tracer.recording = some r ↔ c.engine.tracer.recording = some r ∧ ¬c.Returns r) ∧
    (∀ r, c.engine.tracer.recording = some r →
      ∃ d key log, .visited d ∈ acts ∧ d.Breaks key log ∧ r = log.foldl Recording.add { key }) ∧
    ∀ pc cell err, v.answer = .error pc cell err →
      pc = c.pc ∧ cell = c.cell ∧ v.engine.faults = c.engine.faults + 1 ∧
        ∀ key t, c.engine.tracer.cache.get? key = some t →
          v.engine.tracer.cache.get? key = some t ∨ c.engine.Evicts key v.engine := by
  have heffect := Call.effect hv
  refine ⟨?_, fun r => heffect.recording_iff hcrash, fun r => h.left, ?_⟩
  · intro unbroken
    rw [Option.eq_none_iff_forall_ne_some]
    intro r hr
    cases (h.idle unbroken).symm.trans ((heffect.recording_iff hcrash).mp hr).1
  · intro pc cell err herr
    obtain ⟨hpc, hcell⟩ := heffect.answer_keeps pc cell err herr
    have hfaults := heffect.faults_eq
    rw [herr] at hfaults
    exact ⟨hpc, hcell, hfaults, fun key t => Call.kept_or_evicted h.settled hv⟩

theorem visit_settles_unreadable :
    ∃ v : Visit,
      History tightOptions default [.warmed (ofOptions tightOptions default) [stockTrace]] full ∧
        full.tracer.cache.get? 1 = some stockTrace ∧ (unreadableCall full).visit = some v ∧
          v.answer = .error 0 7 (.fault { cause := .mismatch (.results .bool .usize) }) ∧
            v.engine.tracer.recording = none ∧ v.engine.faults = full.faults + 1 ∧
              (v.engine.tracer.cache.get? 1 = some stockTrace ∨ full.Evicts 1 v.engine) := by
  obtain ⟨v, t, hv, hanswer, _⟩ := full_fails
  have hcrash : v.answer ≠ .crash := by simp [hanswer]
  obtain ⟨hidle, _, _, herror⟩ := visit_settles (c := unreadableCall full) full_history hv hcrash
  obtain ⟨_, _, hfaults, hcached⟩ := herror _ _ _ hanswer
  exact ⟨v, full_history, full_caches, hv, hanswer, hidle (by simp [Act.crashes]), hfaults, hcached 1 _ full_caches⟩

/-- A visit crashes while it makes the frame of its recording run. The next one, of another loop, succeeds, and the
recording is still in flight after it. -/
theorem visit_leaves_recording :
    ∃ v w : Visit, (negativeCall eager).visit = some v ∧ v.answer = .crash ∧
      History { threshold := 0 } default [.visited (negativeCall eager)] v.engine ∧
        (waitCall v.engine 2).visit = some w ∧ w.answer = .ok 0 2 ∧
          w.engine.tracer.recording = some { key := negativeKey } := by
  have hcrash := negativeCall_breaks.visit_eq
  have hhistory : History { threshold := 0 } default [.visited (negativeCall eager)] _ := .visit .fresh hcrash
  -- the visit that crashed has examined its own program and no other
  have hunknown : ((negativeCall eager).started negativeKey).known[0]? = none := by
    rw [Option.eq_none_iff_forall_ne_some]
    intro found hfound
    rcases Call.known_cases hcrash hfound with hbefore | ⟨p, hp, hid, _⟩
    · cases Std.HashMap.getElem?_empty.symm.trans hbefore
    · cases hp
      cases hid
  have hother : waitKey ≠ negativeKey := by decide +kernel
  have hfound := waitCall_key (congrArg Options.disabled hhistory.options_eq) hunknown 2
  have hwait := Call.visit_elsewhere hfound rfl Std.HashMap.getElem?_empty hother
  exact ⟨_, _, hcrash, rfl, hhistory, hwait, rfl, congrArg Tracer.recording (tracer_fingerprint _ _)⟩

/-- A failing visit that records no trace publishes nothing. One that records a trace has failed to read its results,
and publishes this trace alone. -/
theorem failing_visit_publishes (h : History o session acts c.engine) (hv : c.visit = some v) {pc cell : UInt64}
    {err : EngineError} (herr : v.answer = .error pc cell err) :
    ((∀ t, ¬c.Records t) → v.engine.traces = c.engine.traces ∧ v.engine.offers = c.engine.offers) ∧
      ∀ t, c.Records t →
        v.engine.traces = latest c.engine.tracer.maxTraces (c.engine.traces ++ [t]) ∧
          v.engine.offers = c.engine.offers ++ c.engine.offered t ∧
            ∃ p key frame m log f, c.Rounds p key frame m log ∧ t = c.traceOf key log ∧
              results frame m = .fault f ∧ err = .fault f := by
  refine ⟨Call.unpublished_of_error hv herr, ?_⟩
  intro t ht
  obtain ⟨htraces, hoffers⟩ := ht.published h.settled hv
  exact ⟨htraces, hoffers, ht.misread hv herr⟩

theorem failing_visit_publishes_unreadable :
    ∃ v t, (unreadableCall journaled).visit = some v ∧
      v.answer = .error 0 7 (.fault { cause := .mismatch (.results .bool .usize) }) ∧
        (unreadableCall journaled).Records t ∧ v.engine.traces = [t] ∧
          v.engine.offers = [{ session := default, trace := t, accepted := true }] := by
  obtain ⟨v, t, hv, hanswer, ht⟩ := journaled_fails
  obtain ⟨_, hpublishes⟩ := failing_visit_publishes (c := unreadableCall journaled) journaled_history hv hanswer
  obtain ⟨htraces, hoffers, _⟩ := hpublishes t ht
  exact ⟨v, t, hv, hanswer, ht, htraces, hoffers⟩

/-- A visit that fails, and that leaves a trace in the cache and in the journal. -/
theorem failing_visit_leaves_trace :
    ∃ v : Visit, History { threshold := 0 } default [.attached (some fun _ => true)]
        (unreadableCall journaled).engine ∧
      (unreadableCall journaled).visit = some v ∧
        v.answer = .error 0 7 (.fault { cause := .mismatch (.results .bool .usize) }) ∧
          v.engine.traces ≠ (unreadableCall journaled).engine.traces ∧
            v.engine.offers ≠ (unreadableCall journaled).engine.offers := by
  obtain ⟨v, t, hv, hanswer, ht⟩ := journaled_fails
  obtain ⟨htraces, hoffers⟩ := ht.published journaled_history.settled hv
  refine ⟨v, journaled_history, hv, hanswer, ?_, ?_⟩
  · intro heq
    cases htraces.symm.trans heq
  · intro heq
    cases hoffers.symm.trans heq

end Engine.History

end HotLoop
