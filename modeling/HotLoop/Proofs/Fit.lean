import HotLoop.Proofs.Cache
import HotLoop.Proofs.DeadStore.Pass
import HotLoop.Proofs.History
import HotLoop.Proofs.Profile

/-!
Programs that never crash. A checked program may still ask for frames of a negative size, or pass a negative number of
arguments, and then it crashes. One whose functions take no negative number of parameters, and whose blocks can be
had, does not: neither its runs, nor the visits of an engine that has only ever accepted such programs.
-/

namespace HotLoop

def Instr.Fit (i : Instr) : Prop :=
  i.code = .tuple ∨ i.code = .array ∨ i.code = .fill → i.n.toNatClampNeg ≤ Heap.blockLimit

instance (i : Instr) : Decidable i.Fit := inferInstanceAs (Decidable (_ → _))

structure Function.Fit (f : Function) : Prop where
  params : 0 ≤ f.params
  locals : f.locals.toNatClampNeg ≤ Heap.blockLimit
  instrs : ∀ i ∈ f.instrs, i.Fit

def Program.Fit (prog : Program) : Prop := ∀ f, some f ∈ prog.entries → f.Fit

def Instr.Harmless (i : Instr) : Prop := i.Primitive ∧ i.Fit

namespace Program

variable {prog : Program} {i : Instr} {pos : Position}

theorem Fit.blockSize? (hfit : prog.Fit) (hcheck : prog.check = .ok ()) {func : Int64} {f : Function}
    (hf : prog.function? func = some f) : Heap.blockSize? f.locals ≠ none := by
  have hmem := function?_mem hf
  have hlocals := (function_of_check hcheck hmem).1
  rw [ne_eq, Heap.blockSize?_eq_none]
  rintro (hneg | hlt)
  · exact hlocals (Int64.lt_of_lt_of_le hneg (hfit f hmem).params)
  · exact Nat.not_lt.mpr (hfit f hmem).locals hlt

theorem Fit.not_unframed (hfit : prog.Fit) (hcheck : prog.check = .ok ()) (func : Int64) (args : Bool) :
    ¬Exec.Unframed prog func args := by
  rintro ⟨f, hf, _, hsize | ⟨_, hneg⟩⟩
  · exact hfit.blockSize? hcheck hf hsize
  · exact Int64.not_lt.mpr (hfit f (function?_mem hf)).params hneg

theorem Fit.not_refused (hfit : prog.Fit) (hcheck : prog.check = .ok ()) (hi : i.Fit) (m : Machine) :
    ¬Exec.Refused prog i m := by
  unfold Exec.Refused
  split
  · rename_i hc
    exact Nat.not_lt.mpr (hi (.inl hc))
  · rename_i hc
    exact Nat.not_lt.mpr (hi (.inr (.inl hc)))
  · rename_i hc
    exact Nat.not_lt.mpr (hi (.inr (.inr hc)))
  · exact hfit.not_unframed hcheck _ _
  · rintro ⟨_, _, _, h⟩
    exact hfit.not_unframed hcheck _ _ h
  · exact id

theorem Fit.harmless (hfit : prog.Fit) (hcheck : prog.check = .ok ()) (h : prog.instr? pos = some i) :
    i.Harmless := by
  obtain ⟨f, hf, hi⟩ := mem_of_instr? h
  exact ⟨primitive_of_check hcheck f hf i hi, (hfit f hf).instrs i hi⟩

theorem Fit.step_ne_crash (hfit : prog.Fit) (hcheck : prog.check = .ok ()) (hi : i.Harmless) (inTrace : Bool)
    {m m' : Machine} (hm : m.Closed) : Exec.step prog i pos inTrace m ≠ .error .crash m' := by
  intro h
  have hkept := Exec.step_kept (primitive_of_check hcheck) hi.1 pos inTrace hm
  exact hfit.not_refused hcheck hi.2 m (hkept.crash m' h)

end Program

section

variable {prog : Program} {m : Machine}

theorem Machine.run_ne_crash (hfit : prog.Fit) (hcheck : prog.check = .ok ()) (hm : m.Closed) {w : Window}
    {fuel : Nat} {start : Position} {r : Ended Exit} (h : m.run prog w fuel start = some r) : r.outcome ≠ .crash := by
  unfold Machine.run at h
  split at h
  · refine iterate_invariant (P := fun s => s.machine.Closed) (Q := fun r => r.outcome ≠ .crash) ?_ ?_ hm h
    · intro s t hs ht
      exact (Walk.grows_of_again (Program.primitive_of_check hcheck) hs ht).1
    · intro s r hs hr hcrash
      rcases Walk.machine_of_done hr with ⟨_, hfault⟩ | ⟨i, hi, _, hstep⟩
      · cases hfault.symm.trans hcrash
      · exact hfit.step_ne_crash hcheck (hfit.harmless hcheck hi) false hs (hstep hcrash)
  · cases h
    nofun

theorem Machine.replay_ne_crash (hfit : prog.Fit) (hcheck : prog.check = .ok ()) (hm : m.Closed) {code : List Instr}
    (hcode : ∀ i ∈ code, i.Harmless) {fuel : Nat} {r : Ended Guard} (h : m.replay prog fuel code = some r) :
    r.outcome ≠ .crash := by
  unfold Machine.replay at h
  split at h
  · cases h
    nofun
  · rename_i first rest
    have hprog := Program.primitive_of_check hcheck
    have hfirst : first ∈ first :: rest := List.mem_cons_self
    refine iterate_invariant (P := fun s => m.Grows s.machine) (Q := fun r => r.outcome ≠ .crash)
      (Lap.turn_grows hprog hfirst fun i hi => (hcode i hi).1) ?_ hm.grows h
    intro s r hs hr hcrash
    obtain ⟨i, hi, k, hturn⟩ := Lap.exists_turn_eq prog hfirst s
    rcases Lap.machine_of_done (hturn ▸ hr) with ⟨_, hne⟩ | ⟨pos, _, hstep⟩
    · exact hne hcrash
    · exact hfit.step_ne_crash hcheck (hcode i hi) true hs.1 (hstep hcrash)

end

namespace Exec

variable {n : Nat} {A : Prop}

theorem keeps_load {c : CellId} (hc : c.toNat < n) : Keeps n A (fun n v => v.Within n) (load c) :=
  keeps_materialize (x := .place c) hc

theorem keeps_readBack {f : Frame} (hslots : Engine.slotsNeeded ≤ f.locals.length)
    (hf : ∀ c ∈ f.locals, c.toNat < n) : Keeps n A (fun _ _ => True) (Engine.readBack f) := by
  simp only [Engine.slotsNeeded] at hslots
  apply keeps_bind (keeps_getLocal hf (by simp only [Engine.cellSlot]; omega))
  intro n₁ c h₁ hc
  apply keeps_bind (keeps_load hc)
  intro n₂ cell h₂ _
  have hf₂ : ∀ c ∈ f.locals, c.toNat < n₂ := fun c hc => Nat.lt_of_lt_of_le (hf c hc) (Nat.le_trans h₁ h₂)
  apply keeps_bind (keeps_getLocal hf₂ (by simp only [Engine.pcSlot]; omega))
  intro n₃ c h₃ hc
  apply keeps_bind (keeps_load hc)
  intro n₄ pc _ _
  split
  · exact keeps_pure fun _ _ => trivial
  · exact keeps_fault (by simp)

end Exec

def Frame.Holds (m : Machine) (f : Frame) : Prop :=
  Engine.slotsNeeded ≤ f.locals.length ∧ ∀ c ∈ f.locals, c.toNat < m.heap.size

theorem Frame.Holds.grows {m m' : Machine} {f : Frame} (h : f.Holds m) (hm : m.Grows m') : f.Holds m' :=
  ⟨h.1, fun c hc => Nat.lt_of_lt_of_le (h.2 c hc) hm.2⟩

theorem Engine.results_ne_crash {m : Machine} {f : Frame} (hm : m.Closed) (hf : f.Holds m) : results f m ≠ .crash := by
  have hkept : Exec.Kept m False _ (readBack f) := Exec.keeps_readBack hf.1 hf.2 m hm (Nat.le_refl _)
  unfold results
  split
  · nofun
  · rename_i hr
    exact (hkept.crash _ hr).elim
  · nofun

theorem Event.traced?_harmless {e : Event} {j : Instr} (h : e.traced? = some j) (he : e.instr.Harmless) :
    j.Harmless := by
  by_cases hc : e.instr.code.isConditional
  · rw [traced?_conditional hc] at h
    cases h
    exact ⟨nofun, by simp [Instr.Fit, Instr.ofGuard]⟩
  · obtain ⟨_, hj, _⟩ := traced?_unconditional h hc
    rw [hj]
    exact he

structure Tracer.Harmless (t : Tracer) : Prop where
  cached : t.cache.All fun trace => ∀ i ∈ trace.instrs, i.Harmless
  recording : ∀ r, t.recording = some r → ∀ i ∈ r.code.toList, i.Harmless

namespace Tracer.Harmless

variable {t : Tracer}

theorem ofRecording (optimize : Bool) {r : Recording} (hr : ∀ i ∈ r.code.toList, i.Harmless) :
    ∀ i ∈ (Tracer.ofRecording optimize r).instrs, i.Harmless := by
  intro i hi
  cases optimize with
  | false => exact hr i hi
  | true =>
    rcases DeadStore.mem_eliminate hi with rfl | hi
    · exact ⟨nofun, by simp [Instr.Fit, Instr.pop, Instr.plain]⟩
    · exact hr i hi

theorem complete (h : t.Harmless) {r : Recording} (hr : t.recording = some r) : (t.complete r).2.Harmless where
  cached := all_complete h.cached (ofRecording t.optimize (h.recording r hr))
  recording := by simp

theorem abort (h : t.Harmless) : t.abort.Harmless := by
  unfold Tracer.abort
  split
  · exact ⟨h.cached, nofun⟩
  · exact h

theorem install (h : t.Harmless) {trace : Trace} (ht : ∀ i ∈ trace.instrs, i.Harmless) :
    (t.install trace).Harmless where
  cached := all_install h.cached fun _ => ht
  recording := by
    unfold Tracer.install
    split
    · exact h.recording
    · exact h.recording

theorem recordLog (h : t.Harmless) {log : List Event} (hlog : ∀ e ∈ log, e.instr.Harmless) :
    (t.recordLog log).Harmless := by
  refine ⟨h.cached, fun r hr i hi => ?_⟩
  obtain ⟨r₀, hr₀, rfl⟩ := Option.map_eq_some_iff.mp hr
  rw [Recording.code_foldl_add] at hi
  rcases List.mem_append.mp hi with hi | hi
  · exact h.recording r₀ hr₀ i hi
  · obtain ⟨e, he, htraced⟩ := List.mem_filterMap.mp hi
    exact Event.traced?_harmless htraced (hlog e he)

theorem handle (h : t.Harmless) (key : LoopKey) :
    (t.handle key).2.Harmless ∧
      ∀ trace, (t.handle key).1.action = .trace trace → ∀ i ∈ trace.instrs, i.Harmless := by
  have hhandled := t.handled key
  generalize t.handle key = answer at hhandled
  cases hhandled with
  | cached found =>
    refine ⟨⟨h.cached, h.recording⟩, ?_⟩
    rintro _ ⟨⟩
    exact h.cached key _ found
  | hot =>
    refine ⟨⟨h.cached, ?_⟩, nofun⟩
    rintro r ⟨⟩
    simp
  | cold => exact ⟨⟨h.cached, h.recording⟩, nofun⟩
  | back busy => exact ⟨h.complete busy, nofun⟩
  | elsewhere => exact ⟨h, nofun⟩

end Tracer.Harmless

theorem Path.instr?_of_mem {prog : Program} {pos pos' : Position} {m m' : Machine} {vs : List Move}
    (h : Path prog pos m vs pos' m') : ∀ v ∈ vs, ∃ p, prog.instr? p = some v.instr := by
  induction h with
  | nil => simp
  | cons first _ _ ih => exact List.forall_mem_cons.mpr ⟨⟨_, first.found⟩, ih⟩

theorem Machine.log_of_record {prog : Program} {m m' : Machine} {fuel : Nat} {pos : Position} {exit : Exit}
    {log : List Event} (h : m.record prog fuel pos = some ⟨.ok exit, m', log⟩) :
    ∀ e ∈ log, ∃ p, prog.instr? p = some e.instr := by
  obtain ⟨home, htop⟩ := top?_of_record h
  rw [record_eq htop] at h
  obtain ⟨vs, v, p, n, _, hpath, _, hv, _, _, rfl⟩ := Walk.iterate_iff.mp h
  intro e he
  obtain ⟨u, hu, rfl⟩ : ∃ u ∈ vs ++ [v], u.event = e := by
    simpa [Walk.logged, loopWindow, eq_comm] using he
  rcases List.mem_append.mp hu with hu | hu
  · exact hpath.instr?_of_mem u hu
  · exact ⟨p, List.mem_singleton.mp hu ▸ hv.found⟩

namespace Engine

variable {e : Engine} {prog : Program} {pos : Position} {user : List UInt64} {pc cell : UInt64} {fuel : Nat}

@[simp] theorem tracer_publish (e : Engine) (t : Option Trace) : (e.publish t).tracer = e.tracer := by
  unfold publish
  split
  · rfl
  · split <;> rfl

@[simp] theorem tracer_fingerprint (e : Engine) (p : Option ProgramRef) : (e.fingerprint p).2.tracer = e.tracer := by
  unfold fingerprint
  split
  · rfl
  · split <;> rfl

theorem harmless_finishRecording (h : e.tracer.Harmless) : e.finishRecording.tracer.Harmless := by
  unfold finishRecording Tracer.finish
  cases hr : e.tracer.recording with
  | none => exact h
  | some r =>
    dsimp only
    rw [tracer_publish]
    exact h.complete hr

theorem harmless_endRecording (h : e.tracer.Harmless) {log : List Event} (hlog : ∀ v ∈ log, v.instr.Harmless)
    (exit : Exit) : (e.endRecording exit log).tracer.Harmless := by
  have hlogged : (e.tracer.recordLog log).Harmless := h.recordLog hlog
  unfold endRecording
  dsimp only
  split
  · exact harmless_finishRecording hlogged
  · exact hlogged.abort

theorem seed_kept (hfit : prog.Fit) (hcheck : prog.check = .ok ()) (huser : user.length ≤ Heap.blockLimit)
    (pos : Position) (pc cell : UInt64) : Exec.Kept {} False
      (fun n f => slotsNeeded ≤ f.locals.length ∧ ∀ c ∈ f.locals, c.toNat < n) (seed prog pos user pc cell) := by
  have hclosed : Machine.Closed {} := ⟨by simp, by simp, by simp⟩
  exact Exec.keeps_seed (fun f hf => hfit.blockSize? hcheck hf) (by simp [Heap.blockSize?_wordLength huser]) pc cell {}
    hclosed (Nat.le_refl _)

theorem record_safe (hfit : prog.Fit) (hcheck : prog.check = .ok ()) (huser : user.length ≤ Heap.blockLimit)
    (he : e.tracer.Harmless) {v : Visit} (h : e.record fuel prog pos user pc cell = some v) :
    v.engine.tracer.Harmless ∧ v.answer ≠ .crash := by
  have hseed := seed_kept hfit hcheck huser pos pc cell
  unfold record at h
  dsimp only at h
  split at h
  · rename_i hcrash
    exact (hseed.crash _ hcrash).elim
  · cases h
    exact ⟨he.abort, nofun⟩
  · rename_i frame m hok
    obtain ⟨hm, _, hframe⟩ := hseed.ok hok
    obtain ⟨⟨outcome, m', log⟩, hrun, rfl⟩ := Option.map_eq_some_iff.mp h
    have hgrows := Machine.run_grows (Program.primitive_of_check hcheck) hm hrun
    cases outcome with
    | crash => exact absurd rfl (Machine.run_ne_crash hfit hcheck hm hrun)
    | fault f => exact ⟨he.abort, nofun⟩
    | ok exit =>
      -- a log holds instructions of the program, which is fit
      have hlog : ∀ v ∈ log, v.instr.Harmless := by
        intro v hv
        obtain ⟨p, hp⟩ := Machine.log_of_record hrun v hv
        exact hfit.harmless hcheck hp
      have hended := harmless_endRecording (e := { e with recordings := e.recordings + 1 }) he hlog exit
      have hresults : results frame m' ≠ .crash := results_ne_crash hgrows.1 (Frame.Holds.grows hframe hgrows)
      dsimp only
      split
      · rename_i hcrash
        exact absurd hcrash hresults
      · exact ⟨hended.abort, nofun⟩
      · exact ⟨hended, nofun⟩

theorem replay_safe (hfit : prog.Fit) (hcheck : prog.check = .ok ()) (huser : user.length ≤ Heap.blockLimit)
    (he : e.tracer.Harmless) {t : Trace} (ht : ∀ i ∈ t.instrs, i.Harmless) {v : Visit}
    (h : e.replay fuel prog pos t user pc cell = some v) : v.engine.tracer.Harmless ∧ v.answer ≠ .crash := by
  have hseed := seed_kept hfit hcheck huser pos pc cell
  have hprog := Program.primitive_of_check hcheck
  unfold replay at h
  dsimp only at h
  split at h
  · rename_i hcrash
    exact (hseed.crash _ hcrash).elim
  · cases h
    exact ⟨he, nofun⟩
  · rename_i frame m hok
    obtain ⟨hm, _, hframe⟩ := hseed.ok hok
    obtain ⟨run, hrun, h⟩ := Option.bind_eq_some_iff.mp h
    have hrun_grows := Machine.replay_grows hprog hm (fun i hi => (ht i hi).1) hrun
    split at h
    · rename_i hcrash
      exact absurd hcrash (Machine.replay_ne_crash hfit hcheck hm ht hrun)
    · cases h
      exact ⟨he, nofun⟩
    · obtain ⟨rest, hrest, h⟩ := Option.bind_eq_some_iff.mp h
      have hrest_grows := Machine.run_grows hprog hrun_grows.1 hrest
      split at h
      · rename_i hcrash
        exact absurd hcrash (Machine.run_ne_crash hfit hcheck hrun_grows.1 hrest)
      · cases h
        exact ⟨he, nofun⟩
      · have hresults : results frame rest.machine ≠ .crash :=
          results_ne_crash hrest_grows.1 (Frame.Holds.grows hframe (hrun_grows.trans hrest_grows))
        split at h
        · rename_i hcrash
          exact absurd hcrash hresults
        · cases h
          exact ⟨he, nofun⟩
        · cases h
          exact ⟨he, nofun⟩

theorem fingerprint_visits (e : Engine) (p : Option ProgramRef) (n : UInt64) :
    (({ e with visits := n } : Engine).fingerprint p).1 = (e.fingerprint p).1 := by
  cases p with
  | none => rfl
  | some q =>
    unfold fingerprint
    dsimp only
    split <;> rfl

theorem mergePoint_safe {p : Option ProgramRef} (huser : user.length ≤ Heap.blockLimit) (he : e.tracer.Harmless)
    (hp : ∀ q k, p = some q → (e.fingerprint p).1 = .ok k → q.program.check = .ok () ∧ q.program.Fit) {v : Visit}
    (h : e.mergePoint fuel p pos user pc cell = some v) : v.engine.tracer.Harmless ∧ v.answer ≠ .crash := by
  unfold mergePoint at h
  dsimp only at h
  split at h
  · cases h
    exact ⟨he, nofun⟩
  · -- the visit is counted first, which changes neither the fingerprint nor the tracer
    rw [← fingerprint_visits e p (e.visits + 1)] at hp
    have htracer := tracer_fingerprint { e with visits := e.visits + 1 } p
    generalize ({ e with visits := e.visits + 1 } : Engine).fingerprint p = found at h hp htracer
    obtain ⟨result, e₁⟩ := found
    have he₁ : e₁.tracer.Harmless := htracer ▸ he
    cases result with
    | error err =>
      cases h
      exact ⟨he₁, nofun⟩
    | ok k =>
      cases p with
      | none =>
        cases h
        exact ⟨he₁, nofun⟩
      | some q =>
        obtain ⟨hcheck, hfit⟩ := hp q k rfl rfl
        obtain ⟨hhandled, htrace⟩ := he₁.handle (loopKey k pos pc)
        dsimp only at h
        split at h
        · cases h
          exact ⟨by simpa using hhandled, nofun⟩
        · exact record_safe hfit hcheck huser (by simpa using hhandled) h
        · rename_i t ht
          exact replay_safe hfit hcheck huser (by simpa using hhandled) (htrace t ht) h

theorem harmless_warm (he : e.tracer.Harmless) {traces : List Trace} (ht : ∀ t ∈ traces, ∀ i ∈ t.instrs, i.Harmless) :
    (e.warm traces).tracer.Harmless := by
  unfold warm
  dsimp only
  generalize e.tracer = tracer at he
  induction traces generalizing tracer with
  | nil => exact he
  | cons t rest ih =>
    obtain ⟨hfirst, hrest⟩ := List.forall_mem_cons.mp ht
    exact ih hrest (tracer.install t) (he.install hfirst)

end Engine

/-- An act that runs only fit programs, or warms an engine only with traces that may run anywhere. A program may change
between visits, as long as the engine takes it for checked only if it is. -/
def Act.Harmless : Act → Prop
  | visited c => c.user.length ≤ Heap.blockLimit ∧ ∀ q k, c.program = some q →
      (c.engine.fingerprint c.program).1 = .ok k → q.program.check = .ok () ∧ q.program.Fit
  | warmed _ traces => ∀ t ∈ traces, ∀ i ∈ t.instrs, i.Harmless
  | _ => True

theorem Engine.History.harmless {o : Options} {session : Session} {acts : List Act} {e : Engine}
    (h : History o session acts e) (hacts : ∀ a ∈ acts, a.Harmless) : e.tracer.Harmless := by
  induction h with
  | fresh => exact ⟨Cache.all_empty, nofun⟩
  | attach _ _ ih | forget _ _ ih => exact ih (List.forall_mem_cons.mp hacts).2
  | warm _ _ ih =>
    obtain ⟨hwarm, hacts⟩ := List.forall_mem_cons.mp hacts
    exact harmless_warm (ih hacts) hwarm
  | visit _ visited ih =>
    obtain ⟨⟨size, accepted⟩, hacts⟩ := List.forall_mem_cons.mp hacts
    exact (mergePoint_safe size (ih hacts) accepted visited).1

/-- A checked program that is fit does not crash: not when a frame is made for it, not in a run from any machine that
can be reached, and not in a visit of an engine, which is always given a cell. -/
theorem Program.Fit.ne_crash {prog : Program} (hfit : prog.Fit) (hcheck : prog.check = .ok ()) :
    (∀ m fs, Reached prog m fs → (∀ func m', Exec.newFrame prog func m ≠ .error .crash m') ∧
      ∀ w fuel start r, m.run prog w fuel start = some r → r.outcome ≠ .crash) ∧
    ∀ o session acts e, Engine.History o session acts e → (∀ a ∈ acts, a.Harmless) →
      ∀ fuel id pos user pc cell v, user.length ≤ Heap.blockLimit →
        e.mergePoint fuel (some ⟨id, prog⟩) pos user pc cell = some v → v.answer ≠ .crash := by
  constructor
  · intro m fs h
    obtain ⟨hm, _⟩ := h.closed (primitive_of_check hcheck)
    refine ⟨fun func m' hcrash => ?_, fun w fuel start r => Machine.run_ne_crash hfit hcheck hm⟩
    have hkept : Exec.Kept m False _ (Exec.newFrame prog func) :=
      Exec.keeps_newFrame (fun f hf => hfit.blockSize? hcheck hf) m hm (Nat.le_refl _)
    exact hkept.crash m' hcrash
  · intro o session acts e he hacts fuel id pos user pc cell v huser hv
    refine (Engine.mergePoint_safe huser (he.harmless hacts) ?_ hv).2
    rintro q k ⟨⟩ _
    exact ⟨hcheck, hfit⟩

theorem Program.Fit.ne_crash_drain : drainLoop.Fit ∧ drainLoop.check = .ok () ∧
    (∃ r, (seededMachine 3 0).execute drainLoop 100 {} = some r ∧ r.outcome ≠ .crash) ∧
      ∀ o session v, (Engine.ofOptions o session).mergePoint 100 (some ⟨0, drainLoop⟩) {} [] 0 3 = some v →
        v.answer ≠ .crash := by
  have hcheck : drainLoop.check = .ok () := by decide
  have hfit : drainLoop.Fit := by
    intro f hf
    obtain rfl | rfl : f = _ ∨ f = _ := by simpa [drainLoop, Program.entries] using hf
    · exact ⟨by decide, by decide, by decide⟩
    · exact ⟨by decide, by decide, by decide⟩
  have hseeded : Reached drainLoop (seededMachine 3 0) [fiveLocals] := .make .fresh (.seed {} [] 0 3) rfl
  have hends : ((seededMachine 3 0).execute drainLoop 100 {}).isSome := by decide +kernel
  obtain ⟨hruns, hvisits⟩ := Program.Fit.ne_crash hfit hcheck
  obtain ⟨r, hr⟩ := Option.isSome_iff_exists.mp hends
  refine ⟨hfit, hcheck, ⟨r, hr, (hruns _ _ hseeded).2 _ _ _ _ hr⟩, ?_⟩
  intro o session v hv
  exact hvisits o session [] _ .fresh (by simp) 100 0 {} [] 0 3 v (Nat.zero_le _) hv

theorem Tracer.handle_hot {t : Tracer} {key : LoopKey} (hc : t.cache.get? key = none) (hr : t.recording = none)
    (hp : (t.profiler.visit key).1 = true) :
    (t.handle key).1 = { action := .startTrace } ∧ (t.handle key).2.recording ≠ none := by
  simp only [handle, hc, hr, hp, if_true]
  exact ⟨trivial, nofun⟩

theorem Engine.mergePoint_first {prog : Program} (hcheck : prog.check = .ok ()) (session : Session) (fuel id : Nat)
    (pos : Position) (user : List UInt64) (pc cell : UInt64) :
    ∃ e : Engine, e.tracer.recording ≠ none ∧
      (ofOptions { threshold := 0 } session).mergePoint fuel (some ⟨id, prog⟩) pos user pc cell =
        e.record fuel prog pos user pc cell := by
  generalize he : ofOptions { threshold := 0 } session = e₀
  obtain ⟨e₁, hfingerprint, htracer⟩ : ∃ e₁,
      ({ e₀ with visits := e₀.visits + 1 } : Engine).fingerprint (some ⟨id, prog⟩) =
        (.ok (Program.fingerprint (some prog)), e₁) ∧ e₁.tracer = e₀.tracer := by
    have hknown : e₀.known[id]? = none := he ▸ Std.HashMap.getElem?_empty
    simp only [fingerprint, hknown, examine, hcheck]
    exact ⟨_, rfl, rfl⟩
  have hfresh : e₁.tracer = (ofOptions { threshold := 0 } session).tracer := he ▸ htracer
  obtain ⟨haction, hrecording⟩ : (e₁.tracer.handle (loopKey (Program.fingerprint (some prog)) pos pc)).1 =
      { action := .startTrace } ∧ (e₁.tracer.handle _).2.recording ≠ none := by
    rw [hfresh]
    exact Tracer.handle_hot Std.HashMap.getElem?_empty rfl (Profiler.visit_first _)
  unfold mergePoint
  dsimp only
  rw [if_neg (by simp [← he, ofOptions]), hfingerprint]
  dsimp only
  rw [haction]
  exact ⟨_, hrecording, rfl⟩

def negativeLocals : Program where
  table := some [some { params := -1, locals := -1, body := some [.plain .ret] }]

def negativeParams : Program where
  table := some
    [some { body := some [.const (Value.func 1), .plain .call, .plain .ret] },
    some { params := -1, body := some [.plain .ret] }]

/-- Checked programs that crash: a first visit, which leaves a recording in flight, and a run. -/
theorem Program.checked_crashes :
    (negativeLocals.check = .ok () ∧ ∃ v : Engine.Visit,
      (Engine.ofOptions { threshold := 0 } default).mergePoint 1 (some ⟨0, negativeLocals⟩) {} [] 0 0 = some v ∧
        v.answer = .crash ∧ v.engine.tracer.recording ≠ none) ∧
    (negativeParams.check = .ok () ∧ ∃ f m m', Exec.newFrame negativeParams 0 {} = .ok f m ∧
      Machine.execute negativeParams 2 {} { m with frames := [f] } = some ⟨.crash, m', []⟩) := by
  have hlocals : negativeLocals.check = .ok () := by decide
  have hparams : negativeParams.check = .ok () := by decide
  refine ⟨⟨hlocals, ?_⟩, hparams, _, _, _, rfl, rfl⟩
  obtain ⟨e, hrecording, hvisit⟩ := Engine.mergePoint_first hlocals default 1 0 {} [] 0 0
  rw [hvisit]
  exact ⟨_, rfl, rfl, hrecording⟩

end HotLoop
