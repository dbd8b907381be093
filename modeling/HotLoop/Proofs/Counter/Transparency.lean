import HotLoop.Proofs.Counter.Served

namespace HotLoop

namespace Engine

variable {prog : Program} {pos : Position} {user : List UInt64} {pc cell pc' cell' : UInt64} {frame : Frame}
  {m m' n : Machine} {exit : Exit} {log : List Event} {fuel : Nat} {t : Trace} {g : Guard}

theorem record_eq_ok (hseed : seed prog pos user pc cell {} = .ok frame m)
    (hrec : m.record prog fuel pos = some ⟨.ok exit, m', log⟩) (hresults : results frame m' = .ok (pc', cell'))
    (e : Engine) :
    e.record fuel prog pos user pc cell =
      some ⟨{ e with recordings := e.recordings + 1 }.endRecording exit log, .ok pc' cell'⟩ := by
  simp only [record, hseed, hrec, Option.map_some, hresults]

theorem replay_eq_ok (hseed : seed prog pos user pc cell {} = .ok frame m)
    (hrun : m.replay prog fuel t.instrs = some ⟨.ok g, n, []⟩)
    (hfinish : n.finishIteration prog fuel g.recovery pos = some ⟨.ok exit, m', log⟩)
    (hresults : results frame m' = .ok (pc', cell')) (e : Engine) :
    e.replay fuel prog pos t user pc cell =
      some ⟨{ e with replays := e.replays + 1, guardFailures := e.guardFailures + 1 }, .ok pc' cell'⟩ := by
  simp only [replay, hseed, hrun, hfinish, hresults, Option.bind_eq_bind, Option.bind_some, Option.pure_def]

end Engine

namespace Counter

variable {user : List UInt64} {s t : State} {e : Engine} {k fuel : Nat}

theorem record_advance (hu : Fits user) (hfuel : 28 < fuel) (s : State) (e : Engine) :
    ∃ e' j s', advance (nativeTurn user) j s = some s' ∧
      e.record fuel program header user s.pc s.cell = some ⟨e', .ok s'.pc s'.cell⟩ := by
  obtain ⟨exit, m, log, hrec, hends⟩ := record_image hu Value.unit s hfuel
  cases hstep : s.step? user with
  | none =>
    simp only [hstep] at hends
    exact ⟨_, 0, s, rfl, Engine.record_eq_ok (seed_eq hu s) hrec (results_of_heap hends.2) e⟩
  | some s' =>
    simp only [hstep] at hends
    obtain ⟨_, opcode', rfl⟩ := hends
    have hadv : advance (nativeTurn user) 1 s = some s' := by simp [advance, nativeTurn, hstep]
    exact ⟨_, 1, s', hadv, Engine.record_eq_ok (seed_eq hu s) hrec (results_of_heap rfl) e⟩

theorem replay_advance {trace : Trace} (hu : Fits user) (hcode : LoopCode trace.instrs)
    (hs : advance (nativeTurn user) k s = some t) (hend : t.step? user = none) (hfuel : 29 * (k + 1) ≤ fuel)
    (e : Engine) :
    ∃ e' j s', advance (nativeTurn user) j s = some s' ∧
      e.replay fuel program header trace user s.pc s.cell = some ⟨e', .ok s'.pc s'.cell⟩ := by
  obtain ⟨j, s', g, n, exit, m, log, hj, hrun, hfinish, hresults⟩ := replay_image hu hcode hs hend Value.unit hfuel
  exact ⟨_, j, s', hj, Engine.replay_eq_ok (seed_eq hu s) hrun hfinish hresults e⟩

theorem Served.visit_advance (h : Served e) (hu : Fits user) (hs : advance (nativeTurn user) k s = some t)
    (hend : t.step? user = none) (hfuel : 29 * (k + 1) ≤ fuel) (id : Nat) :
    ∃ e' j s', Served e' ∧ advance (nativeTurn user) j s = some s' ∧
      e.mergePoint fuel (some ⟨id, program⟩) header user s.pc s.cell = some ⟨e', .ok s'.pc s'.cell⟩ := by
  have hanswer : ∃ e' j s', advance (nativeTurn user) j s = some s' ∧
      e.mergePoint fuel (some ⟨id, program⟩) header user s.pc s.cell = some ⟨e', .ok s'.pc s'.cell⟩ := by
    rcases h.sound.mergePoint_cases fuel id user s.pc s.cell with
      ⟨e', _, he⟩ | ⟨e', key, _, he⟩ | ⟨e', trace, _, hcode, he⟩
    · exact ⟨e', 0, s, rfl, he⟩
    · rw [he]
      exact record_advance hu (by omega) s e'
    · rw [he]
      exact replay_advance hu hcode hs hend hfuel e'
  obtain ⟨e', j, s', hj, hv⟩ := hanswer
  exact ⟨e', j, s', h.visit fuel id user s.pc s.cell hv (by simp), hj, hv⟩

theorem Served.iterate_turn (h : Served e) (hu : Fits user) (hs : advance (nativeTurn user) k s = some t)
    (hend : t.step? user = none) (hfuel : 29 * (k + 1) ≤ fuel) (id : Nat) :
    ∃ e', Served e' ∧ iterate (turn user fuel id) (k + 1) (e, s) = some (some { engine := e', state := t }) := by
  have hdone : nativeTurn user t = .done t := by simp [nativeTurn, hend]
  -- A turn takes a native step after those of the engine, so the native run that is left gets shorter.
  induction k using Nat.strongRecOn generalizing s e with
  | ind k ih =>
    obtain ⟨e', j, s', he', hj, hv⟩ := h.visit_advance hu hs hend hfuel id
    obtain ⟨_, hj', hrest⟩ := advance_of_le hs (le_of_advance_done hs hdone hj)
    obtain rfl := Option.some.inj (hj.symm.trans hj')
    cases hk : k - j with
    | zero =>
      rw [hk] at hrest
      obtain rfl := Option.some.inj hrest
      have hturn : turn user fuel id (e, s) = .done (some { engine := e', state := s' }) := by
        simp [turn, hv, hend]
      exact ⟨e', he', by simp [iterate, hturn]⟩
    | succ n =>
      rw [hk] at hrest
      obtain ⟨s₂, hagain, hrest⟩ := again_of_advance_succ hrest
      have hstep : s'.step? user = some s₂ := by
        unfold nativeTurn at hagain
        split at hagain <;> simp_all
      have hturn : turn user fuel id (e, s) = .again (e', s₂) := by simp [turn, hv, hstep]
      obtain ⟨e₂, he₂, hrun⟩ := ih n (by omega) he' hrest (by omega)
      have hlater : iterate (turn user fuel id) k (e', s₂) = some (some { engine := e₂, state := t }) :=
        iterate_mono hrun (by omega)
      exact ⟨e₂, he₂, by simpa [iterate, hturn] using hlater⟩

structure Call where
  id : Nat
  user : List UInt64
  cell : UInt64

def Call.Halts (c : Call) (s : State) : Prop := Fits c.user ∧ ∃ fuel, native c.user fuel c.cell = some s

theorem Call.Halts.steps {c : Call} (h : c.Halts s) :
    Fits c.user ∧ ∃ k, advance (nativeTurn c.user) k { cell := c.cell } = some s ∧ s.step? c.user = none := by
  obtain ⟨hu, fuel, hnative⟩ := h
  obtain ⟨k, t, _, hadv, hdone⟩ := iterate_eq_some_iff.mp hnative
  refine ⟨hu, k, ?_⟩
  cases hstep : t.step? c.user with
  | some t' => simp [hstep] at hdone
  | none =>
    simp only [hstep, Turn.done.injEq] at hdone
    exact ⟨hdone ▸ hadv, hdone ▸ hstep⟩

def runs (fuel : Nat) : Engine → List Call → Option (List Finished)
  | _, [] => some []
  | e, c :: calls => (run fuel c.id e c.user c.cell).bind fun f => (runs fuel f.engine calls).map (f :: ·)

theorem Served.run_eq (h : Served e) (hu : Fits user) {cell : UInt64}
    (hs : advance (nativeTurn user) k { cell } = some t) (hend : t.step? user = none) (hfuel : 29 * (k + 1) ≤ fuel)
    (id : Nat) :
    ∃ e', Served e' ∧ run fuel id e user cell = some { engine := e', state := t } := by
  obtain ⟨e', he', hrun⟩ := h.iterate_turn hu hs hend hfuel id
  refine ⟨e', he', ?_⟩
  unfold run
  rw [iterate_mono hrun (show k + 1 ≤ fuel by omega)]
  rfl

/-- An engine is transparent: calls that halt natively halt with it, without error and in the same states. -/
theorem runs_eq_native {calls : List Call} {states : List State} (h : List.Forall₂ Call.Halts calls states) :
    ∃ bound, ∀ fuel, bound ≤ fuel → ∀ e, Served e → ∃ fs, runs fuel e calls = some fs ∧
      List.Forall₂ (fun f s => f.state = s ∧ f.error = none ∧ f.crashed = false ∧ Served f.engine) fs states := by
  induction h with
  | nil => exact ⟨0, fun fuel _ e _ => ⟨[], rfl, .nil⟩⟩
  | @cons c s calls states hcall _ ih =>
    obtain ⟨hu, k, hs, hend⟩ := hcall.steps
    obtain ⟨bound, hbound⟩ := ih
    refine ⟨max (29 * (k + 1)) bound, ?_⟩
    intro fuel hfuel e he
    obtain ⟨e', he', hrun⟩ := he.run_eq hu hs hend (show 29 * (k + 1) ≤ fuel by omega) c.id
    obtain ⟨fs, hruns, hfs⟩ := hbound fuel (by omega) e' he'
    exact ⟨{ engine := e', state := s } :: fs, by simp [runs, hrun, hruns], .cons ⟨rfl, rfl, rfl, he'⟩ hfs⟩

theorem runs_eq_native_interleaved :
    Call.Halts ⟨0, countdown, 5⟩ ⟨2, 0⟩ ∧ Call.Halts ⟨0, interleaved, 3⟩ ⟨10, 1⟩ ∧
      ∃ bound, ∀ fuel, bound ≤ fuel →
        ∃ fs, runs fuel (Engine.ofOptions { threshold := 0, maxTraces := 1, optimize := true } default)
            [⟨0, countdown, 5⟩, ⟨0, interleaved, 3⟩] = some fs ∧
          List.Forall₂ (fun f s => f.state = s ∧ f.error = none ∧ f.crashed = false ∧ Served f.engine) fs
            [⟨2, 0⟩, ⟨10, 1⟩] := by
  have hcountdown : Call.Halts ⟨0, countdown, 5⟩ ⟨2, 0⟩ := ⟨by decide, 20, by decide⟩
  have hinterleaved : Call.Halts ⟨0, interleaved, 3⟩ ⟨10, 1⟩ := ⟨by decide, 40, by decide⟩
  obtain ⟨bound, hbound⟩ := runs_eq_native (.cons hcountdown (.cons hinterleaved .nil))
  exact ⟨hcountdown, hinterleaved, bound, fun fuel hfuel => hbound fuel hfuel _ (.fresh _ _)⟩

end Counter

end HotLoop
