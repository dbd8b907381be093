import HotLoop.Proofs.Round

/-!
A pass of a recorded trace simulates a run once round the loop. On any machine, the trace goes through to its end
exactly when the program takes the way of the recording, and both leave the same machine. When a guard fails on the
way, the program stands at the conditional jump that the guard was recorded from, with the machine that the replay
left, and is about to take the other branch.
-/

namespace HotLoop

theorem Machine.replay_eq {code : List Instr} (h : code ≠ []) (prog : Program) (fuel : Nat) (m : Machine) :
    m.replay prog fuel code = iterate (Lap.cycle prog code) fuel ⟨0, m⟩ := by
  cases code with
  | nil => exact absurd rfl h
  | cons i rest => rfl

def Inside (prog : Program) (pos : Position) (m : Machine) (home : Frame) (place : Position) (m' : Machine) :
    Prop :=
  ∃ vs, Path prog pos m vs place m' ∧ (loopWindow pos).Open home home vs

/-- A replay of `code` on `m₂` stops at its instruction `k` with the result `r`, and the program stands at the
instruction `w` that it was recorded from on `m₁`, with the machine `n`. -/
structure Departure (prog : Program) (pos : Position) (m₁ m₂ : Machine) (home : Frame) (code : List Instr)
    (k : Nat) (w : Move) (n : Machine) (r : Ended Guard) : Prop where
  within : k < code.length
  reached : advance (Lap.cycle prog code) k ⟨0, m₂⟩ = some ⟨k, n⟩
  stops : Lap.cycle prog code ⟨k, n⟩ = .done r
  inside : Inside prog pos m₂ home w.pos n
  performed : ∃ j, w.event.traced? = some j ∧ Lap.perform prog j k n = .done r
  goes : w.transfer ≠ .stop
  recorded : ∃ n₁ pushed, w.From prog w.pos n₁ ∧ m₁.Above w.machine pushed ∧ Paired m₁ m₂ n₁ n

namespace Round

variable {prog : Program} {pos : Position} {m₁ m₂ m : Machine} {home₁ home₂ : Frame} {us : List Move} {u : Move}
  {code : List Instr}

theorem pass (h : Round prog pos m₁ home₁ us u) (h₁ : m₁.Separate) (h₂ : m₂.Separate)
    (htop : m₂.top? = some home₂) (hcode : code = Move.trace (us ++ [u]))
    (hkeeps : Lap.KeepsCallees prog code (Move.callees (us ++ [u])) code.length ⟨0, m₂⟩) :
    (∃ vs v, Round prog pos m₂ home₂ vs v ∧ (vs ++ [v]).map Move.event = (us ++ [u]).map Move.event ∧
      advance (Lap.cycle prog code) code.length ⟨0, m₂⟩ = some ⟨code.length, v.machine⟩) ∨
    ∃ k w n r, Departure prog pos m₁ m₂ home₂ code k w n r := by
  have hlen : code.length = (Move.trace (us ++ [u])).length := congrArg _ hcode
  rw [hlen] at hkeeps
  have habove := (h.above h₁).1
  rcases lockstep h.path h₁ h₂ h.top htop habove (.refl m₁ m₂) (show code = [] ++ _ from hcode)
      (show _ = [] ++ _ from rfl) rfl hkeeps with
    ⟨ws, m', halong⟩ | ⟨us₁, w, us₂, ws, n₁, n, j, r, hsplit, hj, hw, halong, hstop⟩
  · obtain ⟨vs, v, rfl, rfl, hround⟩ := h.of_alike htop halong.path halong.alike
    have hadv := halong.replayed
    rw [List.length_nil, Nat.zero_add, ← hlen] at hadv
    exact .inl ⟨vs, v, hround, Move.events_of_alike halong.alike, hadv⟩
  · have hw' : w ∈ us ++ [u] := by simp [hsplit]
    obtain ⟨pushed, ha⟩ := habove w hw'
    have htrace : code = Move.trace us₁ ++ j :: Move.trace us₂ := by
      rw [hcode, hsplit, Move.trace, List.filterMap_append, List.filterMap_cons, hj]
      rfl
    have hadv := halong.replayed
    rw [List.length_nil, Nat.zero_add] at hadv hstop
    have hinside : (loopWindow pos).Open home₁ home₁ us₁ := by
      intro x hx
      apply h.inside x
      -- what comes before `w` comes before the last instruction
      have hlast : us₁ ++ (w :: us₂).dropLast = us := by
        have := congrArg List.dropLast hsplit
        simpa [List.dropLast_append_of_ne_nil] using this.symm
      simp [← hlast, hx]
    refine .inr ⟨(Move.trace us₁).length, w, n, r, ⟨by simp [htrace], hadv, ?_, ⟨ws, halong.path, ?_⟩,
      ⟨j, hj, hstop⟩, h.path.goes w hw', n₁, pushed, hw, ha, halong.paired⟩⟩
    · exact (Lap.cycle_of_getElem? (by simp [htrace])).trans hstop
    · exact Move.open_of_alike halong.alike hinside

theorem passes (h : Round prog pos m home₁ us u) (hm : m.Separate) (hcode : code = Move.trace (us ++ [u])) :
    advance (Lap.cycle prog code) code.length ⟨0, m⟩ = some ⟨code.length, u.machine⟩ ∧
      Lap.KeepsCallees prog code (Move.callees (us ++ [u])) code.length ⟨0, m⟩ := by
  have hlen : code.length = (Move.trace (us ++ [u])).length := congrArg _ hcode
  have hf := replay_follows h.path hm (.refl m) (h.above hm).1 (show code = [] ++ _ from hcode)
    (show Move.callees (us ++ [u]) = [] ++ _ from rfl) rfl
  rw [← hlen] at hf
  exact hf

end Round

namespace Departure

variable {prog : Program} {pos : Position} {m₁ m₂ n : Machine} {home : Frame} {code : List Instr} {k : Nat}
  {w : Move} {r : Ended Guard}

theorem guard (h : Departure prog pos m₁ m₂ home code k w n r) (h₂ : m₂.Separate) {g : Guard}
    (hr : r.outcome = .ok g) :
    w.instr.code.isConditional = true ∧ g = ⟨w.transfer.taken, w.pos⟩ ∧ r = ⟨.ok g, n, []⟩ ∧
      n.condition? prog = some !w.transfer.taken := by
  obtain ⟨j, hj, hstop⟩ := h.performed
  obtain ⟨n₁, pushed, hw, _, _, _, _, ha, _⟩ := h.recorded
  obtain ⟨f, hf⟩ := ha.top? h₂
  obtain ⟨o, m', log⟩ := r
  obtain rfl : o = .ok g := hr
  by_cases hc : w.instr.code.isConditional
  · obtain rfl := Option.some.inj ((Event.traced?_conditional (e := w.event) hc).symm.trans hj)
    have hcond := Lap.condition?_of_perform.2 _ _ _ hstop
    rw [Lap.perform_guard_fails hf hcond] at hstop
    cases hstop
    exact ⟨hc, rfl, rfl, hcond⟩
  · have hg : w.instr.code ≠ .guard := fun hg => Exec.step_guard_fails hg hw.step
    exact absurd hstop (Lap.perform_ne_guard hj hc hg)

theorem of_run (h : Departure prog pos m₁ m₂ home code k w n r) (h₂ : m₂.Separate) {fuel : Nat} {g : Guard}
    {m : Machine} {l : List Event} (hrun : iterate (Lap.cycle prog code) fuel ⟨0, m₂⟩ = some ⟨.ok g, m, l⟩) :
    n = m ∧ w.instr.code.isConditional = true ∧ g = ⟨w.transfer.taken, w.pos⟩ ∧
      m.condition? prog = some !w.transfer.taken := by
  have hr : r = ⟨.ok g, m, l⟩ := iterate_unique (iterate_of_advance h.reached h.stops) hrun
  obtain ⟨hc, hg, hr', hcond⟩ := h.guard h₂ (congrArg Ended.outcome hr)
  obtain rfl : n = m := congrArg Ended.machine (hr'.symm.trans hr)
  exact ⟨rfl, hc, hg, hcond⟩

theorem eq_of_from (h : Departure prog pos m₁ m₂ home code k w n r) (h₂ : m₂.Separate) {v : Move}
    (hv : v.From prog w.pos n) : r = ⟨.ok ⟨w.transfer.taken, w.pos⟩, n, []⟩ := by
  obtain ⟨j, hj, hstop⟩ := h.performed
  obtain ⟨n₁, pushed, hw, ha₁, hpair⟩ := h.recorded
  have ⟨_, _, _, ha, _⟩ := hpair
  obtain ⟨f, hf⟩ := ha.top? h₂
  have hinstr : v.instr = w.instr := Option.some.inj (hv.found.symm.trans hw.found)
  have hstep := hinstr ▸ hv.step
  by_cases hc : w.instr.code.isConditional
  · obtain rfl := Option.some.inj ((Event.traced?_conditional (e := w.event) hc).symm.trans hj)
    obtain ⟨c, hcond, _⟩ := (Exec.step_conditional_eq_ok hc).mp hstep
    by_cases hexp : c = w.event.taken
    · rw [Lap.perform_guard_passes hf (hcond.trans (congrArg some hexp))] at hstop
      cases hstop
    · rw [Lap.perform_guard_fails hf (hcond.trans (congrArg some (Bool.eq_not_of_ne hexp)))] at hstop
      exact (Turn.done.inj hstop).symm
  · have hgoes : v.transfer ≠ .stop := by
      intro hs
      exact hw.step_ne_stop h.goes (Event.not_isJump_of_traced? hj hc) hpair ha₁ (hs ▸ hstep)
    rw [Lap.perform_of_step hj hc hf hstep hgoes] at hstop
    cases hstop

end Departure

/-- A trace goes through on a machine, entering the recorded functions, exactly when the program takes the way of the
recording from there. Both then leave the same machine. -/
theorem record_iff_pass {prog : Program} {pos : Position} {m₁ m₂ : Machine} {log : List Event} {t : Trace}
    (hrec : Recorded prog pos m₁ log t) (h₁ : m₁.Separate) (h₂ : m₂.Separate) (m : Machine) :
    (∃ fuel, m₂.record prog fuel pos = some ⟨.ok .looped, m, log⟩) ↔
      advance (Lap.cycle prog t.instrs) t.instrs.length ⟨0, m₂⟩ = some ⟨t.instrs.length, m⟩ ∧
        Lap.KeepsCallees prog t.instrs (Event.callees log) t.instrs.length ⟨0, m₂⟩ := by
  obtain ⟨hinstrs, _⟩ := hrec.instrs_eq
  obtain ⟨fuel, m', hrun⟩ := hrec.walked
  obtain ⟨home₁, us, u, hround, _, rfl⟩ := record_looped_iff.mp ⟨fuel, hrun⟩
  rw [← Move.trace_eq] at hinstrs
  constructor
  · intro h
    obtain ⟨home₂, vs, v, hround₂, rfl, hlog⟩ := record_looped_iff.mp h
    rw [hlog, hround₂.callees_eq]
    apply hround₂.passes h₂
    rw [hinstrs, Move.trace_eq, Move.trace_eq, hlog]
  · rintro ⟨hpass, hkeeps⟩
    rw [hround.callees_eq] at hkeeps
    have htop : m₂.top? = some (m₂.frames.head h₂.active) := List.head?_eq_some_head h₂.active
    rcases hround.pass h₁ h₂ htop hinstrs hkeeps with ⟨vs, v, hround₂, hlog, hadv⟩ | ⟨k, w, n, r, hd⟩
    · have hm : v.machine = m := congrArg Lap.machine (Option.some.inj (hadv.symm.trans hpass))
      exact record_looped_iff.mpr ⟨_, vs, v, hround₂, hm.symm, hlog.symm⟩
    · have hle := le_of_advance_done hd.reached hd.stops hpass
      have hlt := hd.within
      omega

def fiveLocals : Frame := { serial := 0, func := 0, locals := [0, 1, 2, 3, 4] }

def seededMachine (cell pc : UInt64) : Machine where
  heap := { cells := #[Value.unit, Value.record [], Value.usize cell, Value.usize pc, Value.unit] }
  frames := [fiveLocals]
  made := 1

theorem seededMachine_separate (cell pc : UInt64) : (seededMachine cell pc).Separate :=
  ⟨by simp [seededMachine], by simp [seededMachine], by simp [seededMachine, fiveLocals]⟩

def drainLoop : Program where
  table := some
    [some { locals := 5, body := some [.load 2, .const (Value.func 1), .plain .call, .sized .skipIf 2,
      .sized .jumpBack 4, .plain .ret] },
    some { params := 1, locals := 1, body := some [.load 0, .const (Value.usize 0), .binary .eq, .sized .skipIf 7,
      .load 0, .const (Value.usize 1), .binary .sub, .store 0, .const (Value.ofBool false), .plain .ret,
      .const (Value.ofBool true), .plain .ret] }]

def drainLog : List Event := (seededMachine 2 0).shortLog drainLoop {}

def drainTrace : Trace := (seededMachine 2 0).shortTrace drainLoop {}

theorem drain_recorded : Recorded drainLoop {} (seededMachine 2 0) drainLog drainTrace :=
  .of_short (by decide +kernel) (by decide +kernel)

theorem record_iff_pass_drain : Recorded drainLoop {} (seededMachine 2 0) drainLog drainTrace ∧
    ∃ fuel, (seededMachine 3 0).record drainLoop fuel {} =
      some ⟨.ok .looped, { seededMachine 2 0 with made := 2 }, drainLog⟩ := by
  refine ⟨drain_recorded, ?_⟩
  apply (record_iff_pass drain_recorded (seededMachine_separate 2 0) (seededMachine_separate 3 0) _).mpr
  exact ⟨by decide +kernel, by decide +kernel⟩

theorem Exec.step_of_condition {prog : Program} {i : Instr} (hi : i.code.isConditional) {m : Machine} {c : Bool}
    (h : m.condition? prog = some c) (pos : Position) (inTrace : Bool) :
    Exec.step prog i pos inTrace m = Exec.branch i pos c m.dropTop := by
  rw [Exec.step_conditional hi, Exec.bind_apply, Exec.popCondition_eq_ok.mpr ⟨h, rfl⟩]

theorem Path.executes {prog : Program} {pos pos' : Position} {m m' : Machine} {vs : List Move}
    (h : Path prog pos m vs pos' m') (home root : Frame) :
    advance (Walk.turn prog {} home root) vs.length ⟨pos, m, []⟩ = some ⟨pos', m', []⟩ := by
  apply Walk.advance_of_path h
  intro v hv
  simp [Move.exit?, Walk.exit?, h.goes v hv]

/-- A guard that fails during the first pass of a trace leaves the machine that the program has at the conditional
jump, with the condition still on the stack, and the program takes the other branch there. -/
theorem replay_guard_failure {prog : Program} {pos : Position} {m₁ s m : Machine} {log l : List Event} {t : Trace}
    {g : Guard} (hrec : Recorded prog pos m₁ log t) (h₁ : m₁.Separate) (hs : s.Separate)
    (hrun : s.replay prog t.instrs.length t.instrs = some ⟨.ok g, m, l⟩)
    (hkeeps : Lap.KeepsCallees prog t.instrs (Event.callees log) t.instrs.length ⟨0, s⟩) (home root : Frame) :
    ∃ n i, advance (Walk.turn prog {} home root) n ⟨pos, s, []⟩ = some ⟨g.recovery, m, []⟩ ∧
      prog.instr? g.recovery = some i ∧ i.code.isConditional = true ∧ m.condition? prog = some !g.expected ∧
        Exec.step prog i g.recovery false m = Exec.branch i g.recovery (!g.expected) m.dropTop := by
  obtain ⟨hinstrs, hne⟩ := hrec.instrs_eq
  obtain ⟨fuel, m', hwalk⟩ := hrec.walked
  obtain ⟨home₁, us, u, hround, _, rfl⟩ := record_looped_iff.mp ⟨fuel, hwalk⟩
  rw [← Move.trace_eq] at hinstrs
  rw [hround.callees_eq] at hkeeps
  rw [Machine.replay_eq hne] at hrun
  have htop : s.top? = some (s.frames.head hs.active) := List.head?_eq_some_head hs.active
  rcases hround.pass h₁ hs htop hinstrs hkeeps with ⟨vs, v, _, _, hadv⟩ | ⟨k, w, n, r, hd⟩
  · -- a replay that comes to the end of its first pass has no fuel left
    obtain ⟨fuel', hfuel, hrest⟩ := iterate_after_advance hrun hadv
    obtain rfl : fuel' = 0 := by omega
    cases hrest
  · obtain ⟨rfl, hc, rfl, hcond⟩ := hd.of_run hs hrun
    obtain ⟨vs, hpath, _⟩ := hd.inside
    obtain ⟨n₁, _, hw, _, _⟩ := hd.recorded
    exact ⟨vs.length, w.instr, hpath.executes home root, hw.found, hc, hcond,
      Exec.step_of_condition hc hcond w.pos false⟩

def drained (serial : Nat) : Machine :=
  { seededMachine 0 0 with
    stack := [.owned (Value.ofBool true)]
    frames := [⟨serial, 1, [2], some ⟨0, 3⟩⟩, fiveLocals]
    made := serial + 1 }

theorem replay_guard_failure_drain :
    (seededMachine 0 0).replay drainLoop drainTrace.instrs.length drainTrace.instrs =
      some ⟨.ok ⟨false, ⟨1, 3⟩⟩, drained 1, []⟩ ∧
    ∃ n i, advance (Walk.turn drainLoop {} fiveLocals fiveLocals) n ⟨{}, seededMachine 0 0, []⟩ =
      some ⟨⟨1, 3⟩, drained 1, []⟩ ∧ drainLoop.instr? ⟨1, 3⟩ = some i ∧ i.code.isConditional = true ∧
        (drained 1).condition? drainLoop = some true ∧
          Exec.step drainLoop i ⟨1, 3⟩ false (drained 1) = Exec.branch i ⟨1, 3⟩ true (drained 1).dropTop := by
  have hrun : (seededMachine 0 0).replay drainLoop drainTrace.instrs.length drainTrace.instrs =
      some ⟨.ok ⟨false, ⟨1, 3⟩⟩, drained 1, []⟩ := by decide +kernel
  exact ⟨hrun, replay_guard_failure drain_recorded (seededMachine_separate 2 0) (seededMachine_separate 0 0) hrun
    (by decide +kernel) fiveLocals fiveLocals⟩

end HotLoop
