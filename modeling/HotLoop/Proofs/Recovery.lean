import HotLoop.Engine.MergePoint
import HotLoop.Proofs.Resume

namespace HotLoop

theorem Heap.blockSize?_wordLength {user : List UInt64} (h : user.length ≤ blockLimit) :
    blockSize? (wordLength user) = some user.length := by
  have hlimit : blockLimit < 2 ^ 63 := by decide
  have hint : (wordLength user).toInt = user.length := Int64.toInt_ofNat_of_lt (Nat.lt_of_le_of_lt h hlimit)
  have hnat : (wordLength user).toNatClampNeg = user.length := by simp [Int64.toNatClampNeg, hint]
  have hpos : ¬wordLength user < 0 := by
    rw [Int64.lt_iff_toInt_lt, hint, Int64.toInt_zero]
    omega
  simp [blockSize?, hpos, hnat, Nat.not_lt.mpr h]

namespace Exec

variable {α β : Type}

def Pushes (f : Frame) (x : Exec Frame) : Prop :=
  ∀ m m' g, x m = .ok g m' → g = f ∧ m'.frames = f :: m.frames ∧ m'.made = m.made

theorem pushes_bind {f : Frame} {x : Exec α} {y : α → Exec Frame} (hx : KeepsFrames x) (hy : ∀ a, Pushes f (y a)) :
    Pushes f (x >>= y) := by
  intro m m' g h
  obtain ⟨a, m₁, h₁, h₂⟩ := bind_eq_ok.mp h
  obtain ⟨hframes, hmade⟩ := hx.of_ok h₁
  simpa [hframes, hmade] using hy a m₁ m' g h₂

theorem pushes_last (f : Frame) : Pushes f (pushFrame f >>= fun _ => pure f) := by
  intro m m' g h
  cases h
  exact ⟨rfl, rfl, rfl⟩

theorem newFrame_eq_ok {prog : Program} {func : Int64} {m m' : Machine} {f : Frame}
    (h : newFrame prog func m = .ok f m') :
    f.serial = m.made ∧ f.back = none ∧ m'.frames = m.frames ∧ m'.made = m.made + 1 := by
  obtain ⟨_, m₁, h₁, h⟩ := bind_eq_ok.mp h
  obtain ⟨_, m₂, h₂, h⟩ := bind_eq_ok.mp h
  obtain ⟨_, m₃, h₃, h⟩ := bind_eq_ok.mp h
  have hk₁ := (keepsFrames_require _ _).of_ok h₁
  have hk₂ := (keepsFrames_ofOption _).of_ok h₂
  have hk₃ := (keepsFrames_allocUnits _).of_ok h₃
  cases h
  simp [hk₁, hk₂, hk₃]

end Exec

namespace Engine

open Exec

variable {prog : Program} {pos : Position} {user : List UInt64} {pc cell : UInt64} {frame : Frame} {s : Machine}

theorem keepsFrames_storeWords (cells : List CellId) (words : List UInt64) :
    KeepsFrames (storeWords cells words) := by
  induction cells generalizing words with
  | nil => simp [storeWords]
  | cons c cells ih => cases words <;> simp [storeWords, ih]

theorem seed_eq_ok (h : seed prog pos user pc cell {} = .ok frame s) :
    s.Separate ∧ s.frames = [frame] ∧ frame.back = none := by
  obtain ⟨f, m, hnew, h⟩ := bind_eq_ok.mp h
  obtain ⟨hserial, hback, hframes, hmade⟩ := newFrame_eq_ok hnew
  have h := check_eq_ok (by simp) h
  obtain ⟨rfl, hs, hsmade⟩ : frame = f ∧ s.frames = f :: m.frames ∧ s.made = m.made := by
    refine (?_ : Pushes f _) _ _ _ h
    exact pushes_bind (by simp) fun _ => pushes_bind (keepsFrames_storeWords _ _) fun _ =>
      pushes_bind (by simp) fun _ => pushes_bind (by simp) fun _ => pushes_bind (by simp) fun _ =>
        pushes_bind (by simp) fun _ => pushes_bind (by simp) fun _ => pushes_bind (by simp) fun _ => pushes_last f
  rw [hframes] at hs
  rw [hmade] at hsmade
  exact ⟨⟨by simp [hs], by simp [hs], by simp [hs, hsmade, hserial]⟩, hs, hback⟩

end Engine

/-- A replay that a guard ends has made `n` iterations and is inside the next one, as long as its calls enter the
recorded functions. The recovery completes `n + 1` iterations exactly when it ends where the iteration does, and it
does so if no jump makes it stop elsewhere. -/
theorem replay_recovery_iterates {prog : Program} {pos : Position} {user₁ user : List UInt64}
    {pc₁ cell₁ pc cell : UInt64} {frame₁ frame : Frame} {s₁ s m m' : Machine} {log l l' : List Event} {t : Trace}
    {fuel fuel' : Nat} {g : Guard} {e : Exit} (hseed₁ : Engine.seed prog pos user₁ pc₁ cell₁ {} = .ok frame₁ s₁)
    (hrec : Recorded prog pos s₁ log t) (hseed : Engine.seed prog pos user pc cell {} = .ok frame s)
    (hkeeps : Lap.KeepsCallees prog t.instrs (Event.callees log) fuel ⟨0, s⟩)
    (hreplay : s.replay prog fuel t.instrs = some ⟨.ok g, m, l⟩)
    (hfinish : m.finishIteration prog fuel' g.recovery pos = some ⟨.ok e, m', l'⟩) :
    ∃ n m₀, Iterates prog pos n s m₀ ∧ Inside prog pos m₀ frame g.recovery m ∧
      (Iterates prog pos (n + 1) s m' ↔ Completes prog pos frame g.recovery m m') ∧
        (prog.Recovers pos g.recovery m.depth → Iterates prog pos (n + 1) s m') := by
  obtain ⟨h₁, _, _⟩ := Engine.seed_eq_ok hseed₁
  obtain ⟨hs, hframes, hback⟩ := Engine.seed_eq_ok hseed
  obtain ⟨hinstrs, hne⟩ := hrec.instrs_eq
  obtain ⟨fuel₁, m₁, hwalk⟩ := hrec.walked
  obtain ⟨home₁, us, u, hround, _, rfl⟩ := record_looped_iff.mp ⟨fuel₁, hwalk⟩
  rw [← Move.trace_eq] at hinstrs
  rw [hround.callees_eq] at hkeeps
  rw [Machine.replay_eq hne] at hreplay
  have htop : s.top? = some frame := by simp [Machine.top?, hframes]
  obtain ⟨n, m₀, hiter, habove, hinside, hi⟩ :=
    hround.iterates h₁ hinstrs hne hs htop (hkeeps.of_ended hreplay) hreplay
  have htop₀ : m₀.top? = some frame := habove.top?_eq.trans htop
  have hiff : Iterates prog pos (n + 1) s m' ↔ Completes prog pos frame g.recovery m m' := by
    rw [hinside.completes_iff htop₀]
    constructor
    · intro h
      exact h.last hiter
    · rintro ⟨_, _, _, hlast⟩
      exact hiter.snoc hlast
  refine ⟨n, m₀, hiter, hinside, hiff, fun hr => hiff.mpr ?_⟩
  exact ⟨fuel', (hinside.finishes_iff (hs.of_above habove) (habove.frames.trans hframes) hback hi hr).mp
    ⟨e, l', hfinish⟩⟩

theorem replay_recovery_iterates_drain :
    (seededMachine 3 0).replay drainLoop 60 drainTrace.instrs = some ⟨.ok ⟨false, ⟨1, 3⟩⟩, drained 4, []⟩ ∧
    (drained 4).finishIteration drainLoop 10 ⟨1, 3⟩ {} =
      some ⟨.ok .returned, { seededMachine 0 0 with frames := [], made := 5 }, []⟩ ∧
    ∃ n, Iterates drainLoop {} (n + 1) (seededMachine 3 0) { seededMachine 0 0 with frames := [], made := 5 } := by
  have hreplay : (seededMachine 3 0).replay drainLoop 60 drainTrace.instrs =
      some ⟨.ok ⟨false, ⟨1, 3⟩⟩, drained 4, []⟩ := by decide +kernel
  have hfinish : (drained 4).finishIteration drainLoop 10 ⟨1, 3⟩ {} =
      some ⟨.ok .returned, { seededMachine 0 0 with frames := [], made := 5 }, []⟩ := by decide +kernel
  have hseed : ∀ cell, Engine.seed drainLoop {} [] 0 cell {} = .ok fiveLocals (seededMachine cell 0) := fun _ => rfl
  obtain ⟨n, _, _, _, _, hiter⟩ := replay_recovery_iterates (hseed 2) drain_recorded (hseed 3) (by decide +kernel)
    hreplay hfinish
  exact ⟨hreplay, hfinish, n, hiter (by decide +kernel)⟩

/-- A checked program some replay of which ends, with its recovery, in results that no number of iterations gives. -/
def Program.Strays (prog : Program) (pos : Position) : Prop :=
  prog.check = .ok () ∧
    ∃ (cell₁ cell pc' cell' : UInt64) (frame₁ frame : Frame) (s₁ s : Machine) (log : List Event) (t : Trace)
      (fuel : Nat) (e : Engine),
      Engine.seed prog pos [] 0 cell₁ {} = .ok frame₁ s₁ ∧ Recorded prog pos s₁ log t ∧
        Engine.seed prog pos [] 0 cell {} = .ok frame s ∧
          (e.replay fuel prog pos t [] 0 cell).map Engine.Visit.answer = some (.ok pc' cell') ∧
            ∀ n m, Iterates prog pos n s m → Engine.results frame m ≠ .ok (pc', cell')

theorem Iterates.results_of_returned {prog : Program} {pos : Position} {s m : Machine} {n fuel : Nat} {frame : Frame}
    {r : Outcome (UInt64 × UInt64)}
    (hend : (s.record prog fuel pos).map (fun e => (e.outcome, e.machine.frames, Engine.results frame e.machine)) =
      some (.ok .returned, [], r)) (h : Iterates prog pos (n + 1) s m) : Engine.results frame m = r := by
  obtain ⟨⟨o, m₁, log⟩, hrun, heq⟩ := Option.map_eq_some_iff.mp hend
  obtain ⟨rfl, hframes, hr⟩ : o = .ok .returned ∧ m₁.frames = [] ∧ Engine.results frame m₁ = r := by simpa using heq
  obtain rfl := eq_of_returned hframes ((succ_iff hrun).mp h)
  exact hr

def innerLoop : Program where
  table := some
    [some { locals := 5, mergePoint := 1, body := some [.plain .noop, .plain .noop, .load 2, .const (Value.usize 3),
      .binary .ge, .sized .skipIf 6, .load 2, .const (Value.usize 1), .binary .add, .store 2, .sized .jumpBack 8,
      .const (Value.usize 7), .store 3, .sized .jumpBack 13] }]

/-- A guard at the head of an inner loop makes the recovery stop after one turn of it. -/
theorem innerLoop_strays : innerLoop.Strays ⟨0, 1⟩ := by
  have hrec : Recorded innerLoop ⟨0, 1⟩ (seededMachine 3 0) _ _ := .of_short (by decide +kernel) (by decide +kernel)
  refine ⟨by decide, 3, 0, 0, 1, fiveLocals, fiveLocals, _, seededMachine 0 0, _, _, 20, .ofOptions {} default, rfl,
    hrec, rfl, by decide +kernel, ?_⟩
  have hfirst : (seededMachine 0 0).record innerLoop 40 ⟨0, 1⟩ =
      some ⟨.ok .looped, seededMachine 3 7, (seededMachine 0 0).shortLog innerLoop ⟨0, 1⟩⟩ := by decide +kernel
  have hnext : (seededMachine 3 7).record innerLoop 40 ⟨0, 1⟩ =
      some ⟨.ok .looped, seededMachine 3 7, (seededMachine 3 7).shortLog innerLoop ⟨0, 1⟩⟩ := by decide +kernel
  intro n m hiter
  cases n with
  | zero =>
    cases hiter
    decide
  | succ n =>
    obtain rfl := Iterates.eq_of_fixed hnext ((Iterates.succ_iff hfirst).mp hiter)
    decide

def calleeTable : Program where
  table := some
    [some { locals := 5, body := some [.plain .noop, .load 2, .const (Value.func 1), .const (Value.func 2),
      .sized .array 2, .plain .getIndex, .plain .call, .store 3, .load 2, .const (Value.usize 0), .binary .eq,
      .sized .skipIf 2, .plain .ret, .sized .jumpBack 13] },
    some { body := some [.const (Value.usize 10), .plain .ret] },
    some { body := some [.const (Value.usize 20), .plain .ret] }]

/-- A replay runs the recorded function whichever one its call enters. -/
theorem calleeTable_strays : calleeTable.Strays {} := by
  have hrec : Recorded calleeTable {} (seededMachine 0 0) _ _ := .of_short (by decide +kernel) (by decide +kernel)
  refine ⟨by decide, 0, 1, 10, 1, fiveLocals, fiveLocals, _, seededMachine 1 0, _, _, 20, .ofOptions {} default, rfl,
    hrec, rfl, by decide +kernel, ?_⟩
  have hend : ((seededMachine 1 0).record calleeTable 40 {}).map
      (fun e => (e.outcome, e.machine.frames, Engine.results fiveLocals e.machine)) =
        some (.ok .returned, [], .ok (20, 1)) := by decide +kernel
  intro n m hiter
  cases n with
  | zero =>
    cases hiter
    decide
  | succ n => simp [Iterates.results_of_returned hend hiter]

def preambleLoop : Program where
  table := some
    [some { locals := 5, mergePoint := 2, body := some [.const (Value.usize 9), .store 3, .load 2,
      .const (Value.usize 2), .binary .ge, .sized .skipIf 9, .load 2, .const (Value.func 1), .plain .call, .load 2,
      .const (Value.usize 1), .binary .add, .store 2, .sized .jumpBack 13, .plain .ret] },
    some { params := 1, locals := 1, body := some [.load 0, .const (Value.usize 0), .binary .eq, .sized .skipIf 2,
      .plain .ret, .plain .ret] }]

/-- A guard in a callee makes the recovery run on from the end of the iteration to the merge point. -/
theorem preambleLoop_strays : preambleLoop.Strays ⟨0, 2⟩ := by
  have hrec : Recorded preambleLoop ⟨0, 2⟩ (seededMachine 0 0) _ _ :=
    .of_short (by decide +kernel) (by decide +kernel)
  refine ⟨by decide, 0, 1, 9, 2, fiveLocals, fiveLocals, _, seededMachine 1 0, _, _, 20, .ofOptions {} default, rfl,
    hrec, rfl, by decide +kernel, ?_⟩
  have hfirst : (seededMachine 1 0).record preambleLoop 40 ⟨0, 2⟩ =
      some ⟨.ok .looped, { seededMachine 2 0 with made := 2 }, (seededMachine 1 0).shortLog preambleLoop ⟨0, 2⟩⟩ := by
    decide +kernel
  have hend : (Machine.record preambleLoop 40 ⟨0, 2⟩ { seededMachine 2 0 with made := 2 }).map
      (fun e => (e.outcome, e.machine.frames, Engine.results fiveLocals e.machine)) =
        some (.ok .returned, [], .ok (0, 2)) := by decide +kernel
  intro n m hiter
  cases n with
  | zero =>
    cases hiter
    decide
  | succ n =>
    have hrest := (Iterates.succ_iff hfirst).mp hiter
    cases n with
    | zero =>
      cases hrest
      decide
    | succ n => simp [Iterates.results_of_returned hend hrest]

theorem replay_recovery_strays :
    innerLoop.Strays ⟨0, 1⟩ ∧ calleeTable.Strays {} ∧ preambleLoop.Strays ⟨0, 2⟩ :=
  ⟨innerLoop_strays, calleeTable_strays, preambleLoop_strays⟩

end HotLoop
