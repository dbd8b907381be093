import HotLoop.Proofs.Cache
import HotLoop.Proofs.Lockstep

namespace HotLoop

def loopWindow (pos : Position) : Window := { logged := true, closeAt := some pos.pc }

/-- For each instruction of the trace of a log, the function that it entered if it is a call through a value: the
one in which the log goes on. -/
def Event.callees : List Event → List (Option Int64)
  | [] => []
  | e :: rest =>
    match e.traced? with
    | none => callees rest
    | some _ => (if e.instr.code = .call then rest.head?.map fun e => e.pos.func else none) :: callees rest

/-- The instructions `vs` lead from `m` into the loop at `pos`, and `v` closes it. -/
structure Round (prog : Program) (pos : Position) (m : Machine) (home : Frame) (vs : List Move) (v : Move) :
    Prop where
  top : m.top? = some home
  path : Path prog pos m (vs ++ [v]) v.landing v.machine
  inside : (loopWindow pos).Open home home vs
  closes : v.exit? (loopWindow pos) home home = some .looped

/-- `t` is a trace of the loop at `pos`, made without optimization of the log of a run from `m`. -/
structure Recorded (prog : Program) (pos : Position) (m : Machine) (log : List Event) (t : Trace) : Prop where
  walked : ∃ fuel m', m.record prog fuel pos = some ⟨.ok .looped, m', log⟩
  built : ∃ (tracer tracer' : Tracer) (key : LoopKey), tracer.optimize = false ∧
    ((tracer.beginRecording key).recordLog log).finish = .ok (some t, tracer')

theorem forall₂_append_single {α β : Type} {R : α → β → Prop} {xs : List α} {x : α} {ys : List β}
    (h : List.Forall₂ R (xs ++ [x]) ys) : ∃ ys' y, ys = ys' ++ [y] ∧ List.Forall₂ R xs ys' ∧ R x y := by
  induction xs generalizing ys with
  | nil =>
    obtain ⟨y, ys', hy, hnil, rfl⟩ := List.forall₂_cons_left_iff.mp h
    exact ⟨[], y, by rw [List.forall₂_nil_left_iff.mp hnil, List.nil_append], .nil, hy⟩
  | cons a xs ih =>
    obtain ⟨b, ys', hb, hrest, rfl⟩ := List.forall₂_cons_left_iff.mp h
    obtain ⟨zs, y, rfl, hz, hy⟩ := ih hrest
    exact ⟨b :: zs, y, rfl, .cons hb hz, hy⟩

namespace Move

variable {v : Move} {pos : Position} {home root : Frame}

theorem exit?_loopWindow :
    v.exit? (loopWindow pos) home root = some .looped ↔ v.transfer ≠ .stop ∧
      Walk.closes v.transfer = true ∧ Walk.isTop home v.machine = true ∧ v.landing.pc ≤ pos.pc := by
  unfold exit? Walk.exit? loopWindow
  by_cases hs : v.transfer = .stop
  · simp [hs]
  · by_cases hc : Walk.closes v.transfer <;> by_cases ht : Walk.isTop home v.machine <;> simp [hs, hc, ht]

theorem exit?_loopWindow_eq_none : v.exit? (loopWindow pos) home home = none ↔ v.transfer ≠ .stop ∧
    ¬(Walk.closes v.transfer = true ∧ Walk.isTop home v.machine = true ∧ v.landing.pc ≤ pos.pc) := by
  rw [exit?_eq_none]
  simp [loopWindow]

theorem Alike.exit?_eq {u : Move} {home₁ home₂ : Frame} (h : u.Alike home₁ home₂ v) :
    v.exit? (loopWindow pos) home₂ home₂ = u.exit? (loopWindow pos) home₁ home₁ := by
  have hpos : v.pos = u.pos := congrArg Event.pos h.event
  have hland : v.landing = u.landing := by rw [landing, landing, hpos, h.transfer]
  simp [exit?, Walk.exit?, loopWindow, h.transfer, h.isTop, hland]

theorem trace_eq (us : List Move) : trace us = (us.map event).filterMap Event.traced? := by
  rw [List.filterMap_map]
  rfl

theorem events_of_alike {us vs : List Move} {home₁ home₂ : Frame} (h : List.Forall₂ (Alike home₁ home₂) us vs) :
    vs.map event = us.map event := by
  induction h with
  | nil => rfl
  | cons halike _ ih => rw [List.map_cons, List.map_cons, halike.event, ih]

theorem open_of_alike {us vs : List Move} {home₁ home₂ : Frame} (h : List.Forall₂ (Alike home₁ home₂) us vs)
    (hu : (loopWindow pos).Open home₁ home₁ us) : (loopWindow pos).Open home₂ home₂ vs := by
  induction h with
  | nil => simp [Window.Open]
  | cons halike _ ih =>
    obtain ⟨he, hu⟩ := List.forall_mem_cons.mp hu
    exact List.forall_mem_cons.mpr ⟨halike.exit?_eq.trans he, ih hu⟩

end Move

theorem Path.callees_eq {prog : Program} {pos pos' : Position} {m m' : Machine} {us : List Move}
    (h : Path prog pos m us pos' m') (hlast : ∀ v, us.getLast? = some v → v.instr.code ≠ .call) :
    Event.callees (us.map Move.event) = Move.callees us := by
  induction h with
  | nil => rfl
  | @cons pos pos' m m' u us first goes rest ih =>
    have hrest : Event.callees (us.map Move.event) = Move.callees us := by
      apply ih
      intro v hv
      exact hlast v (by simp [List.getLast?_cons, hv])
    cases ht : u.event.traced? with
    | none => simp [Event.callees, ht, Move.callees_cons u us, Move.callees_of_none ht, hrest]
    | some j =>
      have hcallee : (if u.event.instr.code = .call then (us.map Move.event).head?.map fun e => e.pos.func
          else none) = u.callee? := by
        cases rest with
        | nil =>
          have hne : u.instr.code ≠ .call := hlast u rfl
          simp [Move.callee?, Move.event, hne]
        | cons next _ _ => simp [Move.callee?, Move.event, next.place]
      rw [Move.callees_cons, Move.callees_of_some ht, List.singleton_append]
      simp only [List.map_cons, Event.callees, ht, hrest, hcallee]

namespace Round

variable {prog : Program} {pos : Position} {m : Machine} {home : Frame} {vs : List Move} {v : Move}

theorem last_not_call (h : Round prog pos m home vs v) : v.instr.code ≠ .call := by
  obtain ⟨_, _, _, hv, _⟩ := Path.append_single_iff.mp h.path
  intro hc
  obtain ⟨_, _, _, he⟩ := Exec.step_call_eq_ok hc hv.step
  obtain ⟨_, _, _, _, _, _, ht⟩ := Exec.enter_eq_ok he
  have hcloses := (Move.exit?_loopWindow.mp h.closes).2.1
  simp [ht, Walk.closes] at hcloses

theorem callees_eq (h : Round prog pos m home vs v) :
    Event.callees ((vs ++ [v]).map Move.event) = Move.callees (vs ++ [v]) := by
  apply h.path.callees_eq
  intro u hu
  obtain rfl : v = u := by simpa using hu
  exact h.last_not_call

theorem above (h : Round prog pos m home vs v) (hm : m.Separate) :
    (∀ u ∈ vs ++ [v], ∃ pushed, m.Above u.machine pushed) ∧ m.Above v.machine [] := by
  have htop := (Move.exit?_loopWindow.mp h.closes).2.2.1
  have habove := h.path.above (.refl m) hm h.top htop
  refine ⟨habove, ?_⟩
  obtain ⟨pushed, ha⟩ := habove v (by simp)
  rwa [(ha.isTop_iff hm h.top).mp htop] at ha

theorem of_alike (h : Round prog pos m home vs v) {m₂ m₂' : Machine} {home₂ : Frame} (htop : m₂.top? = some home₂)
    {us : List Move} (hpath : Path prog pos m₂ us v.landing m₂')
    (hall : List.Forall₂ (Move.Alike home home₂) (vs ++ [v]) us) :
    ∃ vs₂ v₂, us = vs₂ ++ [v₂] ∧ v₂.machine = m₂' ∧ Round prog pos m₂ home₂ vs₂ v₂ := by
  obtain ⟨vs₂, v₂, rfl, hvs, hv⟩ := forall₂_append_single hall
  obtain ⟨_, _, _, _, _, hland, hm⟩ := Path.append_single_iff.mp hpath
  subst hm
  exact ⟨vs₂, v₂, rfl, rfl, htop, hland ▸ hpath, Move.open_of_alike hvs h.inside,
    hv.exit?_eq.trans h.closes⟩

end Round

theorem Walk.turn_loopWindow (prog : Program) (pos : Position) (home root : Frame) :
    Walk.turn prog (loopWindow pos) home root = Walk.turn prog (loopWindow pos) home home := by
  funext s
  simp [Walk.turn, Walk.exit?, loopWindow]

theorem Machine.record_eq {m : Machine} {home : Frame} (h : m.top? = some home) (prog : Program) (fuel : Nat)
    (pos : Position) :
    m.record prog fuel pos = iterate (Walk.turn prog (loopWindow pos) home home) fuel ⟨pos, m, []⟩ := by
  obtain ⟨root, hroot⟩ : ∃ root, m.root? = some root := by
    have hne : m.frames ≠ [] := fun hnil => by simp [Machine.top?, hnil] at h
    exact ⟨m.frames.getLast hne, List.getLast?_eq_some_getLast hne⟩
  rw [← Walk.turn_loopWindow prog pos home root]
  unfold Machine.record Machine.run
  simp only [h, hroot]
  rfl

theorem Machine.top?_of_record {prog : Program} {fuel : Nat} {pos : Position} {m m' : Machine} {e : Exit}
    {log : List Event} (h : m.record prog fuel pos = some ⟨.ok e, m', log⟩) : ∃ home, m.top? = some home := by
  cases htop : m.top? with
  | some home => exact ⟨home, rfl⟩
  | none => simp [Machine.record, Machine.run, htop] at h

theorem record_looped_iff {prog : Program} {pos : Position} {m m' : Machine} {log : List Event} :
    (∃ fuel, m.record prog fuel pos = some ⟨.ok .looped, m', log⟩) ↔
      ∃ home vs v, Round prog pos m home vs v ∧ m' = v.machine ∧ log = (vs ++ [v]).map Move.event := by
  have hlog : ∀ us : List Move, (Walk.logged (loopWindow pos) [] us).reverse = us.map Move.event := by
    intro us
    simp [Walk.logged, loopWindow]
  constructor
  · rintro ⟨fuel, h⟩
    obtain ⟨home, htop⟩ := Machine.top?_of_record h
    rw [Machine.record_eq htop] at h
    obtain ⟨vs, v, pos', n, _, hp, ho, hv, he, hm, hl⟩ := Walk.iterate_iff.mp h
    have hgoes : v.transfer ≠ .stop := (Move.exit?_loopWindow.mp he).1
    exact ⟨home, vs, v, ⟨htop, Path.append_single_iff.mpr ⟨pos', n, hp, hv, hgoes, rfl, rfl⟩, ho, he⟩, hm,
      hl.trans (hlog _)⟩
  · rintro ⟨home, vs, v, h, rfl, rfl⟩
    obtain ⟨pos', n, hp, hv, _⟩ := Path.append_single_iff.mp h.path
    refine ⟨vs.length + 1, ?_⟩
    rw [Machine.record_eq h.top]
    exact Walk.iterate_iff.mpr ⟨vs, v, pos', n, by omega, hp, h.inside, hv, h.closes, rfl, (hlog _).symm⟩

theorem Recorded.instrs_eq {prog : Program} {pos : Position} {m : Machine} {log : List Event} {t : Trace}
    (h : Recorded prog pos m log t) : t.instrs = log.filterMap Event.traced? ∧ t.instrs ≠ [] := by
  obtain ⟨tracer, tracer', key, hopt, hfinish⟩ := h.built
  obtain ⟨hne, rfl⟩ := Tracer.finish_recordLog.mp ⟨tracer', hfinish⟩
  have hinstrs := Tracer.instrs_ofRecording tracer.optimize key log
  rw [hopt, if_neg Bool.false_ne_true] at hinstrs
  rw [hopt, hinstrs]
  exact ⟨rfl, hne⟩

theorem Recorded.of_record {prog : Program} {pos : Position} {m m' : Machine} {log : List Event} {fuel : Nat}
    (h : m.record prog fuel pos = some ⟨.ok .looped, m', log⟩) (key : LoopKey)
    (hne : log.filterMap Event.traced? ≠ []) :
    Recorded prog pos m log (Tracer.ofRecording false (log.foldl Recording.add { key })) := by
  obtain ⟨tracer', hfinish⟩ := (Tracer.finish_recordLog (t := .ofThreshold 0)).mpr ⟨hne, rfl⟩
  exact ⟨⟨fuel, m', h⟩, .ofThreshold 0, tracer', key, rfl, hfinish⟩

def Machine.shortLog (m : Machine) (prog : Program) (pos : Position) : List Event :=
  (m.record prog 40 pos).elim [] Ended.log

def Machine.shortTrace (m : Machine) (prog : Program) (pos : Position) : Trace :=
  Tracer.ofRecording false ((m.shortLog prog pos).foldl Recording.add { key := 0 })

theorem Recorded.of_short {prog : Program} {pos : Position} {m : Machine}
    (h : (m.record prog 40 pos).map Ended.outcome = some (.ok .looped))
    (hne : (m.shortLog prog pos).filterMap Event.traced? ≠ []) :
    Recorded prog pos m (m.shortLog prog pos) (m.shortTrace prog pos) := by
  obtain ⟨⟨_, m', log⟩, hrun, rfl⟩ := Option.map_eq_some_iff.mp h
  have hlog : m.shortLog prog pos = log := by simp [Machine.shortLog, hrun]
  unfold Machine.shortTrace
  rw [hlog] at hne ⊢
  exact .of_record hrun 0 hne

end HotLoop
