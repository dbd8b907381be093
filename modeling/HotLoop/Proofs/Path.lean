import HotLoop.Proofs.Advance
import HotLoop.Proofs.Control

namespace HotLoop

structure Move where
  instr : Instr
  pos : Position
  transfer : Transfer
  machine : Machine

namespace Move

def landing (v : Move) : Position := Walk.target v.pos v.transfer

def event (v : Move) : Event := ⟨v.instr, v.pos, v.transfer.taken⟩

def exit? (w : Window) (home root : Frame) (v : Move) : Option Exit :=
  if v.transfer = .stop then some .returned else Walk.exit? w home root v.transfer v.landing v.machine

theorem exit?_eq_none {w : Window} {home root : Frame} {v : Move} :
    v.exit? w home root = none ↔ v.transfer ≠ .stop ∧
      ¬(Walk.closes v.transfer = true ∧ Walk.isTop home v.machine = true ∧ w.closeAt.any (v.landing.pc ≤ ·) = true) ∧
        ¬(Walk.isTop root v.machine = true ∧ w.mergePoint = some v.landing) := by
  unfold exit? Walk.exit?
  by_cases hs : v.transfer = .stop
  · simp [hs]
  · simp only [hs, ↓reduceIte, Bool.and_eq_true, and_assoc, decide_eq_true_eq, ne_eq, not_false_eq_true, true_and]
    split
    · simp_all
    · split <;> simp_all

structure From (prog : Program) (pos : Position) (m : Machine) (v : Move) : Prop where
  place : v.pos = pos
  found : prog.instr? pos = some v.instr
  step : Exec.step prog v.instr pos false m = .ok v.transfer v.machine

variable {prog : Program} {pos : Position} {m : Machine} {u v : Move}

theorem From.flow (hv : v.From prog pos m) : Exec.Flow v.instr pos m v.machine v.transfer :=
  Exec.step_flow hv.step

end Move

/-- The instructions that a program executes from one position and machine to another. -/
inductive Path (prog : Program) : Position → Machine → List Move → Position → Machine → Prop
  | nil (pos : Position) (m : Machine) : Path prog pos m [] pos m
  | cons {pos pos' : Position} {m m' : Machine} {v : Move} {vs : List Move} (first : v.From prog pos m)
    (goes : v.transfer ≠ .stop) (rest : Path prog v.landing v.machine vs pos' m') :
    Path prog pos m (v :: vs) pos' m'

namespace Path

variable {prog : Program} {pos pos' pos'' : Position} {m m' m'' : Machine} {v : Move} {us vs : List Move}

theorem goes (h : Path prog pos m us pos' m') : ∀ u ∈ us, u.transfer ≠ .stop := by
  induction h with
  | nil => simp
  | cons _ hgoes _ ih => exact List.forall_mem_cons.mpr ⟨hgoes, ih⟩

theorem append (h : Path prog pos m us pos' m') (h' : Path prog pos' m' vs pos'' m'') :
    Path prog pos m (us ++ vs) pos'' m'' := by
  induction h with
  | nil => exact h'
  | cons first goes _ ih => exact .cons first goes (ih h')

theorem of_append (h : Path prog pos m (us ++ vs) pos'' m'') :
    ∃ pos' m', Path prog pos m us pos' m' ∧ Path prog pos' m' vs pos'' m'' := by
  induction us generalizing pos m with
  | nil => exact ⟨pos, m, .nil pos m, h⟩
  | cons u us ih =>
    cases h with
    | cons first goes rest =>
      obtain ⟨p, n, h₁, h₂⟩ := ih rest
      exact ⟨p, n, .cons first goes h₁, h₂⟩

theorem single (h : v.From prog pos m) (goes : v.transfer ≠ .stop) : Path prog pos m [v] v.landing v.machine :=
  .cons h goes (.nil _ _)

theorem append_single_iff : Path prog pos m (us ++ [v]) pos'' m'' ↔ ∃ pos' m', Path prog pos m us pos' m' ∧
    v.From prog pos' m' ∧ v.transfer ≠ .stop ∧ pos'' = v.landing ∧ m'' = v.machine := by
  constructor
  · intro h
    obtain ⟨pos', m', hu, hv⟩ := h.of_append
    cases hv with
    | cons first goes rest =>
      cases rest
      exact ⟨pos', m', hu, first, goes, rfl, rfl⟩
  · rintro ⟨pos', m', hu, hv, goes, rfl, rfl⟩
    exact hu.append (single hv goes)

end Path

namespace Walk

variable {prog : Program} {w : Window} {home root : Frame}

def logged (w : Window) (log : List Event) (vs : List Move) : List Event :=
  if w.logged then (vs.map Move.event).reverse ++ log else log

theorem logged_nil (w : Window) (log : List Event) : logged w log [] = log := by simp [logged]

theorem logged_cons (w : Window) (log : List Event) (v : Move) (vs : List Move) :
    logged w log (v :: vs) = logged w (logged w log [v]) vs := by
  by_cases h : w.logged <;> simp [logged, h]

theorem turn_of_from {s : Walk} {v : Move} (hv : v.From prog s.pos s.machine) :
    turn prog w home root s = match v.exit? w home root with
      | some e => .done ⟨.ok e, v.machine, (logged w s.log [v]).reverse⟩
      | none => .again ⟨v.landing, v.machine, logged w s.log [v]⟩ := by
  have hlog : (if w.logged then (⟨v.instr, s.pos, v.transfer.taken⟩ : Event) :: s.log else s.log) =
      logged w s.log [v] := by
    simp [logged, Move.event, hv.place]
  have hland : target s.pos v.transfer = v.landing := by rw [Move.landing, hv.place]
  unfold turn
  simp only [hv.found, hv.step, hlog, hland, Move.exit?]
  by_cases hs : v.transfer = .stop
  · simp [hs]
  · cases exit? w home root v.transfer v.landing v.machine <;> simp [hs]

theorem turn_from (prog : Program) (w : Window) (home root : Frame) (s : Walk) :
    (∃ v : Move, v.From prog s.pos s.machine) ∨
      ∃ o m log, turn prog w home root s = .done ⟨o, m, log⟩ ∧ ∀ e, o ≠ .ok e := by
  unfold turn
  cases hi : prog.instr? s.pos with
  | none => exact .inr ⟨_, _, _, rfl, by simp⟩
  | some i =>
    cases hs : Exec.step prog i s.pos false s.machine with
    | ok t m => exact .inl ⟨⟨i, s.pos, t, m⟩, rfl, hi, hs⟩
    | error e m =>
      cases e with
      | crash => exact .inr ⟨_, _, _, by simp only [hs]; rfl, by simp⟩
      | fault c => exact .inr ⟨_, _, _, by simp only [hs]; rfl, by simp⟩

theorem turn_eq_again {s s' : Walk} :
    turn prog w home root s = .again s' ↔ ∃ v : Move, v.From prog s.pos s.machine ∧
      v.exit? w home root = none ∧ s' = ⟨v.landing, v.machine, logged w s.log [v]⟩ := by
  constructor
  · intro h
    obtain ⟨v, hv⟩ | ⟨o, m, log, hd, _⟩ := turn_from prog w home root s
    · rw [turn_of_from hv] at h
      cases he : v.exit? w home root with
      | some e => simp [he] at h
      | none => exact ⟨v, hv, he, by simpa [he, eq_comm] using h⟩
    · simp [hd] at h
  · rintro ⟨v, hv, he, rfl⟩
    rw [turn_of_from hv, he]

theorem turn_eq_done {s : Walk} {e : Exit} {m : Machine} {log : List Event} :
    turn prog w home root s = .done ⟨.ok e, m, log⟩ ↔ ∃ v : Move, v.From prog s.pos s.machine ∧
      v.exit? w home root = some e ∧ m = v.machine ∧ log = (logged w s.log [v]).reverse := by
  constructor
  · intro h
    obtain ⟨v, hv⟩ | ⟨o, m, log, hd, ho⟩ := turn_from prog w home root s
    · rw [turn_of_from hv] at h
      cases he : v.exit? w home root with
      | some e => exact ⟨v, hv, by simpa [he, eq_comm] using h⟩
      | none => simp [he] at h
    · rw [hd] at h
      cases h
      exact absurd rfl (ho e)
  · rintro ⟨v, hv, he, rfl, rfl⟩
    rw [turn_of_from hv, he]

end Walk

def Window.Open (w : Window) (home root : Frame) (vs : List Move) : Prop :=
  ∀ v ∈ vs, v.exit? w home root = none

namespace Walk

variable {prog : Program} {w : Window} {home root : Frame}

theorem advance_iff {n : Nat} {s s' : Walk} :
    advance (turn prog w home root) n s = some s' ↔ ∃ vs, vs.length = n ∧
      Path prog s.pos s.machine vs s'.pos s'.machine ∧ w.Open home root vs ∧ s'.log = logged w s.log vs := by
  induction n generalizing s with
  | zero =>
    simp only [advance_zero, Option.some.injEq]
    constructor
    · rintro rfl
      exact ⟨[], rfl, .nil _ _, by simp [Window.Open], (logged_nil w _).symm⟩
    · rintro ⟨vs, hl, hp, _, hlog⟩
      cases List.length_eq_zero_iff.mp hl
      obtain ⟨p, m, log⟩ := s
      obtain ⟨p', m', log'⟩ := s'
      cases hp
      simpa [logged_nil, eq_comm] using hlog
  | succ n ih =>
    constructor
    · intro h
      obtain ⟨t, ht, h'⟩ := again_of_advance_succ h
      obtain ⟨v, hv, he, rfl⟩ := turn_eq_again.mp ht
      obtain ⟨vs, rfl, hp, ho, hlog⟩ := ih.mp h'
      have hgoes : v.transfer ≠ .stop := by
        intro hs
        simp [Move.exit?, hs] at he
      exact ⟨v :: vs, rfl, .cons hv hgoes hp, List.forall_mem_cons.mpr ⟨he, ho⟩,
        hlog.trans (logged_cons w s.log v vs).symm⟩
    · rintro ⟨vs, hl, hp, ho, hlog⟩
      obtain ⟨p, m, log⟩ := s
      obtain ⟨p', m', log'⟩ := s'
      cases hp with
      | nil => simp at hl
      | cons first goes rest =>
        obtain ⟨he, ho⟩ := List.forall_mem_cons.mp ho
        rw [advance_succ_of_again (turn_eq_again.mpr ⟨_, first, he, rfl⟩)]
        exact ih.mpr ⟨_, by simpa using hl, rest, ho, hlog.trans (logged_cons w log _ _)⟩

theorem advance_of_path {pos pos' : Position} {m m' : Machine} {vs : List Move} (h : Path prog pos m vs pos' m')
    (hopen : w.Open home root vs) (log : List Event) :
    advance (turn prog w home root) vs.length ⟨pos, m, log⟩ = some ⟨pos', m', logged w log vs⟩ :=
  advance_iff.mpr ⟨vs, rfl, h, hopen, rfl⟩

theorem iterate_iff {fuel : Nat} {s : Walk} {e : Exit} {m : Machine} {log : List Event} :
    iterate (turn prog w home root) fuel s = some ⟨.ok e, m, log⟩ ↔ ∃ vs v pos' m', vs.length < fuel ∧
      Path prog s.pos s.machine vs pos' m' ∧ w.Open home root vs ∧ v.From prog pos' m' ∧
        v.exit? w home root = some e ∧ m = v.machine ∧ log = (logged w s.log (vs ++ [v])).reverse := by
  have happend : ∀ vs v, logged w (logged w s.log vs) [v] = logged w s.log (vs ++ [v]) := by
    intro vs v
    by_cases h : w.logged <;> simp [logged, h]
  rw [iterate_eq_some_iff]
  constructor
  · rintro ⟨n, s', hn, ha, hd⟩
    obtain ⟨vs, rfl, hp, ho, hlog⟩ := advance_iff.mp ha
    obtain ⟨v, hv, he, hm, hl⟩ := turn_eq_done.mp hd
    exact ⟨vs, v, s'.pos, s'.machine, hn, hp, ho, hv, he, hm, by rw [hl, hlog, happend]⟩
  · rintro ⟨vs, v, pos', m', hn, hp, ho, hv, he, hm, hl⟩
    refine ⟨vs.length, ⟨pos', m', logged w s.log vs⟩, hn, advance_iff.mpr ⟨vs, rfl, hp, ho, rfl⟩, ?_⟩
    exact turn_eq_done.mpr ⟨v, hv, he, hm, by rw [hl, happend]⟩

theorem from_of_iterate {fuel : Nat} {s : Walk} {e : Exit} {m : Machine} {log : List Event}
    (h : iterate (turn prog w home root) fuel s = some ⟨.ok e, m, log⟩) :
    ∃ v : Move, v.From prog s.pos s.machine := by
  obtain ⟨vs, v, _, _, _, hp, _, hv, _⟩ := iterate_iff.mp h
  cases hp with
  | nil => exact ⟨v, hv⟩
  | cons first => exact ⟨_, first⟩

end Walk

end HotLoop
