import HotLoop.Proofs.Simulation

namespace HotLoop

/-- The machine after `n` iterations of the loop at `pos`: each is a run to a jump or return of the starting frame
that lands at `pos` or before, or to the return of the outermost frame. -/
inductive Iterates (prog : Program) (pos : Position) : Nat → Machine → Machine → Prop
  | zero (m : Machine) : Iterates prog pos 0 m m
  | succ {n fuel : Nat} {m m₁ m' : Machine} {e : Exit} {log : List Event}
    (first : m.record prog fuel pos = some ⟨.ok e, m₁, log⟩) (rest : Iterates prog pos n m₁ m') :
    Iterates prog pos (n + 1) m m'

/-- From `place` on, the iteration of the loop at `pos` in the frame `home` ends with the machine `m'`. -/
def Completes (prog : Program) (pos : Position) (home : Frame) (place : Position) (m m' : Machine) : Prop :=
  ∃ fuel e log, iterate (Walk.turn prog (loopWindow pos) home home) fuel ⟨place, m, []⟩ = some ⟨.ok e, m', log⟩

namespace Machine

theorem Separate.of_above {m m' : Machine} (h : m.Separate) (ha : m.Above m' []) : m'.Separate := by
  have hf : m'.frames = m.frames := ha.frames
  refine ⟨hf ▸ h.active, hf ▸ h.distinct, ?_⟩
  rw [hf]
  intro f hmem
  exact Nat.lt_of_lt_of_le (h.numbered f hmem) ha.made

theorem Above.top?_eq {m m' : Machine} (ha : m.Above m' []) : m'.top? = m.top? := congrArg List.head? ha.frames

end Machine

namespace Lap

variable {prog : Program} {code : List Instr} {callees : List (Option Int64)}

theorem advance_wrap (hne : code ≠ []) (m : Machine) (k : Nat) :
    advance (cycle prog code) (k + 1) ⟨code.length, m⟩ = advance (cycle prog code) (k + 1) ⟨0, m⟩ := by
  simp only [advance, cycle_wrap hne]

theorem iterate_wrap (hne : code ≠ []) (m : Machine) (fuel : Nat) :
    iterate (cycle prog code) fuel ⟨code.length, m⟩ = iterate (cycle prog code) fuel ⟨0, m⟩ := by
  cases fuel with
  | zero => rfl
  | succ fuel => simp only [iterate, cycle_wrap hne]

theorem KeepsCallees.of_ended {fuel : Nat} {s : Lap} {r : Ended Guard} (h : KeepsCallees prog code callees fuel s)
    (hrun : iterate (cycle prog code) fuel s = some r) (n : Nat) : KeepsCallees prog code callees n s := by
  intro k _ s₁ s₂ f h₁
  obtain ⟨k', s', hk', hs', hd⟩ := iterate_eq_some_iff.mp hrun
  have hle := le_of_advance_done hs' hd h₁
  exact h k (by omega) s₁ s₂ f h₁

theorem KeepsCallees.next_pass (hne : code ≠ []) {m m' : Machine}
    (h : ∀ n, KeepsCallees prog code callees n ⟨0, m⟩)
    (hpass : advance (cycle prog code) code.length ⟨0, m⟩ = some ⟨code.length, m'⟩) (n : Nat) :
    KeepsCallees prog code callees n ⟨0, m'⟩ := by
  intro k hk s₁ s₂ f h₁ h₂ hf
  cases k with
  | zero =>
    obtain rfl := Option.some.inj h₁
    rw [← cycle_wrap hne] at h₂
    refine h (code.length + 1) code.length (by omega) _ s₂ f hpass h₂ ?_
    rw [Nat.mod_self]
    simpa using hf
  | succ k =>
    rw [← advance_wrap hne] at h₁
    exact h (code.length + k + 2) (code.length + (k + 1)) (by omega) s₁ s₂ f (advance_trans hpass h₁) h₂ hf

end Lap

section

variable {prog : Program} {pos place : Position} {home : Frame} {m m' : Machine}

theorem iterate_log {w : Window} {root : Frame} {fuel : Nat} {e : Exit} {log log₁ : List Event} (log₂ : List Event)
    (h : iterate (Walk.turn prog w home root) fuel ⟨place, m, log₁⟩ = some ⟨.ok e, m', log⟩) :
    ∃ log', iterate (Walk.turn prog w home root) fuel ⟨place, m, log₂⟩ = some ⟨.ok e, m', log'⟩ := by
  obtain ⟨vs, v, pos', n, hlen, hp, ho, hv, he, hm, _⟩ := Walk.iterate_iff.mp h
  exact ⟨_, Walk.iterate_iff.mpr ⟨vs, v, pos', n, hlen, hp, ho, hv, he, hm, rfl⟩⟩

theorem Inside.completes {m₀ : Machine} (h : Inside prog pos m₀ home place m) (htop : m₀.top? = some home)
    {fuel : Nat} {e : Exit} {log : List Event} (hrec : m₀.record prog fuel pos = some ⟨.ok e, m', log⟩) :
    ∃ log', iterate (Walk.turn prog (loopWindow pos) home home) fuel ⟨place, m, []⟩ = some ⟨.ok e, m', log'⟩ := by
  obtain ⟨vs, hpath, hopen⟩ := h
  rw [Machine.record_eq htop] at hrec
  obtain ⟨fuel', hfuel, hrest⟩ := iterate_after_advance hrec (Walk.advance_of_path hpath hopen [])
  obtain ⟨log', hrun⟩ := iterate_log [] hrest
  exact ⟨log', iterate_mono hrun (by omega)⟩

theorem Inside.completes_iff {m₀ : Machine} (h : Inside prog pos m₀ home place m) (htop : m₀.top? = some home) :
    Completes prog pos home place m m' ↔ ∃ fuel e log, m₀.record prog fuel pos = some ⟨.ok e, m', log⟩ := by
  constructor
  · obtain ⟨vs, hpath, hopen⟩ := h
    rintro ⟨fuel, e, log, hrun⟩
    obtain ⟨log', hrun'⟩ := iterate_log (Walk.logged (loopWindow pos) [] vs) hrun
    obtain ⟨n, s, hn, hs, hd⟩ := iterate_eq_some_iff.mp hrun'
    have hadv := Walk.advance_of_path hpath hopen []
    exact ⟨_, e, log', (Machine.record_eq htop _ _ _).trans (iterate_of_advance (advance_trans hadv hs) hd)⟩
  · rintro ⟨fuel, e, log, hrec⟩
    obtain ⟨log', hrun⟩ := h.completes htop hrec
    exact ⟨fuel, e, log', hrun⟩

theorem Machine.record_unique {fuel fuel' : Nat} {r r' : Ended Exit} (h : m.record prog fuel pos = some r)
    (h' : m.record prog fuel' pos = some r') : r = r' := by
  cases htop : m.top? with
  | none =>
    simp only [Machine.record, Machine.run, htop, Option.some.injEq] at h h'
    exact h.symm.trans h'
  | some home =>
    rw [Machine.record_eq htop] at h h'
    exact iterate_unique h h'

end

namespace Iterates

variable {prog : Program} {pos : Position} {m m' m'' : Machine} {n : Nat}

theorem snoc {fuel : Nat} {e : Exit} {log : List Event} (h : Iterates prog pos n m m')
    (hlast : m'.record prog fuel pos = some ⟨.ok e, m'', log⟩) : Iterates prog pos (n + 1) m m'' := by
  induction h with
  | zero => exact .succ hlast (.zero _)
  | succ first _ ih => exact .succ first (ih hlast)

theorem last (h : Iterates prog pos (n + 1) m m'') (h' : Iterates prog pos n m m') :
    ∃ fuel e log, m'.record prog fuel pos = some ⟨.ok e, m'', log⟩ := by
  induction n generalizing m with
  | zero =>
    cases h' with
    | zero =>
      cases h with
      | succ first rest =>
        cases rest
        exact ⟨_, _, _, first⟩
  | succ n ih =>
    cases h with
    | succ first rest =>
      cases h' with
      | succ first' rest' =>
        cases Machine.record_unique first first'
        exact ih rest rest'

theorem succ_iff {fuel : Nat} {e : Exit} {log : List Event} (h : m.record prog fuel pos = some ⟨.ok e, m', log⟩) :
    Iterates prog pos (n + 1) m m'' ↔ Iterates prog pos n m' m'' := by
  constructor
  · intro hiter
    cases hiter with
    | succ first rest =>
      cases Machine.record_unique first h
      exact rest
  · exact .succ h

theorem eq_of_returned (hm : m.frames = []) (h : Iterates prog pos n m m') : m' = m := by
  cases h with
  | zero => rfl
  | succ first _ =>
    obtain ⟨_, htop⟩ := Machine.top?_of_record first
    simp [Machine.top?, hm] at htop

theorem eq_of_fixed {fuel : Nat} {e : Exit} {log : List Event} (hm : m.record prog fuel pos = some ⟨.ok e, m, log⟩)
    (h : Iterates prog pos n m m') : m' = m := by
  induction n with
  | zero =>
    cases h
    rfl
  | succ n ih => exact ih ((succ_iff hm).mp h)

end Iterates

theorem Round.pass_of_record {prog : Program} {pos : Position} {m₁ m₂ m' : Machine} {home₁ home : Frame}
    {us : List Move} {u : Move} {code : List Instr} (h : Round prog pos m₁ home₁ us u) (h₁ : m₁.Separate)
    (h₂ : m₂.Separate) (htop : m₂.top? = some home) (hcode : code = Move.trace (us ++ [u]))
    (hkeeps : Lap.KeepsCallees prog code (Move.callees (us ++ [u])) code.length ⟨0, m₂⟩) {fuel : Nat} {e : Exit}
    {log : List Event} (hrec : m₂.record prog fuel pos = some ⟨.ok e, m', log⟩) :
    (e = .looped ∧ advance (Lap.cycle prog code) code.length ⟨0, m₂⟩ = some ⟨code.length, m'⟩) ∨
      ∃ k g n, k < code.length ∧ advance (Lap.cycle prog code) k ⟨0, m₂⟩ = some ⟨k, n⟩ ∧
        Lap.cycle prog code ⟨k, n⟩ = .done ⟨.ok g, n, []⟩ ∧ Inside prog pos m₂ home g.recovery n ∧
          (prog.instr? g.recovery).isSome = true := by
  rcases h.pass h₁ h₂ htop hcode hkeeps with ⟨vs, v, hround, _, hadv⟩ | ⟨k, w, n, r, hd⟩
  · obtain ⟨_, hrec'⟩ := record_looped_iff.mpr ⟨home, vs, v, hround, rfl, rfl⟩
    cases Machine.record_unique hrec hrec'
    exact .inl ⟨rfl, hadv⟩
  · obtain ⟨_, hrest⟩ := hd.inside.completes htop hrec
    obtain ⟨x, hx⟩ := Walk.from_of_iterate hrest
    obtain rfl := hd.eq_of_from h₂ hx
    obtain ⟨_, _, hw, _⟩ := hd.recorded
    exact .inr ⟨k, _, n, hd.within, hd.reached, hd.stops, hd.inside, by simp [hw.found]⟩

theorem Round.iterates {prog : Program} {pos : Position} {m₁ : Machine} {home₁ home : Frame} {us : List Move}
    {u : Move} {code : List Instr} (h : Round prog pos m₁ home₁ us u) (h₁ : m₁.Separate)
    (hcode : code = Move.trace (us ++ [u])) (hne : code ≠ []) {fuel : Nat} {s m : Machine} {g : Guard}
    {l : List Event} (hs : s.Separate) (htop : s.top? = some home)
    (hkeeps : ∀ n, Lap.KeepsCallees prog code (Move.callees (us ++ [u])) n ⟨0, s⟩)
    (hrun : iterate (Lap.cycle prog code) fuel ⟨0, s⟩ = some ⟨.ok g, m, l⟩) :
    ∃ n m₀, Iterates prog pos n s m₀ ∧ s.Above m₀ [] ∧ Inside prog pos m₀ home g.recovery m ∧
      (prog.instr? g.recovery).isSome = true := by
  induction fuel using Nat.strongRecOn generalizing s with
  | ind fuel ih =>
    rcases h.pass h₁ hs htop hcode (hkeeps _) with ⟨vs, v, hround, _, hadv⟩ | ⟨k, w, n, r, hd⟩
    · obtain ⟨fuel', hfuel, hrest⟩ := iterate_after_advance hrun hadv
      rw [Lap.iterate_wrap hne] at hrest
      have habove := (hround.above hs).2
      have hpos : 0 < code.length := List.length_pos_iff.mpr hne
      obtain ⟨n, m₀, hiter, ha, hinside⟩ := ih fuel' (by omega) (hs.of_above habove)
        (habove.top?_eq.trans htop) (Lap.KeepsCallees.next_pass hne hkeeps hadv) hrest
      obtain ⟨_, hrecord⟩ := record_looped_iff.mpr ⟨home, vs, v, hround, rfl, rfl⟩
      exact ⟨n + 1, m₀, .succ hrecord hiter, ⟨ha.frames.trans habove.frames, by simp,
        Nat.le_trans habove.made ha.made⟩, hinside⟩
    · obtain ⟨rfl, _, rfl, _⟩ := hd.of_run hs hrun
      obtain ⟨_, _, hw, _⟩ := hd.recorded
      exact ⟨0, s, .zero s, .refl s, hd.inside, by simp [hw.found]⟩

end HotLoop
