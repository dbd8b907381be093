import HotLoop.Proofs.Floor
import HotLoop.Proofs.Iterations

/-!
When the run that completes an interrupted iteration stops where the iteration ends. It stops at a jump to before the
place where it began, in the frame that was on top there, or when the outermost frame comes to the merge point. Inner
loops make it stop too early, and a callee's guard in a loop that goes back to before the merge point too late. A
function that only jumps back out of the loop, or to the merge point, does neither.
-/

namespace HotLoop

def recoveryWindow (place pos : Position) : Window :=
  { closeAt := some (place.pc - 1), mergePoint := some pos }

theorem Machine.finishIteration_eq {m : Machine} {home root : Frame} (htop : m.top? = some home)
    (hroot : m.root? = some root) (prog : Program) (fuel : Nat) (place pos : Position) :
    m.finishIteration prog fuel place pos =
      iterate (Walk.turn prog (recoveryWindow place pos) home root) fuel ⟨place, m, []⟩ := by
  unfold Machine.finishIteration Machine.run
  simp only [htop, hroot]
  rfl

theorem Machine.run_mono {prog : Program} {w : Window} {fuel fuel' : Nat} {start : Position} {m : Machine}
    {r : Ended Exit} (h : m.run prog w fuel start = some r) (hf : fuel ≤ fuel') :
    m.run prog w fuel' start = some r := by
  unfold Machine.run at h ⊢
  split
  · rename_i home root htop hroot
    simp only [htop, hroot] at h
    exact iterate_mono h hf
  · rename_i hnone
    split at h
    · rename_i home root htop hroot
      exact absurd hroot (hnone home root htop)
    · exact h

/-- The jumps back that keep a recovery exact. In the outermost frame they may lead anywhere out of the loop. A
frame above it must not jump back, and the outermost one then has to come back to the merge point itself. -/
structure Program.Recovers (prog : Program) (pos place : Position) (depth : Nat) : Prop where
  outer : prog.Bounded pos.func
  jumps : if depth = 1 then ∀ d ∈ prog.backJumps pos.func, d ≤ pos.pc
    else (∀ d ∈ prog.backJumps pos.func, d = pos.pc) ∧ prog.backJumps place.func = [] ∧ prog.Bounded place.func

-- The jumps are looked through one by one; a search of all positions would not end.
instance (prog : Program) (pos place : Position) (depth : Nat) : Decidable (prog.Recovers pos place depth) :=
  have : Decidable (∀ d ∈ prog.backJumps pos.func, d ≤ pos.pc) := List.decidableBAll _ _
  have : Decidable (∀ d ∈ prog.backJumps pos.func, d = pos.pc) := List.decidableBAll _ _
  decidable_of_iff (prog.Bounded pos.func ∧ if depth = 1 then ∀ d ∈ prog.backJumps pos.func, d ≤ pos.pc else
      (∀ d ∈ prog.backJumps pos.func, d = pos.pc) ∧ prog.backJumps place.func = [] ∧ prog.Bounded place.func)
    ⟨fun h => ⟨h.1, h.2⟩, fun h => ⟨h.outer, h.jumps⟩⟩

section

variable {prog : Program} {pos place here : Position} {home root : Frame} {m : Machine} {v : Move}

theorem le_sub_one_iff {a b : Int64} (h : 0 ≤ b) : a ≤ b - 1 ↔ a < b := by
  have hb : 0 ≤ b.toInt := Int64.le_iff_toInt_le.mp h
  have hhigh := b.toInt_lt
  rw [Int64.le_iff_toInt_le, Int64.lt_iff_toInt_lt, Int64.toInt_sub, Int64.toInt_one, Int.bmod_eq_of_le] <;> omega

theorem Move.exit?_recoveryWindow_eq_none (hplace : 0 ≤ place.pc) :
    v.exit? (recoveryWindow place pos) home root = none ↔ v.transfer ≠ .stop ∧
      ¬(Walk.closes v.transfer = true ∧ Walk.isTop home v.machine = true ∧ v.landing.pc < place.pc) ∧
        ¬(Walk.isTop root v.machine = true ∧ v.landing = pos) := by
  rw [Move.exit?_eq_none]
  simp only [recoveryWindow, Option.any_some, decide_eq_true_eq, le_sub_one_iff hplace, Option.some.injEq,
    @eq_comm _ pos]

end

structure Underway (pos : Position) (root : Frame) (here : Position) (m : Machine) : Prop where
  separate : m.Separate
  outermost : m.root? = some root
  outer : Past root pos (some here) m.frames

namespace Underway

variable {prog : Program} {pos here there : Position} {root : Frame} {m m' : Machine} {v : Move} {vs : List Move}

theorem next (h : Underway pos root here m) (hback : root.back = none) (hb : prog.Bounded pos.func)
    (hv : v.From prog here m) (hopen : v.exit? (loopWindow pos) root root = none) :
    Underway pos root v.landing v.machine := by
  obtain ⟨hgoes, hstays⟩ := Move.exit?_loopWindow_eq_none.mp hopen
  have hroot := hv.flow.root?_eq h.outermost hback hgoes
  have hactive : v.machine.frames ≠ [] := fun hnil => by simp [Machine.root?, hnil] at hroot
  refine ⟨hv.flow.separate h.separate hactive, hroot, ?_⟩
  rcases h.outer.step hb hv hgoes with hpast | ⟨hne, _⟩ | ⟨hcloses, htop, _, hlt⟩
  · exact hpast
  · exact absurd hback hne
  · exact absurd ⟨hcloses, by simp [Walk.isTop, htop], Int64.le_of_lt hlt⟩ hstays

theorem path (hp : Path prog here m vs there m') (h : Underway pos root here m) (hback : root.back = none)
    (hb : prog.Bounded pos.func) (hopen : (loopWindow pos).Open root root vs) : Underway pos root there m' := by
  induction hp with
  | nil => exact h
  | cons first _ _ ih =>
    obtain ⟨hfirst, hrest⟩ := List.forall_mem_cons.mp hopen
    exact ih (h.next hback hb first hfirst) hrest

end Underway

/-- An iteration under way after an interruption at `place`. The frame `home` that was on top then goes forward until
it returns. -/
structure Resuming (pos place : Position) (home root : Frame) (here : Position) (m : Machine) : Prop
    extends Underway pos root here m where
  inner : Past home place (some here) m.frames ∨ Machine.Lost home.serial m

structure Aligned (prog : Program) (pos place : Position) (home root : Frame) : Prop where
  back : root.back = none
  outer : prog.Bounded pos.func
  inner : prog.Bounded place.func
  placed : 0 ≤ place.pc
  same : home = root → pos.func = place.func ∧ pos.pc ≤ place.pc
  outerJumps : ∀ d ∈ prog.backJumps pos.func, d = pos.pc ∨ home = root ∧ d ≤ pos.pc
  innerJumps : home = root ∨ prog.backJumps place.func = []

theorem Machine.Separate.past_top {m : Machine} {f : Frame} {floor here : Position} (hm : m.Separate)
    (h : Past f floor (some here) m.frames) (ht : Walk.isTop f m = true) :
    here.func = floor.func ∧ floor.pc ≤ here.pc := by
  have htop := hm.top?_of_isTop h.mem ht
  have hdistinct := hm.distinct
  obtain ⟨rest, hframes⟩ := List.head?_eq_some_iff.mp htop
  rw [hframes] at h hdistinct
  refine h.of_top fun hmem => ?_
  exact (List.pairwise_cons.mp hdistinct).1 f hmem rfl

theorem Program.Recovers.aligned {prog : Program} {pos place : Position} {home root : Frame} {m : Machine}
    {i : Instr} (h : prog.Recovers pos place m.depth) (hm : Underway pos root place m) (hback : root.back = none)
    (htop : m.top? = some home) (hi : prog.instr? place = some i) : Aligned prog pos place home root := by
  have hplaced : 0 ≤ place.pc := by
    obtain ⟨f, _, hn⟩ := Option.bind_eq_some_iff.mp hi
    exact (nth?_eq_some.mp hn).1
  have hsame : home = root → pos.func = place.func ∧ pos.pc ≤ place.pc := by
    rintro rfl
    obtain ⟨hfunc, hpc⟩ := hm.separate.past_top hm.outer (by simp [Walk.isTop, htop])
    exact ⟨hfunc.symm, hpc⟩
  have hjumps := h.jumps
  by_cases hd : m.depth = 1
  · rw [if_pos hd] at hjumps
    have heq : home = root := by
      obtain ⟨f, hf⟩ := List.length_eq_one_iff.mp hd
      have hroot := hm.outermost
      simp only [Machine.top?, Machine.root?, hf, List.head?_cons, List.getLast?_singleton, Option.some.injEq]
        at htop hroot
      exact htop.symm.trans hroot
    exact ⟨hback, h.outer, (hsame heq).1 ▸ h.outer, hplaced, hsame, fun d hd => .inr ⟨heq, hjumps d hd⟩, .inl heq⟩
  · rw [if_neg hd] at hjumps
    obtain ⟨houter, hinner, hbounded⟩ := hjumps
    exact ⟨hback, h.outer, hbounded, hplaced, hsame, fun d hd => .inl (houter d hd), .inr hinner⟩

namespace Resuming

variable {prog : Program} {pos place here : Position} {home root : Frame} {m : Machine} {v : Move}

theorem lost_of_left {f : Frame} (hm : m.Separate) (hv : v.From prog here m)
    (hleft : m.frames = f :: v.machine.frames) : Machine.Lost f.serial v.machine := by
  have hdistinct := hm.distinct
  have hnumbered := hm.numbered f (by simp [hleft])
  rw [hleft, List.pairwise_cons] at hdistinct
  have hmade := hv.flow.made_le
  exact ⟨by omega, fun g hg => (hdistinct.1 g hg).symm⟩

theorem inner_step (h : Resuming pos place home root here m) (ha : Aligned prog pos place home root)
    (hv : v.From prog here m) (hgoes : v.transfer ≠ .stop) :
    (Past home place (some v.landing) v.machine.frames ∨ Machine.Lost home.serial v.machine) ∨
      (Walk.closes v.transfer = true ∧ Walk.isTop root v.machine = true ∧ v.landing.pc ≤ pos.pc) := by
  rcases h.inner with hpast | hlost
  · rcases hpast.step ha.inner hv hgoes with hpast' | ⟨_, hleft⟩ | ⟨hcloses, htop, hmem, hlt⟩
    · exact .inl (.inl hpast')
    · exact .inl (.inr (lost_of_left h.separate hv hleft))
    · -- only the outermost frame jumps back, and it does so to the end of the iteration
      rcases ha.innerJumps with hsame | hnone
      · have hle : v.landing.pc ≤ pos.pc := by
          rcases ha.outerJumps _ ((ha.same hsame).1 ▸ hmem) with heq | ⟨_, hle⟩
          · exact heq ▸ Int64.le_refl _
          · exact hle
        exact .inr ⟨hcloses, by simp [Walk.isTop, htop, hsame], hle⟩
      · simp [hnone] at hmem
  · exact .inl (.inr (hv.flow.lost hlost))

theorem closes_of_merged (h : Resuming pos place home root here m) (hb : prog.Bounded pos.func)
    (hv : v.From prog here m) (hgoes : v.transfer ≠ .stop) (htop : Walk.isTop root v.machine = true)
    (hland : v.landing = pos) : Walk.closes v.transfer = true := by
  have hflow := hv.flow
  have htarget : Walk.target here v.transfer = pos := by rw [← hland, Move.landing, hv.place]
  generalize v.transfer = t at hflow htarget hgoes
  cases hflow with
  | next _ hframes =>
    have htop' : Walk.isTop root m = true := by simpa [Walk.isTop, Machine.top?, hframes] using htop
    obtain ⟨hfunc, hle⟩ := h.separate.past_top h.outer htop'
    have hlt := (hfunc ▸ hb : prog.Bounded here.func).lt_next hv.found
    rw [show here.next = pos from htarget] at hlt
    exact absurd hle (Int64.not_le.mpr hlt)
  | enter _ f hserial _ hframes =>
    have hlt := h.separate.numbered root h.outer.mem
    simp [Walk.isTop, Machine.top?, hframes] at htop
    omega
  | jump | leave => rfl
  | stop => exact absurd rfl hgoes

theorem exit?_eq_none_iff (h : Resuming pos place home root here m) (ha : Aligned prog pos place home root)
    (hv : v.From prog here m) :
    v.exit? (recoveryWindow place pos) home root = none ↔ v.exit? (loopWindow pos) root root = none := by
  rw [Move.exit?_recoveryWindow_eq_none ha.placed, Move.exit?_loopWindow_eq_none]
  refine and_congr_right fun hgoes => ?_
  rw [← not_or, not_iff_not]
  constructor
  · rintro (⟨hcloses, htop, hlt⟩ | ⟨htop, hland⟩)
    · rcases h.inner_step ha hv hgoes with (hpast | hlost) | hends
      · have hsep := hv.flow.separate h.separate (List.ne_nil_of_mem hpast.mem)
        exact absurd (hsep.past_top hpast htop).2 (Int64.not_le.mpr hlt)
      · simp [hlost.not_isTop] at htop
      · exact hends
    · exact ⟨h.closes_of_merged ha.outer hv hgoes htop hland, htop, hland ▸ Int64.le_refl _⟩
  · rintro ⟨hcloses, htop, hle⟩
    rcases h.outer.step ha.outer hv hgoes with hpast | ⟨hback, _⟩ | ⟨_, htop', hmem, hlt⟩
    · -- a return into the outermost frame, or a jump to the merge point itself
      have hsep := hv.flow.separate h.separate (List.ne_nil_of_mem hpast.mem)
      obtain ⟨hfunc, hge⟩ := hsep.past_top hpast htop
      have hpc : v.landing.pc = pos.pc := Int64.le_antisymm hle hge
      exact .inr ⟨htop, by cases hl : v.landing; cases pos; simp_all⟩
    · exact absurd ha.back hback
    · rcases ha.outerJumps _ hmem with heq | ⟨rfl, _⟩
      · exact absurd heq (Int64.ne_of_lt hlt)
      · exact .inl ⟨hcloses, htop, Int64.lt_of_lt_of_le hlt (ha.same rfl).2⟩

theorem next (h : Resuming pos place home root here m) (ha : Aligned prog pos place home root)
    (hv : v.From prog here m) (hopen : v.exit? (loopWindow pos) root root = none) :
    Resuming pos place home root v.landing v.machine := by
  obtain ⟨hgoes, hstays⟩ := Move.exit?_loopWindow_eq_none.mp hopen
  exact ⟨h.toUnderway.next ha.back ha.outer hv hopen, (h.inner_step ha hv hgoes).resolve_right hstays⟩

theorem open_iff {vs : List Move} {there : Position} {m' : Machine} (hp : Path prog here m vs there m')
    (ha : Aligned prog pos place home root) (h : Resuming pos place home root here m) :
    ((recoveryWindow place pos).Open home root vs ↔ (loopWindow pos).Open root root vs) ∧
      ((loopWindow pos).Open root root vs → Resuming pos place home root there m') := by
  induction hp with
  | nil => exact ⟨by simp [Window.Open], fun _ => h⟩
  | cons first goes rest ih =>
    have hiff := h.exit?_eq_none_iff ha first
    simp only [Window.Open, List.forall_mem_cons, hiff]
    constructor
    · exact and_congr_right fun hopen => (ih (h.next ha first hopen)).1
    · rintro ⟨hopen, hrest⟩
      exact (ih (h.next ha first hopen)).2 hrest

theorem finishes_iff {m' : Machine} {fuel : Nat} (ha : Aligned prog pos place home root)
    (h : Resuming pos place home root place m) :
    (∃ e log, iterate (Walk.turn prog (recoveryWindow place pos) home root) fuel ⟨place, m, []⟩ =
      some ⟨.ok e, m', log⟩) ↔
      ∃ e log, iterate (Walk.turn prog (loopWindow pos) root root) fuel ⟨place, m, []⟩ = some ⟨.ok e, m', log⟩ := by
  constructor
  · rintro ⟨e, log, hrun⟩
    obtain ⟨vs, v, there, n, hlen, hp, ho, hv, he, hm, _⟩ := Walk.iterate_iff.mp hrun
    obtain ⟨hiff, hresume⟩ := open_iff hp ha h
    have ho' := hiff.mp ho
    have hends := (hresume ho').exit?_eq_none_iff ha hv
    obtain ⟨e', he'⟩ := Option.ne_none_iff_exists'.mp fun hn => by simp [hends.mpr hn] at he
    exact ⟨e', _, Walk.iterate_iff.mpr ⟨vs, v, there, n, hlen, hp, ho', hv, he', hm, rfl⟩⟩
  · rintro ⟨e, log, hrun⟩
    obtain ⟨vs, v, there, n, hlen, hp, ho, hv, he, hm, _⟩ := Walk.iterate_iff.mp hrun
    obtain ⟨hiff, hresume⟩ := open_iff hp ha h
    have hends := (hresume ho).exit?_eq_none_iff ha hv
    obtain ⟨e', he'⟩ := Option.ne_none_iff_exists'.mp fun hn => by simp [hends.mp hn] at he
    exact ⟨e', _, Walk.iterate_iff.mpr ⟨vs, v, there, n, hlen, hp, hiff.mpr ho, hv, he', hm, rfl⟩⟩

end Resuming

theorem Inside.finishes_iff {prog : Program} {pos place : Position} {root : Frame} {m₀ m m' : Machine} {fuel : Nat}
    (h : Inside prog pos m₀ root place m) (hsep : m₀.Separate) (hframes : m₀.frames = [root])
    (hback : root.back = none) (hi : (prog.instr? place).isSome = true) (hr : prog.Recovers pos place m.depth) :
    (∃ e log, m.finishIteration prog fuel place pos = some ⟨.ok e, m', log⟩) ↔
      ∃ e log, iterate (Walk.turn prog (loopWindow pos) root root) fuel ⟨place, m, []⟩ = some ⟨.ok e, m', log⟩ := by
  obtain ⟨vs, hpath, hopen⟩ := h
  have hstart : Underway pos root pos m₀ :=
    ⟨hsep, by simp [Machine.root?, hframes], by rw [hframes]; exact .here rfl (Int64.le_refl _)⟩
  have hm := Underway.path hpath hstart hback hr.outer hopen
  obtain ⟨home, rest, hhome⟩ := List.exists_cons_of_ne_nil hm.separate.active
  have htop : m.top? = some home := by simp [Machine.top?, hhome]
  obtain ⟨i, hi⟩ := Option.isSome_iff_exists.mp hi
  have hresume : Resuming pos place home root place m :=
    ⟨hm, .inl (by rw [hhome]; exact .here rfl (Int64.le_refl _))⟩
  simp only [Machine.finishIteration_eq htop hm.outermost]
  exact hresume.finishes_iff (hr.aligned hm hback htop hi)

end HotLoop
