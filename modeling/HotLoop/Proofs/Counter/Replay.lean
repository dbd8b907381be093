import HotLoop.Proofs.Counter.Iteration
import HotLoop.Proofs.Logs

namespace HotLoop.Counter

variable {user : List UInt64} {opcode : Value} {s t : State} {code : List Instr}

/-- The code of a trace of the loop, recorded in any frame without a place to return to. -/
def LoopCode (code : List Instr) : Prop :=
  ∃ m home us u, m.Separate ∧ m.frames = [home] ∧ home.back = none ∧ Round program header m home us u ∧
    code = Move.trace (us ++ [u])

def Regular (log : List Event) : Prop :=
  let code := log.filterMap Event.traced?
  code ≠ [] ∧ code.length ≤ 28 ∧ (Event.callees log).all Option.isNone ∧
    DeadStore.eliminate code (DeadStore.slots code) = code

instance (log : List Event) : Decidable (Regular log) := inferInstanceAs (Decidable (_ ∧ _))

theorem regular_of_listed : ∃ logs, program.loopLogs header.pc 46 header = some logs ∧ ∀ log ∈ logs, Regular log :=
  ⟨_, rfl, by decide +kernel⟩

theorem regular_of_round {m : Machine} {home : Frame} {us : List Move} {u : Move}
    (h : Round program header m home us u) (hframes : m.frames = [home]) (hback : home.back = none) :
    Regular ((us ++ [u]).map Move.event) := by
  obtain ⟨logs, hlogs, hregular⟩ := regular_of_listed
  exact hregular _ (h.path.log_mem hlogs hframes hback h.inside h.closes)

theorem no_calls (p : Position) (i : Instr) (h : program.instr? p = some i) : ¬i.code.isCall := by
  obtain ⟨f, hf, hi⟩ := Program.mem_of_instr? h
  obtain rfl := Option.some.inj (List.mem_singleton.mp hf)
  exact (by decide : ∀ i ∈ stepCode, ¬i.code.isCall) i hi

theorem program_recovers (place : Position) : program.Recovers header place 1 := by
  have hjumps : (program.backJumps header.func).all (· ≤ header.pc) = true := by decide
  exact ⟨by decide, fun d hd => of_decide_eq_true (List.all_eq_true.mp hjumps d hd)⟩

abbrev nativeTurn (user : List UInt64) (s : State) : Turn State State :=
  match s.step? user with
  | some s => .again s
  | none => .done s

theorem image_separate (user : List UInt64) (opcode : Value) (s : State) (stack : List Operand) :
    (image user opcode s stack).Separate :=
  ⟨by simp [image], by simp [image], by simp [image, frame]⟩

theorem LoopCode.ne_nil (h : LoopCode code) : code ≠ [] := by
  obtain ⟨m, home, us, u, _, hframes, hback, hround, rfl⟩ := h
  rw [Move.trace_eq]
  exact (regular_of_round hround hframes hback).1

theorem LoopCode.length_le (h : LoopCode code) : code.length ≤ 28 := by
  obtain ⟨m, home, us, u, _, hframes, hback, hround, rfl⟩ := h
  rw [Move.trace_eq]
  exact (regular_of_round hround hframes hback).2.1

theorem pass_image (hu : Fits user) (hcode : LoopCode code) (opcode : Value) (s : State) :
    (∃ s' opcode', s.step? user = some s' ∧
      advance (Lap.cycle program code) code.length ⟨0, image user opcode s []⟩ =
        some ⟨code.length, image user opcode' s' []⟩) ∨
    ∃ g n e m log, iterate (Lap.cycle program code) 28 ⟨0, image user opcode s []⟩ = some ⟨.ok g, n, []⟩ ∧
      n.finishIteration program 29 g.recovery header = some ⟨.ok e, m, log⟩ ∧
        Engine.results frame m = .ok (((s.step? user).getD s).pc, ((s.step? user).getD s).cell) := by
  obtain ⟨e, m, log, hrec, hends⟩ := record_image hu opcode s (show 28 < 29 by omega)
  have hsep := image_separate user opcode s []
  obtain ⟨m₁, home₁, us, u, hsep₁, hframes₁, hback₁, hround, rfl⟩ := hcode
  obtain ⟨_, hlen, hcallees, _⟩ := regular_of_round hround hframes₁ hback₁
  rw [← Move.trace_eq] at hlen
  rw [hround.callees_eq] at hcallees
  have hkeeps : Lap.KeepsCallees program (Move.trace (us ++ [u])) (Move.callees (us ++ [u]))
      (Move.trace (us ++ [u])).length ⟨0, image user opcode s []⟩ := by
    intro k _ s₁ s₂ f _ _ hf
    cases List.all_eq_true.mp hcallees _ (List.mem_of_getElem? hf)
  rcases hround.pass_of_record hsep₁ hsep rfl rfl hkeeps hrec with ⟨rfl, hadv⟩ | ⟨k, g, n, hk, hadv, hstop, hin, hi⟩
  · cases hstep : s.step? user with
    | none => simp [hstep] at hends
    | some s' =>
      simp only [hstep, true_and] at hends
      obtain ⟨opcode', rfl⟩ := hends
      exact .inl ⟨s', opcode', rfl, hadv⟩
  · have hdepth : n.depth = 1 := by
      obtain ⟨vs, hpath, _⟩ := hin
      simp [Machine.depth, hpath.frames_alone no_calls (show (image user opcode s []).frames = [frame] from rfl) rfl]
    obtain ⟨log', hrest⟩ := hin.completes rfl hrec
    obtain ⟨e', log'', hfinish⟩ :=
      (hin.finishes_iff hsep rfl rfl hi (hdepth ▸ program_recovers g.recovery)).mpr ⟨e, log', hrest⟩
    refine .inr ⟨g, n, e', m, log'', iterate_mono (iterate_of_advance hadv hstop) (by omega), hfinish, ?_⟩
    cases hstep : s.step? user with
    | none =>
      simp only [hstep] at hends
      exact results_of_heap hends.2
    | some s' =>
      simp only [hstep] at hends
      obtain ⟨_, opcode', rfl⟩ := hends
      exact results_of_heap rfl

theorem replay_image (hu : Fits user) (hcode : LoopCode code) {k : Nat}
    (hs : advance (nativeTurn user) k s = some t) (hend : t.step? user = none) (opcode : Value) {fuel : Nat}
    (hfuel : 29 * (k + 1) ≤ fuel) :
    ∃ j s' g n e m log, advance (nativeTurn user) j s = some s' ∧
      (image user opcode s []).replay program fuel code = some ⟨.ok g, n, []⟩ ∧
        n.finishIteration program fuel g.recovery header = some ⟨.ok e, m, log⟩ ∧
          Engine.results frame m = .ok (s'.pc, s'.cell) := by
  rw [Machine.replay_eq hcode.ne_nil]
  induction k using Nat.strongRecOn generalizing s opcode fuel with
  | ind k ih =>
    rcases pass_image hu hcode opcode s with ⟨s', opcode', hstep, hadv⟩ | ⟨g, n, e, m, log, hrun, hfinish, hresults⟩
    · have hagain : nativeTurn user s = .again s' := by simp [nativeTurn, hstep]
      cases k with
      | zero =>
        obtain rfl := Option.some.inj hs
        cases hend.symm.trans hstep
      | succ k =>
        have hlen := hcode.length_le
        rw [advance_succ_of_again hagain] at hs
        obtain ⟨j, s'', g, n, e, m, log, hj, hrun, hfinish, hresults⟩ :=
          ih k (by omega) hs opcode' (show 29 * (k + 1) ≤ fuel - code.length by omega)
        rw [← Lap.iterate_wrap hcode.ne_nil] at hrun
        refine ⟨j + 1, s'', g, n, e, m, log, (advance_succ_of_again hagain j).trans hj, ?_,
          Machine.run_mono hfinish (by omega), hresults⟩
        rw [show fuel = code.length + (fuel - code.length) by omega]
        exact iterate_of_reached hadv hrun
    · refine ⟨if (s.step? user).isSome then 1 else 0, (s.step? user).getD s, g, n, e, m, log, ?_,
        iterate_mono hrun (by omega), Machine.run_mono hfinish (by omega), hresults⟩
      cases hstep : s.step? user with
      | none => rfl
      | some s' => simp [advance, nativeTurn, hstep]

end HotLoop.Counter
