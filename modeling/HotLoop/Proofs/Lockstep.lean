import Mathlib.Data.List.Forall2
import HotLoop.Proofs.Depth
import HotLoop.Proofs.Lap

/-!
A replay in lock step with a baseline run. The path of the recording leads: on another machine, the trace and the
program go the way of the recording together, until a guard finds another condition. What the trace does not
check is the function that a call enters, so the replay is asked to enter the recorded ones.
-/

namespace HotLoop

def Paired (base₁ base₂ m₁ m₂ : Machine) : Prop :=
  ∃ pushed₁ pushed₂, base₁.Above m₁ pushed₁ ∧ base₂.Above m₂ pushed₂ ∧
    pushed₁.map Frame.back = pushed₂.map Frame.back

namespace Paired

variable {base₁ base₂ m₁ m₂ m₁' m₂' : Machine} {i : Instr} {pos : Position} {t : Transfer}

theorem refl (base₁ base₂ : Machine) : Paired base₁ base₂ base₁ base₂ := ⟨[], [], .refl _, .refl _, rfl⟩

theorem isTop_eq (h : Paired base₁ base₂ m₁ m₂) (hb₁ : base₁.Separate) (hb₂ : base₂.Separate)
    {home₁ home₂ : Frame} (h₁ : base₁.top? = some home₁) (h₂ : base₂.top? = some home₂) :
    Walk.isTop home₁ m₁ = Walk.isTop home₂ m₂ := by
  obtain ⟨pushed₁, pushed₂, ha₁, ha₂, hback⟩ := h
  have hlen := congrArg List.length hback
  simp only [List.length_map] at hlen
  rw [Bool.eq_iff_iff, ha₁.isTop_iff hb₁ h₁, ha₂.isTop_iff hb₂ h₂, ← List.length_eq_zero_iff,
    ← List.length_eq_zero_iff, hlen]

theorem leave (h : Paired base₁ base₂ m₁ m₂) {f₁ : Frame} {rest₁ : List Frame} (hf₁ : m₁.frames = f₁ :: rest₁)
    {pushed : List Frame} (ha : base₁.Above m₁' pushed) (hrest : m₁'.frames = rest₁) (hm₁ : m₁'.made = m₁.made) :
    ∃ f₂ rest₂, m₂.frames = f₂ :: rest₂ ∧ f₂.back = f₁.back ∧
      ∀ m₂' : Machine, m₂'.frames = rest₂ → m₂'.made = m₂.made → Paired base₁ base₂ m₁' m₂' := by
  obtain ⟨pushed₁, pushed₂, ha₁, ha₂, hback⟩ := h
  cases pushed₁ with
  | nil =>
    have hlen := congrArg List.length (ha.frames.symm.trans hrest)
    have hbase := congrArg List.length (ha₁.frames.symm.trans hf₁)
    simp only [List.nil_append, List.length_append, List.length_cons] at hlen hbase
    omega
  | cons g₁ pushed₁ =>
    cases pushed₂ with
    | nil => simp at hback
    | cons g₂ pushed₂ =>
      obtain ⟨hg, htail⟩ := List.cons.inj hback
      obtain ⟨rfl, hr₁⟩ := List.cons.inj (hf₁.symm.trans ha₁.frames)
      refine ⟨g₂, pushed₂ ++ base₂.frames, ha₂.frames, hg.symm, ?_⟩
      intro m₂' hr₂ hm₂
      exact ⟨pushed₁, pushed₂, ha₁.pop (hrest.trans hr₁) hm₁, ha₂.pop hr₂ hm₂, htail⟩

theorem step (h : Paired base₁ base₂ m₁ m₂) (h₁ : Exec.Flow i pos m₁ m₁' t)
    (h₂ : Exec.Flow i pos m₂ m₂' t) {pushed : List Frame} (ha : base₁.Above m₁' pushed) (ht : t ≠ .stop) :
    Paired base₁ base₂ m₁' m₂' := by
  cases h₁ with
  | next _ frames₁ made₁ =>
    obtain ⟨pushed₁, pushed₂, ha₁, ha₂, hback⟩ := h
    cases h₂ with
    | next _ frames₂ made₂ => exact ⟨pushed₁, pushed₂, ha₁.same frames₁ made₁, ha₂.same frames₂ made₂, hback⟩
  | jump _ frames₁ made₁ =>
    obtain ⟨pushed₁, pushed₂, ha₁, ha₂, hback⟩ := h
    cases h₂ with
    | jump _ frames₂ made₂ => exact ⟨pushed₁, pushed₂, ha₁.same frames₁ made₁, ha₂.same frames₂ made₂, hback⟩
  | enter _ f₁ serial₁ back₁ frames₁ made₁ =>
    obtain ⟨pushed₁, pushed₂, ha₁, ha₂, hback⟩ := h
    generalize ht' : Transfer.enter ⟨f₁.func, 0⟩ = t' at h₂
    cases h₂ with
    | enter _ f₂ serial₂ back₂ frames₂ made₂ =>
      exact ⟨f₁ :: pushed₁, f₂ :: pushed₂, ha₁.push serial₁ frames₁ made₁, ha₂.push serial₂ frames₂ made₂,
        by simp [back₁, back₂, hback]⟩
    | _ => cases ht'
  | leave f₁ rest₁ target back₁ popped₁ frames₁ made₁ =>
    cases h₂ with
    | leave f₂ rest₂ _ back₂ popped₂ frames₂ made₂ =>
      obtain ⟨g, rest, hg, _, hpair⟩ := h.leave popped₁ ha frames₁ made₁
      obtain ⟨rfl, rfl⟩ := List.cons.inj (popped₂.symm.trans hg)
      exact hpair _ frames₂ made₂
  | stop => exact absurd rfl ht

end Paired

namespace Move

def callee? (v : Move) : Option Int64 := if v.instr.code = .call then some v.landing.func else none

def on (v : Move) (m : Machine) : Move := { v with machine := m }

variable {prog : Program} {pos : Position} {base₁ base₂ m₁ m₂ : Machine} {u : Move} {j : Instr}

theorem From.event_pos (hu : u.From prog pos m₁) : u.event.pos = pos := hu.place

theorem From.on_jump (hu : u.From prog pos m₁) (hn : u.event.traced? = none) (m₂ : Machine) :
    (u.on m₂).From prog pos m₂ := by
  have hcode : u.instr.code = .skip ∨ u.instr.code = .jumpBack := Event.isJump_of_traced?_none hn
  have hstep := hu.step
  rw [Exec.step_jump hcode] at hstep
  obtain ⟨hpc, ht, _⟩ := Exec.jumpTo_eq_ok.mp hstep
  refine ⟨hu.place, hu.found, ?_⟩
  change Exec.step prog u.instr pos false m₂ = .ok u.transfer m₂
  rw [Exec.step_jump hcode]
  exact Exec.jumpTo_eq_ok.mpr ⟨hpc, ht, rfl⟩

theorem From.on_conditional (hu : u.From prog pos m₁) (hc : u.instr.code.isConditional)
    (h : m₂.condition? prog = some u.transfer.taken) : (u.on m₂.dropTop).From prog pos m₂ := by
  refine ⟨hu.place, hu.found, ?_⟩
  obtain ⟨c, _, hb⟩ := (Exec.step_conditional_eq_ok hc).mp hu.step
  obtain ⟨_, hbranch⟩ := Exec.branch_eq_ok.mp hb
  have hcond : c = u.transfer.taken := by
    rcases hbranch with ⟨rfl, ht⟩ | ⟨rfl, _, ht⟩ <;> simp [ht, Transfer.taken]
  exact (Exec.step_conditional_eq_ok hc).mpr ⟨c, hcond ▸ h, Exec.branch_eq_ok.mpr ⟨rfl, hbranch⟩⟩

theorem From.transfer_eq (hu : u.From prog pos m₁) (hj : ¬u.instr.code.isJump) {t : Transfer} {m₂' : Machine}
    (hs : Exec.step prog u.instr pos false m₂ = .ok t m₂') (hpair : Paired base₁ base₂ m₁ m₂)
    {pushed : List Frame} (ha : base₁.Above u.machine pushed)
    (hcall : ∀ f, u.callee? = some f → m₂'.top?.map Frame.func = some f) : t = u.transfer := by
  have hstep := hu.step
  by_cases hp : u.instr.code.isPlain
  · rw [(Exec.plain_step hp prog pos false).next hs, (Exec.plain_step hp prog pos false).next hstep]
  · cases hc : u.instr.code <;> simp [hc, Opcode.isPlain, Opcode.isJump] at hp hj
    case call =>
      obtain ⟨_, _, _, he₁⟩ := Exec.step_call_eq_ok hc hstep
      obtain ⟨_, _, _, he₂⟩ := Exec.step_call_eq_ok hc hs
      obtain ⟨f₁, _, hf₁, _, _, _, ht₁⟩ := Exec.enter_eq_ok he₁
      obtain ⟨f₂, _, hf₂, _, hframes₂, _, rfl⟩ := Exec.enter_eq_ok he₂
      have hcallee := hcall f₁.func (by simp [callee?, hc, landing, Walk.target, ht₁, hf₁])
      simp only [Machine.top?, hframes₂, List.head?_cons, Option.map_some, Option.some.injEq] at hcallee
      rw [ht₁, ← hf₁, ← hf₂, hcallee]
    case static =>
      simp only [Exec.step, hc] at hstep hs
      obtain ⟨_, _, _, _, _, _, ht₁⟩ := Exec.enter_eq_ok hstep
      obtain ⟨_, _, _, _, _, _, ht₂⟩ := Exec.enter_eq_ok hs
      rw [ht₁, ht₂]
    case ret =>
      simp only [Exec.step, hc] at hstep hs
      obtain ⟨f₁, rest₁, hf₁, hm₁, ht₁⟩ := Exec.leave_eq_ok.mp hstep
      obtain ⟨f₂, rest₂, hf₂, _, ht₂⟩ := Exec.leave_eq_ok.mp hs
      obtain ⟨g, rest, hg, hback, _⟩ := hpair.leave hf₁ ha (by rw [hm₁]) (by rw [hm₁])
      obtain ⟨rfl, _⟩ := List.cons.inj (hf₂.symm.trans hg)
      rw [ht₁, ht₂, hback]
    case guard => exact absurd hstep (Exec.step_guard_fails hc)

theorem From.step_ne_stop (hu : u.From prog pos m₁) (hgoes : u.transfer ≠ .stop) (hj : ¬u.instr.code.isJump)
    (hpair : Paired base₁ base₂ m₁ m₂) {pushed : List Frame} (ha : base₁.Above u.machine pushed) {m₂' : Machine} :
    Exec.step prog u.instr pos false m₂ ≠ .ok .stop m₂' := by
  intro hs
  refine hgoes (hu.transfer_eq hj hs hpair ha ?_).symm
  intro f hf
  by_cases hc : u.instr.code = .call
  · obtain ⟨_, _, _, he⟩ := Exec.step_call_eq_ok hc hs
    obtain ⟨_, _, _, _, _, _, ht⟩ := Exec.enter_eq_ok he
    cases ht
  · simp [callee?, hc] at hf

theorem From.on_again (hu : u.From prog pos m₁) (ht : u.event.traced? = some j)
    (hpair : Paired base₁ base₂ m₁ m₂) (hb₂ : base₂.Separate) {pushed : List Frame}
    (ha : base₁.Above u.machine pushed) {k : Nat} {s : Lap} (hp : Lap.perform prog j k m₂ = .again s)
    (hcall : ∀ f, u.callee? = some f → s.machine.top?.map Frame.func = some f) :
    s.index = k + 1 ∧ (u.on s.machine).From prog pos m₂ := by
  by_cases hc : u.instr.code.isConditional
  · have hj := (Event.traced?_conditional (e := u.event) hc).symm.trans ht
    obtain rfl := Option.some.inj hj
    obtain ⟨_, _, _, ha₂, _⟩ := hpair
    obtain ⟨f, hf⟩ := ha₂.top? hb₂
    have hcond := Lap.condition?_of_perform.1 s hp
    rw [Lap.perform_guard_passes hf hcond] at hp
    cases hp
    exact ⟨rfl, hu.on_conditional hc hcond⟩
  · have hg : u.instr.code ≠ .guard := fun hg => Exec.step_guard_fails hg hu.step
    obtain ⟨hi, t, _, hs⟩ := Lap.step_of_perform ht hc hg hp
    rw [hu.event_pos] at hs
    have he := hu.transfer_eq (Event.not_isJump_of_traced? ht hc) hs hpair ha hcall
    exact ⟨hi, hu.place, hu.found, he ▸ hs⟩

theorem From.performs {v : Move} {m : Machine} (hv : v.From prog pos m) (hgoes : v.transfer ≠ .stop)
    (ht : v.event.traced? = some j) {f : Frame} (hf : m.top? = some f) (k : Nat) :
    Lap.perform prog j k m = .again ⟨k + 1, v.machine⟩ := by
  have hstep := hv.step
  by_cases hc : v.instr.code.isConditional
  · obtain rfl := Option.some.inj ((Event.traced?_conditional (e := v.event) hc).symm.trans ht)
    obtain ⟨c, hcond, hb⟩ := (Exec.step_conditional_eq_ok hc).mp hstep
    obtain ⟨hm, hbranch⟩ := Exec.branch_eq_ok.mp hb
    have htaken : c = v.transfer.taken := by
      rcases hbranch with ⟨rfl, ht⟩ | ⟨rfl, _, ht⟩ <;> simp [ht, Transfer.taken]
    rw [hm]
    exact Lap.perform_guard_passes hf (hcond.trans (congrArg some htaken))
  · rw [← hv.place] at hstep
    exact Lap.perform_of_step ht hc hf hstep hgoes

theorem From.machine_of_jump {v : Move} {m : Machine} (hv : v.From prog pos m) (ht : v.event.traced? = none) :
    v.machine = m := by
  have hcode : v.instr.code = .skip ∨ v.instr.code = .jumpBack := Event.isJump_of_traced?_none ht
  have hstep := hv.step
  rw [Exec.step_jump hcode] at hstep
  exact (Exec.jumpTo_eq_ok.mp hstep).2.2

theorem From.callee_top {v : Move} {m : Machine} (hv : v.From prog pos m) {f : Int64} (hf : v.callee? = some f) :
    v.machine.top?.map Frame.func = some f := by
  by_cases hc : v.instr.code = .call
  · obtain ⟨_, _, _, he⟩ := Exec.step_call_eq_ok hc hv.step
    obtain ⟨g, _, hg, _, hframes, _, ht⟩ := Exec.enter_eq_ok he
    simp only [callee?, hc, ↓reduceIte, landing, Walk.target, ht, Option.some.injEq] at hf
    simp [Machine.top?, hframes, hg, hf]
  · simp [callee?, hc] at hf

end Move

namespace Lap

def cycle (prog : Program) (code : List Instr) : Lap → Turn Lap (Ended Guard) := turn prog (code.headD {}) code

theorem cycle_of_getElem? {prog : Program} {code : List Instr} {i : Instr} {s : Lap}
    (h : code[s.index]? = some i) : cycle prog code s = perform prog i s.index s.machine := by
  simp [cycle, turn, h]

theorem cycle_wrap {prog : Program} {code : List Instr} (h : code ≠ []) (m : Machine) :
    cycle prog code ⟨code.length, m⟩ = cycle prog code ⟨0, m⟩ := by
  cases code with
  | nil => exact absurd rfl h
  | cons i rest => simp [cycle, turn]

/-- The calls among the first `n` instructions of a replay enter the functions that `callees` lists for the
instructions of the code. -/
def KeepsCallees (prog : Program) (code : List Instr) (callees : List (Option Int64)) (n : Nat) (s : Lap) :
    Prop :=
  ∀ k < n, ∀ s₁ s₂ f, advance (cycle prog code) k s = some s₁ → cycle prog code s₁ = .again s₂ →
    callees[s₁.index % code.length]? = some (some f) → s₂.machine.top?.map Frame.func = some f

theorem KeepsCallees.after {prog : Program} {code : List Instr} {callees : List (Option Int64)} {n k : Nat}
    {s s' : Lap} (h : KeepsCallees prog code callees (n + k) s) (hs : advance (cycle prog code) k s = some s') :
    KeepsCallees prog code callees n s' := by
  intro k' hk' s₁ s₂ f h₁
  exact h (k + k') (by omega) s₁ s₂ f (advance_trans hs h₁)

theorem KeepsCallees.cons {prog : Program} {code : List Instr} {callees : List (Option Int64)} {n : Nat}
    {s s' : Lap} (hs : cycle prog code s = .again s')
    (hcall : ∀ f, callees[s.index % code.length]? = some (some f) → s'.machine.top?.map Frame.func = some f)
    (h : KeepsCallees prog code callees n s') : KeepsCallees prog code callees (n + 1) s := by
  intro k hk s₁ s₂ f h₁ h₂ hf
  cases k with
  | zero =>
    obtain rfl := Option.some.inj h₁
    cases hs.symm.trans h₂
    exact hcall f hf
  | succ k => exact h k (by omega) s₁ s₂ f ((advance_succ_of_again hs k).symm.trans h₁) h₂ hf

def keepsCallees (prog : Program) (code : List Instr) (callees : List (Option Int64)) : Nat → Lap → Bool
  | 0, _ => true
  | n + 1, s =>
    match cycle prog code s with
    | .done _ => true
    | .again s' =>
      callees[s.index % code.length]?.join.all (fun f => s'.machine.top?.map Frame.func = some f) &&
        keepsCallees prog code callees n s'

theorem keepsCallees_iff {prog : Program} {code : List Instr} {callees : List (Option Int64)} {n : Nat} {s : Lap} :
    keepsCallees prog code callees n s = true ↔ KeepsCallees prog code callees n s := by
  induction n generalizing s with
  | zero => simp [keepsCallees, KeepsCallees]
  | succ n ih =>
    cases hs : cycle prog code s with
    | done r =>
      simp only [keepsCallees, hs, true_iff]
      intro k _ s₁ s₂ f h₁ h₂ _
      cases k with
      | zero =>
        obtain rfl := Option.some.inj h₁
        cases hs.symm.trans h₂
      | succ k => simp [advance_succ_of_done hs] at h₁
    | again s' =>
      have hcall :
          (callees[s.index % code.length]?.join.all fun f => s'.machine.top?.map Frame.func = some f) = true ↔
            ∀ f, callees[s.index % code.length]? = some (some f) → s'.machine.top?.map Frame.func = some f := by
        simp only [Option.all_eq_true, decide_eq_true_eq, Option.join_eq_some_iff]
      simp only [keepsCallees, hs, Bool.and_eq_true, ih, hcall]
      constructor
      · rintro ⟨hc, hrest⟩
        exact .cons hs hc hrest
      · intro h
        exact ⟨fun f hf => h 0 (by omega) s s' f rfl hs hf, h.after (by simp [advance, hs])⟩

instance (prog : Program) (code : List Instr) (callees : List (Option Int64)) (n : Nat) (s : Lap) :
    Decidable (KeepsCallees prog code callees n s) := decidable_of_iff _ keepsCallees_iff

theorem callee_at {code done rest : List Instr} {callees called later : List (Option Int64)} {j : Instr}
    {c : Option Int64} (hcode : code = done ++ j :: rest) (hcallees : callees = called ++ c :: later)
    (hlen : called.length = done.length) : callees[done.length % code.length]? = some c := by
  have hlt : done.length < code.length := by simp [hcode]
  rw [Nat.mod_eq_of_lt hlt, hcallees, ← hlen]
  simp

end Lap

def Move.trace (us : List Move) : List Instr := us.filterMap fun u => u.event.traced?

def Move.callees (us : List Move) : List (Option Int64) :=
  us.filterMap fun u => u.event.traced?.map fun _ => u.callee?

namespace Move

theorem trace_cons (u : Move) (us : List Move) : trace (u :: us) = trace [u] ++ trace us :=
  List.filterMap_append (l := [u])

theorem callees_cons (u : Move) (us : List Move) : callees (u :: us) = callees [u] ++ callees us :=
  List.filterMap_append (l := [u])

theorem trace_of_none {u : Move} (h : u.event.traced? = none) : trace [u] = [] := by simp [trace, h]

theorem trace_of_some {u : Move} {j : Instr} (h : u.event.traced? = some j) : trace [u] = [j] := by simp [trace, h]

theorem callees_of_none {u : Move} (h : u.event.traced? = none) : callees [u] = [] := by simp [callees, h]

theorem callees_of_some {u : Move} {j : Instr} (h : u.event.traced? = some j) : callees [u] = [u.callee?] := by
  simp [callees, h]

theorem length_callees (us : List Move) : (callees us).length = (trace us).length := by
  induction us with
  | nil => rfl
  | cons u us ih => cases h : u.event.traced? <;> simp_all [callees, trace]

structure Alike (home₁ home₂ : Frame) (u v : Move) : Prop where
  event : v.event = u.event
  transfer : v.transfer = u.transfer
  isTop : Walk.isTop home₂ v.machine = Walk.isTop home₁ u.machine

end Move

section

variable {prog : Program} {pos pos' : Position} {base₁ base₂ m₁ m₂ m₁' n n₁ n₂ : Machine} {home₁ home₂ : Frame}
  {u : Move} {us vs : List Move} {code done : List Instr} {callees called : List (Option Int64)} {k : Nat}

/-- From `m₂` on, a replay at instruction `k` and the program at `pos` go the way `us` of the recording together. -/
structure Along (prog : Program) (code : List Instr) (base₁ base₂ : Machine) (home₁ home₂ : Frame) (k : Nat)
    (pos : Position) (m₂ : Machine) (us vs : List Move) (pos' : Position) (n₁ n₂ : Machine) : Prop where
  path : Path prog pos m₂ vs pos' n₂
  alike : List.Forall₂ (Move.Alike home₁ home₂) us vs
  paired : Paired base₁ base₂ n₁ n₂
  replayed : advance (Lap.cycle prog code) (Move.trace us).length ⟨k, m₂⟩ = some ⟨k + (Move.trace us).length, n₂⟩

theorem Along.cons (hv : (u.on n).From prog pos m₂) (hgoes : u.transfer ≠ .stop)
    (halike : u.Alike home₁ home₂ (u.on n))
    (hadv : advance (Lap.cycle prog code) (Move.trace [u]).length ⟨k, m₂⟩ = some ⟨k + (Move.trace [u]).length, n⟩)
    (h : Along prog code base₁ base₂ home₁ home₂ (k + (Move.trace [u]).length) u.landing n us vs pos' n₁ n₂) :
    Along prog code base₁ base₂ home₁ home₂ k pos m₂ (u :: us) (u.on n :: vs) pos' n₁ n₂ := by
  refine ⟨.cons hv hgoes h.path, .cons halike h.alike, h.paired, ?_⟩
  rw [Move.trace_cons, List.length_append, advance_trans hadv h.replayed, Nat.add_assoc]

theorem lockstep_step (hu : u.From prog pos m₁) (hb₂ : base₂.Separate) {pushed : List Frame}
    (ha : base₁.Above u.machine pushed) (hpair : Paired base₁ base₂ m₁ m₂)
    (hcode : code = done ++ Move.trace (u :: us)) (hcallees : callees = called ++ Move.callees (u :: us))
    (hlen : called.length = done.length)
    (hkeeps : Lap.KeepsCallees prog code callees (Move.trace (u :: us)).length ⟨done.length, m₂⟩) :
    (∃ n, (u.on n).From prog pos m₂ ∧ advance (Lap.cycle prog code) (Move.trace [u]).length ⟨done.length, m₂⟩ =
      some ⟨done.length + (Move.trace [u]).length, n⟩) ∨
    ∃ j r, u.event.traced? = some j ∧ Lap.perform prog j done.length m₂ = .done r := by
  rw [Move.trace_cons] at hcode hkeeps
  rw [Move.callees_cons] at hcallees
  cases ht : u.event.traced? with
  | none => exact .inl ⟨m₂, hu.on_jump ht m₂, by simp [Move.trace_of_none ht]⟩
  | some j =>
    rw [Move.trace_of_some ht] at hcode hkeeps ⊢
    rw [Move.callees_of_some ht] at hcallees
    have hcycle : Lap.cycle prog code ⟨done.length, m₂⟩ = Lap.perform prog j done.length m₂ :=
      Lap.cycle_of_getElem? (by simp [hcode])
    cases hperform : Lap.perform prog j done.length m₂ with
    | done r => exact .inr ⟨j, r, rfl, hperform⟩
    | again s =>
      have hagain := hcycle.trans hperform
      have hcall : ∀ f, u.callee? = some f → s.machine.top?.map Frame.func = some f := by
        intro f hf
        exact hkeeps 0 (by simp) ⟨done.length, m₂⟩ s f rfl hagain (hf ▸ Lap.callee_at hcode hcallees hlen)
      obtain ⟨hi, hv⟩ := hu.on_again ht hpair hb₂ ha hperform hcall
      obtain ⟨index, n⟩ := s
      obtain rfl : index = done.length + 1 := hi
      exact .inl ⟨n, hv, by simp [advance, hagain]⟩

/-- The trace and the program go the way of a recorded path together, to its end or up to an instruction at which
the replay stops. -/
theorem lockstep (hus : Path prog pos m₁ us pos' m₁') (hb₁ : base₁.Separate) (hb₂ : base₂.Separate)
    (hhome₁ : base₁.top? = some home₁) (hhome₂ : base₂.top? = some home₂)
    (habove : ∀ u ∈ us, ∃ pushed, base₁.Above u.machine pushed) (hpair : Paired base₁ base₂ m₁ m₂)
    (hcode : code = done ++ Move.trace us) (hcallees : callees = called ++ Move.callees us)
    (hlen : called.length = done.length)
    (hkeeps : Lap.KeepsCallees prog code callees (Move.trace us).length ⟨done.length, m₂⟩) :
    (∃ vs m₂', Along prog code base₁ base₂ home₁ home₂ done.length pos m₂ us vs pos' m₁' m₂') ∨
    ∃ us₁ u us₂ vs n₁ n₂ j r, us = us₁ ++ u :: us₂ ∧ u.event.traced? = some j ∧ u.From prog u.pos n₁ ∧
      Along prog code base₁ base₂ home₁ home₂ done.length pos m₂ us₁ vs u.pos n₁ n₂ ∧
      Lap.perform prog j (done.length + (Move.trace us₁).length) n₂ = .done r := by
  induction hus generalizing m₂ done called with
  | nil pos m => exact .inl ⟨[], m₂, .nil pos m₂, .nil, hpair, rfl⟩
  | @cons pos pos' m m' u us first goes rest ih =>
    obtain ⟨⟨pushed, ha⟩, habove⟩ := List.forall_mem_cons.mp habove
    rcases lockstep_step first hb₂ ha hpair hcode hcallees hlen hkeeps with ⟨n, hv, hadv⟩ | ⟨j, r, ht, hstop⟩
    · have hp := hpair.step first.flow hv.flow ha goes
      have halike : u.Alike home₁ home₂ (u.on n) := ⟨rfl, rfl, (hp.isTop_eq hb₁ hb₂ hhome₁ hhome₂).symm⟩
      have hdone : (done ++ Move.trace [u]).length = done.length + (Move.trace [u]).length := List.length_append
      have hcode' : code = (done ++ Move.trace [u]) ++ Move.trace us := by
        rw [hcode, Move.trace_cons, List.append_assoc]
      have hcallees' : callees = (called ++ Move.callees [u]) ++ Move.callees us := by
        rw [hcallees, Move.callees_cons, List.append_assoc]
      rw [Move.trace_cons, List.length_append, Nat.add_comm] at hkeeps
      have hkeeps' := hkeeps.after hadv
      rw [← hdone] at hkeeps'
      rcases ih habove hp hcode' hcallees' (by simp [hlen, Move.length_callees]) hkeeps' with
        ⟨vs, m₂', halong⟩ | ⟨us₁, w, us₂, vs, n₁, n₂, j, r, rfl, hj, hw, halong, hstop⟩
      · exact .inl ⟨_, m₂', .cons hv goes halike hadv (hdone ▸ halong)⟩
      · refine .inr ⟨u :: us₁, w, us₂, _, n₁, n₂, j, r, rfl, hj, hw, .cons hv goes halike hadv (hdone ▸ halong), ?_⟩
        rw [Move.trace_cons, List.length_append, ← Nat.add_assoc, ← hdone]
        exact hstop
    · obtain rfl := first.place
      exact .inr ⟨[], u, us, [], m, m₂, j, r, rfl, ht, first, ⟨.nil _ _, .nil, hpair, rfl⟩, hstop⟩

theorem replay_follows {m : Machine} (hus : Path prog pos m us pos' m₁') (hb : base₁.Separate)
    {pushed : List Frame} (ha : base₁.Above m pushed) (habove : ∀ u ∈ us, ∃ pushed, base₁.Above u.machine pushed)
    (hcode : code = done ++ Move.trace us) (hcallees : callees = called ++ Move.callees us)
    (hlen : called.length = done.length) :
    advance (Lap.cycle prog code) (Move.trace us).length ⟨done.length, m⟩ = some ⟨code.length, m₁'⟩ ∧
      Lap.KeepsCallees prog code callees (Move.trace us).length ⟨done.length, m⟩ := by
  induction hus generalizing done called pushed with
  | nil pos m => exact ⟨by simp [hcode, Move.trace], by simp [Move.trace, Lap.KeepsCallees]⟩
  | @cons pos pos' m m' u us first goes rest ih =>
    obtain ⟨⟨pushed', ha'⟩, habove⟩ := List.forall_mem_cons.mp habove
    rw [Move.trace_cons] at hcode ⊢
    rw [Move.callees_cons] at hcallees
    cases ht : u.event.traced? with
    | none =>
      rw [Move.trace_of_none ht, List.nil_append] at hcode ⊢
      rw [Move.callees_of_none ht, List.nil_append] at hcallees
      rw [← first.machine_of_jump ht]
      exact ih ha' habove hcode hcallees hlen
    | some j =>
      rw [Move.trace_of_some ht, List.singleton_append] at hcode ⊢
      rw [Move.callees_of_some ht, List.singleton_append] at hcallees
      obtain ⟨f, hf⟩ := ha.top? hb
      have hagain : Lap.cycle prog code ⟨done.length, m⟩ = .again ⟨done.length + 1, u.machine⟩ :=
        (Lap.cycle_of_getElem? (by simp [hcode])).trans (first.performs goes ht hf _)
      have hdone : (done ++ [j]).length = done.length + 1 := by simp
      have hcode' : code = (done ++ [j]) ++ Move.trace us := by simp [hcode]
      have hcallees' : callees = (called ++ [u.callee?]) ++ Move.callees us := by simp [hcallees]
      obtain ⟨hadv, hkeeps⟩ := ih ha' habove hcode' hcallees' (by simp [hlen])
      rw [hdone] at hadv hkeeps
      refine ⟨by rw [List.length_cons, advance_succ_of_again hagain, hadv], hkeeps.cons hagain ?_⟩
      intro f hf
      have hlisted := Lap.callee_at hcode hcallees hlen
      exact first.callee_top (Option.some.inj (hlisted.symm.trans hf))

end

end HotLoop
