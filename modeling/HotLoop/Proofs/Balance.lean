import HotLoop.Proofs.Causes
import HotLoop.Proofs.DeadStore.Remainder
import HotLoop.Proofs.Round

namespace HotLoop

theorem Opcode.ne_ret_of_isCall {c : Opcode} (h : c.isCall) : c ≠ .ret := by
  rintro rfl
  cases h

section Level

def callCount (code : List Instr) : Nat := code.countP fun i => i.code.isCall

def returnCount (code : List Instr) : Nat := code.countP fun i => i.code = .ret

structure Balanced (code : List Instr) : Prop where
  inside : ∀ start, start <+: code → returnCount start ≤ callCount start
  closed : returnCount code = callCount code

/-- How many frames code leaves of the `d` that are there and of those that it enters, if it never needs more. -/
def level : Nat → List Instr → Option Nat
  | d, [] => some d
  | d, i :: rest =>
    if i.code.isCall then level (d + 1) rest
    else if i.code = .ret then if d = 0 then none else level (d - 1) rest
    else level d rest

variable {i : Instr} {rest code : List Instr} {d d' : Nat}

theorem level_call (hi : i.code.isCall) : level d (i :: rest) = level (d + 1) rest := by rw [level, if_pos hi]

theorem level_ret (hi : i.code = .ret) : level d (i :: rest) = some d' ↔ ∃ k, d = k + 1 ∧ level k rest = some d' := by
  have hcall : ¬i.code.isCall := by simp [hi, Opcode.isCall]
  rw [level, if_neg hcall, if_pos hi]
  cases d <;> simp

theorem level_other (hcall : ¬i.code.isCall) (hret : i.code ≠ .ret) : level d (i :: rest) = level d rest := by
  rw [level, if_neg hcall, if_neg hret]

theorem counts_cons (i : Instr) (code : List Instr) :
    returnCount (i :: code) = returnCount code + (if i.code = .ret then 1 else 0) ∧
      callCount (i :: code) = callCount code + (if i.code.isCall then 1 else 0) := by
  simp [returnCount, callCount, List.countP_cons]

theorem level_eq_some_iff : level d code = some d' ↔
    (∀ start, start <+: code → returnCount start ≤ d + callCount start) ∧
      returnCount code + d' = d + callCount code := by
  induction code generalizing d with
  | nil =>
    have hstart : ∀ start : List Instr, start <+: [] → returnCount start ≤ d + callCount start := by
      intro start h
      simp [List.prefix_nil.mp h, returnCount]
    simp only [level, Option.some.injEq, returnCount, callCount, List.countP_nil, Nat.zero_add, Nat.add_zero]
    exact ⟨fun h => ⟨hstart, h.symm⟩, fun h => h.2.symm⟩
  | cons i rest ih =>
    -- the first instruction changes both sides of both facts alike
    have hstep : ∀ k : Nat, k + (if i.code = .ret then 1 else 0) = d + (if i.code.isCall then 1 else 0) →
        (level k rest = some d' ↔ (∀ start, start <+: i :: rest → returnCount start ≤ d + callCount start) ∧
          returnCount (i :: rest) + d' = d + callCount (i :: rest)) := by
      intro k hk
      have hrest := counts_cons i rest
      rw [ih]
      apply and_congr _ (by omega)
      constructor
      · intro h start hstart
        rcases List.prefix_cons_iff.mp hstart with rfl | ⟨xs, rfl, hxs⟩
        · simp [returnCount]
        · have := h xs hxs
          have := counts_cons i xs
          omega
      · intro h xs hxs
        have := h (i :: xs) (List.prefix_cons_iff.mpr (.inr ⟨xs, rfl, hxs⟩))
        have := counts_cons i xs
        omega
    by_cases hcall : i.code.isCall
    · rw [level_call hcall]
      exact hstep (d + 1) (by simp [hcall, Opcode.ne_ret_of_isCall hcall])
    · by_cases hret : i.code = .ret
      · rw [level_ret hret]
        constructor
        · rintro ⟨k, rfl, hk⟩
          exact (hstep k (by rw [if_pos hret, if_neg hcall])).mp hk
        · intro h
          have hone := h.1 [i] ⟨rest, rfl⟩
          have hcounts := counts_cons i []
          rw [if_pos hret, if_neg hcall] at hcounts
          have hnil : returnCount [] = 0 ∧ callCount [] = 0 := ⟨rfl, rfl⟩
          obtain ⟨k, rfl⟩ : ∃ k, d = k + 1 := ⟨d - 1, by omega⟩
          exact ⟨k, rfl, (hstep k (by rw [if_pos hret, if_neg hcall])).mpr h⟩
      · rw [level_other hcall hret]
        exact hstep d (by simp [hcall, hret])

theorem balanced_iff : Balanced code ↔ level 0 code = some 0 := by
  simp only [level_eq_some_iff, Nat.zero_add, Nat.add_zero]
  exact ⟨fun h => ⟨h.inside, h.closed⟩, fun h => ⟨h.1, h.2⟩⟩

theorem level_filter (d : Nat) (code : List Instr) :
    level d (code.filter fun i => i.code.isCall || i.code = .ret) = level d code := by
  induction code generalizing d with
  | nil => rfl
  | cons i rest ih =>
    by_cases hcall : i.code.isCall
    · rw [List.filter_cons_of_pos (by simp [hcall]), level_call hcall, level_call hcall, ih]
    · by_cases hret : i.code = .ret
      · rw [List.filter_cons_of_pos (by simp [hret])]
        apply Option.ext
        intro k
        simp only [level_ret hret, ih]
      · rw [List.filter_cons_of_neg (by simp [hcall, hret]), level_other hcall hret, ih]

theorem level_eliminate (d : Nat) (code : List Instr) (live : List Int64) :
    level d (DeadStore.eliminate code live) = level d code := by
  rw [← level_filter, DeadStore.filter_eliminate, level_filter]
  intro i hi
  rcases DeadStore.code_of_isVolatile hi with h | h | h | h <;> simp [h, Opcode.isCall]

end Level

namespace Exec

variable {prog : Program} {i : Instr} {pos : Position} {inTrace : Bool} {m m' : Machine} {t : Transfer}

theorem step_ret_eq_ok (hi : i.code = .ret) (h : step prog i pos inTrace m = .ok t m') :
    ∃ f, m.frames = f :: m'.frames ∧ (f.back ≠ none → ∃ target, t = .leave target) := by
  simp only [step, hi] at h
  obtain ⟨f, rest, hframes, rfl, rfl⟩ := leave_eq_ok.mp h
  refine ⟨f, hframes, fun hback => ?_⟩
  obtain ⟨target, htarget⟩ := Option.ne_none_iff_exists'.mp hback
  exact ⟨target, by rw [htarget]⟩

theorem frames_of_other (hcall : ¬i.code.isCall) (hret : i.code ≠ .ret) (h : step prog i pos inTrace m = .ok t m') :
    m'.frames = m.frames ∧ t ≠ .stop ∧ (i.code.isJump ∨ ∀ target taken, t ≠ .jump target taken) := by
  by_cases hp : i.code.isPlain
  · have hplain := plain_step hp prog pos inTrace
    cases hplain.next h
    exact ⟨(hplain.keeps.of_ok h).1, by simp, .inr (by simp)⟩
  · cases hc : i.code <;> simp [hc, Opcode.isPlain, Opcode.isCall] at hp hcall hret
    case skip | jumpBack =>
      rw [step_jump (by simp [hc])] at h
      obtain ⟨_, rfl, rfl⟩ := jumpTo_eq_ok.mp h
      exact ⟨rfl, by simp, .inl rfl⟩
    case skipIf | jumpBackIf =>
      obtain ⟨_, _, hb⟩ := (step_conditional_eq_ok (by simp [hc, Opcode.isConditional])).mp h
      obtain ⟨rfl, ⟨_, rfl⟩ | ⟨_, _, rfl⟩⟩ := branch_eq_ok.mp hb
      · exact ⟨rfl, by simp, .inl rfl⟩
      · exact ⟨rfl, by simp, .inl rfl⟩
    case guard =>
      have hguard : step prog i pos inTrace = step prog (.ofGuard i.guard) pos inTrace := by
        simp only [step, hc, Instr.ofGuard]
      rw [hguard] at h
      cases inTrace with
      | false => exact absurd h (step_guard_fails rfl)
      | true =>
        rcases step_guard_eq_ok.mp h with ⟨_, rfl, rfl⟩ | ⟨_, rfl, rfl⟩
        · exact ⟨rfl, by simp, .inr (by simp)⟩
        · exact ⟨rfl, by simp, .inr (by simp)⟩

theorem depth_of_step (h : step prog i pos inTrace m = .ok t m') :
    m'.depth + (if i.code = .ret then 1 else 0) = m.depth + (if i.code.isCall then 1 else 0) := by
  unfold Machine.depth
  by_cases hcall : i.code.isCall
  · obtain ⟨f, _, hframes, _⟩ := frames_of_isCall hcall h
    simp [hframes, hcall, Opcode.ne_ret_of_isCall hcall]
  · by_cases hret : i.code = .ret
    · obtain ⟨f, hframes, _⟩ := step_ret_eq_ok hret h
      simp [hframes, hret, Opcode.isCall]
    · simp [(frames_of_other hcall hret h).1, hcall, hret]

end Exec

theorem Event.traced?_switches {e : Event} {j : Instr} (h : e.traced? = some j) :
    j.code.isCall = e.instr.code.isCall ∧ (j.code = .ret ↔ e.instr.code = .ret) := by
  by_cases hc : e.instr.code.isConditional
  · obtain rfl := Option.some.inj ((traced?_conditional hc).symm.trans h)
    cases hcode : e.instr.code <;> simp [hcode, Opcode.isConditional] at hc <;> simp [Instr.ofGuard, Opcode.isCall]
  · rw [(traced?_unconditional h hc).1]
    exact ⟨rfl, Iff.rfl⟩

theorem Path.level_trace {prog : Program} {pos pos' : Position} {m m' : Machine} {vs : List Move}
    (h : Path prog pos m vs pos' m') {base : Nat} (hm : base ≤ m.depth) (hvs : ∀ v ∈ vs, base ≤ v.machine.depth) :
    level (m.depth - base) (Move.trace vs) = some (m'.depth - base) := by
  induction h with
  | nil => rfl
  | @cons pos pos' m m' v vs first goes rest ih =>
    obtain ⟨hv, hvs⟩ := List.forall_mem_cons.mp hvs
    have ih := ih hv hvs
    have hdepth := Exec.depth_of_step first.step
    rw [Move.trace_cons]
    cases htraced : v.event.traced? with
    | none =>
      have hjump : v.instr.code = .skip ∨ v.instr.code = .jumpBack := Event.isJump_of_traced?_none htraced
      have hsame : v.machine.depth = m.depth := by rcases hjump with h | h <;> simpa [h, Opcode.isCall] using hdepth
      rw [Move.trace_of_none htraced, List.nil_append, ← hsame, ih]
    | some j =>
      obtain ⟨hcall, hret⟩ := Event.traced?_switches htraced
      have hdepth : v.machine.depth + (if j.code = .ret then 1 else 0) =
          m.depth + (if j.code.isCall then 1 else 0) := by simpa only [hcall, hret, Move.event] using hdepth
      rw [Move.trace_of_some htraced, List.singleton_append]
      by_cases hc : j.code.isCall
      · rw [if_pos hc, if_neg (Opcode.ne_ret_of_isCall hc)] at hdepth
        rw [level_call hc, ← ih]
        congr 1
        omega
      · by_cases hr : j.code = .ret
        · rw [if_neg hc, if_pos hr] at hdepth
          exact (level_ret hr).mpr ⟨v.machine.depth - base, by omega, ih⟩
        · rw [if_neg hc, if_neg hr] at hdepth
          rw [level_other hc hr, ← ih]
          congr 1
          omega

theorem Round.level_trace {prog : Program} {pos : Position} {m : Machine} {home : Frame} {vs : List Move} {v : Move}
    (h : Round prog pos m home vs v) (hm : m.Separate) : level 0 (Move.trace (vs ++ [v])) = some 0 := by
  obtain ⟨habove, hend⟩ := h.above hm
  have hdeep : ∀ u ∈ vs ++ [v], m.depth ≤ u.machine.depth := by
    intro u hu
    obtain ⟨pushed, ha⟩ := habove u hu
    simp [Machine.depth, ha.frames]
  have hdepth : v.machine.depth = m.depth := by simp [Machine.depth, hend.frames]
  simpa [hdepth] using h.path.level_trace (Nat.le_refl m.depth) hdeep

namespace Lap

variable {prog : Program} {i : Instr} {code rest : List Instr} {base : List Frame} {m : Machine} {k : Nat}

/-- The frames of a replay are those that it began with and, above them, those that it entered, as many as the rest of
the code leaves. -/
structure Poised (base : List Frame) (rest : List Instr) (m : Machine) : Prop where
  pushed : ∃ pushed, m.frames = pushed ++ base ∧ (∀ f ∈ pushed, f.back ≠ none) ∧ level pushed.length rest = some 0

theorem Poised.active (h : Poised base rest m) (hbase : base ≠ []) : m.frames ≠ [] := by
  obtain ⟨pushed, hframes, _⟩ := h
  rw [hframes]
  exact List.append_ne_nil_of_right_ne_nil pushed hbase

theorem Poised.step (h : Poised base (i :: rest) m) (hj : ¬i.code.isJump) {pos : Position} {m' : Machine}
    {t : Transfer} (hs : Exec.step prog i pos true m = .ok t m') :
    Poised base rest m' ∧ t ≠ .stop ∧ ∀ target taken, t ≠ .jump target taken := by
  obtain ⟨pushed, hframes, hback, hlevel⟩ := h
  by_cases hcall : i.code.isCall
  · obtain ⟨f, hf, hpush, rfl⟩ := Exec.frames_of_isCall hcall hs
    rw [level_call hcall] at hlevel
    refine ⟨⟨f :: pushed, by rw [hpush, hframes, List.cons_append], ?_, hlevel⟩, by simp, by simp⟩
    exact List.forall_mem_cons.mpr ⟨by simp [hf], hback⟩
  · by_cases hret : i.code = .ret
    · obtain ⟨d, hd, hlevel⟩ := (level_ret hret).mp hlevel
      obtain ⟨f, hpop, hleave⟩ := Exec.step_ret_eq_ok hret hs
      cases pushed with
      | nil => cases hd
      | cons g pushed =>
        obtain ⟨rfl, htail⟩ := List.cons.inj (hpop.symm.trans hframes)
        obtain ⟨hf, hback⟩ := List.forall_mem_cons.mp hback
        obtain ⟨target, rfl⟩ := hleave hf
        obtain rfl : pushed.length = d := Nat.succ.inj hd
        exact ⟨⟨pushed, htail, hback, hlevel⟩, by simp, by simp⟩
    · obtain ⟨hsame, hstop, hjump⟩ := Exec.frames_of_other hcall hret hs
      rw [level_other hcall hret] at hlevel
      exact ⟨⟨pushed, hsame.trans hframes, hback, hlevel⟩, hstop, hjump.resolve_left hj⟩

theorem Poised.perform (h : Poised base (i :: rest) m) (hbase : base ≠ []) (hj : ¬i.code.isJump) (prog : Program)
    (k : Nat) :
    (∀ s, perform prog i k m = .again s → s.index = k + 1 ∧ Poised base rest s.machine) ∧
      ∀ r f, perform prog i k m = .done r → r.outcome = .fault f → ¬f.cause.OfReplay := by
  have hactive := h.active hbase
  have htop : m.top? = some (m.frames.head hactive) := List.head?_eq_some_head hactive
  unfold Lap.perform
  simp only [htop]
  cases hs : Exec.step prog i (position i (m.frames.head hactive) k) true m with
  | error e m' =>
    refine ⟨by cases e <;> simp, ?_⟩
    intro r f hr hf
    cases e with
    | crash =>
      cases hr
      cases hf
    | fault c =>
      cases hr
      cases hf
      exact Exec.blameless_step prog i _ true m c m' hactive hs
  | ok t m' =>
    obtain ⟨hpoised, hstop, hjump⟩ := h.step hj hs
    constructor
    · intro s hagain
      cases t with
      | next | enter | leave =>
        cases hagain
        exact ⟨rfl, hpoised⟩
      | jump target taken => exact absurd rfl (hjump target taken)
      | stop | guardFailed => cases hagain
    · intro r f hr hf
      cases t with
      | next | enter | leave | jump => cases hr
      | stop => exact absurd rfl hstop
      | guardFailed =>
        cases hr
        cases hf

theorem Poised.turn {first : Instr} {tail : List Instr} {s : Lap} (hlevel : level 0 (first :: tail) = some 0)
    (hj : ∀ i ∈ first :: tail, ¬i.code.isJump) (hbase : base ≠ [])
    (h : Poised base ((first :: tail).drop s.index) s.machine) :
    (∀ s', turn prog first (first :: tail) s = .again s' → Poised base ((first :: tail).drop s'.index) s'.machine) ∧
      ∀ r f, turn prog first (first :: tail) s = .done r → r.outcome = .fault f → ¬f.cause.OfReplay := by
  unfold Lap.turn
  cases hi : (first :: tail)[s.index]? with
  | some i =>
    obtain ⟨hlt, rfl⟩ := List.getElem?_eq_some_iff.mp hi
    rw [List.drop_eq_getElem_cons hlt] at h
    obtain ⟨hagain, hdone⟩ := h.perform hbase (hj _ (List.getElem_mem hlt)) prog s.index
    refine ⟨fun s' hs' => ?_, hdone⟩
    obtain ⟨hindex, hpoised⟩ := hagain s' hs'
    rwa [hindex]
  | none =>
    have hend : (first :: tail).drop s.index = [] := List.drop_eq_nil_of_le (List.getElem?_eq_none_iff.mp hi)
    obtain ⟨pushed, hframes, hback, hempty⟩ := h
    rw [hend] at hempty
    obtain rfl : pushed = [] := List.length_eq_zero_iff.mp (Option.some.inj hempty)
    have hstart : Poised base (first :: tail) s.machine := ⟨[], hframes, by simp, hlevel⟩
    obtain ⟨hagain, hdone⟩ := hstart.perform hbase (hj first List.mem_cons_self) prog 0
    refine ⟨fun s' hs' => ?_, hdone⟩
    obtain ⟨hindex, hpoised⟩ := hagain s' hs'
    rw [hindex]
    exact hpoised

end Lap

theorem Machine.replay_not_ofReplay {code : List Instr} (hlevel : level 0 code = some 0) (hne : code ≠ [])
    (hj : ∀ i ∈ code, ¬i.code.isJump) {m : Machine} (hm : m.frames ≠ []) {prog : Program} {fuel : Nat}
    {r : Ended Guard} (h : m.replay prog fuel code = some r) {f : Fault} (hf : r.outcome = .fault f) :
    ¬f.cause.OfReplay := by
  obtain ⟨first, tail, rfl⟩ := List.exists_cons_of_ne_nil hne
  refine iterate_invariant (P := fun s => Lap.Poised m.frames ((first :: tail).drop s.index) s.machine)
    (Q := fun r => ∀ f, r.outcome = .fault f → ¬f.cause.OfReplay) ?_ ?_ ?_ h f hf
  · intro s t hs ht
    exact (hs.turn hlevel hj hm).1 t ht
  · intro s r hs hr f hf
    exact (hs.turn hlevel hj hm).2 r f hr hf
  · exact ⟨[], rfl, by simp, hlevel⟩

/-- `code` is a trace of the run that `log` tells of: it has no jumps, its guards are the conditional jumps of the run
with the outcomes that were observed, its calls are those of the run with their places, and its returns match them. -/
structure Traces (prog : Program) (log : List Event) (code : List Instr) : Prop where
  straight : ∀ i ∈ code, ¬i.code.isJump
  guards : code.filter (fun i => i.code = .guard) =
    (log.filter fun e => e.instr.code.isConditional).map fun e => .ofGuard ⟨e.taken, e.pos⟩
  recovers : ∀ i ∈ code, i.code = .guard → ∃ j, prog.instr? i.guard.recovery = some j ∧ j.code.isConditional
  calls : code.filter (fun i => i.code.isCall) =
    (log.filter fun e => e.instr.code.isCall).map fun e => { e.instr with site := e.pos }
  sites : ∀ i ∈ code, i.code.isCall → ∃ j, prog.instr? i.site = some j ∧ i = { j with site := i.site }
  balanced : Balanced code

namespace Event

theorem not_isJump_traced {e : Event} {j : Instr} (h : e.traced? = some j) : ¬j.code.isJump := by
  by_cases hc : e.instr.code.isConditional
  · obtain rfl := Option.some.inj ((traced?_conditional hc).symm.trans h)
    simp [Instr.ofGuard, Opcode.isJump]
  · rw [(traced?_unconditional h hc).1]
    exact not_isJump_of_traced? h hc

theorem filter_guard_traced {log : List Event} (hlog : ∀ e ∈ log, e.instr.code ≠ .guard) :
    (log.filterMap traced?).filter (fun i => i.code = .guard) =
      (log.filter fun e => e.instr.code.isConditional).map fun e => .ofGuard ⟨e.taken, e.pos⟩ := by
  rw [List.filter_filterMap, ← List.filterMap_eq_map, List.filterMap_filter]
  apply List.filterMap_congr
  intro e he
  have hguard := hlog e he
  unfold traced?
  cases hc : e.instr.code <;> simp_all [Opcode.isConditional, Option.filter, Instr.ofGuard]

theorem filter_call_traced (log : List Event) :
    (log.filterMap traced?).filter (fun i => i.code.isCall) =
      (log.filter fun e => e.instr.code.isCall).map fun e => { e.instr with site := e.pos } := by
  rw [List.filter_filterMap, ← List.filterMap_eq_map, List.filterMap_filter]
  apply List.filterMap_congr
  intro e _
  unfold traced?
  cases hc : e.instr.code <;> simp [hc, Opcode.isCall, Option.filter, Instr.ofGuard]

end Event

theorem Path.event_instr? {prog : Program} {pos pos' : Position} {m m' : Machine} {vs : List Move}
    (h : Path prog pos m vs pos' m') :
    ∀ e ∈ vs.map Move.event, prog.instr? e.pos = some e.instr ∧ e.instr.code ≠ .guard := by
  induction h with
  | nil => simp
  | cons first _ _ ih =>
    refine List.forall_mem_cons.mpr ⟨⟨?_, ?_⟩, ih⟩
    · rw [first.event_pos]
      exact first.found
    · exact fun hg => Exec.step_guard_fails hg first.step

namespace Traces

variable {prog : Program} {log : List Event} {code : List Instr}

theorem of_log (hlog : ∀ e ∈ log, prog.instr? e.pos = some e.instr ∧ e.instr.code ≠ .guard)
    (hbalanced : Balanced (log.filterMap Event.traced?)) : Traces prog log (log.filterMap Event.traced?) := by
  have hguards := Event.filter_guard_traced fun e he => (hlog e he).2
  have hcalls := Event.filter_call_traced log
  refine ⟨?_, hguards, ?_, hcalls, ?_, hbalanced⟩
  · intro i hi
    obtain ⟨e, _, he⟩ := List.mem_filterMap.mp hi
    exact Event.not_isJump_traced he
  · intro i hi hg
    obtain ⟨e, he, rfl⟩ := List.mem_map.mp (hguards ▸ List.mem_filter.mpr ⟨hi, decide_eq_true hg⟩)
    obtain ⟨he, hc⟩ := List.mem_filter.mp he
    exact ⟨e.instr, (hlog e he).1, hc⟩
  · intro i hi hc
    obtain ⟨e, he, rfl⟩ := List.mem_map.mp (hcalls ▸ List.mem_filter.mpr ⟨hi, hc⟩)
    exact ⟨e.instr, (hlog e (List.mem_filter.mp he).1).1, rfl⟩

theorem eliminate (h : Traces prog log code) (live : List Int64) : Traces prog log (DeadStore.eliminate code live) := by
  refine ⟨?_, ?_, ?_, ?_, ?_, ?_⟩
  · intro i hi
    rcases DeadStore.mem_eliminate hi with rfl | hi
    · simp [Instr.pop, Instr.plain, Opcode.isJump]
    · exact h.straight i hi
  · rw [DeadStore.filter_eliminate, h.guards]
    intro i hi
    rcases DeadStore.code_of_isVolatile hi with hc | hc | hc | hc <;> simp [hc]
  · intro i hi hg
    rcases DeadStore.mem_eliminate hi with rfl | hi
    · cases hg
    · exact h.recovers i hi hg
  · rw [DeadStore.filter_eliminate, h.calls]
    intro i hi
    rcases DeadStore.code_of_isVolatile hi with hc | hc | hc | hc <;> simp [hc, Opcode.isCall]
  · intro i hi hc
    rcases DeadStore.mem_eliminate hi with rfl | hi
    · cases hc
    · exact h.sites i hi hc
  · rw [balanced_iff, level_eliminate]
    exact balanced_iff.mp h.balanced

theorem of_round {pos : Position} {m : Machine} {home : Frame} {vs : List Move} {v : Move}
    (h : Round prog pos m home vs v) (hm : m.Separate) :
    Traces prog ((vs ++ [v]).map Move.event) (((vs ++ [v]).map Move.event).filterMap Event.traced?) := by
  apply of_log h.path.event_instr?
  rw [← Move.trace_eq]
  exact balanced_iff.mpr (h.level_trace hm)

end Traces

/-- Recorded traces, optimized or not, are straight-line code that tells of the run they were recorded from. Replayed
from whatever machine with a frame, they find the frames that they need. -/
theorem recorded_trace_wellFormed {prog : Program} {pos : Position} {m m' : Machine} (hm : m.Separate) {fuel : Nat}
    {log : List Event} (hrecord : m.record prog fuel pos = some ⟨.ok .looped, m', log⟩) {tracer tracer' : Tracer}
    {key : LoopKey} {t : Trace}
    (hfinish : ((tracer.beginRecording key).recordLog log).finish = .ok (some t, tracer')) :
    Traces prog log t.instrs ∧
      ∀ (n : Machine) (prog' : Program) (fuel' : Nat) (r : Ended Guard) (f : Fault), n.frames ≠ [] →
        n.replay prog' fuel' t.instrs = some r → r.outcome = .fault f →
          f.cause ≠ .noFrame ∧ f.cause ≠ .badJump .leftTrace := by
  obtain ⟨home, vs, v, hround, _, rfl⟩ := record_looped_iff.mp ⟨fuel, hrecord⟩
  obtain ⟨_, rfl⟩ := Tracer.finish_recordLog.mp ⟨tracer', hfinish⟩
  have htraces : Traces prog ((vs ++ [v]).map Move.event) (Tracer.ofRecording tracer.optimize
      (((vs ++ [v]).map Move.event).foldl Recording.add { key })).instrs := by
    rw [Tracer.instrs_ofRecording]
    split
    · exact (Traces.of_round hround hm).eliminate _
    · exact Traces.of_round hround hm
  refine ⟨htraces, ?_⟩
  intro n prog' fuel' r f hn hreplay hf
  generalize (Tracer.ofRecording tracer.optimize _).instrs = code at htraces hreplay
  cases code with
  | nil =>
    cases hreplay
    cases hf
    simp
  | cons first rest =>
    have hcause :=
      Machine.replay_not_ofReplay (balanced_iff.mp htraces.balanced) (by simp) htraces.straight hn hreplay hf
    simp only [Cause.OfReplay, not_or] at hcause
    exact ⟨hcause.1, hcause.2.2⟩

def idleDrain : Program where
  table := some
    [some { locals := 5, body := some [.sized .tuple 0, .pop, .load 2, .const (Value.func 1), .plain .call,
      .sized .skipIf 2, .sized .jumpBack 6, .plain .ret] },
    some { params := 1, locals := 1, body := some [.load 0, .const (Value.usize 1), .binary .sub, .store 0,
      .const (Value.ofBool false), .plain .ret] }]

def idleDrainLog : List Event := (seededMachine 2 0).shortLog idleDrain {}

def idleDrainTrace : Trace := Tracer.ofRecording true (idleDrainLog.foldl Recording.add { key := 0 })

def thriftyTracer : Tracer := { Tracer.ofThreshold 0 with optimize := true }

theorem recorded_trace_wellFormed_idleDrain :
    (seededMachine 2 0).Separate ∧
      (seededMachine 2 0).record idleDrain 40 {} =
        some ⟨.ok .looped, { seededMachine 1 0 with made := 2 }, idleDrainLog⟩ ∧
      (∃ tracer', ((thriftyTracer.beginRecording 0).recordLog idleDrainLog).finish =
        .ok (some idleDrainTrace, tracer')) ∧
      Traces idleDrain idleDrainLog idleDrainTrace.instrs ∧ callCount idleDrainTrace.instrs = 1 ∧
        idleDrainTrace.instrs.length + 2 = (idleDrainLog.filterMap Event.traced?).length := by
  have hm := seededMachine_separate 2 0
  have hrecord : (seededMachine 2 0).record idleDrain 40 {} =
      some ⟨.ok .looped, { seededMachine 1 0 with made := 2 }, idleDrainLog⟩ := by decide +kernel
  have hfinish : ∃ tracer', ((thriftyTracer.beginRecording 0).recordLog idleDrainLog).finish =
      .ok (some idleDrainTrace, tracer') :=
    Tracer.finish_recordLog.mpr ⟨by decide +kernel, rfl⟩
  obtain ⟨htraces, _⟩ := recorded_trace_wellFormed hm hrecord hfinish.choose_spec
  exact ⟨hm, hrecord, hfinish, htraces, by decide +kernel, by decide +kernel⟩

end HotLoop
