import HotLoop.Machine.Replay
import HotLoop.Proofs.Frames

namespace HotLoop

def Instr.destination (i : Instr) (pos : Position) : Int64 :=
  match i.code with
  | .skip | .skipIf => pos.pc + i.n
  | _ => pos.pc - i.n

namespace Machine

def dropTop (m : Machine) : Machine := { m with stack := m.stack.tail }

def condition? (prog : Program) (m : Machine) : Option Bool :=
  match m.stack.head?.bind m.heap.materialize? with
  | none => none
  | some v =>
    match prog.resolve v with
    | .ok w => if w.kind = .bool then some w.bool else none
    | .error _ => none

theorem condition?_eq_some {prog : Program} {m : Machine} {b : Bool} :
    m.condition? prog = some b ↔ ∃ x rest v w, m.stack = x :: rest ∧ m.heap.materialize? x = some v ∧
      prog.resolve v = .ok w ∧ w.kind = .bool ∧ w.bool = b := by
  unfold condition?
  constructor
  · intro h
    cases hs : m.stack with
    | nil => simp [hs] at h
    | cons x rest =>
      simp only [hs, List.head?_cons, Option.bind_some] at h
      cases hv : m.heap.materialize? x with
      | none => simp [hv] at h
      | some v =>
        cases hw : prog.resolve v with
        | error c => simp [hv, hw] at h
        | ok w =>
          by_cases hk : w.kind = .bool
          · simp only [hv, hw, hk, ↓reduceIte, Option.some.injEq] at h
            exact ⟨x, rest, v, w, rfl, hv, hw, hk, h⟩
          · simp [hv, hw, hk] at h
  · rintro ⟨x, rest, v, w, hs, hv, hw, hk, hb⟩
    simp [hs, hv, hw, hk, hb]

end Machine

namespace Exec

variable {α : Type}

@[simp] theorem pure_apply (a : α) (m : Machine) : (pure a : Exec α) m = .ok a m := rfl

@[simp] theorem fault_apply (c : Cause) (m : Machine) : (fault c : Exec α) m = .error (.fault c) m := rfl

@[simp] theorem crash_apply (m : Machine) : (crash : Exec α) m = .error .crash m := rfl

theorem valueOf_apply (prog : Program) (x : Operand) (m : Machine) :
    valueOf prog x m = match m.heap.materialize? x with
      | none => .error .crash m
      | some v =>
        match prog.resolve v with
        | .ok w => .ok w m
        | .error c => .error (.fault c) m := by
  have hm : materialize x m = ofOption (m.heap.materialize? x) m := rfl
  rw [valueOf, bind_apply, hm]
  cases m.heap.materialize? x with
  | none => rfl
  | some v =>
    change ofExcept (prog.resolve v) m = _
    cases hw : prog.resolve v <;> simp [ofExcept, hw]

theorem pop_nil {m : Machine} (h : m.stack = []) : pop m = .error (.fault .underflow) m := by
  cases m
  subst h
  rfl

theorem pop_cons {m : Machine} {x : Operand} {rest : List Operand} (h : m.stack = x :: rest) :
    pop m = .ok x { m with stack := rest } := by
  cases m
  subst h
  rfl

theorem popValue_cons {m : Machine} {x : Operand} {rest : List Operand} (prog : Program)
    (h : m.stack = x :: rest) : popValue prog m = valueOf prog x { m with stack := rest } := by
  rw [popValue, bind_apply, pop_cons h]

theorem popValue_nil {m : Machine} (prog : Program) (h : m.stack = []) :
    popValue prog m = .error (.fault .underflow) m := by
  rw [popValue, bind_apply, pop_nil h]

theorem peek_apply (m : Machine) : peek m = require .underflow m.stack.head? m := rfl

theorem peekValue_cons {m : Machine} {x : Operand} {rest : List Operand} (prog : Program)
    (h : m.stack = x :: rest) : peekValue prog m = valueOf prog x m := by
  rw [peekValue, bind_apply, peek_apply, h]
  rfl

theorem peekValue_nil {m : Machine} (prog : Program) (h : m.stack = []) :
    peekValue prog m = .error (.fault .underflow) m := by
  rw [peekValue, bind_apply, peek_apply, h]
  rfl

def popCondition (prog : Program) : Exec Bool := popValue prog >>= asBool

def peekCondition (prog : Program) : Exec Bool := peekValue prog >>= asBool

theorem valueOf_eq_ok {prog : Program} {x : Operand} {m m' : Machine} {w : Value} :
    valueOf prog x m = .ok w m' ↔ (∃ v, m.heap.materialize? x = some v ∧ prog.resolve v = .ok w) ∧ m' = m := by
  rw [valueOf_apply]
  cases hv : m.heap.materialize? x with
  | none => simp
  | some v => cases hw : prog.resolve v <;> simp [hw, eq_comm]

theorem valueOf_eq_fault {prog : Program} {x : Operand} {m m' : Machine} {c : Cause} :
    valueOf prog x m = .error (.fault c) m' ↔
      (∃ v, m.heap.materialize? x = some v ∧ prog.resolve v = .error c) ∧ m' = m := by
  rw [valueOf_apply]
  cases hv : m.heap.materialize? x with
  | none => simp
  | some v => cases hw : prog.resolve v <;> simp [hw, eq_comm]

theorem asBool_eq_ok {v : Value} {m m' : Machine} {b : Bool} :
    asBool v m = .ok b m' ↔ v.kind = .bool ∧ v.bool = b ∧ m' = m := by
  by_cases hk : v.kind = .bool <;> simp [asBool, hk, eq_comm]

theorem popCondition_eq_ok {prog : Program} {m m' : Machine} {b : Bool} :
    popCondition prog m = .ok b m' ↔ m.condition? prog = some b ∧ m' = m.dropTop := by
  rw [popCondition, bind_eq_ok, Machine.condition?_eq_some]
  cases hs : m.stack with
  | nil => simp [popValue_nil prog hs]
  | cons x rest =>
    rw [popValue_cons prog hs]
    simp only [valueOf_eq_ok, asBool_eq_ok, Machine.dropTop, hs, List.tail_cons]
    constructor
    · rintro ⟨w, m₁, ⟨⟨v, hv, hw⟩, rfl⟩, hk, hb, rfl⟩
      exact ⟨⟨x, rest, v, w, rfl, hv, hw, hk, hb⟩, rfl⟩
    · rintro ⟨⟨x, rest, v, w, he, hv, hw, hk, hb⟩, rfl⟩
      cases he
      exact ⟨w, _, ⟨⟨v, hv, hw⟩, rfl⟩, hk, hb, rfl⟩

theorem peekCondition_eq_ok {prog : Program} {m m' : Machine} {b : Bool} :
    peekCondition prog m = .ok b m' ↔ m.condition? prog = some b ∧ m' = m := by
  rw [peekCondition, bind_eq_ok, Machine.condition?_eq_some]
  cases hs : m.stack with
  | nil => simp [peekValue_nil prog hs]
  | cons x rest =>
    rw [peekValue_cons prog hs]
    simp only [valueOf_eq_ok, asBool_eq_ok]
    constructor
    · rintro ⟨w, m₁, ⟨⟨v, hv, hw⟩, rfl⟩, hk, hb, rfl⟩
      exact ⟨⟨x, rest, v, w, rfl, hv, hw, hk, hb⟩, rfl⟩
    · rintro ⟨⟨x, rest, v, w, he, hv, hw, hk, hb⟩, rfl⟩
      cases he
      exact ⟨w, _, ⟨⟨v, hv, hw⟩, rfl⟩, hk, hb, rfl⟩

def branch (i : Instr) (pos : Position) (taken : Bool) : Exec Transfer :=
  if taken then jumpTo pos.func (i.destination pos) true else pure .next

theorem step_jump {i : Instr} (hi : i.code = .skip ∨ i.code = .jumpBack) (prog : Program) (pos : Position)
    (inTrace : Bool) : step prog i pos inTrace = jumpTo pos.func (i.destination pos) false := by
  rcases hi with hi | hi <;> simp [step, hi, Instr.destination]

theorem step_conditional {i : Instr} (hi : i.code.isConditional) (prog : Program) (pos : Position)
    (inTrace : Bool) : step prog i pos inTrace = popCondition prog >>= branch i pos := by
  have hb : branch i pos = fun taken => if taken then jumpTo pos.func (i.destination pos) true else pure .next :=
    rfl
  rw [popCondition, hb]
  cases hc : i.code <;> simp [hc, Opcode.isConditional] at hi <;>
    simp [step, hc, Instr.destination]

theorem step_guard (prog : Program) (g : Guard) (pos : Position) :
    step prog (Instr.ofGuard g) pos true = peekCondition prog >>= fun cond =>
      if cond = g.expected then modify Machine.dropTop >>= fun _ => pure .next else pure .guardFailed := by
  have hs : step prog (Instr.ofGuard g) pos true = guard prog g true := rfl
  rw [hs, guard, peekCondition]
  simp
  rfl

theorem step_guard_eq_ok {prog : Program} {g : Guard} {pos : Position} {m m' : Machine} {t : Transfer} :
    step prog (Instr.ofGuard g) pos true m = .ok t m' ↔
      (m.condition? prog = some g.expected ∧ t = .next ∧ m' = m.dropTop) ∨
        (m.condition? prog = some !g.expected ∧ t = .guardFailed ∧ m' = m) := by
  rw [step_guard, bind_eq_ok]
  simp only [peekCondition_eq_ok]
  constructor
  · rintro ⟨c, _, ⟨hc, rfl⟩, h⟩
    by_cases he : c = g.expected
    · rw [if_pos he] at h
      cases h
      exact .inl ⟨he ▸ hc, rfl, rfl⟩
    · rw [if_neg he] at h
      cases h
      exact .inr ⟨by rw [hc, Bool.eq_not_of_ne he], rfl, rfl⟩
  · rintro (⟨hc, rfl, rfl⟩ | ⟨hc, rfl, rfl⟩)
    · exact ⟨_, m, ⟨hc, rfl⟩, by simp; rfl⟩
    · exact ⟨_, _, ⟨hc, rfl⟩, by simp⟩

theorem step_conditional_eq_ok {i : Instr} (hi : i.code.isConditional) {prog : Program} {pos : Position}
    {inTrace : Bool} {m m' : Machine} {t : Transfer} :
    step prog i pos inTrace m = .ok t m' ↔
      ∃ c, m.condition? prog = some c ∧ branch i pos c m.dropTop = .ok t m' := by
  rw [step_conditional hi, bind_eq_ok]
  simp only [popCondition_eq_ok]
  constructor
  · rintro ⟨c, _, ⟨hc, rfl⟩, h⟩
    exact ⟨c, hc, h⟩
  · rintro ⟨c, hc, h⟩
    exact ⟨c, _, ⟨hc, rfl⟩, h⟩

theorem jumpTo_eq_ok {func pc : Int64} {taken : Bool} {m m' : Machine} {t : Transfer} :
    jumpTo func pc taken m = .ok t m' ↔ ¬pc < 0 ∧ t = .jump ⟨func, pc⟩ taken ∧ m' = m := by
  unfold jumpTo
  by_cases h : pc < 0 <;> simp [h, eq_comm]

theorem branch_eq_ok {i : Instr} {pos : Position} {taken : Bool} {m m' : Machine} {t : Transfer} :
    branch i pos taken m = .ok t m' ↔ m' = m ∧
      (taken = false ∧ t = .next ∨
        taken = true ∧ ¬i.destination pos < 0 ∧ t = .jump ⟨pos.func, i.destination pos⟩ true) := by
  cases taken with
  | false => simp [branch, eq_comm, and_comm]
  | true => simp [branch, jumpTo_eq_ok, and_left_comm, and_comm]

theorem leave_eq_ok {m m' : Machine} {t : Transfer} :
    leave m = .ok t m' ↔ ∃ f rest, m.frames = f :: rest ∧ m' = { m with frames := rest } ∧
      t = match f.back with
        | none => .stop
        | some target => .leave target := by
  rcases m with ⟨heap, stack, _ | ⟨f, rest⟩, made⟩
  · constructor
    · intro h
      cases h
    · rintro ⟨f, rest, h, _⟩
      cases h
  · have hl : leave ⟨heap, stack, f :: rest, made⟩ = .ok (match f.back with
        | none => .stop
        | some target => .leave target) ⟨heap, stack, rest, made⟩ := by
      cases f with
      | mk serial func locals back => cases back <;> rfl
    rw [hl]
    constructor
    · intro h
      cases h
      exact ⟨f, rest, rfl, rfl, rfl⟩
    · rintro ⟨f', rest', hf, rfl, rfl⟩
      cases hf
      rfl

theorem check_passed {c : Prop} [Decidable c] {stop : Exec PUnit} (hs : ∀ a m m', stop m ≠ .ok a m')
    {x : Exec α} {m m' : Machine} {a : α} (h : (if c then stop >>= fun _ => x else x) m = .ok a m') :
    ¬c ∧ x m = .ok a m' := by
  by_cases hc : c
  · rw [if_pos hc] at h
    obtain ⟨u, m₁, hu, _⟩ := bind_eq_ok.mp h
    exact absurd hu (hs u m m₁)
  · rw [if_neg hc] at h
    exact ⟨hc, h⟩

theorem check_eq_ok {c : Prop} [Decidable c] {stop : Exec PUnit} (hs : ∀ a m m', stop m ≠ .ok a m')
    {x : Exec α} {m m' : Machine} {a : α} (h : (if c then stop >>= fun _ => x else x) m = .ok a m') :
    x m = .ok a m' :=
  (check_passed hs h).2

theorem enter_frame {func : Int64} {back : Position} {arguments : Exec (List CellId)} {n : Nat}
    (ha : KeepsFrames arguments) {m m' : Machine} {t : Transfer}
    (h : (do
      let cells ← arguments
      let fresh ← allocUnits n
      pushFrame (← makeFrame func (cells ++ fresh) (some back))
      return .enter ⟨func, 0⟩ : Exec Transfer) m = .ok t m') :
    ∃ f : Frame, f.serial = m.made ∧ f.func = func ∧ f.back = some back ∧ m'.frames = f :: m.frames ∧
      m'.made = m.made + 1 ∧ t = .enter ⟨func, 0⟩ := by
  obtain ⟨cells, m₁, h₁, h⟩ := bind_eq_ok.mp h
  obtain ⟨fresh, m₂, h₂, h⟩ := bind_eq_ok.mp h
  have hk₁ := ha.of_ok h₁
  have hk₂ := (keepsFrames_allocUnits n).of_ok h₂
  cases h
  exact ⟨⟨m₂.made, func, cells ++ fresh, some back⟩, hk₂.2.trans hk₁.2, rfl, rfl,
    congrArg _ (hk₂.1.trans hk₁.1), congrArg (· + 1) (hk₂.2.trans hk₁.2), rfl⟩

theorem enter_eq_ok {prog : Program} {func : Int64} {back : Position} {args : Bool} {m m' : Machine}
    {t : Transfer} (h : enter prog func back args m = .ok t m') :
    ∃ f : Frame, f.serial = m.made ∧ f.func = func ∧ f.back = some back ∧ m'.frames = f :: m.frames ∧
      m'.made = m.made + 1 ∧ t = .enter ⟨func, 0⟩ := by
  obtain ⟨fn, m₁, h₁, h⟩ := bind_eq_ok.mp h
  have hk₁ := (keepsFrames_require _ _).of_ok h₁
  have h := check_eq_ok (by simp) h
  obtain ⟨size, m₂, h₂, h⟩ := bind_eq_ok.mp h
  have hk₂ := (keepsFrames_ofOption _).of_ok h₂
  have h := check_eq_ok (by simp) h
  have hf := enter_frame (keepsFrames_popArguments _ _) h
  simpa only [hk₂.1, hk₁.1, hk₂.2, hk₁.2] using hf

inductive Flow (i : Instr) (pos : Position) (m m' : Machine) : Transfer → Prop
  | next (code : i.code.isPlain || i.code.isConditional) (frames : m'.frames = m.frames) (made : m'.made = m.made) :
    Flow i pos m m' .next
  | jump (code : i.code.isJump) (frames : m'.frames = m.frames) (made : m'.made = m.made) :
    Flow i pos m m' (.jump ⟨pos.func, i.destination pos⟩ i.code.isConditional)
  | enter (code : i.code.isCall) (f : Frame) (serial : f.serial = m.made) (back : f.back = some pos.next)
    (frames : m'.frames = f :: m.frames) (made : m'.made = m.made + 1) : Flow i pos m m' (.enter ⟨f.func, 0⟩)
  | leave (f : Frame) (rest : List Frame) (target : Position) (back : f.back = some target)
    (popped : m.frames = f :: rest) (frames : m'.frames = rest) (made : m'.made = m.made) :
    Flow i pos m m' (.leave target)
  | stop (f : Frame) (rest : List Frame) (back : f.back = none) (popped : m.frames = f :: rest)
    (frames : m'.frames = rest) (made : m'.made = m.made) : Flow i pos m m' .stop

theorem flow_enter {prog : Program} {i : Instr} {func : Int64} {pos : Position} {args : Bool} {m m₀ m' : Machine}
    {t : Transfer} (hc : i.code.isCall) (h : enter prog func pos.next args m₀ = .ok t m') (hf : m₀.frames = m.frames)
    (hm : m₀.made = m.made) : Flow i pos m m' t := by
  obtain ⟨f, hs, hfunc, hb, hframes, hmade, rfl⟩ := enter_eq_ok h
  rw [← hfunc]
  exact .enter hc f (hs.trans hm) hb (by rw [hframes, hf]) (by rw [hmade, hm])

theorem flow_leave {i : Instr} {pos : Position} {m m' : Machine} {t : Transfer} (h : leave m = .ok t m') :
    Flow i pos m m' t := by
  obtain ⟨f, rest, hf, rfl, rfl⟩ := leave_eq_ok.mp h
  cases hb : f.back with
  | none => exact .stop f rest hb hf rfl rfl
  | some target => exact .leave f rest target hb hf rfl rfl

theorem step_call_eq_ok {prog : Program} {i : Instr} (hc : i.code = .call) {pos : Position} {inTrace : Bool}
    {m m' : Machine} {t : Transfer} (h : step prog i pos inTrace m = .ok t m') :
    ∃ f m₀, popValue prog m = .ok f m₀ ∧ enter prog f.index pos.next true m₀ = .ok t m' := by
  simp only [step, hc] at h
  obtain ⟨f, m₀, h₀, h⟩ := bind_eq_ok.mp h
  exact ⟨f, m₀, h₀, check_eq_ok (by simp) h⟩

theorem frames_of_isCall {prog : Program} {i : Instr} (hc : i.code.isCall) {pos : Position} {inTrace : Bool}
    {m m' : Machine} {t : Transfer} (h : step prog i pos inTrace m = .ok t m') :
    ∃ f : Frame, f.back = some pos.next ∧ m'.frames = f :: m.frames ∧ t = .enter ⟨f.func, 0⟩ := by
  cases hcode : i.code <;> simp only [hcode, Opcode.isCall, Bool.false_eq_true] at hc
  case call =>
    obtain ⟨v, m₀, h₀, he⟩ := step_call_eq_ok hcode h
    obtain ⟨f, _, hfunc, hback, hframes, _, ht⟩ := enter_eq_ok he
    exact ⟨f, hback, hframes.trans (congrArg _ ((keepsFrames_popValue prog).of_ok h₀).1), hfunc ▸ ht⟩
  case static =>
    simp only [step, hcode] at h
    obtain ⟨f, _, hfunc, hback, hframes, _, ht⟩ := enter_eq_ok h
    exact ⟨f, hback, hframes, hfunc ▸ ht⟩

theorem step_flow {prog : Program} {i : Instr} {pos : Position} {m m' : Machine} {t : Transfer}
    (h : step prog i pos false m = .ok t m') : Flow i pos m m' t := by
  by_cases hp : i.code.isPlain
  · have hplain := plain_step hp prog pos false
    obtain ⟨hf, hm⟩ := hplain.keeps.of_ok h
    cases hplain.next h
    exact .next (by simp [hp]) hf hm
  · cases hc : i.code <;> simp [hc, Opcode.isPlain] at hp
    case skip | jumpBack =>
      rw [step_jump (by simp [hc])] at h
      obtain ⟨_, rfl, rfl⟩ := jumpTo_eq_ok.mp h
      have hcond : i.code.isConditional = false := by simp [hc, Opcode.isConditional]
      exact hcond ▸ .jump (by simp [hc, Opcode.isJump]) rfl rfl
    case skipIf | jumpBackIf =>
      have hcond : i.code.isConditional = true := by simp [hc, Opcode.isConditional]
      obtain ⟨c, _, hb⟩ := (step_conditional_eq_ok hcond).mp h
      obtain ⟨rfl, ⟨_, rfl⟩ | ⟨_, _, rfl⟩⟩ := branch_eq_ok.mp hb
      · exact .next (by simp [hcond]) rfl rfl
      · exact hcond ▸ .jump (by simp [hc, Opcode.isJump]) rfl rfl
    case call =>
      obtain ⟨f, m₀, h₀, he⟩ := step_call_eq_ok hc h
      obtain ⟨hf, hm⟩ := (keepsFrames_popValue prog).of_ok h₀
      exact flow_enter (by simp [hc, Opcode.isCall]) he hf hm
    case static =>
      simp only [step, hc] at h
      exact flow_enter (by simp [hc, Opcode.isCall]) h rfl rfl
    case ret =>
      simp only [step, hc] at h
      exact flow_leave h
    case guard =>
      -- outside of a trace a guard only faults
      simp only [step, hc, guard] at h
      cases h

end Exec

end HotLoop
