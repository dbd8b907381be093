import HotLoop.Proofs.Checked

namespace HotLoop

namespace Exec

variable {n : Nat} {A : Prop} {prog : Program}

theorem keeps_newFrame {func : Int64}
    (h : ∀ f, prog.function? func = some f → Heap.blockSize? f.locals = none → A) :
    Keeps n A (fun n f => ∀ c ∈ f.locals, c.toNat < n) (newFrame prog func) := by
  unfold newFrame
  cases hf : prog.function? func with
  | none => exact keeps_bind (R := fun _ _ => False) (keeps_fault (by simp)) fun _ _ _ h => h.elim
  | some f =>
    apply keeps_bind (R := fun _ g => g = f) (keeps_pure fun _ _ => rfl)
    intro n₁ g _ hg
    subst g
    apply keeps_bind (keeps_blockSize (h _ hf))
    intro n₂ size _ _
    apply keeps_bind (keeps_allocUnits size)
    intro n₃ cells _ hcells
    exact keeps_makeFrame hcells func none

theorem keeps_storeWords {cells : List CellId} (h : ∀ c ∈ cells, c.toNat < n) (words : List UInt64) :
    Keeps n A (fun _ _ => True) (Engine.storeWords cells words) := by
  induction cells generalizing n words with
  | nil => exact keeps_pure fun _ _ => trivial
  | cons c cells ih =>
    cases words with
    | nil => exact keeps_pure fun _ _ => trivial
    | cons w words =>
      obtain ⟨hc, hcells⟩ := List.forall_mem_cons.mp h
      apply keeps_bind (keeps_store hc (.of_isPrimitive rfl))
      intro n₁ _ h₁ _
      exact ih (fun c hc => Nat.lt_of_lt_of_le (hcells c hc) h₁) words

theorem keeps_getLocal {f : Frame} (h : ∀ c ∈ f.locals, c.toNat < n) {slot : Nat} (hs : slot < f.locals.length) :
    Keeps n A (fun n c => c.toNat < n) (ofOption f.locals[slot]?) := by
  rw [List.getElem?_eq_getElem hs]
  exact keeps_pure fun n' hn' => Nat.lt_of_lt_of_le (h _ (List.getElem_mem hs)) hn'

theorem keeps_setLocal {α : Type} {R : Nat → α → Prop} {f : Frame} (h : ∀ c ∈ f.locals, c.toNat < n) {slot : Nat}
    (hs : slot < f.locals.length) {v : Value} (hv : v.Within n) {x : Exec α} (hx : ∀ n', n ≤ n' → Keeps n' A R x) :
    Keeps n A R (do store (← ofOption f.locals[slot]?) v; x) := by
  apply keeps_bind (keeps_getLocal h hs)
  intro n₁ c h₁ hc
  apply keeps_bind (keeps_store hc (hv.mono h₁))
  intro n₂ _ h₂ _
  exact hx n₂ (Nat.le_trans h₁ h₂)

theorem keeps_seed {pos : Position} {user : List UInt64}
    (h : ∀ f, prog.function? pos.func = some f → Heap.blockSize? f.locals = none → A)
    (hu : Heap.blockSize? (wordLength user) = none → A) (pc cell : UInt64) :
    Keeps n A (fun n f => Engine.slotsNeeded ≤ f.locals.length ∧ ∀ c ∈ f.locals, c.toNat < n)
      (Engine.seed prog pos user pc cell) := by
  apply keeps_bind (keeps_newFrame h)
  intro n₁ f _ hf
  apply keeps_check (by simp)
  intro hlength
  have hslots : Engine.slotsNeeded ≤ f.locals.length := Nat.le_of_not_lt hlength
  apply keeps_bind (keeps_newRecord hu)
  rintro n₂ r h₂ ⟨hk, hr⟩
  apply keeps_bind (keeps_storeWords hr user)
  intro n₃ _ h₃ _
  have hlocals : ∀ n', n₃ ≤ n' → ∀ c ∈ f.locals, c.toNat < n' := fun n' hn' c hc =>
    Nat.lt_of_lt_of_le (hf c hc) (Nat.le_trans h₂ (Nat.le_trans h₃ hn'))
  have hrecord : r.Within n₃ := ⟨fun _ c hc => Nat.lt_of_lt_of_le (hr c hc) h₃, fun hp => by cases hk.symm.trans hp⟩
  simp only [Engine.slotsNeeded] at hslots
  apply keeps_setLocal (hlocals _ (Nat.le_refl _)) (by simp only [Engine.programSlot]; omega) hrecord
  intro n₄ h₄
  apply keeps_setLocal (hlocals _ h₄) (by simp only [Engine.cellSlot]; omega) (.of_isPrimitive rfl)
  intro n₅ h₅
  apply keeps_setLocal (hlocals _ (Nat.le_trans h₄ h₅)) (by simp only [Engine.pcSlot]; omega) (.of_isPrimitive rfl)
  intro n₆ h₆
  have hcells := hlocals n₆ (Nat.le_trans h₄ (Nat.le_trans h₅ h₆))
  apply keeps_bind (keeps_pushFrame hcells)
  intro n₇ _ h₇ _
  exact keeps_pure fun n' hn' =>
    ⟨hslots, fun c hc => Nat.lt_of_lt_of_le (hcells c hc) (Nat.le_trans h₇ hn')⟩

end Exec

inductive Makes (prog : Program) : Exec Frame → Prop
  | newFrame (func : Int64) : Makes prog (Exec.newFrame prog func)
  | seed (pos : Position) (user : List UInt64) (pc cell : UInt64) : Makes prog (Engine.seed prog pos user pc cell)

/-- The machines that a caller can reach, with the frames that it holds. A run may have any window, so that this covers
execution, recording and the completion of an iteration, and each call may end with a fault or a crash. -/
inductive Reached (prog : Program) : Machine → List Frame → Prop
  | fresh : Reached prog {} []
  | make {m m' : Machine} {fs : List Frame} {x : Exec Frame} {f : Frame} (before : Reached prog m fs)
    (makes : Makes prog x) (made : x m = .ok f m') : Reached prog m' (f :: fs)
  | fail {m m' : Machine} {fs : List Frame} {x : Exec Frame} {e : Stop} (before : Reached prog m fs)
    (makes : Makes prog x) (failed : x m = .error e m') : Reached prog m' fs
  | hold {m : Machine} {fs : List Frame} {f : Frame} (before : Reached prog m fs) (top : m.top? = some f) :
    Reached prog m (f :: fs)
  | push {m : Machine} {fs : List Frame} {f : Frame} (before : Reached prog m fs) (held : f ∈ fs) :
    Reached prog { m with frames := f :: m.frames } fs
  | run {m : Machine} {fs : List Frame} {w : Window} {fuel : Nat} {start : Position} {r : Ended Exit}
    (before : Reached prog m fs) (ended : m.run prog w fuel start = some r) : Reached prog r.machine fs
  | replay {m : Machine} {fs : List Frame} {fuel : Nat} {code : List Instr} {r : Ended Guard}
    (before : Reached prog m fs) (primitive : ∀ i ∈ code, i.Primitive) (ended : m.replay prog fuel code = some r) :
    Reached prog r.machine fs

def Machine.Grows (m m' : Machine) : Prop := m'.Closed ∧ m.heap.size ≤ m'.heap.size

theorem Machine.Closed.grows {m : Machine} (h : m.Closed) : m.Grows m := ⟨h, Nat.le_refl _⟩

theorem Machine.Grows.trans {m m' m'' : Machine} (h : m.Grows m') (h' : m'.Grows m'') : m.Grows m'' :=
  ⟨h'.1, Nat.le_trans h.2 h'.2⟩

theorem Exec.Kept.grows {α : Type} {m : Machine} {A : Prop} {R : Nat → α → Prop} {x : Exec α} (h : Kept m A R x) :
    m.Grows (after x m) :=
  ⟨h.closed, h.size⟩

namespace Walk

open Exec

variable {prog : Program} {w : Window} {home root : Frame} {s : Walk}

theorem machine_of_again {s' : Walk} (h : turn prog w home root s = .again s') :
    ∃ i, prog.instr? s.pos = some i ∧ s'.machine = after (step prog i s.pos false) s.machine := by
  obtain ⟨v, hv, _, rfl⟩ := turn_eq_again.mp h
  exact ⟨v.instr, hv.found, by simp only [after, hv.step]⟩

theorem machine_of_done {r : Ended Exit} (h : turn prog w home root s = .done r) :
    (r.machine = s.machine ∧ r.outcome = .fault { pos := s.pos, cause := .badJump (.nowhere s.pos) }) ∨
      ∃ i, prog.instr? s.pos = some i ∧ r.machine = after (step prog i s.pos false) s.machine ∧
        (r.outcome = .crash → step prog i s.pos false s.machine = .error .crash r.machine) := by
  unfold turn at h
  cases hi : prog.instr? s.pos with
  | none =>
    simp only [hi, Turn.done.injEq] at h
    subst h
    exact .inl ⟨rfl, rfl⟩
  | some i =>
    refine .inr ⟨i, rfl, ?_⟩
    unfold after
    cases hs : step prog i s.pos false s.machine with
    | error e m =>
      cases e with
      | crash =>
        simp only [hi, hs, Turn.done.injEq] at h
        subst h
        exact ⟨rfl, fun _ => rfl⟩
      | fault c =>
        simp only [hi, hs, Turn.done.injEq] at h
        subst h
        exact ⟨rfl, nofun⟩
    | ok t m =>
      simp only [hi, hs] at h
      split at h
      · cases h
        exact ⟨rfl, nofun⟩
      · split at h
        · cases h
          exact ⟨rfl, nofun⟩
        · cases h

theorem grows (hprog : prog.Primitive) (hs : s.machine.Closed) {i : Instr} (hi : prog.instr? s.pos = some i) :
    s.machine.Grows (after (step prog i s.pos false) s.machine) := by
  obtain ⟨f, hf, hmem⟩ := Program.mem_of_instr? hi
  exact (step_kept hprog (hprog f hf i hmem) s.pos false hs).grows

theorem grows_of_again (hprog : prog.Primitive) (hs : s.machine.Closed) {s' : Walk}
    (h : turn prog w home root s = .again s') : s.machine.Grows s'.machine := by
  obtain ⟨i, hi, hm⟩ := machine_of_again h
  exact hm ▸ grows hprog hs hi

theorem grows_of_done (hprog : prog.Primitive) (hs : s.machine.Closed) {r : Ended Exit}
    (h : turn prog w home root s = .done r) : s.machine.Grows r.machine := by
  obtain ⟨hm, _⟩ | ⟨i, hi, hm, _⟩ := machine_of_done h
  · rw [hm]
    exact hs.grows
  · exact hm ▸ grows hprog hs hi

theorem grows_of_advance (hprog : prog.Primitive) (hs : s.machine.Closed) {n : Nat} {s' : Walk}
    (h : advance (turn prog w home root) n s = some s') : s.machine.Grows s'.machine := by
  refine advance_invariant (P := fun t => s.machine.Grows t.machine) ?_ hs.grows h
  intro t u ht hu
  exact ht.trans (grows_of_again hprog ht.1 hu)

end Walk

theorem Machine.run_grows {prog : Program} (hprog : prog.Primitive) {m : Machine} (hm : m.Closed) {w : Window}
    {fuel : Nat} {start : Position} {r : Ended Exit} (h : m.run prog w fuel start = some r) : m.Grows r.machine := by
  unfold Machine.run at h
  split at h
  · refine iterate_invariant (P := fun s => m.Grows s.machine) (Q := fun r => m.Grows r.machine) ?_ ?_
      hm.grows h
    · intro s t hs ht
      exact hs.trans (Walk.grows_of_again hprog hs.1 ht)
    · intro s r hs hr
      exact hs.trans (Walk.grows_of_done hprog hs.1 hr)
  · cases h
    exact hm.grows

namespace Lap

open Exec

variable {prog : Program} {i : Instr} {k : Nat} {m : Machine}

theorem machine_of_again {s : Lap} (h : perform prog i k m = .again s) :
    ∃ pos, s.machine = after (step prog i pos true) m := by
  obtain ⟨f, t, _, hs, _⟩ := perform_eq_again h
  exact ⟨position i f k, by simp only [after, hs]⟩

theorem machine_of_done {r : Ended Guard} (h : perform prog i k m = .done r) :
    (r.machine = m ∧ r.outcome ≠ .crash) ∨
      ∃ pos, r.machine = after (step prog i pos true) m ∧
        (r.outcome = .crash → step prog i pos true m = .error .crash r.machine) := by
  unfold perform at h
  cases htop : m.top? with
  | none =>
    simp only [htop, Turn.done.injEq] at h
    subst h
    exact .inl ⟨rfl, nofun⟩
  | some f =>
    refine .inr ⟨position i f k, ?_⟩
    unfold after
    cases hs : step prog i (position i f k) true m with
    | error e m' =>
      cases e with
      | crash =>
        simp only [htop, hs, Turn.done.injEq] at h
        subst h
        exact ⟨rfl, fun _ => rfl⟩
      | fault c =>
        simp only [htop, hs, Turn.done.injEq] at h
        subst h
        exact ⟨rfl, nofun⟩
    | ok t m' =>
      simp only [htop, hs] at h
      cases t with
      | stop | guardFailed =>
        cases h
        exact ⟨rfl, nofun⟩
      | next | enter | leave | jump => cases h

theorem exists_turn_eq (prog : Program) {first : Instr} {code : List Instr} (hfirst : first ∈ code) (s : Lap) :
    ∃ i ∈ code, ∃ k, turn prog first code s = perform prog i k s.machine := by
  unfold turn
  cases hi : code[s.index]? with
  | none => exact ⟨first, hfirst, 0, rfl⟩
  | some i => exact ⟨i, List.mem_of_getElem? hi, s.index, rfl⟩

theorem grows_of_again (hprog : prog.Primitive) (hi : i.Primitive) (hm : m.Closed) {s : Lap}
    (h : perform prog i k m = .again s) : m.Grows s.machine := by
  obtain ⟨pos, hs⟩ := machine_of_again h
  exact hs ▸ (step_kept hprog hi pos true hm).grows

theorem grows_of_done (hprog : prog.Primitive) (hi : i.Primitive) (hm : m.Closed) {r : Ended Guard}
    (h : perform prog i k m = .done r) : m.Grows r.machine := by
  obtain ⟨hr, _⟩ | ⟨pos, hr, _⟩ := machine_of_done h
  · rw [hr]
    exact hm.grows
  · exact hr ▸ (step_kept hprog hi pos true hm).grows

variable {first : Instr} {code : List Instr}

theorem turn_grows (hprog : prog.Primitive) (hfirst : first ∈ code) (hcode : ∀ i ∈ code, i.Primitive) (s t : Lap)
    (hs : m.Grows s.machine) (h : turn prog first code s = .again t) : m.Grows t.machine := by
  obtain ⟨i, hi, k, hturn⟩ := exists_turn_eq prog hfirst s
  exact hs.trans (grows_of_again hprog (hcode i hi) hs.1 (hturn ▸ h))

theorem grows_of_advance (hprog : prog.Primitive) (hfirst : first ∈ code) (hcode : ∀ i ∈ code, i.Primitive)
    {n : Nat} {s t : Lap} (hs : s.machine.Closed) (h : advance (turn prog first code) n s = some t) :
    s.machine.Grows t.machine :=
  advance_invariant (P := fun t => s.machine.Grows t.machine) (turn_grows hprog hfirst hcode) hs.grows h

end Lap

theorem Machine.replay_grows {prog : Program} (hprog : prog.Primitive) {m : Machine} (hm : m.Closed) {code : List Instr}
    (hcode : ∀ i ∈ code, i.Primitive) {fuel : Nat} {r : Ended Guard} (h : m.replay prog fuel code = some r) :
    m.Grows r.machine := by
  unfold Machine.replay at h
  split at h
  · cases h
    exact hm.grows
  · rename_i first rest
    have hfirst : first ∈ first :: rest := List.mem_cons_self
    refine iterate_invariant (P := fun s => m.Grows s.machine) (Q := fun r => m.Grows r.machine)
      (Lap.turn_grows hprog hfirst hcode) ?_ hm.grows h
    intro s r hs hr
    obtain ⟨i, hi, k, hturn⟩ := Lap.exists_turn_eq prog hfirst s
    exact hs.trans (Lap.grows_of_done hprog (hcode i hi) hs.1 (hturn ▸ hr))

namespace Reached

open Exec

variable {prog : Program} {m : Machine} {fs : List Frame}

theorem makes_kept {x : Exec Frame} (h : Makes prog x) (hm : m.Closed) :
    Kept m True (fun n f => ∀ c ∈ f.locals, c.toNat < n) x := by
  cases h with
  | newFrame func => exact keeps_newFrame (fun _ _ _ => trivial) m hm (Nat.le_refl _)
  | seed pos user pc cell =>
    apply (keeps_seed (fun _ _ _ => trivial) (fun _ => trivial) pc cell m hm (Nat.le_refl _)).imp
    exact fun n f hf => hf.2

theorem held_of_grows {m' : Machine} (hfs : ∀ f ∈ fs, ∀ c ∈ f.locals, c.toNat < m.heap.size) (h : m.Grows m') :
    m'.Closed ∧ ∀ f ∈ fs, ∀ c ∈ f.locals, c.toNat < m'.heap.size :=
  ⟨h.1, fun f hf c hc => Nat.lt_of_lt_of_le (hfs f hf c hc) h.2⟩

theorem closed (hprog : prog.Primitive) (h : Reached prog m fs) :
    m.Closed ∧ ∀ f ∈ fs, ∀ c ∈ f.locals, c.toNat < m.heap.size := by
  induction h with
  | fresh => exact ⟨⟨by simp, by simp, by simp⟩, by simp⟩
  | make _ makes made ih =>
    obtain ⟨hm, hfs⟩ := ih
    obtain ⟨hclosed, hsize, hf⟩ := (makes_kept makes hm).ok made
    obtain ⟨_, hheld⟩ := held_of_grows hfs ⟨hclosed, hsize⟩
    exact ⟨hclosed, List.forall_mem_cons.mpr ⟨hf, hheld⟩⟩
  | fail _ makes failed ih =>
    -- what was allocated before the failure stays allocated
    obtain ⟨hm, hfs⟩ := ih
    have hgrows := (makes_kept makes hm).grows
    rw [after, failed] at hgrows
    exact held_of_grows hfs hgrows
  | hold _ top ih =>
    obtain ⟨hm, hfs⟩ := ih
    exact ⟨hm, List.forall_mem_cons.mpr ⟨hm.frames _ (List.mem_of_head? top), hfs⟩⟩
  | push _ held ih =>
    obtain ⟨hm, hfs⟩ := ih
    exact ⟨⟨hm.stack, List.forall_mem_cons.mpr ⟨hfs _ held, hm.frames⟩, hm.heap⟩, hfs⟩
  | run _ ended ih =>
    obtain ⟨hm, hfs⟩ := ih
    exact held_of_grows hfs (Machine.run_grows hprog hm ended)
  | replay _ primitive ended ih =>
    obtain ⟨hm, hfs⟩ := ih
    exact held_of_grows hfs (Machine.replay_grows hprog hm primitive ended)

/-- On a machine that a caller can reach, and all along the runs and replays from there, all cells named are
allocated. An instruction therefore finds no dangling pointer, and it crashes only for want of a block. -/
theorem cells_allocated (hprog : prog.Primitive) (h : Reached prog m fs) :
    (m.Closed ∧ ∀ f ∈ fs, ∀ c ∈ f.locals, c.toNat < m.heap.size) ∧
      (∀ w home root start n s, advance (Walk.turn prog w home root) n ⟨start, m, []⟩ = some s → s.machine.Closed ∧
        ∀ i, prog.instr? s.pos = some i →
          Kept s.machine (Refused prog i s.machine) (fun _ _ => True) (step prog i s.pos false)) ∧
      ∀ first rest, (∀ i ∈ first :: rest, i.Primitive) → ∀ n s,
        advance (Lap.turn prog first (first :: rest)) n ⟨0, m⟩ = some s → s.machine.Closed ∧
          ∀ i ∈ first :: rest, ∀ pos,
            Kept s.machine (Refused prog i s.machine) (fun _ _ => True) (step prog i pos true) := by
  obtain ⟨hm, hfs⟩ := h.closed hprog
  refine ⟨⟨hm, hfs⟩, ?_, ?_⟩
  · intro w home root start n s hs
    obtain ⟨hclosed, _⟩ := Walk.grows_of_advance hprog hm hs
    refine ⟨hclosed, fun i hi => ?_⟩
    obtain ⟨f, hf, hmem⟩ := Program.mem_of_instr? hi
    exact step_kept hprog (hprog f hf i hmem) s.pos false hclosed
  · intro first rest hcode n s hs
    obtain ⟨hclosed, _⟩ := Lap.grows_of_advance hprog List.mem_cons_self hcode hm hs
    exact ⟨hclosed, fun i hi pos => step_kept hprog (hcode i hi) pos true hclosed⟩

end Reached

def shortCall : Program where
  table := some
    [some { locals := 5, body := some [.load 4, .plain .address, .store 0, .load 0, .plain .deref,
      .const (Value.usize 7), .const (Value.func 1), .plain .call] },
    some { params := 3, locals := 3, body := some [.plain .ret] }]

def shortCallEnd : Machine where
  heap := { cells := #[Value.pointer 4, Value.record [], Value.usize 0, Value.usize 0, Value.unit, Value.usize 7] }
  frames := [fiveLocals]
  made := 1

theorem cells_allocated_shortCall : shortCall.Primitive ∧ Reached shortCall shortCallEnd [fiveLocals] ∧
    shortCallEnd.Closed ∧ ∀ c ∈ fiveLocals.locals, c.toNat < shortCallEnd.heap.size := by
  have hprog : shortCall.Primitive := Program.primitive_of_check (by decide)
  have hseeded : Reached shortCall (seededMachine 0 0) [fiveLocals] := .make .fresh (.seed {} [] 0 0) rfl
  have hrun : ((seededMachine 0 0).execute shortCall 9 {}).map Ended.machine = some shortCallEnd := by decide +kernel
  obtain ⟨r, hr, hend⟩ := Option.map_eq_some_iff.mp hrun
  have hreached : Reached shortCall shortCallEnd [fiveLocals] := hend ▸ .run hseeded hr
  obtain ⟨⟨hclosed, hheld⟩, _⟩ := Reached.cells_allocated hprog hreached
  exact ⟨hprog, hreached, hclosed, hheld fiveLocals (by simp)⟩

end HotLoop
