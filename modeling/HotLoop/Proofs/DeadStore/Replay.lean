import HotLoop.Proofs.DeadStore.Apart
import HotLoop.Proofs.DeadStore.Pass

/-!
When the removal of dead stores keeps a replay as it is. The removal counts the loads of a slot, but a cell is also
read through places, pointers and parameters, and a forwarded operand stands for its cell and not for the value that
the store would have saved. So it asks that nothing but the slot names the cell of a removed store, and that a
forwarded operand is used up before anything it depends on is written. A replay then ends at the same guard with the
same machine; without that, it may not.
-/

namespace HotLoop

namespace DeadStore

/-- Code up to the next store to a slot does not tell the operand at the depth `q` from the place of the slot's cell: it
does not take its address, does not write unless the operand is `owned`, and does not leave it below the store. -/
def Forwards (slot : Int64) (owned : Bool) : Option Nat → List Instr → Prop
  | _, [] => True
  | q, i :: rest =>
    if i.code = .store ∧ i.n = slot then afterPops 1 q = none
    else (i.code = .address → q ≠ some 0) ∧ (i.writes → afterPops i.pops q ≠ none → owned) ∧
      Forwards slot owned (i.leaves q) rest

instance decidableForwards (slot : Int64) (owned : Bool) :
    (q : Option Nat) → (code : List Instr) → Decidable (Forwards slot owned q code)
  | _, [] => isTrue trivial
  | q, i :: rest =>
    have := decidableForwards slot owned (i.leaves q) rest
    inferInstanceAs (Decidable (if i.code = .store ∧ i.n = slot then afterPops 1 q = none
      else (i.code = .address → q ≠ some 0) ∧ (i.writes → afterPops i.pops q ≠ none → owned) ∧
        Forwards slot owned (i.leaves q) rest))

theorem forwards_none (slot : Int64) (owned : Bool) (code : List Instr) : Forwards slot owned none code := by
  induction code with
  | nil => trivial
  | cons i rest ih =>
    unfold Forwards
    split
    · rfl
    · refine ⟨fun _ => nofun, fun _ h => absurd rfl h, ?_⟩
      have hleaves : i.leaves none = none := by simp [Instr.leaves, afterPops]
      rwa [hleaves]

section

variable {live : List Int64} {slot : Int64} {i : Instr} {rest : List Instr}

theorem isPlain_of_uses (hlive : slot ∈ live) (hj : ¬i.code.isJump) (h : uses live slot (i :: rest) = 0) :
    i.code.isPlain := by
  by_cases hb : isBarrier i
  · have hmem : i.code ≠ .load ∧ i.code ≠ .store := by
      constructor <;> intro hc <;> simp [isBarrier, hc, Opcode.isCall] at hb
    simp only [uses, if_neg hmem.1, if_neg hmem.2, hb, hlive, and_self, if_true] at h
    omega
  · cases hc : i.code <;> simp_all [isBarrier, Opcode.isPlain, Opcode.isJump, Opcode.isCall]

theorem uses_tail (hslot : ¬(i.code = .store ∧ i.n = slot)) (h : uses live slot (i :: rest) = 0) :
    uses live slot rest = 0 ∧ (i.code = .load ∨ i.code = .store → i.n ≠ slot) := by
  unfold uses at h
  split at h
  · rename_i hload
    have hne : i.n ≠ slot := by
      intro he
      rw [if_pos he] at h
      omega
    exact ⟨by omega, fun _ => hne⟩
  · rename_i hload
    split at h
    · rename_i hstore
      have hne : i.n ≠ slot := fun he => hslot ⟨hstore, he⟩
      rw [if_neg hne] at h
      exact ⟨h, fun _ => hne⟩
    · rename_i hstore
      refine ⟨?_, fun hc => absurd hc (by simp [hload, hstore])⟩
      split at h
      · omega
      · exact h

end

end DeadStore

open DeadStore

section

variable {prog : Program} {i : Instr} {rest : List Instr} {m m₁ : Machine} {r : Swept}

theorem sweep_cons_plain (hp : i.code.isPlain) : sweep prog (i :: rest) m = some r ↔
    m.top? ≠ none ∧ ∃ m₁, Exec.step prog i {} false m = .ok .next m₁ ∧ sweep prog rest m₁ = some r := by
  simp only [sweep, Lap.perform]
  cases htop : m.top? with
  | none => simp
  | some f =>
    simp only [Exec.step_plain_pos hp prog (Lap.position i f 0) {} true false]
    cases hs : Exec.step prog i {} false m with
    | error e m₁ => cases e <;> simp
    | ok t m₁ =>
      obtain rfl := (Exec.plain_step hp prog {} false).next hs
      simp

theorem perform_plain (hp : i.code.isPlain) (htop : m.top? ≠ none)
    (hstep : Exec.step prog i {} false m = .ok .next m₁) : Lap.perform prog i 0 m = .again ⟨1, m₁⟩ := by
  obtain ⟨f, hf⟩ := Option.ne_none_iff_exists'.mp htop
  simp only [Lap.perform, hf, Exec.step_plain_pos hp prog (Lap.position i f 0) {} true false, hstep]

theorem sweep_pop {y : Operand} {s : List Operand} (hs : m.stack = y :: s) (htop : m.top? ≠ none) :
    sweep prog (Instr.pop :: rest) m = sweep prog rest { m with stack := s } := by
  have hstep : Exec.step prog Instr.pop {} false m = .ok .next { m with stack := s } :=
    Exec.bind_eq_ok.mpr ⟨y, _, Exec.pop_eq_ok.mpr ⟨s, hs, rfl⟩, rfl⟩
  apply Option.ext
  intro r
  rw [sweep_cons_plain rfl]
  constructor
  · rintro ⟨_, m₁, h, hrest⟩
    cases hstep.symm.trans h
    exact hrest
  · intro hrest
    exact ⟨htop, _, hstep, hrest⟩

theorem sweep_apart (hprog : prog.Primitive) {live : List Int64} {slot : Int64} (hlive : slot ∈ live)
    {kept : List Instr} (hprim : ∀ i ∈ kept, i.Primitive) (hjump : ∀ i ∈ kept, ¬i.code.isJump)
    (huses : uses live slot kept = 0) {c : CellId} {x : Operand} {q : Option Nat} {m m' : Machine}
    (h : Apart prog c slot x q m m') (hforwards : Forwards slot (!x.isPlace) q kept)
    (hrun : sweep prog kept m = some r) (hsize : r.machine.heap.size ≤ UInt32.size) :
    sweep prog kept m' = some r := by
  induction kept generalizing q m m' with
  | nil => simp [uses, hlive] at huses
  | cons i rest ih =>
    have hplain := isPlain_of_uses hlive (hjump i List.mem_cons_self) huses
    obtain ⟨htop, m₁, hstep, hrest⟩ := (sweep_cons_plain hplain).mp hrun
    have hsize₁ : m₁.heap.size ≤ UInt32.size := Nat.le_trans (size_le_of_sweep hrest) hsize
    have htop' : m'.top? ≠ none := by rwa [Machine.top?, h.frames]
    unfold Forwards at hforwards
    by_cases hslot : i.code = .store ∧ i.n = slot
    · rw [if_pos hslot] at hforwards
      have hstep' := h.step_store hprog hslot.1 hslot.2 hforwards hstep hsize₁
      exact (sweep_cons_plain hplain).mpr ⟨htop', m₁, hstep', hrest⟩
    · rw [if_neg hslot] at hforwards
      obtain ⟨haddress, hwrites, hforwards⟩ := hforwards
      obtain ⟨huses, hother⟩ := uses_tail hslot huses
      have hmirrors := Exec.mirrors_step (c := c) (x := x) hprog (hprim i List.mem_cons_self) hplain hother haddress
        (fun hw hq => by simpa using hwrites hw hq) {} false
      obtain ⟨m₁', hstep', hm₁, _⟩ := hmirrors m m' h _ m₁ hstep hsize₁
      apply (sweep_cons_plain hplain).mpr
      exact ⟨htop', m₁', hstep', ih (fun j hj => hprim j (List.mem_cons_of_mem i hj))
        (fun j hj => hjump j (List.mem_cons_of_mem i hj)) huses hm₁ hforwards hrest⟩

end

namespace DeadStore

def Removable (live : List Int64) (i : Instr) (kept : List Instr) (m m₁ : Machine) : Prop :=
  (uses live i.n kept = 0 → m₁.Solitary i.n) ∧
    (uses live i.n kept = 1 → (kept.head?.any fun next => next.code = .load ∧ next.n = i.n) →
      m₁.Solitary i.n ∧ Forwards i.n (m.stack.head?.all fun x => !x.isPlace) (some 0) kept.tail)

instance (live : List Int64) (i : Instr) (kept : List Instr) (m m₁ : Machine) :
    Decidable (Removable live i kept m m₁) := inferInstanceAs (Decidable ((_ → _) ∧ (_ → _ → _ ∧ _)))

/-- In a pass over the code, every store that is removed from it may be. -/
def Spared (prog : Program) (live : List Int64) : List Instr → Machine → Prop
  | [], _ => True
  | i :: rest, m =>
    match Lap.perform prog i 0 m with
    | .again s =>
      (i.code = .store → Removable live i (rest.foldr (put live) []) m s.machine) ∧ Spared prog live rest s.machine
    | .done _ => True

instance decidableSpared (prog : Program) (live : List Int64) :
    (code : List Instr) → (m : Machine) → Decidable (Spared prog live code m)
  | [], _ => isTrue trivial
  | i :: rest, m =>
    match h : Lap.perform prog i 0 m with
    | .again s =>
      have := decidableSpared prog live rest s.machine
      decidable_of_iff ((i.code = .store → Removable live i (rest.foldr (put live) []) m s.machine) ∧
        Spared prog live rest s.machine) (by simp only [Spared, h])
    | .done _ => isTrue (by simp only [Spared, h])

def SparedFor (prog : Program) (live : List Int64) (code : List Instr) : Nat → Machine → Prop
  | 0, _ => True
  | n + 1, m =>
    Spared prog live code m ∧ ∀ m', sweep prog code m = some (.through m') → SparedFor prog live code n m'

instance decidableSparedFor (prog : Program) (live : List Int64) (code : List Instr) :
    (n : Nat) → (m : Machine) → Decidable (SparedFor prog live code n m)
  | 0, _ => isTrue trivial
  | n + 1, m =>
    match h : sweep prog code m with
    | some (.through m') =>
      have := decidableSparedFor prog live code n m'
      decidable_of_iff (Spared prog live code m ∧ SparedFor prog live code n m') (by simp [SparedFor, h])
    | some (.failed g m') => decidable_of_iff (Spared prog live code m) (by simp [SparedFor, h])
    | none => decidable_of_iff (Spared prog live code m) (by simp [SparedFor, h])

theorem SparedFor.mono {prog : Program} {live : List Int64} {code : List Instr} {k n : Nat} {m : Machine}
    (h : SparedFor prog live code n m) (hk : k ≤ n) : SparedFor prog live code k m := by
  induction k generalizing n m with
  | zero => trivial
  | succ k ih =>
    obtain ⟨n, rfl⟩ : ∃ n', n = n' + 1 := ⟨n - 1, by omega⟩
    exact ⟨h.1, fun m' hm' => ih (h.2 m' hm') (by omega)⟩

end DeadStore

section

variable {prog : Program} {live : List Int64} {i : Instr} {kept : List Instr} {m : Machine} {r : Swept}

theorem newRecord_zero (m : Machine) : Exec.newRecord 0 m = .ok (Value.record []) m := by
  have hempty : m.heap.allocUnits 0 = ([], m.heap) := by simp [Heap.allocUnits, Heap.upcoming]
  have hunits : Exec.allocUnits 0 m = .ok [] m := Exec.allocUnits_eq_ok.mpr (by rw [hempty]; exact ⟨rfl, rfl⟩)
  exact Exec.bind_eq_ok.mpr ⟨0, m, rfl, Exec.bind_eq_ok.mpr ⟨[], m, hunits, rfl⟩⟩

theorem sweep_of_idle {next : Instr} {rest : List Instr} (hi : i.code = .tuple ∧ i.n = 0) (hnext : next.code = .pop)
    (hrun : sweep prog (i :: next :: rest) m = some r) : sweep prog rest m = some r := by
  obtain ⟨_, m₁, hstep, hrest⟩ := (sweep_cons_plain (by simp [hi.1, Opcode.isPlain])).mp hrun
  obtain ⟨_, m₂, hpop, hrest⟩ := (sweep_cons_plain (by simp [hnext, Opcode.isPlain])).mp hrest
  have hpush : Exec.step prog i {} false m = .ok .next { m with stack := .owned (.record []) :: m.stack } := by
    simp only [Exec.step, hi]
    exact Exec.bind_eq_ok.mpr ⟨_, m, newRecord_zero m, rfl⟩
  obtain ⟨_, rfl⟩ := EStateM.Result.ok.inj (hstep.symm.trans hpush)
  simp only [Exec.step, hnext] at hpop
  cases hpop
  exact hrest

theorem sweep_of_placed {out : List Instr} (hplaced : Placed live i kept out) (hprog : prog.Primitive)
    (hlive : i.code = .store → i.n ∈ live) (hprim : ∀ j ∈ kept, j.Primitive) (hjump : ∀ j ∈ kept, ¬j.code.isJump)
    (hremovable : ∀ s, Lap.perform prog i 0 m = .again s → i.code = .store → Removable live i kept m s.machine)
    (hrun : sweep prog (i :: kept) m = some r) (hsize : r.machine.heap.size ≤ UInt32.size) :
    sweep prog out m = some r := by
  cases hplaced with
  | stays => exact hrun
  | dead hi huses =>
    have hplain : i.code.isPlain := by simp [hi, Opcode.isPlain]
    obtain ⟨htop, m₁, hstep, hrest⟩ := (sweep_cons_plain hplain).mp hrun
    have hsolitary := (hremovable _ (perform_plain hplain htop hstep) hi).1 huses
    obtain ⟨y, s, _, c, hs, _, _, hapart, _⟩ := Apart.of_store hi hstep hsolitary
    rw [sweep_pop hs htop]
    exact sweep_apart hprog (hlive hi) hprim hjump huses hapart (forwards_none _ _ _) hrest hsize
  | fused hi hnext hslot huses =>
    have hplain : i.code.isPlain := by simp [hi, Opcode.isPlain]
    obtain ⟨htop, m₁, hstep, hrest⟩ := (sweep_cons_plain hplain).mp hrun
    obtain ⟨hsolitary, hforwards⟩ :=
      (hremovable _ (perform_plain hplain htop hstep) hi).2 huses (by simpa using ⟨hnext, hslot⟩)
    obtain ⟨y, s, f, c, hs, hf, hc, _, hapart⟩ := Apart.of_store hi hstep hsolitary
    obtain ⟨_, m₂, hload, hrest⟩ := (sweep_cons_plain (by simp [hnext, Opcode.isPlain])).mp hrest
    obtain ⟨f', c', hf', hc', _, rfl⟩ := (Exec.step_load_eq_ok hnext).mp hload
    obtain rfl := Option.some.inj (hf.symm.trans hf')
    obtain rfl := Option.some.inj (hc.symm.trans (hslot ▸ hc'))
    have huses' : uses live i.n out = 0 := by
      rw [uses_cons_load hnext, if_pos hslot] at huses
      omega
    have howned : (m.stack.head?.all fun x => !x.isPlace) = !y.isPlace := by rw [hs]; rfl
    exact sweep_apart hprog (hlive hi) (List.forall_mem_cons.mp hprim).2 (List.forall_mem_cons.mp hjump).2 huses' hapart
      (howned ▸ hforwards) hrest hsize
  | idle hi hnext => exact sweep_of_idle hi hnext hrun

theorem sweep_foldr_put (hprog : prog.Primitive) {code : List Instr}
    (hcode : ∀ j ∈ code, j.Primitive ∧ ¬j.code.isJump ∧ (j.code = .store → j.n ∈ live))
    (hspared : Spared prog live code m) (hrun : sweep prog code m = some r)
    (hsize : r.machine.heap.size ≤ UInt32.size) : sweep prog (code.foldr (put live) []) m = some r := by
  induction code generalizing m with
  | nil => exact hrun
  | cons i rest ih =>
    have hrest : ∀ j ∈ rest.foldr (put live) [], j.Primitive ∧ ¬j.code.isJump := by
      intro j hj
      rcases mem_foldr_put hj with rfl | hj
      · exact ⟨nofun, by decide⟩
      · exact ⟨(hcode j (List.mem_cons_of_mem i hj)).1, (hcode j (List.mem_cons_of_mem i hj)).2.1⟩
    have hput : sweep prog (i :: rest.foldr (put live) []) m = some r := by
      rcases sweep_cons_cases hrun with ⟨s, hp, hr⟩ | ⟨g, m', log, hp, rfl⟩
      · simp only [Spared, hp] at hspared
        rw [sweep_cons_of_again hp]
        exact ih (fun j hj => hcode j (List.mem_cons_of_mem i hj)) hspared.2 hr
      · exact sweep_cons_of_failed hp _
    apply sweep_of_placed (placed_put live i _) hprog (hcode i List.mem_cons_self).2.2 (fun j hj => (hrest j hj).1)
      (fun j hj => (hrest j hj).2) ?_ hput hsize
    intro s hs hi
    simp only [Spared, hs] at hspared
    exact hspared.1 hi

theorem iterate_foldr_put (hprog : prog.Primitive) {code : List Instr} (hne : code ≠ [])
    (hcode : ∀ j ∈ code, j.Primitive ∧ ¬j.code.isJump ∧ (j.code = .store → j.n ∈ live)) {fuel : Nat} {g : Guard}
    {m' : Machine} {log : List Event} (hspared : SparedFor prog live code fuel m)
    (hrun : iterate (Lap.cycle prog code) fuel ⟨0, m⟩ = some ⟨.ok g, m', log⟩)
    (hsize : m'.heap.size ≤ UInt32.size) :
    m.heap.size ≤ m'.heap.size ∧ code.foldr (put live) [] ≠ [] ∧
      ∃ fuel', iterate (Lap.cycle prog (code.foldr (put live) [])) fuel' ⟨0, m⟩ = some ⟨.ok g, m', log⟩ := by
  have hj : ∀ j ∈ code, ¬j.code.isJump := fun j hj => (hcode j hj).2.1
  have hj' : ∀ j ∈ code.foldr (put live) [], ¬j.code.isJump := by
    intro j hmem
    rcases mem_foldr_put hmem with rfl | hmem
    · decide
    · exact hj j hmem
  -- each pass uses up fuel, since the code is not empty
  induction fuel using Nat.strongRecOn generalizing m with
  | ind fuel ih =>
    obtain ⟨n, rfl⟩ : ∃ n, fuel = n + 1 := by
      cases fuel with
      | zero => cases hrun
      | succ n => exact ⟨n, rfl⟩
    rcases sweep_of_iterate (List.nil_append code).symm hj hrun with
      ⟨hfailed, rfl⟩ | ⟨m₁, fuel', hfuel, hthrough, hrest⟩
    · have hpass := sweep_foldr_put hprog hcode hspared.1 hfailed hsize
      refine ⟨size_le_of_sweep hfailed, ?_, _, iterate_of_sweep (List.nil_append _).symm hj' hpass⟩
      intro hnil
      rw [hnil] at hpass
      cases hpass
    · have hlength := List.length_pos_iff.mpr hne
      rw [Lap.iterate_wrap hne] at hrest
      obtain ⟨hle, hne', fuel'', hagain⟩ :=
        ih fuel' (by omega) ((hspared.2 m₁ hthrough).mono (by omega)) hrest
      have hpass := sweep_foldr_put hprog hcode hspared.1 hthrough (Nat.le_trans hle hsize)
      rw [← Lap.iterate_wrap hne'] at hagain
      exact ⟨Nat.le_trans (size_le_of_sweep hthrough) hle, hne', _,
        iterate_of_reached (advance_of_sweep (List.nil_append _).symm hj' hpass) hagain⟩

end

/-- As long as every removed store is one that may be removed, a replay without dead stores fails the same guard and
leaves the same machine. -/
theorem replay_eliminate {prog : Program} (hprog : prog.Primitive) {code : List Instr}
    (hcode : ∀ i ∈ code, i.Primitive) {s m : Machine} {fuel : Nat} {g : Guard} {log : List Event}
    (hrun : s.replay prog fuel code = some ⟨.ok g, m, log⟩) (hsize : m.heap.size ≤ UInt32.size)
    (hspared : SparedFor prog (slots code) code fuel s) :
    ∃ fuel', s.replay prog fuel' (eliminate code (slots code)) = some ⟨.ok g, m, log⟩ := by
  rw [eliminate_eq]
  split
  · exact ⟨fuel, hrun⟩
  · rename_i hjump
    have hne : code ≠ [] := by
      rintro rfl
      cases hrun
    have hall : ∀ j ∈ code, j.Primitive ∧ ¬j.code.isJump ∧ (j.code = .store → j.n ∈ slots code) := by
      intro j hj
      refine ⟨hcode j hj, fun hc => hjump (List.any_eq_true.mpr ⟨j, hj, hc⟩), fun hc => mem_slots hj (.inr hc)⟩
    rw [Machine.replay_eq hne] at hrun
    obtain ⟨_, hne', fuel', hrun'⟩ := iterate_foldr_put hprog hne hall hspared hrun hsize
    exact ⟨fuel', by rwa [Machine.replay_eq hne']⟩

def loopToThree (body : List Instr) (callees : List (Option Function)) : Program where
  table := some (some { locals := 5, body := some ([.load 2, .const (Value.usize 3), .binary .ge,
    .sized .skipIf (Int64.ofNat body.length + 2)] ++ body ++
      [.sized .jumpBack (Int64.ofNat body.length + 4), .plain .ret]) } :: callees)

def detourLoop : Program :=
  loopToThree [.const (Value.usize 7), .store 4, .sized .tuple 0, .pop, .load 2, .const (Value.usize 1), .binary .add,
    .store 4, .load 4, .store 2, .const (Value.usize 0), .store 4] []

def detourLog : List Event := (seededMachine 0 0).shortLog detourLoop {}

def detourTrace : Trace := (seededMachine 0 0).shortTrace detourLoop {}

theorem detour_recorded : Recorded detourLoop {} (seededMachine 0 0) detourLog detourTrace :=
  .of_short (by decide +kernel) (by decide +kernel)

def detourKept : List Instr :=
  [.load 2, .const (Value.usize 3), .binary .ge, .ofGuard ⟨false, ⟨0, 3⟩⟩, .const (Value.usize 7), .pop, .load 2,
    .const (Value.usize 1), .binary .add, .store 2, .const (Value.usize 0), .store 4]

def detourEnd : Machine where
  heap := { cells := #[Value.unit, Value.record [], Value.usize 3, Value.usize 0, Value.usize 0] }
  stack := [.owned (Value.ofBool true)]
  frames := [fiveLocals]
  made := 1

theorem replay_eliminate_detour : Recorded detourLoop {} (seededMachine 0 0) detourLog detourTrace ∧
    eliminate detourTrace.instrs (slots detourTrace.instrs) = detourKept ∧
      ∃ fuel, (seededMachine 1 0).replay detourLoop fuel detourKept =
        some ⟨.ok ⟨false, ⟨0, 3⟩⟩, detourEnd, []⟩ := by
  have hkept : eliminate detourTrace.instrs (slots detourTrace.instrs) = detourKept := by decide +kernel
  have hrun : (seededMachine 1 0).replay detourLoop 40 detourTrace.instrs =
      some ⟨.ok ⟨false, ⟨0, 3⟩⟩, detourEnd, []⟩ := by decide +kernel
  refine ⟨detour_recorded, hkept, ?_⟩
  rw [← hkept]
  exact replay_eliminate (Program.primitive_of_check (by decide)) (by decide +kernel) hrun (by decide +kernel)
    (by decide +kernel)

/-- A checked program and a trace recorded from it whose replay, once its dead stores are removed, fails the same guard
but leaves another pc in the outermost frame. -/
def Program.Altered (prog : Program) : Prop :=
  prog.check = .ok () ∧
    ∃ (cell₁ cell : UInt64) (frame₁ frame : Frame) (s₁ s : Machine) (log : List Event) (t : Trace) (fuel : Nat)
      (g : Guard) (pc pc' cell' : UInt64),
      Engine.seed prog {} [] 0 cell₁ {} = .ok frame₁ s₁ ∧ Recorded prog {} s₁ log t ∧
        Engine.seed prog {} [] 0 cell {} = .ok frame s ∧
          (s.replay prog fuel t.instrs).map (fun e => (e.outcome, Engine.results frame e.machine)) =
            some (.ok g, .ok (pc, cell')) ∧
          (s.replay prog fuel (eliminate t.instrs (slots t.instrs))).map
            (fun e => (e.outcome, Engine.results frame e.machine)) = some (.ok g, .ok (pc', cell')) ∧ pc ≠ pc'

theorem seed_loopToThree (body : List Instr) (callees : List (Option Function)) (cell : UInt64) :
    Engine.seed (loopToThree body callees) {} [] 0 cell {} = .ok fiveLocals (seededMachine cell 0) := by
  have hframe : Exec.newFrame (loopToThree body callees) 0 {} =
      .ok fiveLocals { heap := ⟨(List.replicate 5 Value.unit).toArray⟩, made := 1 } := rfl
  unfold Engine.seed
  rw [Exec.bind_apply, hframe]
  rfl

theorem Program.Altered.of_loopToThree {body : List Instr} {callees : List (Option Function)} (pc pc' : UInt64)
    (hcheck : (loopToThree body callees).check = .ok ())
    (hrecord : ((seededMachine 0 0).record (loopToThree body callees) 40 {}).map Ended.outcome = some (.ok .looped))
    (hne : ((seededMachine 0 0).shortLog (loopToThree body callees) {}).filterMap Event.traced? ≠ [])
    (hresults : let code := ((seededMachine 0 0).shortTrace (loopToThree body callees) {}).instrs
      [code, eliminate code (slots code)].map (fun code =>
        ((seededMachine 1 0).replay (loopToThree body callees) 60 code).map
          fun e => (e.outcome, Engine.results fiveLocals e.machine)) =
      [some (.ok ⟨false, ⟨0, 3⟩⟩, .ok (pc, 3)), some (.ok ⟨false, ⟨0, 3⟩⟩, .ok (pc', 3))])
    (hpc : pc ≠ pc') : (loopToThree body callees).Altered := by
  have hseed := seed_loopToThree body callees
  obtain ⟨hkept, hrest⟩ := List.cons.inj hresults
  obtain ⟨hremoved, _⟩ := List.cons.inj hrest
  exact ⟨hcheck, 0, 1, fiveLocals, fiveLocals, _, _, _, _, 60, _, pc, pc', 3, hseed 0, .of_short hrecord hne, hseed 1,
    hkept, hremoved, hpc⟩

def increment : List Instr := [.load 2, .const (Value.usize 1), .binary .add, .store 2]

def forwardedPlace : Program :=
  loopToThree ([.load 2, .store 4, .load 4] ++ increment ++ [.store 3, .const (Value.usize 0), .store 4]) []

def pendingPlace : Program :=
  loopToThree ([.load 4, .const (Value.usize 5), .store 4, .store 3, .const (Value.usize 0), .store 4] ++ increment) []

def pointedCell : Program :=
  loopToThree ([.load 4, .plain .address, .store 0, .const (Value.usize 5), .store 4, .load 0, .plain .deref, .store 3,
    .const (Value.usize 0), .store 4] ++ increment) []

def sharedParameter : Program :=
  loopToThree ([.load 3, .load 3, .const (Value.func 1), .plain .call] ++ increment)
    [some { params := 2, locals := 2, body := some [.const (Value.usize 9), .store 0, .load 1, .const (Value.usize 1),
      .binary .add, .store 0, .plain .ret] }]

theorem eliminate_alters :
    forwardedPlace.Altered ∧ pendingPlace.Altered ∧ pointedCell.Altered ∧ sharedParameter.Altered := by
  refine ⟨?_, ?_, ?_, ?_⟩
  · exact .of_loopToThree 2 3 (by decide) (by decide +kernel) (by decide +kernel) (by decide +kernel) (by decide)
  · exact .of_loopToThree 5 0 (by decide) (by decide +kernel) (by decide +kernel) (by decide +kernel) (by decide)
  · exact .of_loopToThree 5 0 (by decide) (by decide +kernel) (by decide +kernel) (by decide +kernel) (by decide)
  · exact .of_loopToThree 10 2 (by decide) (by decide +kernel) (by decide +kernel) (by decide +kernel) (by decide)

end HotLoop
