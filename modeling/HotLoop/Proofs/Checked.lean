import HotLoop.Code.Check
import HotLoop.Proofs.Cells
import HotLoop.Proofs.Recovery

namespace HotLoop

namespace Program

variable {prog : Program} {f : Function} {i : Instr} {pos : Position}

theorem checkInstr_of_checkCode {index pc : Nat} {code : List Instr} (h : prog.checkCode f index pc code = .ok ())
    {k : Nat} (hi : code[k]? = some i) : prog.checkInstr f ⟨Int64.ofNat index, Int64.ofNat (pc + k)⟩ i = .ok () := by
  induction code generalizing pc k with
  | nil => cases hi
  | cons j rest ih =>
    cases hj : prog.checkInstr f ⟨Int64.ofNat index, Int64.ofNat pc⟩ j with
    | error e =>
      rw [checkCode, hj] at h
      cases h
    | ok u =>
      rw [checkCode, hj] at h
      cases k with
      | zero =>
        cases hi
        exact hj
      | succ k =>
        rw [Nat.add_comm k 1, ← Nat.add_assoc]
        exact ih h hi

theorem checkFunction_of_checkEntries {index : Nat} {entries : List (Option Function)}
    (h : prog.checkEntries index entries = .ok ()) {k : Nat} {e : Option Function} (he : entries[k]? = some e) :
    prog.checkFunction (index + k) e = .ok () := by
  induction entries generalizing index k with
  | nil => cases he
  | cons d rest ih =>
    cases hd : prog.checkFunction index d with
    | error err =>
      rw [checkEntries, hd] at h
      cases h
    | ok u =>
      rw [checkEntries, hd] at h
      cases k with
      | zero =>
        cases he
        exact hd
      | succ k =>
        rw [Nat.add_comm k 1, ← Nat.add_assoc]
        exact ih h he

theorem checkCode_of_checkFunction {index : Nat} (h : prog.checkFunction index (some f) = .ok ()) :
    ¬f.locals < f.params ∧ prog.checkCode f index 0 f.instrs = .ok () := by
  simp only [checkFunction] at h
  split at h
  · cases h
  · rename_i hparams
    exact ⟨hparams, h⟩

theorem function_of_check (h : prog.check = .ok ()) (hf : some f ∈ prog.entries) :
    ¬f.locals < f.params ∧ ∀ i ∈ f.instrs, ∃ pos, prog.checkInstr f pos i = .ok () := by
  obtain ⟨k, hk⟩ := List.mem_iff_getElem?.mp hf
  obtain ⟨hparams, hcode⟩ := checkCode_of_checkFunction (checkFunction_of_checkEntries h hk)
  refine ⟨hparams, fun i hi => ?_⟩
  obtain ⟨n, hn⟩ := List.mem_iff_getElem?.mp hi
  exact ⟨_, checkInstr_of_checkCode hcode hn⟩

theorem checkInstr_of_check (h : prog.check = .ok ()) (hf : prog.function? pos.func = some f)
    (hi : prog.instr? pos = some i) : prog.checkInstr f pos i = .ok () := by
  obtain ⟨hfunc, hentry⟩ := nth?_eq_some.mp (Option.join_eq_some_iff.mp hf)
  obtain ⟨g, hg, hcode⟩ := Option.bind_eq_some_iff.mp hi
  obtain rfl := Option.some.inj (hf.symm.trans hg)
  obtain ⟨hpc, hinstr⟩ := nth?_eq_some.mp hcode
  have hchecked := (checkCode_of_checkFunction (checkFunction_of_checkEntries h hentry)).2
  have hpassed := checkInstr_of_checkCode hchecked hinstr
  rwa [Nat.zero_add, Nat.zero_add, Int64.ofNat_toNatClampNeg _ hfunc, Int64.ofNat_toNatClampNeg _ hpc] at hpassed

theorem primitive_of_check (h : prog.check = .ok ()) : prog.Primitive := by
  intro f hf i hi hc
  obtain ⟨pos, hpos⟩ := (function_of_check h hf).2 i hi
  simp only [checkInstr, hc] at hpos
  split at hpos
  · assumption
  · cases hpos

theorem slot_of_checkInstr (h : prog.checkInstr f pos i = .ok ()) (hi : i.code = .load ∨ i.code = .store) :
    0 ≤ i.n ∧ i.n < f.locals := by
  have hslot : ¬(i.n < 0 ∨ f.locals ≤ i.n) := by
    rcases hi with hi | hi <;> simp only [checkInstr, hi] at h <;> split at h <;> first | assumption | cases h
  simpa [not_or] using hslot

theorem function_of_checkInstr (h : prog.checkInstr f pos i = .ok ()) (hi : i.code = .static) :
    ∃ g, prog.function? i.n = some g := by
  simp only [checkInstr, hi] at h
  split at h
  · cases h
  · rename_i hsome
    exact Option.ne_none_iff_exists'.mp (by simpa using hsome)

theorem known_of_checkInstr (h : prog.checkInstr f pos i = .ok ()) : i.code ≠ .guard ∧ i.code.isKnown = true := by
  cases hc : i.code <;> simp only [checkInstr, hc] at h <;> first | cases h; done | exact ⟨by simp, rfl⟩

end Program

def Frame.Sized (prog : Program) (f : Frame) : Prop :=
  ∃ fn, prog.function? f.func = some fn ∧ (f.locals.length : Int) = fn.locals.toInt

/-- The frames belong to the functions in which control is or to which it will return, given where it is. -/
inductive Linked : Position → List Frame → Prop
  | root {pos : Position} {f : Frame} (func : f.func = pos.func) (back : f.back = none) : Linked pos [f]
  | under {pos place : Position} {f : Frame} {rest : List Frame} (func : f.func = pos.func)
    (back : f.back = some place) (below : Linked place rest) : Linked pos (f :: rest)

namespace Linked

variable {pos pos' : Position} {frames rest : List Frame} {f : Frame}

theorem congr (h : Linked pos frames) (hfunc : pos'.func = pos.func) : Linked pos' frames := by
  cases h with
  | root func back => exact .root (func.trans hfunc.symm) back
  | under func back below => exact .under (func.trans hfunc.symm) back below

theorem exists_top (h : Linked pos frames) : ∃ f rest, frames = f :: rest ∧ f.func = pos.func := by
  cases h with
  | root func _ => exact ⟨_, [], rfl, func⟩
  | under func _ _ => exact ⟨_, _, rfl, func⟩

theorem of_back (h : Linked pos (f :: rest)) {place : Position} (hback : f.back = some place) : Linked place rest := by
  cases h with
  | root _ hnone => cases hnone.symm.trans hback
  | under _ hsome below =>
    cases hsome.symm.trans hback
    exact below

theorem step {prog : Program} {v : Move} {m : Machine} (h : Linked pos m.frames) (hv : v.From prog pos m)
    (hgoes : v.transfer ≠ .stop) : Linked v.landing v.machine.frames := by
  have hflow := hv.flow
  have hland : v.landing = Walk.target pos v.transfer := by rw [Move.landing, hv.place]
  generalize htr : v.transfer = t at hflow hland
  cases hflow with
  | next _ hframes =>
    rw [hframes, hland]
    exact h.congr rfl
  | jump _ hframes =>
    rw [hframes, hland]
    exact h.congr rfl
  | enter _ f _ hback hframes =>
    rw [hframes, hland]
    exact .under rfl hback (h.congr rfl)
  | leave f rest target hback popped hframes =>
    rw [hframes, hland]
    exact (popped ▸ h).of_back hback
  | stop => exact absurd htr hgoes

end Linked

theorem Heap.blockSize?_eq_some {k : Int64} {size : Nat} (h : Heap.blockSize? k = some size) :
    ¬k < 0 ∧ size = k.toNatClampNeg := by
  unfold Heap.blockSize? at h
  split at h
  · cases h
  · rename_i hk
    exact ⟨fun hneg => hk (.inl hneg), (Option.some.inj h).symm⟩

namespace Exec

variable {prog : Program}

theorem require_eq_ok {α : Type} {c : Cause} {o : Option α} {m m' : Machine} {a : α} :
    require c o m = .ok a m' ↔ o = some a ∧ m' = m := by
  cases o with
  | none => simp [require]
  | some b => simp [require, eq_comm]

theorem ofOption_eq_ok {α : Type} {o : Option α} {m m' : Machine} {a : α} :
    ofOption o m = .ok a m' ↔ o = some a ∧ m' = m := by
  cases o with
  | none => simp [ofOption]
  | some b => simp [ofOption, eq_comm]

theorem length_of_popArguments {k : Nat} {cells cells' : List CellId} {m m' : Machine}
    (h : popArguments k cells m = .ok cells' m') : cells'.length = k + cells.length := by
  induction k generalizing cells m with
  | zero =>
    cases h
    omega
  | succ k ih =>
    obtain ⟨_, _, _, h⟩ := bind_eq_ok.mp h
    obtain ⟨_, _, _, h⟩ := bind_eq_ok.mp h
    have hlen := ih h
    rw [List.length_cons] at hlen
    omega

theorem length_of_allocUnits {k : Nat} {cells : List CellId} {m m' : Machine} (h : allocUnits k m = .ok cells m') :
    cells.length = k := by
  cases h
  simp [Heap.upcoming]

theorem toInt_of_not_neg {k : Int64} (h : ¬k < 0) : (k.toNatClampNeg : Int) = k.toInt := by
  rw [Int64.not_lt, Int64.le_iff_toInt_le, Int64.toInt_zero] at h
  exact Int.toNat_of_nonneg h

theorem newFrame_sized {func : Int64} {m m' : Machine} {f : Frame} (h : newFrame prog func m = .ok f m') :
    f.func = func ∧ f.Sized prog := by
  obtain ⟨fn, _, hfn, h⟩ := bind_eq_ok.mp h
  obtain ⟨size, _, hsize, h⟩ := bind_eq_ok.mp h
  obtain ⟨cells, _, hcells, h⟩ := bind_eq_ok.mp h
  cases h
  obtain ⟨hfn, _⟩ := require_eq_ok.mp hfn
  obtain ⟨hneg, rfl⟩ := Heap.blockSize?_eq_some (ofOption_eq_ok.mp hsize).1
  refine ⟨rfl, fn, hfn, ?_⟩
  rw [← toInt_of_not_neg hneg, ← length_of_allocUnits hcells]

theorem enter_sized {func : Int64} {back : Position} {args : Bool} {m m' : Machine} {t : Transfer}
    (h : enter prog func back args m = .ok t m') : ∃ f rest, m'.frames = f :: rest ∧ f.Sized prog := by
  obtain ⟨fn, m₁, hfn, h⟩ := bind_eq_ok.mp h
  obtain ⟨hparams, h⟩ := check_passed (by simp) h
  obtain ⟨size, m₂, hsize, h⟩ := bind_eq_ok.mp h
  obtain ⟨hnegative, h⟩ := check_passed (by simp) h
  obtain ⟨cells, m₃, hcells, h⟩ := bind_eq_ok.mp h
  obtain ⟨fresh, m₄, hfresh, h⟩ := bind_eq_ok.mp h
  cases h
  obtain ⟨hneg, rfl⟩ := Heap.blockSize?_eq_some (ofOption_eq_ok.mp hsize).1
  have hlocals := toInt_of_not_neg hneg
  have hpassed := toInt_of_not_neg hnegative
  rw [Int64.not_lt, Int64.le_iff_toInt_le] at hparams
  refine ⟨_, m₄.frames, rfl, fn, (require_eq_ok.mp hfn).1, ?_⟩
  rw [List.length_append, length_of_popArguments hcells, length_of_allocUnits hfresh, List.length_nil]
  omega

theorem step_sized {i : Instr} {pos : Position} {m m' : Machine} {t : Transfer}
    (h : step prog i pos false m = .ok t m') (hm : ∀ f ∈ m.frames, f.Sized prog) : ∀ f ∈ m'.frames, f.Sized prog := by
  cases step_flow h with
  | next _ frames => rwa [frames]
  | jump _ frames => rwa [frames]
  | leave f rest target _ popped frames =>
    rw [popped] at hm
    rw [frames]
    exact (List.forall_mem_cons.mp hm).2
  | stop f rest _ popped frames =>
    rw [popped] at hm
    rw [frames]
    exact (List.forall_mem_cons.mp hm).2
  | enter code f _ _ frames =>
    have hentered : ∃ g rest, m'.frames = g :: rest ∧ g.Sized prog := by
      cases hc : i.code <;> simp [hc, Opcode.isCall] at code
      case call =>
        obtain ⟨_, _, _, he⟩ := step_call_eq_ok hc h
        exact enter_sized he
      case static =>
        simp only [step, hc] at h
        exact enter_sized h
    obtain ⟨g, rest, hframes, hsized⟩ := hentered
    obtain ⟨rfl, rfl⟩ := List.cons.inj (frames.symm.trans hframes)
    rw [frames]
    exact List.forall_mem_cons.mpr ⟨hsized, hm⟩

theorem localCell_eq_ok {slot : Int64} {m m' : Machine} {c : CellId} :
    localCell slot m = .ok c m' ↔ ∃ f, m.top? = some f ∧ f.local? slot = some c ∧ m' = m := by
  have htop : ∀ n : Machine, topFrame n = require .noFrame n.top? n := fun _ => rfl
  rw [localCell, bind_eq_ok]
  constructor
  · rintro ⟨f, m₁, hframe, hcell⟩
    rw [htop, require_eq_ok] at hframe
    obtain ⟨hf, rfl⟩ := hframe
    obtain ⟨hc, rfl⟩ := require_eq_ok.mp hcell
    exact ⟨f, hf, hc, rfl⟩
  · rintro ⟨f, hf, hc, rfl⟩
    exact ⟨f, m', by rw [htop, require_eq_ok]; exact ⟨hf, rfl⟩, require_eq_ok.mpr ⟨hc, rfl⟩⟩

theorem exists_localCell {m : Machine} {f : Frame} {rest : List Frame} (hm : m.frames = f :: rest) {slot : Int64}
    (hneg : 0 ≤ slot) (hlt : slot.toInt < f.locals.length) : ∃ c, localCell slot m = .ok c m := by
  have hslot := toInt_of_not_neg (Int64.not_lt.mpr hneg)
  obtain ⟨c, hc⟩ : ∃ c, f.locals[slot.toNatClampNeg]? = some c := ⟨_, List.getElem?_eq_getElem (by omega)⟩
  exact ⟨c, localCell_eq_ok.mpr ⟨f, by simp [Machine.top?, hm], nth?_eq_some.mpr ⟨hneg, hc⟩, rfl⟩⟩

theorem popValue_fault {m m' : Machine} {c : Cause} (h : popValue prog m = .error (.fault c) m') :
    c = .underflow ∨ ∃ e, c = .mismatch e := by
  cases hs : m.stack with
  | nil =>
    rw [popValue_nil prog hs] at h
    cases h
    exact .inl rfl
  | cons x rest =>
    rw [popValue_cons prog hs, valueOf_apply] at h
    split at h
    · cases h
    · split at h
      · cases h
      · rename_i hr
        cases h
        exact .inr (Program.resolve_error hr)

theorem store_fault {m m' : Machine} {c : CellId} {v : Value} {e : Cause} :
    store c v m ≠ .error (.fault e) m' := by
  rw [store_apply_eq]
  split <;> nofun

theorem step_load {i : Instr} (hi : i.code = .load) {m : Machine} {f : Frame} {rest : List Frame}
    (hm : m.frames = f :: rest) (hneg : 0 ≤ i.n) (hlt : i.n.toInt < f.locals.length) (pos : Position) (inTrace : Bool) :
    ∃ m', step prog i pos inTrace m = .ok .next m' := by
  obtain ⟨c, hc⟩ := exists_localCell hm hneg hlt
  simp only [step, hi]
  rw [bind_apply, hc]
  exact ⟨_, rfl⟩

theorem step_store_fault {i : Instr} (hi : i.code = .store) {m m' : Machine} {f : Frame} {rest : List Frame}
    (hm : m.frames = f :: rest) (hneg : 0 ≤ i.n) (hlt : i.n.toInt < f.locals.length) {pos : Position} {inTrace : Bool}
    {c : Cause} (h : step prog i pos inTrace m = .error (.fault c) m') : c = .underflow ∨ ∃ e, c = .mismatch e := by
  simp only [step, hi] at h
  rcases bind_eq_error.mp h with h | ⟨v, m₁, hv, h⟩
  · exact popValue_fault h
  · have hframes := ((keepsFrames_popValue prog).of_ok hv).1
    obtain ⟨cell, hcell⟩ := exists_localCell (hframes.trans hm) hneg hlt
    rw [bind_apply, hcell] at h
    rcases bind_eq_error.mp h with h | ⟨_, _, _, h⟩
    · exact absurd h store_fault
    · cases h

theorem check_eq_error {α : Type} {c : Prop} [Decidable c] {stop : Exec PUnit} (hs : ∀ a m m', stop m ≠ .ok a m')
    {x : Exec α} {m m' : Machine} {e : Stop} (h : (if c then stop >>= fun _ => x else x) m = .error e m') :
    stop m = .error e m' ∨ x m = .error e m' := by
  split at h
  · rcases bind_eq_error.mp h with h | ⟨a, m₁, ha, _⟩
    · exact .inl h
    · exact absurd ha (hs a m m₁)
  · exact .inr h

theorem popArguments_fault {k : Nat} {cells : List CellId} {m m' : Machine} {c : Cause}
    (h : popArguments k cells m = .error (.fault c) m') : c = .underflow := by
  induction k generalizing cells m with
  | zero => cases h
  | succ k ih =>
    rcases bind_eq_error.mp h with h | ⟨x, m₁, _, h⟩
    · cases hs : m.stack with
      | nil =>
        rw [pop_nil hs] at h
        cases h
        rfl
      | cons x rest =>
        rw [pop_cons hs] at h
        cases h
    · rcases bind_eq_error.mp h with h | ⟨_, _, _, h⟩
      · cases x <;> cases h
      · exact ih h

theorem enter_fault {func : Int64} {fn : Function} (hfn : prog.function? func = some fn) {back : Position}
    {args : Bool} {m m' : Machine} {c : Cause} (h : enter prog func back args m = .error (.fault c) m') :
    c = .underflow ∨ ∃ e, c = .outOfRange e := by
  rcases bind_eq_error.mp h with h | ⟨g, m₁, _, h⟩
  · rw [hfn] at h
    cases h
  rcases check_eq_error (by simp) h with h | h
  · cases h
    exact .inr ⟨_, rfl⟩
  rcases bind_eq_error.mp h with h | ⟨size, m₂, _, h⟩
  · cases hs : Heap.blockSize? g.locals <;> rw [hs] at h <;> cases h
  rcases check_eq_error (by simp) h with h | h
  · cases h
  rcases bind_eq_error.mp h with h | ⟨cells, m₃, _, h⟩
  · exact .inl (popArguments_fault h)
  · cases h

theorem step_ret {i : Instr} (hi : i.code = .ret) {m : Machine} {f : Frame} {rest : List Frame}
    (hm : m.frames = f :: rest) (pos : Position) (inTrace : Bool) : ∃ t m', step prog i pos inTrace m = .ok t m' := by
  simp only [step, hi]
  exact ⟨_, _, leave_eq_ok.mpr ⟨f, rest, hm, rfl, rfl⟩⟩

end Exec

namespace Walk

open Exec

variable {prog : Program} {w : Window} {home root : Frame}

def Framed (prog : Program) (s : Walk) : Prop :=
  Linked s.pos s.machine.frames ∧ ∀ f ∈ s.machine.frames, f.Sized prog

theorem Framed.turn {s t : Walk} (hs : s.Framed prog) (h : turn prog w home root s = .again t) : t.Framed prog := by
  obtain ⟨v, hv, he, rfl⟩ := turn_eq_again.mp h
  have hgoes : v.transfer ≠ .stop := (Move.exit?_eq_none.mp he).1
  exact ⟨hs.1.step hv hgoes, step_sized hv.step hs.2⟩

theorem Framed.of_newFrame {func : Int64} {m₀ m₁ m : Machine} {f : Frame} (hnew : newFrame prog func m₀ = .ok f m₁)
    (hm : m.frames = [f]) (pc : Int64) (log : List Event) : Framed prog ⟨⟨func, pc⟩, m, log⟩ := by
  obtain ⟨hfunc, hsized⟩ := newFrame_sized hnew
  obtain ⟨_, hback, _⟩ := newFrame_eq_ok hnew
  refine ⟨?_, by simpa [hm] using hsized⟩
  simp only [hm]
  exact .root hfunc hback

end Walk

theorem Program.function?_mem {prog : Program} {func : Int64} {fn : Function} (h : prog.function? func = some fn) :
    some fn ∈ prog.entries :=
  List.mem_of_getElem? (nth?_eq_some.mp (Option.join_eq_some_iff.mp h)).2

/-- All along a run of a checked program from a frame of its own, the active frame belongs to the function in which
control is and has the locals that this function says. Loads and returns succeed, stores fail only for their operand,
references find their function, and no guard and no unknown opcode is met. -/
theorem Program.run_framed {prog : Program} (hcheck : prog.check = .ok ()) {func pc : Int64} {m₀ m₁ m : Machine}
    {f : Frame} (hnew : Exec.newFrame prog func m₀ = .ok f m₁) (hm : m.frames = [f]) {w : Window} {home root : Frame}
    {n : Nat} {s : Walk} (hs : advance (Walk.turn prog w home root) n ⟨⟨func, pc⟩, m, []⟩ = some s) :
    ∃ top rest fn, s.machine.frames = top :: rest ∧ top.func = s.pos.func ∧ prog.function? s.pos.func = some fn ∧
      (top.locals.length : Int) = fn.locals.toInt ∧ ∀ i, prog.instr? s.pos = some i →
        i.code ≠ .guard ∧ i.code.isKnown = true ∧
          (i.code = .load ∨ i.code = .ret → ∃ t m', Exec.step prog i s.pos false s.machine = .ok t m') ∧
            ∀ c m', Exec.step prog i s.pos false s.machine = .error (.fault c) m' →
              (i.code = .store → c = .underflow ∨ ∃ e, c = .mismatch e) ∧
                (i.code = .static → ∀ k, c ≠ .noFunction k) := by
  obtain ⟨hlinked, hall⟩ : s.Framed prog :=
    advance_invariant (P := Walk.Framed prog) (fun _ _ ht hu => ht.turn hu) (.of_newFrame hnew hm pc []) hs
  obtain ⟨top, rest, hframes, hfunc⟩ := hlinked.exists_top
  obtain ⟨fn, hfn, hsize⟩ := hall top (by simp [hframes])
  rw [hfunc] at hfn
  refine ⟨top, rest, fn, hframes, hfunc, hfn, hsize, fun i hi => ?_⟩
  have hmem : i ∈ fn.instrs := by
    obtain ⟨g, hg, hget⟩ := Option.bind_eq_some_iff.mp hi
    obtain rfl := Option.some.inj (hfn.symm.trans hg)
    exact List.mem_of_getElem? (nth?_eq_some.mp hget).2
  obtain ⟨pos, hpos⟩ := (Program.function_of_check hcheck (Program.function?_mem hfn)).2 i hmem
  obtain ⟨hguard, hknown⟩ := Program.known_of_checkInstr hpos
  -- the check compares a slot with the locals of the function, and the frame has as many
  have hslot : i.code = .load ∨ i.code = .store → 0 ≤ i.n ∧ i.n.toInt < top.locals.length := by
    intro hc
    obtain ⟨hneg, hlt⟩ := Program.slot_of_checkInstr hpos hc
    exact ⟨hneg, by rwa [hsize, ← Int64.lt_iff_toInt_lt]⟩
  refine ⟨hguard, hknown, ?_, fun c m' h => ⟨fun hc => ?_, fun hc k => ?_⟩⟩
  · rintro (hc | hc)
    · obtain ⟨hneg, hlt⟩ := hslot (.inl hc)
      exact ⟨_, Exec.step_load hc hframes hneg hlt s.pos false⟩
    · exact Exec.step_ret hc hframes s.pos false
  · obtain ⟨hneg, hlt⟩ := hslot (.inr hc)
    exact Exec.step_store_fault hc hframes hneg hlt h
  · obtain ⟨g, hg⟩ := Program.function_of_checkInstr hpos hc
    simp only [Exec.step, hc] at h
    rcases Exec.enter_fault hg h with rfl | ⟨e, rfl⟩ <;> simp

theorem Program.run_framed_drain : ∃ s i,
    advance (Walk.turn drainLoop {} fiveLocals fiveLocals) 10 ⟨{}, seededMachine 2 0, []⟩ = some s ∧
      drainLoop.instr? s.pos = some i ∧ i.code = .store ∧ s.pos.func = 1 ∧
        (∃ top rest, s.machine.frames = top :: rest ∧ top.func = 1) ∧
          ∀ c m', Exec.step drainLoop i s.pos false s.machine = .error (.fault c) m' →
            c = .underflow ∨ ∃ e, c = .mismatch e := by
  have hcheck : drainLoop.check = .ok () := by decide
  have hnew : Exec.newFrame drainLoop 0 {} = .ok fiveLocals _ := rfl
  have hpos : (advance (Walk.turn drainLoop {} fiveLocals fiveLocals) 10 ⟨{}, seededMachine 2 0, []⟩).map Walk.pos =
      some ⟨1, 7⟩ := by decide +kernel
  obtain ⟨s, hs, hpos⟩ := Option.map_eq_some_iff.mp hpos
  have hi : drainLoop.instr? s.pos = some (.store 0) := by
    rw [hpos]
    decide
  obtain ⟨top, rest, _, hframes, hfunc, _, _, hinstr⟩ := Program.run_framed hcheck hnew rfl hs
  obtain ⟨_, _, _, hfault⟩ := hinstr _ hi
  rw [hpos] at hfunc
  exact ⟨s, .store 0, hs, hi, rfl, by rw [hpos], ⟨top, rest, hframes, hfunc⟩, fun c m' h => (hfault c m' h).1 rfl⟩

end HotLoop
