import HotLoop.Proofs.Block
import HotLoop.Proofs.Counter.Image

namespace HotLoop.Counter

variable {user : List UInt64} {opcode : Value} {s : State} {stack : List Operand} {m m' m'' : Machine}
  {pc pc' pc'' : Int64} {n n' : Nat}

theorem length_fields (user : List UInt64) : (fields user).length = user.length := by simp [fields]

theorem nth?_fields (h : Fits user) {op : UInt64} (hop : user[s.pc.toNat]? = some op) (opcode : Value) :
    ∃ c, nth? (fields user) s.pc.toInt64 = some c ∧ (cells user opcode s)[c.toNat]? = some (Value.usize op) := by
  obtain ⟨hlt, hget⟩ := List.getElem?_eq_some_iff.mp hop
  unfold Fits UInt32.size at h
  have hc : (UInt32.ofNat (5 + s.pc.toNat)).toNat = 5 + s.pc.toNat := by
    simpa using Nat.mod_eq_of_lt (show 5 + s.pc.toNat < 2 ^ 32 by omega)
  refine ⟨UInt32.ofNat (5 + s.pc.toNat), ?_, ?_⟩
  · refine nth?_toInt64.mpr ⟨?_, by simp [fields, hlt]⟩
    rw [Int64.toInt_maxValue]
    omega
  · rw [hc, cells, List.getElem?_append_right (by simp)]
    simp [hop]

theorem all_fetch (h : Fits user) {op : UInt64} (hop : user[s.pc.toNat]? = some op) :
    Exec.all program fetch (image user opcode s stack) = .ok () (image user (Value.usize op) s stack) := by
  obtain ⟨c, hfield, hcell⟩ := nth?_fields h hop opcode
  have hload : Exec.all program (fetch.take 2) (image user opcode s stack) =
      .ok () (image user opcode s (.place 1 :: .place 3 :: stack)) := rfl
  have hindex : Exec.step program (.plain .getIndex) {} false (image user opcode s (.place 1 :: .place 3 :: stack)) =
      .ok .next (image user opcode s (.place c :: stack)) := by
    have hstep : Exec.step program (.plain .getIndex) {} false
        (image user opcode s (.place 1 :: .place 3 :: stack)) =
      (Exec.require (.outOfRange (.noField s.pc.toInt64 (fields user).length)) (nth? (fields user) s.pc.toInt64) >>=
        fun c => do
          Exec.push (.place c)
          return .next) (image user opcode s stack) := rfl
    rw [hstep, hfield]
    rfl
  have hvalue : Exec.popValue program (image user opcode s (.place c :: stack)) =
      .ok (Value.usize op) (image user opcode s stack) := by
    have hload : (image user opcode s stack).heap.materialize? (.place c) = some (Value.usize op) :=
      (Heap.load?_toArray _ _).trans hcell
    rw [Exec.popValue_cons program rfl]
    change Exec.valueOf program (.place c) (image user opcode s stack) = _
    rw [Exec.valueOf_apply, hload]
    rfl
  have hstore : Exec.step program (.store slotOpcode) {} false (image user opcode s (.place c :: stack)) =
      .ok .next (image user (Value.usize op) s stack) := by
    simp only [Exec.step, Instr.store, Instr.sized]
    rw [Exec.bind_apply, hvalue]
    rfl
  change Exec.all program (fetch.take 2 ++ [.plain .getIndex, .store slotOpcode]) _ = _
  rw [Exec.all_append, Exec.bind_apply, hload]
  simp only [Exec.all, Exec.bind_apply, hindex, hstore]
  rfl

def Reaches (pc : Int64) (m : Machine) (n : Nat) (pc' : Int64) (m' : Machine) : Prop :=
  ∃ vs, vs.length = n ∧ Path program ⟨0, pc⟩ m vs ⟨0, pc'⟩ m' ∧ (loopWindow header).Open frame frame vs

theorem Reaches.trans (h : Reaches pc m n pc' m') (h' : Reaches pc' m' n' pc'' m'') :
    Reaches pc m (n + n') pc'' m'' := by
  obtain ⟨us, rfl, hus, hopen⟩ := h
  obtain ⟨vs, rfl, hvs, hopen'⟩ := h'
  exact ⟨us ++ vs, by simp, hus.append hvs, List.forall_mem_append.mpr ⟨hopen, hopen'⟩⟩

theorem reaches_block {code : List Instr} (hall : Exec.all program code m = .ok () m')
    (hplain : code.all (fun i => i.code.isPlain) = true) (hat : program.has ⟨0, pc⟩ code = true)
    (hpc : Position.skip ⟨0, pc⟩ code.length = ⟨0, pc'⟩) : Reaches pc m code.length pc' m' := by
  obtain ⟨vs, hlen, hpath, hnext⟩ := Path.of_all hplain hat hall
  rw [hpc] at hpath
  refine ⟨vs, hlen, hpath, fun v hv => Move.exit?_loopWindow_eq_none.mpr ⟨hpath.goes v hv, ?_⟩⟩
  simp [hnext v hv, Walk.closes]

theorem reaches_jump {i : Instr} {taken : Bool} (hi : program.instr? ⟨0, pc⟩ = some i)
    (hstep : Exec.step program i ⟨0, pc⟩ false m = .ok (.jump ⟨0, pc'⟩ taken) m') (hpc : ¬pc' ≤ header.pc) :
    Reaches pc m 1 pc' m' := by
  refine ⟨[⟨i, ⟨0, pc⟩, .jump ⟨0, pc'⟩ taken, m'⟩], rfl, .single ⟨rfl, hi, hstep⟩ (by simp), ?_⟩
  intro v hv
  obtain rfl := List.mem_singleton.mp hv
  exact Move.exit?_loopWindow_eq_none.mpr ⟨by simp, fun h => hpc h.2.2⟩

theorem reaches_next {i : Instr} (hi : program.instr? ⟨0, pc⟩ = some i)
    (hstep : Exec.step program i ⟨0, pc⟩ false m = .ok .next m') : Reaches pc m 1 (pc + 1) m' := by
  refine ⟨[⟨i, ⟨0, pc⟩, .next, m'⟩], rfl, .single ⟨rfl, hi, hstep⟩ (by simp), ?_⟩
  intro v hv
  obtain rfl := List.mem_singleton.mp hv
  exact Move.exit?_loopWindow_eq_none.mpr ⟨by simp, by simp [Walk.closes]⟩

theorem reaches_branch {k : Int64} (hi : program.instr? ⟨0, pc⟩ = some (.sized .skipIf k))
    (hk : header.pc < pc + k) (b : Bool) :
    Reaches pc (image user opcode s [.owned (Value.ofBool b)]) 1 (if b then pc + k else pc + 1)
      (image user opcode s []) := by
  cases b with
  | false => exact reaches_next hi rfl
  | true =>
    have hcond : (image user opcode s [.owned (Value.ofBool true)]).condition? program = some true := rfl
    have hpos : ¬pc + k < 0 := Int64.not_lt.mpr (Int64.le_of_lt (Int64.lt_trans (by decide) hk))
    have hstep := (Exec.step_of_condition (i := .sized .skipIf k) rfl hcond ⟨0, pc⟩ false).trans
      (Exec.branch_eq_ok.mpr ⟨rfl, .inr ⟨rfl, hpos, rfl⟩⟩)
    exact reaches_jump hi hstep (Int64.not_le.mpr hk)

theorem reaches_test {code : List Instr} {b : Bool} {k : Int64}
    (hall : Exec.all program code (image user opcode s []) = .ok () (image user opcode s [.owned (Value.ofBool b)]))
    (hplain : code.all (fun i => i.code.isPlain) = true) (hat : program.has ⟨0, pc⟩ code = true)
    (hpc : Position.skip ⟨0, pc⟩ code.length = ⟨0, pc'⟩)
    (hi : program.instr? ⟨0, pc'⟩ = some (.sized .skipIf k)) (hk : header.pc < pc' + k)
    (hb : (if b then pc' + k else pc' + 1) = pc'') :
    Reaches pc (image user opcode s []) (code.length + 1) pc'' (image user opcode s []) :=
  (reaches_block hall hplain hat hpc).trans (hb ▸ reaches_branch hi hk b)

theorem past_end_iff (h : Fits user) :
    UInt64.ofNat (fields user).length ≤ s.pc ↔ user.length ≤ s.pc.toNat := by
  unfold Fits UInt32.size at h
  rw [length_fields, UInt64.le_iff_toNat_le, UInt64.toNat_ofNat_of_lt' (by simp [UInt64.size]; omega)]

theorem reaches_checkEnd (h : Fits user) (opcode : Value) :
    Reaches header.pc (image user opcode s []) 5 (if user.length ≤ s.pc.toNat then 45 else 6)
      (image user opcode s []) := by
  have hall : Exec.all program (checkEnd.take 4) (image user opcode s []) =
      .ok () (image user opcode s [.owned (Value.ofBool (UInt64.ofNat (fields user).length ≤ s.pc))]) := rfl
  refine reaches_test hall rfl rfl rfl rfl (by decide) ?_
  simp only [past_end_iff h, decide_eq_true_eq]
  rfl

theorem reaches_fetched (h : Fits user) {op : UInt64} (hop : user[s.pc.toNat]? = some op) (opcode : Value) :
    Reaches header.pc (image user opcode s []) 9 10 (image user (Value.usize op) s []) := by
  have hlt : ¬user.length ≤ s.pc.toNat := by
    obtain ⟨hlt, _⟩ := List.getElem?_eq_some_iff.mp hop
    omega
  have hcheck := reaches_checkEnd (s := s) h opcode
  rw [if_neg hlt] at hcheck
  exact hcheck.trans (reaches_block (all_fetch h hop) rfl rfl rfl)

theorem reaches_unless (user : List UInt64) (s : State) (op op' : UInt64)
    (hat : program.has ⟨0, pc⟩ ((unlessOpcode op').take 4) = true)
    (hpc : Position.skip ⟨0, pc⟩ 4 = ⟨0, pc'⟩) (hi : program.instr? ⟨0, pc'⟩ = some (.sized .skipIf 6))
    (hk : header.pc < pc' + 6) :
    Reaches pc (image user (Value.usize op) s []) 5 (if op = op' then pc' + 1 else pc' + 6)
      (image user (Value.usize op) s []) := by
  have hall : Exec.all program ((unlessOpcode op').take 4) (image user (Value.usize op) s []) =
      .ok () (image user (Value.usize op) s [.owned (Value.ofBool (!decide (op = op')))]) := rfl
  refine reaches_test hall rfl hat hpc hi hk ?_
  by_cases hop : op = op' <;> simp [hop]

theorem reaches_repeat (op : UInt64) : Reaches 30 (image user (Value.usize op) s []) 5
    (if 0 < s.cell then 35 else 40) (image user (Value.usize op) s []) := by
  have hall : Exec.all program (repeatStep.take 4) (image user (Value.usize op) s []) =
      .ok () (image user (Value.usize op) s [.owned (Value.ofBool (!decide (0 < s.cell)))]) := rfl
  refine reaches_test hall rfl rfl rfl rfl (by decide) ?_
  by_cases hcell : 0 < s.cell <;> simp only [hcell, decide_true, decide_false, Bool.not_true, Bool.not_false] <;> rfl

theorem record_of_reaches (h : Reaches header.pc m n pc m') (hm : m.top? = some frame) {v : Move} {e : Exit}
    (hv : v.From program ⟨0, pc⟩ m') (he : v.exit? (loopWindow header) frame frame = some e) {fuel : Nat}
    (hfuel : n < fuel) : ∃ log, m.record program fuel header = some ⟨.ok e, v.machine, log⟩ := by
  obtain ⟨vs, rfl, hpath, hopen⟩ := h
  rw [Machine.record_eq hm]
  exact ⟨_, Walk.iterate_iff.mpr ⟨vs, v, _, _, hfuel, hpath, hopen, hv, he, rfl, rfl⟩⟩

theorem record_halt (h : Fits user) (hend : s.step? user = none) (opcode : Value) {fuel : Nat} (hfuel : 5 < fuel) :
    ∃ log, (image user opcode s []).record program fuel header =
      some ⟨.ok .returned, { image user opcode s [] with frames := [] }, log⟩ := by
  have hle : user.length ≤ s.pc.toNat := by simpa [State.step?] using hend
  have hreach := reaches_checkEnd (s := s) h opcode
  rw [if_pos hle] at hreach
  exact record_of_reaches hreach rfl
    (show Move.From program ⟨0, 45⟩ (image user opcode s [])
      ⟨.plain .ret, ⟨0, 45⟩, .stop, { image user opcode s [] with frames := [] }⟩ from ⟨rfl, rfl, rfl⟩) rfl hfuel

theorem record_looped {k : Int64} (h : Reaches header.pc m n pc (image user opcode s [])) (hm : m.top? = some frame)
    (hi : program.instr? ⟨0, pc⟩ = some (.sized .jumpBack k)) (hk : pc - k = 0) {fuel : Nat} (hfuel : n < fuel) :
    ∃ log, m.record program fuel header = some ⟨.ok .looped, image user opcode s [], log⟩ := by
  have hstep : Exec.step program (.sized .jumpBack k) ⟨0, pc⟩ false (image user opcode s []) =
      .ok (.jump ⟨0, 0⟩ false) (image user opcode s []) := by
    rw [Exec.step_jump (.inr rfl)]
    rw [show (Instr.sized .jumpBack k).destination ⟨0, pc⟩ = 0 from hk]
    rfl
  exact record_of_reaches h hm
    (show Move.From program ⟨0, pc⟩ (image user opcode s [])
      ⟨.sized .jumpBack k, ⟨0, pc⟩, .jump ⟨0, 0⟩ false, image user opcode s []⟩ from ⟨rfl, hi, hstep⟩)
    (Move.exit?_loopWindow.mpr ⟨by simp, rfl, rfl, show (0 : Int64) ≤ 1 by decide⟩) hfuel

theorem reaches_advance (opcode : Value) (s : State) :
    Reaches 40 (image user opcode s []) 4 44 (image user opcode ⟨s.pc + 1, s.cell⟩ []) :=
  reaches_block (show Exec.all program (change slotPc .add) _ = _ from rfl) rfl rfl rfl

theorem record_step (h : Fits user) {op : UInt64} (hop : user[s.pc.toNat]? = some op) (opcode : Value) {fuel : Nat}
    (hfuel : 28 < fuel) :
    ∃ log, (image user opcode s []).record program fuel header =
      some ⟨.ok .looped, image user (Value.usize op) (s.apply op) [], log⟩ := by
  have hdec := (reaches_fetched h hop opcode).trans
    (reaches_unless user s op dec (show program.has ⟨0, 10⟩ _ = true from rfl) rfl rfl (by decide))
  by_cases hd : op = dec
  · rw [if_pos hd] at hdec
    have hbody : Reaches 15 (image user (Value.usize op) s []) 4 19
        (image user (Value.usize op) ⟨s.pc, s.cell - 1⟩ []) :=
      reaches_block (show Exec.all program (change slotCell .sub) _ = _ from rfl) rfl rfl rfl
    have hend := ((hdec.trans hbody).trans (reaches_jump rfl rfl (by decide))).trans (reaches_advance _ _)
    rw [State.apply, if_pos hd]
    exact record_looped hend rfl rfl rfl (by omega)
  · rw [if_neg hd] at hdec
    have hinc := hdec.trans (reaches_unless user s op inc (show program.has ⟨0, 20⟩ _ = true from rfl) rfl rfl
      (by decide))
    by_cases hi : op = inc
    · rw [if_pos hi] at hinc
      have hbody : Reaches 25 (image user (Value.usize op) s []) 4 29
          (image user (Value.usize op) ⟨s.pc, s.cell + 1⟩ []) :=
        reaches_block (show Exec.all program (change slotCell .add) _ = _ from rfl) rfl rfl rfl
      have hend := ((hinc.trans hbody).trans (reaches_jump rfl rfl (by decide))).trans (reaches_advance _ _)
      rw [State.apply, if_neg hd, if_pos hi]
      exact record_looped hend rfl rfl rfl (by omega)
    · rw [if_neg hi] at hinc
      have hrepeat := hinc.trans (reaches_repeat op)
      by_cases hc : 0 < s.cell
      · rw [if_pos hc] at hrepeat
        have hbody : Reaches 35 (image user (Value.usize op) s []) 4 39
            (image user (Value.usize op) ⟨s.pc - 1, s.cell⟩ []) :=
          reaches_block (show Exec.all program (change slotPc .sub) _ = _ from rfl) rfl rfl rfl
        rw [State.apply, if_neg hd, if_neg hi, if_pos hc]
        exact record_looped (hrepeat.trans hbody) rfl rfl rfl (by omega)
      · rw [if_neg hc] at hrepeat
        rw [State.apply, if_neg hd, if_neg hi, if_neg hc]
        exact record_looped (hrepeat.trans (reaches_advance _ _)) rfl rfl rfl (by omega)

theorem record_image (hu : Fits user) (opcode : Value) (s : State) {fuel : Nat} (hfuel : 28 < fuel) :
    ∃ e m log, (image user opcode s []).record program fuel header = some ⟨.ok e, m, log⟩ ∧
      match s.step? user with
      | some s' => e = .looped ∧ ∃ opcode', m = image user opcode' s' []
      | none => e = .returned ∧ m.heap = (image user opcode s []).heap := by
  cases hop : user[s.pc.toNat]? with
  | none =>
    have hend : s.step? user = none := by simp [State.step?, hop]
    obtain ⟨log, hrec⟩ := record_halt hu hend opcode (show 5 < fuel by omega)
    exact ⟨_, _, log, hrec, by rw [hend]; exact ⟨rfl, rfl⟩⟩
  | some op =>
    have hstep : s.step? user = some (s.apply op) := by simp [State.step?, hop]
    obtain ⟨log, hrec⟩ := record_step hu hop opcode hfuel
    exact ⟨_, _, log, hrec, by rw [hstep]; exact ⟨rfl, _, rfl⟩⟩

def slotValue? (frame : Frame) (slot : Nat) (m : Machine) : Option Value := frame.locals[slot]?.bind m.heap.load?

theorem slotValue?_of_heap (h : m.heap = ⟨(cells user opcode s).toArray⟩) :
    slotValue? frame Engine.pcSlot m = some (Value.usize s.pc) ∧
      slotValue? frame Engine.cellSlot m = some (Value.usize s.cell) := by
  cases m
  cases h
  exact ⟨rfl, rfl⟩

/-- On a machine that is seeded for a user program, one turn of the step function is one step of the counter language:
after some number of instructions, none of which fails, it has come round its loop with the next counter and cell in
their slots, or has returned with both as they were if the counter is past the last opcode. -/
theorem record_seeded (h : Fits user) (pc cell : UInt64) :
    ∃ (f : Frame) (m m' : Machine) (n : Nat) (e : Exit) (log : List Event) (s : State),
      Engine.seed program header user pc cell {} = .ok f m ∧
      (∀ fuel, m.record program fuel header = if n < fuel then some ⟨.ok e, m', log⟩ else none) ∧
      slotValue? f Engine.pcSlot m' = some (Value.usize s.pc) ∧
      slotValue? f Engine.cellSlot m' = some (Value.usize s.cell) ∧
      if pc.toNat < user.length then e = .looped ∧ State.step? user ⟨pc, cell⟩ = some s
      else e = .returned ∧ s = ⟨pc, cell⟩ := by
  obtain ⟨e, m', log, hrec, hends⟩ := record_image h Value.unit ⟨pc, cell⟩ (show 28 < 29 by omega)
  have htop : (image user Value.unit ⟨pc, cell⟩ []).top? = some frame := rfl
  rw [Machine.record_eq htop] at hrec
  obtain ⟨n, hn⟩ := iterate_eq_ite hrec
  have hrun : ∀ fuel, (image user Value.unit ⟨pc, cell⟩ []).record program fuel header =
      if n < fuel then some ⟨.ok e, m', log⟩ else none := by
    intro fuel
    rw [Machine.record_eq htop]
    exact hn fuel
  cases hop : user[pc.toNat]? with
  | some op =>
    have hlt : pc.toNat < user.length := (List.getElem?_eq_some_iff.mp hop).1
    have hstep : State.step? user ⟨pc, cell⟩ = some (State.apply ⟨pc, cell⟩ op) := by simp [State.step?, hop]
    rw [hstep] at hends
    obtain ⟨rfl, opcode', rfl⟩ := hends
    obtain ⟨hpc, hcell⟩ :=
      slotValue?_of_heap (show (image user opcode' (State.apply ⟨pc, cell⟩ op) []).heap = _ from rfl)
    exact ⟨frame, _, _, n, _, log, _, seed_eq h ⟨pc, cell⟩, hrun, hpc, hcell, by rw [if_pos hlt]; exact ⟨rfl, hstep⟩⟩
  | none =>
    have hle : ¬pc.toNat < user.length := by simpa using hop
    have hstep : State.step? user ⟨pc, cell⟩ = none := by simp [State.step?, hop]
    rw [hstep] at hends
    obtain ⟨rfl, hheap⟩ := hends
    obtain ⟨hpc, hcell⟩ := slotValue?_of_heap hheap
    exact ⟨frame, _, _, n, _, log, _, seed_eq h ⟨pc, cell⟩, hrun, hpc, hcell, by rw [if_neg hle]; exact ⟨rfl, rfl⟩⟩

theorem record_seeded_wraps : Fits [rep] ∧ ∃ (f : Frame) (m m' : Machine) (n : Nat) (log : List Event),
    Engine.seed program header [rep] 0 5 {} = .ok f m ∧
    (∀ fuel, m.record program fuel header = if n < fuel then some ⟨.ok .looped, m', log⟩ else none) ∧
    slotValue? f Engine.pcSlot m' = some (Value.usize 18446744073709551615) ∧
    slotValue? f Engine.cellSlot m' = some (Value.usize 5) := by
  have hfits : Fits [rep] := by decide
  obtain ⟨f, m, m', n, e, log, s, hseed, hrun, hpc, hcell, hend⟩ := record_seeded hfits 0 5
  rw [if_pos (by decide)] at hend
  obtain ⟨rfl, hstep⟩ := hend
  obtain rfl : ⟨18446744073709551615, 5⟩ = s := Option.some.inj hstep
  exact ⟨hfits, f, m, m', n, log, hseed, hrun, hpc, hcell⟩

end HotLoop.Counter
