import HotLoop.Counter.Run
import HotLoop.Proofs.Recovery

namespace HotLoop

namespace Heap

theorem load?_toArray (xs : List Value) (c : CellId) : Heap.load? ⟨xs.toArray⟩ c = xs[c.toNat]? := by
  simp [load?]

theorem store?_toArray (xs : List Value) (c : CellId) (v : Value) (h : c.toNat < xs.length) :
    Heap.store? ⟨xs.toArray⟩ c v = some ⟨(xs.set c.toNat v).toArray⟩ := by
  simp [store?, h]

end Heap

theorem Exec.store_apply {m : Machine} {c : CellId} {v : Value} {h : Heap} (hs : m.heap.store? c v = some h) :
    Exec.store c v m = .ok () { m with heap := h } := by
  have hget : (get : Exec Machine) m = .ok m m := rfl
  simp [Exec.store, Exec.bind_apply, hget, hs, Exec.ofOption]
  rfl

namespace Counter

def frame : Frame := { serial := 0, func := 0, locals := [0, 1, 2, 3, 4] }

def fields (user : List UInt64) : List CellId := (List.range user.length).map fun i => UInt32.ofNat (5 + i)

def cells (user : List UInt64) (opcode : Value) (s : State) : List Value :=
  [Value.unit, Value.record (fields user), Value.usize s.cell, Value.usize s.pc, opcode] ++ user.map Value.usize

def image (user : List UInt64) (opcode : Value) (s : State) (stack : List Operand) : Machine where
  heap := ⟨(cells user opcode s).toArray⟩
  stack
  frames := [frame]
  made := 1

def Fits (user : List UInt64) : Prop := user.length + 5 ≤ UInt32.size

instance (user : List UInt64) : Decidable (Fits user) := inferInstanceAs (Decidable (_ ≤ _))

theorem storeWords_apply (before : List Value) (words : List UInt64) (h : before.length + words.length ≤ UInt32.size)
    (m : Machine) (hm : m.heap = ⟨(before ++ List.replicate words.length Value.unit).toArray⟩) :
    Engine.storeWords ((List.range words.length).map fun i => UInt32.ofNat (before.length + i)) words m =
      .ok () { m with heap := ⟨(before ++ words.map Value.usize).toArray⟩ } := by
  induction words generalizing before m with
  | nil =>
    cases m
    simp_all [Engine.storeWords]
  | cons w words ih =>
    have hlt : before.length < 2 ^ 32 := by
      simp only [List.length_cons, UInt32.size] at h
      omega
    have hc : (UInt32.ofNat (before.length + 0)).toNat = before.length := by
      simpa using Nat.mod_eq_of_lt hlt
    have hset : ((before ++ List.replicate (words.length + 1) Value.unit).set before.length (Value.usize w)) =
        (before ++ [Value.usize w]) ++ List.replicate words.length Value.unit := by
      simp [List.replicate_succ]
    have hstore := Exec.store_apply (m := m) (c := UInt32.ofNat (before.length + 0)) (v := Value.usize w)
      (by rw [hm, Heap.store?_toArray _ _ _ (by rw [hc]; simp), hc, List.length_cons, hset])
    have hrange : (List.range (words.length + 1)).map (fun i => UInt32.ofNat (before.length + i)) =
        UInt32.ofNat (before.length + 0) ::
          (List.range words.length).map fun i => UInt32.ofNat ((before ++ [Value.usize w]).length + i) := by
      rw [List.range_succ_eq_map, List.map_cons, List.map_map]
      simp [Function.comp_def, Nat.add_assoc, Nat.add_comm 1]
    rw [List.length_cons, hrange]
    simp only [Engine.storeWords, Exec.bind_apply, hstore]
    rw [ih (before ++ [Value.usize w]) (by simp at h ⊢; omega) _ rfl]
    simp

theorem Fits.le_blockLimit {user : List UInt64} (h : Fits user) : user.length ≤ Heap.blockLimit := by
  simp only [Fits, UInt32.size, Heap.blockLimit, Nat.pow_eq] at h ⊢
  omega

theorem newRecord_apply {user : List UInt64} (h : Fits user) (before : List Value) (m : Machine)
    (hm : m.heap = ⟨before.toArray⟩) :
    Exec.newRecord (wordLength user) m =
      .ok (Value.record ((List.range user.length).map fun i => UInt32.ofNat (before.length + i)))
        { m with heap := ⟨(before ++ List.replicate user.length Value.unit).toArray⟩ } := by
  have hcells : before.toArray ++ Array.replicate user.length Value.unit =
      (before ++ List.replicate user.length Value.unit).toArray := by simp
  simp only [Exec.newRecord, Exec.bind_apply, Heap.blockSize?_wordLength h.le_blockLimit, Exec.ofOption,
    Exec.pure_apply, ← hcells]
  cases m
  cases hm
  rfl

theorem seed_eq {user : List UInt64} (h : Fits user) (s : State) :
    Engine.seed program header user s.pc s.cell {} = .ok frame (image user Value.unit s []) := by
  have hframe : Exec.newFrame program header.func {} =
      .ok frame { heap := ⟨(List.replicate 5 Value.unit).toArray⟩, made := 1 } := rfl
  have hwords := storeWords_apply (List.replicate 5 Value.unit) user (by unfold Fits at h; simp; omega)
    { heap := ⟨(List.replicate 5 Value.unit ++ List.replicate user.length Value.unit).toArray⟩, made := 1 } rfl
  have hlocals : ¬frame.locals.length < Engine.slotsNeeded := by decide
  unfold Engine.seed
  rw [Exec.bind_apply, hframe]
  simp only [hlocals, ↓reduceIte]
  rw [Exec.bind_apply, newRecord_apply h _ _ rfl]
  simp only [Value.record]
  rw [Exec.bind_apply, hwords]
  rfl

theorem results_of_heap {user : List UInt64} {opcode : Value} {s : State} {m : Machine}
    (h : m.heap = ⟨(cells user opcode s).toArray⟩) : Engine.results frame m = .ok (s.pc, s.cell) := by
  cases m
  cases h
  rfl

end Counter

end HotLoop
