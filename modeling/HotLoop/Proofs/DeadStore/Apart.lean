import HotLoop.Proofs.Checked
import HotLoop.Proofs.Growth

/-!
Two machines that differ in one cell, which belongs to a local of the active frame and which nothing else names. At
one place their stacks may differ too: there the first machine has the cell's place, and the second an operand that
has the cell's value. An instruction that does not touch the local does the same to both machines.
-/

namespace HotLoop

/-- The stacks of two machines apart. At the depth `q`, if there is one, the first has the place of the cell and the
second the operand `x`; elsewhere they agree, and do not name the cell. -/
def Stacked (c : CellId) (x : Operand) : Option Nat → List Operand → List Operand → Prop
  | none, s, s' => s' = s ∧ ∀ y ∈ s, y.All (· ≠ c)
  | some k, s, s' => ∃ top below, top.length = k ∧ s = top ++ .place c :: below ∧ s' = top ++ x :: below ∧
      ∀ y ∈ top ++ below, y.All (· ≠ c)

def afterPops (k : Nat) (q : Option Nat) : Option Nat := q.bind fun d => if d < k then none else some (d - k)

theorem afterPops_afterPops (j k : Nat) (q : Option Nat) : afterPops j (afterPops k q) = afterPops (k + j) q := by
  cases q with
  | none => rfl
  | some d =>
    unfold afterPops
    simp only [Option.bind_some]
    split
    · rw [if_pos (by omega)]
      rfl
    · simp only [Option.bind_some]
      split
      · rw [if_pos (by omega)]
      · rw [if_neg (by omega), Nat.sub_sub]

theorem afterPops_zero (q : Option Nat) : afterPops 0 q = q := by
  cases q <;> rfl

theorem ne_none_of_afterPops {k : Nat} {q : Option Nat} (h : afterPops k q ≠ none) : q ≠ none := by
  rintro rfl
  exact h rfl

structure Apart (prog : Program) (c : CellId) (slot : Int64) (x : Operand) (q : Option Nat) (m m' : Machine) :
    Prop where
  frames : m'.frames = m.frames
  made : m'.made = m.made
  size : m'.heap.size = m.heap.size
  inside : c.toNat < m.heap.size
  stack : Stacked c x q m.stack m'.stack
  home : ∃ f, m.top? = some f ∧ f.local? slot = some c ∧ ∀ b, f.local? b = some c → b = slot
  heap : ∀ d, d ≠ c → m'.heap.load? d = m.heap.load? d
  hidden : ∀ d v, m.heap.load? d = some v → v.All (· ≠ c)
  held : q ≠ none → ∃ u v, m'.heap.materialize? x = some u ∧ prog.resolve u = .ok v ∧ m.heap.load? c = some v ∧
    prog.resolve v = .ok v

namespace Apart

variable {prog : Program} {c : CellId} {slot : Int64} {x : Operand} {q q' : Option Nat} {m m' : Machine}

theorem withStack (h : Apart prog c slot x q m m') {s s' : List Operand} (hs : Stacked c x q' s s')
    (hq : q' ≠ none → q ≠ none) : Apart prog c slot x q' { m with stack := s } { m' with stack := s' } :=
  ⟨h.frames, h.made, h.size, h.inside, hs, h.home, h.heap, h.hidden, fun hne => h.held (hq hne)⟩

theorem materialize?_eq (h : Apart prog c slot x q m m') {y : Operand} (hy : y.All (· ≠ c)) :
    m'.heap.materialize? y = m.heap.materialize? y := by
  cases y with
  | owned v => rfl
  | place d => exact h.heap d hy

theorem all_of_materialize? (h : Apart prog c slot x q m m') {y : Operand} (hy : y.All (· ≠ c)) {v : Value}
    (hv : m.heap.materialize? y = some v) : v.All (· ≠ c) := by
  cases y with
  | owned w =>
    cases hv
    exact hy
  | place d => exact h.hidden d v hv

end Apart

namespace Exec

variable {α β : Type} {prog : Program} {c : CellId} {slot : Int64} {x : Operand} {q q' q'' : Option Nat}
  {R : α → Prop} {S : β → Prop}

/-- An action that succeeds on the first of two machines apart succeeds on the second with the same result and leaves
them apart, as long as the heap does not outgrow its addresses. -/
def Mirrors (prog : Program) (c : CellId) (slot : Int64) (x : Operand) (q : Option Nat) (act : Exec α)
    (q' : Option Nat) (R : α → Prop) : Prop :=
  ∀ m m', Apart prog c slot x q m m' → ∀ a m₁, act m = .ok a m₁ → m₁.heap.size ≤ UInt32.size →
    ∃ m₁', act m' = .ok a m₁' ∧ Apart prog c slot x q' m₁ m₁' ∧ R a

theorem mirrors_pure {a : α} (h : R a) : Mirrors prog c slot x q (pure a) q R := by
  rintro m m' hm b m₁ ⟨⟩ _
  exact ⟨m', rfl, hm, h⟩

theorem mirrors_fault (e : Cause) : Mirrors prog c slot x q (fault e) q' R := by
  rintro m m' hm a m₁ ⟨⟩

theorem mirrors_bind {act : Exec α} {f : α → Exec β} (hx : Mirrors prog c slot x q act q' R)
    (he : ∀ a, Enlarges (f a)) (hf : ∀ a, R a → Mirrors prog c slot x q' (f a) q'' S) :
    Mirrors prog c slot x q (act >>= f) q'' S := by
  intro m m' hm b m₂ h hsize
  obtain ⟨a, m₁, h₁, h₂⟩ := bind_eq_ok.mp h
  have hle := (he a).of_ok h₂
  obtain ⟨m₁', h₁', hm₁, ha⟩ := hx m m' hm a m₁ h₁ (Nat.le_trans hle hsize)
  obtain ⟨m₂', h₂', hm₂, hb⟩ := hf a ha m₁ m₁' hm₁ b m₂ h₂ hsize
  exact ⟨m₂', bind_eq_ok.mpr ⟨a, m₁', h₁', h₂'⟩, hm₂, hb⟩

theorem mirrors_check {p : Prop} [Decidable p] {e : Cause} {act : Exec α}
    (hx : ¬p → Mirrors prog c slot x q act q' R) :
    Mirrors prog c slot x q (if p then fault e >>= fun (_ : PUnit) => act else act) q' R := by
  by_cases hp : p
  · rw [if_pos hp]
    rintro m m' hm a m₁ ⟨⟩
  · rw [if_neg hp]
    exact hx hp

theorem mirrors_require {e : Cause} {o : Option α} (h : ∀ a, o = some a → R a) :
    Mirrors prog c slot x q (require e o) q R := by
  cases o with
  | none => exact mirrors_fault e
  | some a => exact mirrors_pure (h a rfl)

theorem mirrors_ofExcept {r : Except Cause α} (h : ∀ a, r = .ok a → R a) :
    Mirrors prog c slot x q (ofExcept r) q R := by
  cases r with
  | error e => exact mirrors_fault e
  | ok a => exact mirrors_pure (h a rfl)

theorem mirrors_ofShape {r : Except ShapeError α} (h : ∀ a, r = .ok a → R a) :
    Mirrors prog c slot x q (ofShape r) q R := by
  cases r with
  | error e => exact mirrors_fault _
  | ok a => exact mirrors_pure (h a rfl)

theorem mirrors_ofOption {o : Option α} (h : ∀ a, o = some a → R a) :
    Mirrors prog c slot x q (ofOption o) q R := by
  cases o with
  | none => rintro m m' hm a m₁ ⟨⟩
  | some a => exact mirrors_pure (h a rfl)

theorem mirrors_push {y : Operand} (hy : y.All (· ≠ c)) :
    Mirrors prog c slot x q (push y) (q.map (· + 1)) (fun _ => True) := by
  rintro m m' hm _ m₁ ⟨⟩ _
  refine ⟨_, rfl, hm.withStack ?_ (by simp), trivial⟩
  have hs := hm.stack
  cases q with
  | none =>
    obtain ⟨he, hall⟩ := hs
    exact ⟨by rw [he], List.forall_mem_cons.mpr ⟨hy, hall⟩⟩
  | some k =>
    obtain ⟨top, below, rfl, he, he', hall⟩ := hs
    exact ⟨y :: top, below, rfl, by rw [he, List.cons_append], by rw [he', List.cons_append],
      List.forall_mem_cons.mpr ⟨hy, hall⟩⟩

theorem mirrors_pushValue {v : Value} (hv : v.All (· ≠ c)) :
    Mirrors prog c slot x q (pushValue v) (q.map (· + 1)) (fun _ => True) :=
  mirrors_push (y := .owned v) hv

end Exec

theorem Stacked.cons_cases {c : CellId} {x y : Operand} {q : Option Nat} {s s' : List Operand}
    (h : Stacked c x q (y :: s) s') : ∃ y' t', s' = y' :: t' ∧ Stacked c x (afterPops 1 q) s t' ∧
      (y' = y ∧ y.All (· ≠ c) ∧ q ≠ some 0 ∨ y = .place c ∧ y' = x ∧ q = some 0) := by
  cases q with
  | none =>
    obtain ⟨rfl, hall⟩ := h
    obtain ⟨hy, hs⟩ := List.forall_mem_cons.mp hall
    exact ⟨y, s, rfl, ⟨rfl, hs⟩, .inl ⟨rfl, hy, nofun⟩⟩
  | some k =>
    obtain ⟨top, below, rfl, he, rfl, hall⟩ := h
    cases top with
    | nil =>
      obtain ⟨rfl, rfl⟩ := List.cons.inj he
      exact ⟨x, s, rfl, ⟨rfl, hall⟩, .inr ⟨rfl, rfl, rfl⟩⟩
    | cons z top =>
      obtain ⟨rfl, rfl⟩ := List.cons.inj he
      obtain ⟨hy, hall⟩ := List.forall_mem_cons.mp hall
      exact ⟨y, top ++ x :: below, rfl, ⟨top, below, rfl, rfl, rfl, hall⟩, .inl ⟨rfl, hy, by simp⟩⟩

namespace Apart

variable {prog : Program} {c : CellId} {slot : Int64} {x y : Operand} {q : Option Nat} {m m' : Machine}
  {s : List Operand} {v : Value}

theorem top (hprog : prog.Primitive) (h : Apart prog c slot x q m m') (hs : m.stack = y :: s) : ∃ y' s',
    m'.stack = y' :: s' ∧ Stacked c x (afterPops 1 q) s s' ∧ (q ≠ some 0 → y' = y ∧ y.All (· ≠ c)) ∧
      ∀ v, (∃ u, m.heap.materialize? y = some u ∧ prog.resolve u = .ok v) →
        (∃ u, m'.heap.materialize? y' = some u ∧ prog.resolve u = .ok v) ∧ v.All (· ≠ c) := by
  obtain ⟨y', s', hs', hstacked, hy⟩ := (hs ▸ h.stack).cons_cases
  refine ⟨y', s', hs', hstacked, ?_, ?_⟩
  · intro hq
    rcases hy with ⟨he, hall, _⟩ | ⟨_, _, hzero⟩
    · exact ⟨he, hall⟩
    · exact absurd hzero hq
  · rintro v ⟨u, hu, hv⟩
    rcases hy with ⟨rfl, hall, _⟩ | ⟨rfl, rfl, rfl⟩
    · exact ⟨⟨u, (h.materialize?_eq hall).trans hu, hv⟩, hprog.resolve (h.all_of_materialize? hall hu) hv⟩
    · -- the cell holds the resolved value of the operand
      obtain ⟨u', v', hu', hv', hload, hfixed⟩ := h.held (by simp)
      obtain rfl := Option.some.inj (hload.symm.trans hu)
      obtain rfl := Except.ok.inj (hfixed.symm.trans hv)
      exact ⟨⟨u', hu', hv'⟩, h.hidden c _ hload⟩

end Apart

namespace Exec

variable {α : Type} {prog : Program} {c : CellId} {slot : Int64} {x : Operand} {q : Option Nat} {R : α → Prop}

theorem popValue_eq_ok {m m₁ : Machine} {v : Value} : popValue prog m = .ok v m₁ ↔ ∃ y s, m.stack = y :: s ∧
    (∃ u, m.heap.materialize? y = some u ∧ prog.resolve u = .ok v) ∧ m₁ = { m with stack := s } := by
  cases hs : m.stack with
  | nil => simp [popValue_nil prog hs]
  | cons y s =>
    rw [popValue_cons prog hs, valueOf_eq_ok]
    constructor
    · rintro ⟨hv, rfl⟩
      exact ⟨y, s, rfl, hv, rfl⟩
    · rintro ⟨_, _, he, hv, rfl⟩
      cases he
      exact ⟨hv, rfl⟩

theorem peekValue_eq_ok {m m₁ : Machine} {v : Value} : peekValue prog m = .ok v m₁ ↔ ∃ y s, m.stack = y :: s ∧
    (∃ u, m.heap.materialize? y = some u ∧ prog.resolve u = .ok v) ∧ m₁ = m := by
  cases hs : m.stack with
  | nil => simp [peekValue_nil prog hs]
  | cons y s =>
    rw [peekValue_cons prog hs, valueOf_eq_ok]
    constructor
    · rintro ⟨hv, rfl⟩
      exact ⟨y, s, rfl, hv, rfl⟩
    · rintro ⟨_, _, he, hv, rfl⟩
      cases he
      exact ⟨hv, rfl⟩

theorem pop_eq_ok {m m₁ : Machine} {y : Operand} :
    pop m = .ok y m₁ ↔ ∃ s, m.stack = y :: s ∧ m₁ = { m with stack := s } := by
  cases hs : m.stack with
  | nil => simp [pop_nil hs]
  | cons z s =>
    rw [pop_cons hs]
    constructor
    · rintro ⟨⟩
      exact ⟨s, rfl, rfl⟩
    · rintro ⟨_, he, rfl⟩
      cases he
      rfl

theorem materialize_eq_ok {y : Operand} {m m₁ : Machine} {v : Value} :
    materialize y m = .ok v m₁ ↔ m.heap.materialize? y = some v ∧ m₁ = m := by
  have happly : materialize y m = ofOption (m.heap.materialize? y) m := rfl
  rw [happly, ofOption_eq_ok]

theorem ofShape_eq_ok {r : Except ShapeError α} {m m₁ : Machine} {a : α} :
    ofShape r m = .ok a m₁ ↔ r = .ok a ∧ m₁ = m := by
  cases r with
  | error e => simp [ofShape, fault_apply]
  | ok b => simp [ofShape, pure_apply, eq_comm]

theorem mirrors_popValue (hprog : prog.Primitive) :
    Mirrors prog c slot x q (popValue prog) (afterPops 1 q) (fun v => v.All (· ≠ c)) := by
  intro m m' hm v m₁ h _
  obtain ⟨y, s, hs, hv, rfl⟩ := popValue_eq_ok.mp h
  obtain ⟨y', s', hs', hstacked, _, hvalue⟩ := hm.top hprog hs
  obtain ⟨hv', hall⟩ := hvalue v hv
  exact ⟨_, popValue_eq_ok.mpr ⟨y', s', hs', hv', rfl⟩, hm.withStack hstacked ne_none_of_afterPops, hall⟩

theorem mirrors_peekValue (hprog : prog.Primitive) :
    Mirrors prog c slot x q (peekValue prog) q (fun v => v.All (· ≠ c)) := by
  intro m m' hm v m₁ h _
  obtain ⟨y, s, hs, hv, rfl⟩ := peekValue_eq_ok.mp h
  obtain ⟨y', s', hs', _, _, hvalue⟩ := hm.top hprog hs
  obtain ⟨hv', hall⟩ := hvalue v hv
  exact ⟨_, peekValue_eq_ok.mpr ⟨y', s', hs', hv', rfl⟩, hm, hall⟩

theorem mirrors_pop (hprog : prog.Primitive) (hq : q ≠ some 0) :
    Mirrors prog c slot x q pop (afterPops 1 q) (fun y => y.All (· ≠ c)) := by
  intro m m' hm y m₁ h _
  obtain ⟨s, hs, rfl⟩ := pop_eq_ok.mp h
  obtain ⟨y', s', hs', hstacked, hsame, _⟩ := hm.top hprog hs
  obtain ⟨rfl, hall⟩ := hsame hq
  exact ⟨_, pop_eq_ok.mpr ⟨s', hs', rfl⟩, hm.withStack hstacked ne_none_of_afterPops, hall⟩

theorem mirrors_discard (hprog : prog.Primitive) :
    Mirrors prog c slot x q (pop >>= fun _ => pure Transfer.next) (afterPops 1 q) (fun _ => True) := by
  intro m m' hm t m₁ h _
  obtain ⟨y, m₂, hy, ht⟩ := bind_eq_ok.mp h
  cases ht
  obtain ⟨s, hs, rfl⟩ := pop_eq_ok.mp hy
  obtain ⟨y', s', hs', hstacked, _⟩ := hm.top hprog hs
  exact ⟨_, bind_eq_ok.mpr ⟨y', _, pop_eq_ok.mpr ⟨s', hs', rfl⟩, rfl⟩, hm.withStack hstacked ne_none_of_afterPops,
    trivial⟩

theorem mirrors_localCell {b : Int64} (hb : b ≠ slot) :
    Mirrors prog c slot x q (localCell b) q (fun d => d ≠ c) := by
  intro m m' hm d m₁ h _
  obtain ⟨f, hf, hd, rfl⟩ := localCell_eq_ok.mp h
  obtain ⟨g, hg, _, hunique⟩ := hm.home
  obtain rfl := Option.some.inj (hf.symm.trans hg)
  have hf' : m'.top? = some f := by rw [Machine.top?, hm.frames]; exact hf
  exact ⟨m', localCell_eq_ok.mpr ⟨f, hf', hd, rfl⟩, hm, fun he => hb (hunique b (he ▸ hd))⟩

def Free (c : CellId) (x : Operand) (q : Option Nat) (d : CellId) : Prop := d ≠ c ∧ (q ≠ none → x ≠ .place d)

theorem Free.afterPops {d : CellId} (h : Free c x q d) (k : Nat) : Free c x (afterPops k q) d :=
  ⟨h.1, fun hq => h.2 (ne_none_of_afterPops hq)⟩

theorem store_eq_ok {d : CellId} {v : Value} {m m₁ : Machine} :
    store d v m = .ok () m₁ ↔ ∃ h, m.heap.store? d v = some h ∧ m₁ = { m with heap := h } := by
  rw [store_apply_eq]
  cases hs : m.heap.store? d v <;> simp [eq_comm]

theorem mirrors_store {d : CellId} {v : Value} (hd : Free c x q d) (hv : v.All (· ≠ c)) :
    Mirrors prog c slot x q (store d v) q (fun _ => True) := by
  intro m m' hm _ m₁ h _
  obtain ⟨heap, hs, rfl⟩ := store_eq_ok.mp h
  have hs' := Heap.store?_isSome (h := m'.heap) (by rw [hm.size]; exact Heap.lt_of_store? hs) v
  have hload := Heap.load?_of_store? hs
  have hload' := Heap.load?_of_store? hs'
  refine ⟨_, store_eq_ok.mpr ⟨_, hs', rfl⟩, ⟨hm.frames, hm.made, ?_, ?_, hm.stack, hm.home, ?_, ?_, ?_⟩, trivial⟩
  · rw [Heap.size_of_store? hs, Heap.size_of_store? hs', hm.size]
  · rw [Heap.size_of_store? hs]
    exact hm.inside
  · intro e he
    simp only [hload, hload', hm.heap e he]
  · intro e w hw
    simp only [hload] at hw
    split at hw
    · cases hw
      exact hv
    · exact hm.hidden e w hw
  · intro hq
    obtain ⟨u, w, hu, hresolve, hc, hfixed⟩ := hm.held hq
    refine ⟨u, w, ?_, hresolve, ?_, hfixed⟩
    · cases x with
      | owned y => exact hu
      | place e =>
        have hne : e ≠ d := fun he => hd.2 hq (he ▸ rfl)
        simp only [Heap.materialize?, hload', if_neg hne]
        exact hu
    · simp only [hload, if_neg (Ne.symm hd.1)]
      exact hc

end Exec

namespace Apart

variable {prog : Program} {c : CellId} {slot : Int64} {x : Operand} {q : Option Nat} {m m' : Machine}

theorem grow (h : Apart prog c slot x q m m') {heap heap' : Heap} (hsize : heap'.size = heap.size)
    (hle : m.heap.size ≤ heap.size) (hold : ∀ d : CellId, d.toNat < m.heap.size →
      heap.load? d = m.heap.load? d ∧ heap'.load? d = m'.heap.load? d)
    (hnew : ∀ d : CellId, ¬d.toNat < m.heap.size → heap'.load? d = heap.load? d)
    (hhidden : ∀ (d : CellId) (v : Value), ¬d.toNat < m.heap.size → heap.load? d = some v → v.All (· ≠ c)) :
    Apart prog c slot x q { m with heap := heap } { m' with heap := heap' } := by
  refine ⟨h.frames, h.made, hsize, Nat.lt_of_lt_of_le h.inside hle, h.stack, h.home, ?_, ?_, ?_⟩
  · intro d hd
    by_cases hlt : d.toNat < m.heap.size
    · rw [(hold d hlt).1, (hold d hlt).2, h.heap d hd]
    · exact hnew d hlt
  · intro d v hv
    by_cases hlt : d.toNat < m.heap.size
    · exact h.hidden d v ((hold d hlt).1 ▸ hv)
    · exact hhidden d v hlt hv
  · intro hq
    obtain ⟨u, w, hu, hresolve, hc, hfixed⟩ := h.held hq
    refine ⟨u, w, ?_, hresolve, (hold c h.inside).1.trans hc, hfixed⟩
    cases x with
    | owned y => exact hu
    | place e => exact (hold e (h.size ▸ Heap.lt_of_load? hu)).2.trans hu

theorem free_of_le (h : Apart prog c slot x q m m') {d : CellId} (hd : m.heap.size ≤ d.toNat) : Exec.Free c x q d := by
  constructor
  · rintro rfl
    exact absurd h.inside (Nat.not_lt.mpr hd)
  · rintro hq rfl
    obtain ⟨u, _, hu, _⟩ := h.held hq
    exact absurd (h.size ▸ Heap.lt_of_load? hu) (Nat.not_lt.mpr hd)

end Apart

namespace Exec

variable {prog : Program} {c : CellId} {slot : Int64} {x : Operand} {q : Option Nat}

theorem allocUnits_eq_ok {k : Nat} {m m₁ : Machine} {cells : List CellId} :
    allocUnits k m = .ok cells m₁ ↔
      cells = (m.heap.allocUnits k).1 ∧ m₁ = { m with heap := (m.heap.allocUnits k).2 } := by
  have happly : allocUnits k m = .ok (m.heap.allocUnits k).1 { m with heap := (m.heap.allocUnits k).2 } := rfl
  rw [happly]
  simp [eq_comm]

theorem mirrors_allocUnits (k : Nat) :
    Mirrors prog c slot x q (allocUnits k) q (fun cells => cells.length = k ∧ ∀ d ∈ cells, Free c x q d) := by
  intro m m' hm cells m₁ h hsize
  obtain ⟨rfl, rfl⟩ := allocUnits_eq_ok.mp h
  have hcells : (m.heap.allocUnits k).1 = (m'.heap.allocUnits k).1 := by
    simp only [Heap.allocUnits, Heap.upcoming, hm.size]
  refine ⟨_, allocUnits_eq_ok.mpr ⟨hcells, rfl⟩, hm.grow ?_ ?_ ?_ ?_ ?_, ?_, ?_⟩
  · rw [Heap.size_allocUnits, Heap.size_allocUnits, hm.size]
  · rw [Heap.size_allocUnits]
    omega
  · intro e he
    simp only [Heap.load?_allocUnits, hm.size, if_pos he, and_self]
  · intro e he
    simp only [Heap.load?_allocUnits, hm.size, if_neg he]
  · intro e w he hw
    rw [Heap.load?_allocUnits, if_neg he] at hw
    split at hw
    · cases hw
      exact .of_isPrimitive rfl
    · cases hw
  · simp [Heap.allocUnits, Heap.upcoming]
  · intro d hd
    obtain ⟨i, hi, rfl⟩ := List.mem_map.mp hd
    have hlt : m.heap.size + i < UInt32.size := by
      have hi := List.mem_range.mp hi
      simp only [Heap.size_allocUnits] at hsize
      omega
    apply hm.free_of_le
    rw [UInt32.toNat_ofNat_of_lt' hlt]
    omega

theorem mirrors_newRecord (k : Int64) : Mirrors prog c slot x q (newRecord k) q
    (fun v => v.kind = .record ∧ v.fields.length = k.toNatClampNeg ∧ ∀ d ∈ v.fields, Free c x q d) := by
  apply mirrors_bind (mirrors_ofOption (R := fun size => size = k.toNatClampNeg) ?_) (by simp)
  · intro size hsize
    apply mirrors_bind (mirrors_allocUnits size) (by simp)
    rintro cells ⟨hlength, hfree⟩
    exact mirrors_pure ⟨rfl, hlength.trans hsize, hfree⟩
  · intro size hsize
    exact (Heap.blockSize?_eq_some hsize).2

theorem mirrors_storeAll {ps : List (CellId × Value)} (h : ∀ p ∈ ps, Free c x q p.1 ∧ p.2.All (· ≠ c)) :
    Mirrors prog c slot x q (storeAll ps) q (fun _ => True) := by
  induction ps with
  | nil => exact mirrors_pure trivial
  | cons p rest ih =>
    obtain ⟨⟨hd, hv⟩, hrest⟩ := List.forall_mem_cons.mp h
    exact mirrors_bind (mirrors_store hd hv) (by simp) fun _ _ => ih hrest

theorem mirrors_popInto (hprog : prog.Primitive) {cells : List CellId} (h : ∀ d ∈ cells, Free c x q d) :
    Mirrors prog c slot x q (popInto prog cells) (afterPops cells.length q) (fun _ => True) := by
  induction cells generalizing q with
  | nil => 
    rw [List.length_nil, afterPops_zero]
    exact mirrors_pure trivial
  | cons d rest ih =>
    obtain ⟨hd, hrest⟩ := List.forall_mem_cons.mp h
    apply mirrors_bind (mirrors_popValue hprog) (by simp)
    intro v hv
    apply mirrors_bind (mirrors_store (hd.afterPops 1) hv) (by simp)
    intro _ _
    rw [List.length_cons, Nat.add_comm, ← afterPops_afterPops]
    exact ih fun e he => (hrest e he).afterPops 1

theorem mirrors_popRecord (hprog : prog.Primitive) :
    Mirrors prog c slot x q (popRecord prog) (afterPops 1 q) (fun v => ∀ d ∈ v.fields, d ≠ c) := by
  apply mirrors_bind (mirrors_popValue hprog) (by simp)
  intro v hv
  split
  · rename_i hk
    exact mirrors_pure (hv.1 hk)
  · exact mirrors_fault _

theorem mirrors_popIndex (hprog : prog.Primitive) :
    Mirrors prog c slot x q (popIndex prog) (afterPops 1 q) (fun _ => True) := by
  apply mirrors_bind (mirrors_popValue hprog) (by simp)
  intro v _
  split
  · exact mirrors_pure trivial
  · exact mirrors_fault _

theorem mirrors_field {v : Value} (h : ∀ d ∈ v.fields, d ≠ c) (index : Int64) :
    Mirrors prog c slot x q (field v index) q (fun d => d ≠ c) := by
  apply mirrors_require
  intro d hd
  obtain ⟨_, hget⟩ := nth?_eq_some.mp hd
  exact h d (List.mem_of_getElem? hget)

theorem mirrors_binary (hprog : prog.Primitive) (o : Operator) :
    Mirrors prog c slot x q (binary prog o) (afterPops 2 q) (fun v => v.All (· ≠ c)) := by
  apply mirrors_bind (mirrors_popValue hprog) (by simp)
  intro r _
  apply mirrors_bind (mirrors_popValue hprog) (by simp)
  intro l _
  rw [afterPops_afterPops]
  exact mirrors_ofExcept fun v hv => .of_isPrimitive (Operator.apply_isPrimitive hv)

theorem mirrors_checkedPair {v : Value} (hv : v.All (· ≠ c)) :
    Mirrors prog c slot x q (checkedPair v) q (fun r => r.All (· ≠ c)) := by
  apply mirrors_bind (mirrors_newRecord 2) (by simp)
  rintro r ⟨hk, _, hfree⟩
  apply mirrors_bind (mirrors_storeAll (Value.all_zip_unmarked hfree hv)) (by simp)
  intro _ _
  refine mirrors_pure ⟨fun _ d hd => (hfree d hd).1, fun hp => ?_⟩
  cases hk.symm.trans hp

theorem mirrors_last {α : Type} {act : Exec α} {q' : Option Nat} {R : α → Prop}
    (h : Mirrors prog c slot x q act q' R) :
    Mirrors prog c slot x q (act >>= fun _ => pure Transfer.next) q' (fun _ => True) :=
  mirrors_bind h (by simp) fun _ _ => mirrors_pure trivial

theorem mirrors_tupleInit (hprog : prog.Primitive) (index : Int64) (hfree : ∀ d, d ≠ c → Free c x (afterPops 1 q) d) :
    Mirrors prog c slot x q (tupleInit prog index) (afterPops 1 q) (fun _ => True) := by
  apply mirrors_bind (mirrors_popValue hprog) fun _ =>
    enlarges_bind (by simp) fun _ => enlarges_check (enlarges_bind (by simp) (by simp))
  intro v hv
  apply mirrors_bind (mirrors_peekValue hprog) fun _ =>
    enlarges_check (enlarges_bind (by simp) (by simp))
  intro r hr
  apply mirrors_check
  intro hk
  apply mirrors_bind (mirrors_field (hr.1 (Decidable.of_not_not hk)) index) (by simp)
  intro d hd
  exact mirrors_last (mirrors_store (hfree d hd) hv)

theorem mirrors_tupleGet (hprog : prog.Primitive) (index : Int64) :
    Mirrors prog c slot x q (tupleGet prog index) ((afterPops 1 q).map (· + 1)) (fun _ => True) := by
  apply mirrors_bind (mirrors_popRecord hprog) (by simp)
  intro r hr
  apply mirrors_bind (mirrors_field hr index) (by simp)
  intro d hd
  exact mirrors_last (mirrors_push (y := .place d) hd)

theorem mirrors_tupleSet (hprog : prog.Primitive) (index : Int64) (hfree : ∀ d, d ≠ c → Free c x (afterPops 2 q) d) :
    Mirrors prog c slot x q (tupleSet prog index) (afterPops 2 q) (fun _ => True) := by
  apply mirrors_bind (mirrors_popRecord hprog) (fun _ => enlarges_bind (by simp) (by simp))
  intro r hr
  apply mirrors_bind (mirrors_popValue hprog) (by simp)
  intro v hv
  rw [afterPops_afterPops]
  apply mirrors_bind (mirrors_field hr index) (by simp)
  intro d hd
  exact mirrors_last (mirrors_store (hfree d hd) hv)

theorem mirrors_makeArray (hprog : prog.Primitive) (k : Int64) :
    Mirrors prog c slot x q (makeArray prog k) ((afterPops k.toNatClampNeg q).map (· + 1)) (fun _ => True) := by
  apply mirrors_check
  intro _
  apply mirrors_bind (mirrors_newRecord k) (by simp)
  rintro r ⟨hk, hlength, hfree⟩
  rw [← hlength, ← List.length_reverse]
  apply mirrors_bind (mirrors_popInto hprog fun d hd => hfree d (List.mem_reverse.mp hd)) (by simp)
  intro _ _
  apply mirrors_last (mirrors_pushValue ⟨fun _ d hd => (hfree d hd).1, fun hp => ?_⟩)
  cases hk.symm.trans hp

theorem mirrors_fillArray (hprog : prog.Primitive) (k : Int64) :
    Mirrors prog c slot x q (fillArray prog k) ((afterPops 1 q).map (· + 1)) (fun _ => True) := by
  apply mirrors_check
  intro _
  apply mirrors_bind (mirrors_popValue hprog) (fun _ => enlarges_bind (by simp) (by simp))
  intro v hv
  apply mirrors_bind (mirrors_newRecord k) (by simp)
  rintro r ⟨hk, _, hfree⟩
  apply mirrors_bind (mirrors_storeAll (List.forall_mem_map.mpr fun d hd => ⟨hfree d hd, hv⟩)) (by simp)
  intro _ _
  apply mirrors_last (mirrors_pushValue ⟨fun _ d hd => (hfree d hd).1, fun hp => ?_⟩)
  cases hk.symm.trans hp

theorem mirrors_getIndex (hprog : prog.Primitive) :
    Mirrors prog c slot x q (getIndex prog) ((afterPops 2 q).map (· + 1)) (fun _ => True) := by
  apply mirrors_bind (mirrors_popRecord hprog) (fun _ => enlarges_bind (by simp) (by simp))
  intro r hr
  apply mirrors_bind (mirrors_popIndex hprog) (by simp)
  intro index _
  rw [afterPops_afterPops]
  apply mirrors_bind (mirrors_field hr index) (by simp)
  intro d hd
  exact mirrors_last (mirrors_push (y := .place d) hd)

theorem mirrors_assignIndex (hprog : prog.Primitive) (hfree : ∀ d, d ≠ c → Free c x (afterPops 3 q) d) :
    Mirrors prog c slot x q (assignIndex prog) (afterPops 3 q) (fun _ => True) := by
  apply mirrors_bind (mirrors_popRecord hprog)
    (fun _ => enlarges_bind (by simp) fun _ => enlarges_bind (by simp) (by simp))
  intro r hr
  apply mirrors_bind (mirrors_popIndex hprog) (fun _ => enlarges_bind (by simp) (by simp))
  intro index _
  apply mirrors_bind (mirrors_popValue hprog) (by simp)
  intro v hv
  rw [afterPops_afterPops, afterPops_afterPops]
  apply mirrors_bind (mirrors_field hr index) (by simp)
  intro d hd
  exact mirrors_last (mirrors_store (hfree d hd) hv)

theorem mirrors_address (hprog : prog.Primitive) (hq : q ≠ some 0) :
    Mirrors prog c slot x q
      (do
        let y ← pop
        pushValue (← ofShape (Heap.address y))
        return Transfer.next)
      ((afterPops 1 q).map (· + 1)) (fun _ => True) := by
  apply mirrors_bind (mirrors_pop hprog hq) (by simp)
  intro y hy
  apply mirrors_bind (mirrors_ofShape (R := fun v => v.All (· ≠ c)) ?_) (by simp)
  · intro v hv
    exact mirrors_last (mirrors_pushValue hv)
  · intro v hv
    cases y with
    | owned w => cases hv
    | place d =>
      cases hv
      exact Value.all_pointer hy

theorem deref_eq_ok {m m₁ : Machine} {t : Transfer} :
    (do
      let v ← materialize (← pop)
      let m ← get
      push (.place (← ofShape (m.heap.deref v)))
      return Transfer.next : Exec Transfer) m = .ok t m₁ ↔
      ∃ y s v d, m.stack = y :: s ∧ m.heap.materialize? y = some v ∧ m.heap.deref v = .ok d ∧ t = .next ∧
        m₁ = { m with stack := .place d :: s } := by
  constructor
  · intro h
    obtain ⟨y, m₂, hy, h⟩ := bind_eq_ok.mp h
    obtain ⟨s, hs, rfl⟩ := pop_eq_ok.mp hy
    obtain ⟨v, m₃, hread, h⟩ := bind_eq_ok.mp h
    obtain ⟨hv, rfl⟩ := materialize_eq_ok.mp hread
    obtain ⟨_, _, ⟨⟩, h⟩ := bind_eq_ok.mp h
    obtain ⟨d, m₅, hpoint, h⟩ := bind_eq_ok.mp h
    obtain ⟨hd, rfl⟩ := ofShape_eq_ok.mp hpoint
    cases h
    exact ⟨y, s, v, d, hs, hv, hd, rfl, rfl⟩
  · rintro ⟨y, s, v, d, hs, hv, hd, rfl, rfl⟩
    refine bind_eq_ok.mpr ⟨y, _, pop_eq_ok.mpr ⟨s, hs, rfl⟩, ?_⟩
    refine bind_eq_ok.mpr ⟨v, _, materialize_eq_ok.mpr ⟨hv, rfl⟩, ?_⟩
    refine bind_eq_ok.mpr ⟨_, _, rfl, ?_⟩
    exact bind_eq_ok.mpr ⟨d, _, ofShape_eq_ok.mpr ⟨hd, rfl⟩, rfl⟩

theorem mirrors_deref (hprog : prog.Primitive) :
    Mirrors prog c slot x q
      (do
        let v ← materialize (← pop)
        let m ← get
        push (.place (← ofShape (m.heap.deref v)))
        return Transfer.next)
      ((afterPops 1 q).map (· + 1)) (fun _ => True) := by
  intro m m' hm t m₁ h hsize
  obtain ⟨y, s, v, d, hs, hv, hd, rfl, rfl⟩ := deref_eq_ok.mp h
  obtain ⟨y', s', hs', hstacked, _, hvalue⟩ := hm.top hprog hs
  obtain ⟨hpointer, hinside, hcell⟩ : v.kind = .pointer ∧ m.heap.contains v.cell ∧ v.cell = d := by
    unfold Heap.deref at hd
    split at hd
    · rename_i hk
      split at hd
      · rename_i hin
        exact ⟨hk, hin, Except.ok.inj hd⟩
      · cases hd
    · cases hd
  -- a static reference never stands for a pointer, so that the operand has the very value
  obtain ⟨⟨u, hu, hresolve⟩, hall⟩ := hvalue v ⟨v, hv, Program.resolve_of_kind_ne (by simp [hpointer])⟩
  obtain rfl : v = u := by
    rcases hprog.resolve_cases hresolve with he | hprim
    · exact he
    · simp [Value.isPrimitive, hpointer] at hprim
  have hd' : m'.heap.deref v = .ok d := by
    rw [← hd]
    unfold Heap.deref Heap.contains
    rw [hm.size]
  obtain ⟨m₁', hpush, hm₁, _⟩ := mirrors_push (y := .place d) (hcell ▸ hall.2 hpointer) { m with stack := s }
    { m' with stack := s' } (hm.withStack hstacked ne_none_of_afterPops) () _ rfl hsize
  cases hpush
  exact ⟨_, deref_eq_ok.mpr ⟨y', s', v, d, hs', hu, hd', rfl, rfl⟩, hm₁, trivial⟩

end Exec

namespace Instr

def pops (i : Instr) : Nat :=
  match i.code with
  | .pop | .tupleInit | .tupleGet | .fill | .len | .materialize | .unsize | .address | .deref | .store | .not | .neg =>
    1
  | .tupleSet | .getIndex | .binary | .checkedBinary => 2
  | .assignIndex => 3
  | .array => i.n.toNatClampNeg
  | _ => 0

def pushes (i : Instr) : Bool :=
  match i.code with
  | .const | .tuple | .tupleGet | .array | .fill | .len | .getIndex | .materialize | .unsize | .address | .deref
  | .load | .binary | .checkedBinary | .not | .neg => true
  | _ => false

def writes (i : Instr) : Bool :=
  match i.code with
  | .tupleInit | .tupleSet | .assignIndex | .store => true
  | _ => false

def leaves (i : Instr) (q : Option Nat) : Option Nat :=
  if i.pushes then (afterPops i.pops q).map (· + 1) else afterPops i.pops q

end Instr

namespace Exec

variable {prog : Program} {c : CellId} {slot : Int64} {x : Operand} {q : Option Nat}

/-- An instruction that stays clear of the local does the same to both machines. It may not take the address of the
operand that differs, nor write as long as that operand stands for a cell. -/
theorem mirrors_step (hprog : prog.Primitive) {i : Instr} (hi : i.Primitive) (hplain : i.code.isPlain)
    (hslot : i.code = .load ∨ i.code = .store → i.n ≠ slot) (haddress : i.code = .address → q ≠ some 0)
    (hwrites : i.writes → afterPops i.pops q ≠ none → x.isPlace = false) (pos : Position) (inTrace : Bool) :
    Mirrors prog c slot x q (step prog i pos inTrace) (i.leaves q) (fun _ => True) := by
  have hfree : ∀ {k}, i.writes → i.pops = k → ∀ d, d ≠ c → Free c x (afterPops k q) d := by
    rintro k hw rfl d hd
    refine ⟨hd, fun hq => ?_⟩
    rintro rfl
    cases hwrites hw hq
  unfold step Instr.leaves Instr.pushes Instr.pops
  cases hc : i.code with
  | noop =>
    rw [afterPops_zero]
    exact mirrors_pure trivial
  | panic => exact mirrors_fault _
  | const =>
    rw [afterPops_zero]
    exact mirrors_last (mirrors_pushValue (.of_isPrimitive (hi hc)))
  | pop =>
    exact mirrors_discard hprog
  | tuple =>
    rw [afterPops_zero]
    apply mirrors_check
    intro _
    apply mirrors_bind (mirrors_newRecord i.n) (by simp)
    rintro r ⟨hk, _, hr⟩
    apply mirrors_last (mirrors_pushValue ⟨fun _ d hd => (hr d hd).1, fun hp => ?_⟩)
    cases hk.symm.trans hp
  | tupleInit =>
    exact mirrors_tupleInit hprog i.n (hfree (by simp [Instr.writes, hc]) (by simp [Instr.pops, hc]))
  | tupleGet =>
    exact mirrors_tupleGet hprog i.n
  | tupleSet =>
    exact mirrors_tupleSet hprog i.n (hfree (by simp [Instr.writes, hc]) (by simp [Instr.pops, hc]))
  | array =>
    exact mirrors_makeArray hprog i.n
  | fill =>
    exact mirrors_fillArray hprog i.n
  | len =>
    apply mirrors_bind (mirrors_popRecord hprog) (by simp)
    intro r _
    exact mirrors_last (mirrors_pushValue (.of_isPrimitive rfl))
  | getIndex =>
    exact mirrors_getIndex hprog
  | assignIndex =>
    exact mirrors_assignIndex hprog (hfree (by simp [Instr.writes, hc]) (by simp [Instr.pops, hc]))
  | materialize | unsize =>
    apply mirrors_bind (mirrors_popValue hprog) (by simp)
    intro v hv
    exact mirrors_last (mirrors_pushValue hv)
  | address =>
    exact mirrors_address hprog (haddress hc)
  | deref =>
    exact mirrors_deref hprog
  | load =>
    rw [afterPops_zero]
    apply mirrors_bind (mirrors_localCell (hslot (.inl hc))) (by simp)
    intro d hd
    exact mirrors_last (mirrors_push (y := .place d) hd)
  | store =>
    apply mirrors_bind (mirrors_popValue hprog) (by simp)
    intro v hv
    apply mirrors_bind (mirrors_localCell (hslot (.inr hc))) (by simp)
    intro d hd
    exact mirrors_last (mirrors_store (hfree (by simp [Instr.writes, hc]) (by simp [Instr.pops, hc]) d hd) hv)
  | binary =>
    apply mirrors_bind (mirrors_binary hprog i.operator) (by simp)
    intro v hv
    exact mirrors_last (mirrors_pushValue hv)
  | checkedBinary =>
    apply mirrors_bind (mirrors_binary hprog i.operator) (by simp)
    intro v hv
    apply mirrors_bind (mirrors_checkedPair hv) (by simp)
    intro r hr
    exact mirrors_last (mirrors_pushValue hr)
  | not | neg =>
    apply mirrors_bind (mirrors_popValue hprog) fun _ => enlarges_check (by simp)
    intro v _
    apply mirrors_check
    intro _
    exact mirrors_last (mirrors_pushValue (.of_isPrimitive rfl))
  | skip | jumpBack | skipIf | jumpBackIf | call | static | ret | guard => simp [hc, Opcode.isPlain] at hplain
  | other n => exact mirrors_fault _

end Exec

namespace Exec

variable {prog : Program} {i : Instr} {pos : Position} {inTrace : Bool} {m m₁ : Machine} {t : Transfer}

theorem step_load_eq_ok (hi : i.code = .load) : step prog i pos inTrace m = .ok t m₁ ↔
    ∃ f c, m.top? = some f ∧ f.local? i.n = some c ∧ t = .next ∧ m₁ = { m with stack := .place c :: m.stack } := by
  simp only [step, hi]
  constructor
  · intro h
    obtain ⟨c, m₂, hlocal, hpush⟩ := bind_eq_ok.mp h
    obtain ⟨f, hf, hc, rfl⟩ := localCell_eq_ok.mp hlocal
    cases hpush
    exact ⟨f, c, hf, hc, rfl, rfl⟩
  · rintro ⟨f, c, hf, hc, rfl, rfl⟩
    exact bind_eq_ok.mpr ⟨c, m, localCell_eq_ok.mpr ⟨f, hf, hc, rfl⟩, rfl⟩

theorem step_store_eq_ok (hi : i.code = .store) : step prog i pos inTrace m = .ok t m₁ ↔
    ∃ y s v f c heap, m.stack = y :: s ∧ (∃ u, m.heap.materialize? y = some u ∧ prog.resolve u = .ok v) ∧
      m.top? = some f ∧ f.local? i.n = some c ∧ m.heap.store? c v = some heap ∧ t = .next ∧
      m₁ = { m with stack := s, heap := heap } := by
  simp only [step, hi]
  constructor
  · intro h
    obtain ⟨v, m₂, hpop, h⟩ := bind_eq_ok.mp h
    obtain ⟨y, s, hs, hv, rfl⟩ := popValue_eq_ok.mp hpop
    obtain ⟨c, m₃, hlocal, h⟩ := bind_eq_ok.mp h
    obtain ⟨f, hf, hc, rfl⟩ := localCell_eq_ok.mp hlocal
    obtain ⟨_, m₄, hstore, h⟩ := bind_eq_ok.mp h
    obtain ⟨heap, hheap, rfl⟩ := store_eq_ok.mp hstore
    cases h
    exact ⟨y, s, v, f, c, heap, hs, hv, hf, hc, hheap, rfl, rfl⟩
  · rintro ⟨y, s, v, f, c, heap, hs, hv, hf, hc, hheap, rfl, rfl⟩
    refine bind_eq_ok.mpr ⟨v, _, popValue_eq_ok.mpr ⟨y, s, hs, hv, rfl⟩, ?_⟩
    refine bind_eq_ok.mpr ⟨c, _, localCell_eq_ok.mpr ⟨f, hf, hc, rfl⟩, ?_⟩
    exact bind_eq_ok.mpr ⟨(), _, store_eq_ok.mpr ⟨heap, hheap, rfl⟩, rfl⟩

end Exec

/-- Nothing but the slot names its cell: no operand, no other local of the active frame, and no value in the heap. -/
def Machine.Solitary (m : Machine) (slot : Int64) : Prop :=
  ∀ f c, m.top? = some f → f.local? slot = some c →
    c ∉ f.locals.eraseIdx slot.toNatClampNeg ∧ (∀ x ∈ m.stack, x.All (· ≠ c)) ∧ ∀ v ∈ m.heap.cells, v.All (· ≠ c)

theorem Machine.solitary_iff {m : Machine} {slot : Int64} {f : Frame} {c : CellId} (hf : m.top? = some f)
    (hc : f.local? slot = some c) : m.Solitary slot ↔ c ∉ f.locals.eraseIdx slot.toNatClampNeg ∧
      (∀ x ∈ m.stack, x.All (· ≠ c)) ∧ ∀ v ∈ m.heap.cells, v.All (· ≠ c) := by
  constructor
  · intro h
    exact h f c hf hc
  · intro h f' c' hf' hc'
    obtain rfl := Option.some.inj (hf.symm.trans hf')
    obtain rfl := Option.some.inj (hc.symm.trans hc')
    exact h

instance (m : Machine) (slot : Int64) : Decidable (m.Solitary slot) :=
  match hf : m.top? with
  | none => isTrue fun f c hf' => absurd (hf.symm.trans hf') nofun
  | some f =>
    match hc : f.local? slot with
    | none => isTrue fun f' c hf' hc' => by
      cases hf.symm.trans hf'
      cases hc.symm.trans hc'
    | some c =>
      decidable_of_iff ((f.locals.eraseIdx slot.toNatClampNeg).contains c = false ∧
        m.stack.all (fun x => x.All (· ≠ c)) = true ∧ m.heap.cells.toList.all (fun v => v.All (· ≠ c)) = true)
        (by simp only [Machine.solitary_iff hf hc, List.contains_eq_mem, decide_eq_false_iff_not, List.all_eq_true,
          decide_eq_true_eq, Array.mem_toList_iff])

namespace Apart

variable {prog : Program} {c : CellId} {slot : Int64} {x : Operand} {q : Option Nat} {m m' m₁ : Machine}

theorem slot_eq {f : Frame} {b : Int64} (hc : f.local? slot = some c) (hone : c ∉ f.locals.eraseIdx slot.toNatClampNeg)
    (hb : f.local? b = some c) : b = slot := by
  obtain ⟨hslot, hget⟩ := nth?_eq_some.mp hc
  obtain ⟨hneg, hget'⟩ := nth?_eq_some.mp hb
  have hindex : b.toNatClampNeg = slot.toNatClampNeg := by
    apply Decidable.byContradiction
    intro hne
    exact hone (List.mem_eraseIdx_iff_getElem?.mpr ⟨b.toNatClampNeg, hne, hget'⟩)
  apply Int64.toInt_inj.mp
  rw [← Exec.toInt_of_not_neg (Int64.not_lt.mpr hneg), ← Exec.toInt_of_not_neg (Int64.not_lt.mpr hslot), hindex]

theorem of_store {i : Instr} (hi : i.code = .store) {pos : Position} {inTrace : Bool} {t : Transfer}
    (h : Exec.step prog i pos inTrace m = .ok t m₁) (hm : m₁.Solitary i.n) : ∃ y s f c, m.stack = y :: s ∧
      m₁.top? = some f ∧ f.local? i.n = some c ∧ Apart prog c i.n y none m₁ { m with stack := s } ∧
      Apart prog c i.n y (some 0) { m₁ with stack := .place c :: m₁.stack } m := by
  obtain ⟨y, s, v, f, c, heap, hs, ⟨u, hu, hv⟩, hf, hc, hheap, rfl, rfl⟩ := (Exec.step_store_eq_ok hi).mp h
  obtain ⟨hone, hstack, hhidden⟩ := hm f c hf hc
  have hload := Heap.load?_of_store? hheap
  have hsize := Heap.size_of_store? hheap
  have hhome : ∃ f, m.top? = some f ∧ f.local? i.n = some c ∧ ∀ b, f.local? b = some c → b = i.n :=
    ⟨f, hf, hc, fun b hb => slot_eq hc hone hb⟩
  have hinside : c.toNat < heap.size := hsize ▸ Heap.lt_of_store? hheap
  have hheaps : ∀ d, d ≠ c → m.heap.load? d = heap.load? d := fun d hd => by rw [hload, if_neg hd]
  have hnone : ∀ d w, heap.load? d = some w → w.All (· ≠ c) := fun d w hw =>
    hhidden w (Array.mem_of_getElem? hw)
  refine ⟨y, s, f, c, hs, hf, hc, ⟨rfl, rfl, hsize.symm, hinside, ⟨rfl, hstack⟩, hhome, hheaps, hnone, nofun⟩, ?_⟩
  refine ⟨rfl, rfl, hsize.symm, hinside, ⟨[], s, rfl, rfl, hs, hstack⟩, hhome, hheaps, hnone, fun _ => ?_⟩
  exact ⟨u, v, hu, hv, by rw [hload, if_pos rfl], Program.resolve_resolve hv⟩

theorem step_store (hprog : prog.Primitive) (h : Apart prog c slot x q m m') {i : Instr} (hi : i.code = .store)
    (hslot : i.n = slot) (hq : afterPops 1 q = none) {pos : Position} {inTrace : Bool} {t : Transfer}
    (hstep : Exec.step prog i pos inTrace m = .ok t m₁) (hsize : m₁.heap.size ≤ UInt32.size) :
    Exec.step prog i pos inTrace m' = .ok t m₁ := by
  obtain ⟨y, s, v, f, d, heap, hs, hv, hf, hd, hheap, rfl, rfl⟩ := (Exec.step_store_eq_ok hi).mp hstep
  obtain ⟨y', s', hs', hstacked, _, hvalue⟩ := h.top hprog hs
  rw [hq] at hstacked
  obtain ⟨rfl, _⟩ := hstacked
  obtain ⟨g, hg, hc, _⟩ := h.home
  obtain rfl := Option.some.inj (hf.symm.trans hg)
  obtain rfl : d = c := Option.some.inj (hd.symm.trans (hslot ▸ hc))
  have hf' : m'.top? = some f := by rw [Machine.top?, h.frames]; exact hf
  have hheap' := Heap.store?_isSome (h := m'.heap) (by rw [h.size]; exact Heap.lt_of_store? hheap) v
  have heq : (⟨m'.heap.cells.set! d.toNat v⟩ : Heap) = heap := by
    apply Heap.eq_of_load? _ hsize
    · intro e
      rw [Heap.load?_of_store? hheap, Heap.load?_of_store? hheap']
      split
      · rfl
      · rename_i he
        exact h.heap e he
    · rw [Heap.size_of_store? hheap, Heap.size_of_store? hheap', h.size]
  rw [heq] at hheap'
  obtain ⟨hv', _⟩ := hvalue v hv
  refine (Exec.step_store_eq_ok hi).mpr ⟨y', s', v, f, d, heap, hs', hv', hf', hd, hheap', rfl, ?_⟩
  rw [h.frames, h.made]

end Apart

end HotLoop
