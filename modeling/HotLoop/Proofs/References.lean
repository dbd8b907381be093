import HotLoop.Proofs.Floor
import Mathlib.Data.List.Perm.Subperm
import Mathlib.Logic.Relation

/-!
Static references. A static reference stands for the constant that a function begins with, and that constant may be a
static reference again. The machine follows such a chain through one function more than the program has, and then
reports a cycle. This is enough: a chain that goes on for so long has been at some function twice, so that it never
ends. All chains that end are therefore followed to their end, and what is reported as a cycle is one.
-/

namespace HotLoop

open Relation (ReflTransGen TransGen)

namespace Program

variable {prog : Program} {u u' v w w' : Value} {f : Function} {k : Int64} {c : Cause}
  {r : Except Cause Value} {hops : Nat} {seen : List Nat}

/-- A static reference by the number of a function, and the constant that the function begins with. A number above the
largest signed word is that of no function. -/
structure Refers (prog : Program) (v w : Value) : Prop where
  static : v.kind = .static
  number : (v.uint.toNat : Int) ≤ Int64.maxValue.toInt
  first : ∃ f i, prog.entries[v.uint.toNat]? = some (some f) ∧ f.instrs.head? = some i ∧ i.code = .const ∧
    i.value = w

def Leads (prog : Program) : Value → Value → Prop := ReflTransGen prog.Refers

def Ends (prog : Program) (v : Value) : Prop := ∀ w, ¬prog.Refers v w

def Circular (prog : Program) (v : Value) : Prop := TransGen prog.Refers v v

theorem Refers.lt_length (h : prog.Refers v w) : v.uint.toNat < prog.entries.length := by
  obtain ⟨f, i, hf, -⟩ := h.first
  exact (List.getElem?_eq_some_iff.mp hf).1

theorem Refers.eq (h : prog.Refers u w) (h' : prog.Refers u' w') (hnumber : u.uint.toNat = u'.uint.toNat) : w = w' := by
  obtain ⟨f, i, hf, hi, -, rfl⟩ := h.first
  obtain ⟨f', i', hf', hi', -, rfl⟩ := h'.first
  rw [hnumber, hf', Option.some.injEq, Option.some.injEq] at hf
  subst hf
  rw [hi', Option.some.injEq] at hi
  rw [hi]

theorem refers_rightUnique (prog : Program) : Relator.RightUnique prog.Refers := fun _ _ _ h h' => h.eq h' rfl

theorem ends_of_kind_ne (h : v.kind ≠ .static) : prog.Ends v := fun _ hrefers => h hrefers.static

theorem Circular.next (h : prog.Circular v) (hrefers : prog.Refers v w) : prog.Circular w := by
  obtain ⟨w', hrefers', hback⟩ := TransGen.head'_iff.mp h
  obtain rfl := prog.refers_rightUnique hrefers hrefers'
  exact .tail' hback hrefers

theorem Circular.leads (h : prog.Circular v) (hleads : prog.Leads v w) : prog.Circular w := by
  induction hleads with
  | refl => exact h
  | tail _ hrefers ih => exact ih.next hrefers

theorem Circular.not_ends (h : prog.Circular v) : ¬prog.Ends v := by
  obtain ⟨w, hrefers, -⟩ := TransGen.head'_iff.mp h
  exact fun hends => hends w hrefers

theorem Leads.onward (h : prog.Leads v u) (hend : prog.Leads v w) (hends : prog.Ends w) : prog.Leads u w := by
  rcases ReflTransGen.total_of_right_unique prog.refers_rightUnique h hend with honward | hback
  · exact honward
  · rcases ReflTransGen.cases_head hback with rfl | ⟨x, hrefers, -⟩
    · exact .refl
    · exact absurd hrefers (hends x)

theorem Leads.end_unique (h : prog.Leads v u) (hu : prog.Ends u) (h' : prog.Leads v w) (hw : prog.Ends w) : u = w := by
  rcases ReflTransGen.cases_head (h.onward h' hw) with rfl | ⟨x, hrefers, -⟩
  · rfl
  · exact absurd hrefers (hu x)

theorem Leads.not_circular (h : prog.Leads v u) (hcircular : prog.Circular u) (h' : prog.Leads v w) : ¬prog.Ends w :=
  fun hw => (hcircular.leads (h.onward h' hw)).not_ends hw

theorem function?_index : prog.function? v.index = some f ↔
    (v.uint.toNat : Int) ≤ Int64.maxValue.toInt ∧ prog.entries[v.uint.toNat]? = some (some f) := by
  rw [function?, Option.join_eq_some_iff]
  exact nth?_toInt64

theorem refers_iff : prog.Refers v w ↔ v.kind = .static ∧
    ∃ i, ((prog.function? v.index).bind fun f => f.instrs.head?) = some i ∧ i.code = .const ∧ i.value = w := by
  constructor
  · rintro ⟨hstatic, hnumber, f, i, hf, hi, hcode, hvalue⟩
    exact ⟨hstatic, i, Option.bind_eq_some_iff.mpr ⟨f, function?_index.mpr ⟨hnumber, hf⟩, hi⟩, hcode, hvalue⟩
  · rintro ⟨hstatic, i, hfirst, hcode, hvalue⟩
    obtain ⟨f, hf, hi⟩ := Option.bind_eq_some_iff.mp hfirst
    obtain ⟨hnumber, hentry⟩ := function?_index.mp hf
    exact ⟨hstatic, hnumber, f, i, hentry, hi, hcode, hvalue⟩

theorem constant_of_kind_ne (h : v.kind ≠ .static) : prog.constant hops v = .ok v := by
  unfold constant
  exact if_neg h

theorem constant_zero (h : v.kind = .static) : prog.constant 0 v = .error (.mismatch (.staticCycle v.index)) := by
  unfold constant
  exact if_pos h

theorem constant_of_refers (h : prog.Refers v w) : prog.constant (hops + 1) v = prog.constant hops w := by
  obtain ⟨hstatic, i, hi, hcode, rfl⟩ := refers_iff.mp h
  rw [constant, if_pos hstatic]
  simp only [hi, if_pos hcode]

theorem constant_of_ends (hstatic : v.kind = .static) (h : prog.Ends v) :
    prog.constant (hops + 1) v = .error (.mismatch (.notConstant v.index)) := by
  rw [constant, if_pos hstatic]
  cases hi : (prog.function? v.index).bind fun f => f.instrs.head? with
  | none => rfl
  | some i =>
    have hcode : i.code ≠ .const := fun hcode => h i.value (refers_iff.mpr ⟨hstatic, i, hi, hcode, rfl⟩)
    simp only [if_neg hcode]

/-- How following the references of `v` can come out. -/
inductive Outcome (prog : Program) (v : Value) : Except Cause Value → Prop
  | value {w : Value} (leads : prog.Leads v w) (found : w.kind ≠ .static) : Outcome prog v (.ok w)
  | dead {u : Value} (leads : prog.Leads v u) (static : u.kind = .static) (ends : prog.Ends u) :
    Outcome prog v (.error (.mismatch (.notConstant u.index)))
  | cycle {u : Value} (leads : prog.Leads v u) (circular : prog.Circular u) :
    Outcome prog v (.error (.mismatch (.staticCycle u.index)))

theorem Outcome.head (hrefers : prog.Refers v w) (h : prog.Outcome w r) : prog.Outcome v r := by
  cases h with
  | value leads found => exact .value (.head hrefers leads) found
  | dead leads static ends => exact .dead (.head hrefers leads) static ends
  | cycle leads circular => exact .cycle (.head hrefers leads) circular

theorem Circular.outcome (h : prog.Circular v) (hops : Nat) : prog.Outcome v (prog.constant hops v) := by
  induction hops generalizing v with
  | zero =>
    obtain ⟨w, hrefers, -⟩ := TransGen.head'_iff.mp h
    rw [constant_zero hrefers.static]
    exact .cycle .refl h
  | succ hops ih =>
    obtain ⟨w, hrefers, -⟩ := TransGen.head'_iff.mp h
    rw [constant_of_refers hrefers]
    exact .head hrefers (ih (h.next hrefers))

structure Seen (prog : Program) (v : Value) (seen : List Nat) : Prop where
  nodup : seen.Nodup
  inside : ∀ n ∈ seen, n < prog.entries.length
  leads : ∀ n ∈ seen, ∃ u, u.uint.toNat = n ∧ TransGen prog.Refers u v

theorem Seen.nil (prog : Program) (v : Value) : prog.Seen v [] :=
  ⟨List.nodup_nil, fun _ h => absurd h List.not_mem_nil, fun _ h => absurd h List.not_mem_nil⟩

theorem Seen.cons (h : prog.Seen v seen) (hrefers : prog.Refers v w) (hnew : v.uint.toNat ∉ seen) :
    prog.Seen w (v.uint.toNat :: seen) := by
  refine ⟨List.nodup_cons.mpr ⟨hnew, h.nodup⟩, ?_, ?_⟩
  · exact List.forall_mem_cons.mpr ⟨hrefers.lt_length, h.inside⟩
  · refine List.forall_mem_cons.mpr ⟨⟨v, rfl, .single hrefers⟩, fun n hn => ?_⟩
    obtain ⟨u, hu, hleads⟩ := h.leads n hn
    exact ⟨u, hu, hleads.tail hrefers⟩

theorem Seen.length_le (h : prog.Seen v seen) : seen.length ≤ prog.entries.length := by
  have hsubset : seen ⊆ List.range prog.entries.length := fun n hn => List.mem_range.mpr (h.inside n hn)
  simpa using (List.subperm_of_subset h.nodup hsubset).length_le

theorem Seen.circular (h : prog.Seen v seen) (hrefers : prog.Refers v w) (hagain : v.uint.toNat ∈ seen) :
    prog.Circular w := by
  obtain ⟨u, hu, hleads⟩ := h.leads _ hagain
  obtain ⟨w', hfirst, hback⟩ := TransGen.head'_iff.mp hleads
  obtain rfl := hfirst.eq hrefers hu
  exact .tail' hback hrefers

theorem Seen.outcome (h : prog.Seen v seen) (hhops : prog.entries.length < seen.length + hops) :
    prog.Outcome v (prog.constant hops v) := by
  -- there are more functions seen and hops left than functions in all, so that the hops cannot run out first
  induction hops generalizing v seen with
  | zero => exact absurd h.length_le (Nat.not_le.mpr hhops)
  | succ hops ih =>
    by_cases hstatic : v.kind = .static
    · by_cases hends : prog.Ends v
      · rw [constant_of_ends hstatic hends]
        exact .dead .refl hstatic hends
      · obtain ⟨w, hrefers⟩ := not_forall_not.mp hends
        rw [constant_of_refers hrefers]
        apply Outcome.head hrefers
        by_cases hagain : v.uint.toNat ∈ seen
        -- the second time at a function: the rest of the hops go round the circle
        · exact (h.circular hrefers hagain).outcome hops
        · exact ih (h.cons hrefers hagain) (by rw [List.length_cons]; omega)
    · rw [constant_of_kind_ne hstatic]
      exact .value .refl hstatic

theorem resolve_outcome (prog : Program) (v : Value) : prog.Outcome v (prog.resolve v) :=
  (Seen.nil prog v).outcome (by simp)

theorem Outcome.of_ends (h : prog.Outcome v r) (hleads : prog.Leads v w) (hends : prog.Ends w) :
    r = if w.kind = .static then .error (.mismatch (.notConstant w.index)) else .ok w := by
  cases h with
  | value leads found =>
    obtain rfl := leads.end_unique (ends_of_kind_ne found) hleads hends
    rw [if_neg found]
  | dead leads static ends =>
    obtain rfl := leads.end_unique ends hleads hends
    rw [if_pos static]
  | cycle leads circular => exact absurd hends (leads.not_circular circular hleads)

theorem resolve_eq_ok : prog.resolve v = .ok w ↔ prog.Leads v w ∧ w.kind ≠ .static := by
  have houtcome := prog.resolve_outcome v
  constructor
  · intro h
    rw [h] at houtcome
    cases houtcome with
    | value leads found => exact ⟨leads, found⟩
  · rintro ⟨hleads, hfound⟩
    rw [houtcome.of_ends hleads (ends_of_kind_ne hfound), if_neg hfound]

theorem resolve_of_kind_ne (h : v.kind ≠ .static) : prog.resolve v = .ok v := constant_of_kind_ne h

theorem resolve_resolve (h : prog.resolve v = .ok w) : prog.resolve w = .ok w :=
  resolve_of_kind_ne (resolve_eq_ok.mp h).2

theorem resolve_error (h : prog.resolve v = .error c) : ∃ e, c = .mismatch e := by
  have houtcome := prog.resolve_outcome v
  rw [h] at houtcome
  cases houtcome with
  | dead => exact ⟨_, rfl⟩
  | cycle => exact ⟨_, rfl⟩

theorem resolve_eq_notConstant : prog.resolve v = .error (.mismatch (.notConstant k)) ↔
    ∃ u, prog.Leads v u ∧ u.kind = .static ∧ prog.Ends u ∧ u.index = k := by
  have houtcome := prog.resolve_outcome v
  constructor
  · intro h
    rw [h] at houtcome
    cases houtcome with
    | dead leads static ends => exact ⟨_, leads, static, ends, rfl⟩
  · rintro ⟨u, hleads, hstatic, hends, rfl⟩
    rw [houtcome.of_ends hleads hends, if_pos hstatic]

theorem circular_of_resolve (h : prog.resolve v = .error (.mismatch (.staticCycle k))) :
    ∃ u, prog.Leads v u ∧ prog.Circular u ∧ u.index = k := by
  have houtcome := prog.resolve_outcome v
  rw [h] at houtcome
  cases houtcome with
  | cycle leads circular => exact ⟨_, leads, circular, rfl⟩

theorem resolve_of_circular (hleads : prog.Leads v u) (hcircular : prog.Circular u) :
    ∃ k, prog.resolve v = .error (.mismatch (.staticCycle k)) := by
  have houtcome := prog.resolve_outcome v
  generalize prog.resolve v = r at houtcome ⊢
  cases houtcome with
  | value leads found => exact absurd (ends_of_kind_ne found) (hleads.not_circular hcircular leads)
  | dead leads static ends => exact absurd ends (hleads.not_circular hcircular leads)
  | cycle => exact ⟨_, rfl⟩

end Program

/-- An operand gives a value exactly when the chain of its references comes to it, however long the chain is. All other
operands fault: the chain of some ends at a reference to a function that does not exist or does not begin with a
constant, and the fault names it; the others are those whose chain goes in a circle, and only these are reported as
cycles, with a function on the circle. -/
theorem Exec.valueOf_follows (prog : Program) (m : Machine) {x : Operand} {v : Value}
    (hx : m.heap.materialize? x = some v) :
    (∀ w m', valueOf prog x m = .ok w m' ↔ (prog.Leads v w ∧ w.kind ≠ .static) ∧ m' = m) ∧
    ((∀ w, prog.Leads v w → w.kind = .static) → ∃ e, valueOf prog x m = .error (.fault (.mismatch e)) m) ∧
    (∀ k m', valueOf prog x m = .error (.fault (.mismatch (.notConstant k))) m' ↔
      (∃ u, prog.Leads v u ∧ u.kind = .static ∧ prog.Ends u ∧ u.index = k) ∧ m' = m) ∧
    (∀ k m', valueOf prog x m = .error (.fault (.mismatch (.staticCycle k))) m' →
      ∃ u, prog.Leads v u ∧ prog.Circular u ∧ u.index = k) ∧
    ∀ u, prog.Leads v u → prog.Circular u →
      ∃ k, valueOf prog x m = .error (.fault (.mismatch (.staticCycle k))) m := by
  have hok (w : Value) (m' : Machine) : valueOf prog x m = .ok w m' ↔ prog.resolve v = .ok w ∧ m' = m := by
    simp [valueOf_eq_ok, hx]
  have hfault (c : Cause) (m' : Machine) :
      valueOf prog x m = .error (.fault c) m' ↔ prog.resolve v = .error c ∧ m' = m := by
    simp [valueOf_eq_fault, hx]
  refine ⟨fun w m' => ?_, fun hstatic => ?_, fun k m' => ?_, fun k m' h => ?_, fun u hleads hcircular => ?_⟩
  · rw [hok, Program.resolve_eq_ok]
  · cases hr : prog.resolve v with
    | ok w =>
      obtain ⟨hleads, hfound⟩ := Program.resolve_eq_ok.mp hr
      exact absurd (hstatic w hleads) hfound
    | error c =>
      obtain ⟨e, rfl⟩ := Program.resolve_error hr
      exact ⟨e, (hfault _ _).mpr ⟨hr, rfl⟩⟩
  · rw [hfault, Program.resolve_eq_notConstant]
  · exact Program.circular_of_resolve ((hfault _ _).mp h).1
  · obtain ⟨k, hr⟩ := Program.resolve_of_circular hleads hcircular
    exact ⟨k, (hfault _ _).mpr ⟨hr, rfl⟩⟩

def relay (last : Value) : Program where
  table := some
    [some (.constant (.const (.static 2))), some (.constant (.const last)), some (.constant (.const (.static 1)))]

theorem Exec.valueOf_follows_relay : valueOf (relay (.usize 7)) (.owned (.static 0)) {} = .ok (.usize 7) {} ∧
    ∃ k, valueOf (relay (.static 0)) (.owned (.static 0)) {} = .error (.fault (.mismatch (.staticCycle k))) {} := by
  have hchain (last : Value) : TransGen (relay last).Refers (.static 0) last :=
    .head ⟨rfl, by decide, _, _, rfl, rfl, rfl, rfl⟩
      (.head ⟨rfl, by decide, _, _, rfl, rfl, rfl, rfl⟩ (.single ⟨rfl, by decide, _, _, rfl, rfl, rfl, rfl⟩))
  constructor
  · exact ((valueOf_follows _ {} rfl).1 _ _).mpr ⟨⟨(hchain _).to_reflTransGen, by decide⟩, rfl⟩
  · exact (valueOf_follows _ {} rfl).2.2.2.2 _ .refl (hchain (.static 0))

end HotLoop
