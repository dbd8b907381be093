import HotLoop.Iterate

namespace HotLoop

variable {σ ρ : Type} {turn : σ → Turn σ ρ}

def advance (turn : σ → Turn σ ρ) : Nat → σ → Option σ
  | 0, s => some s
  | n + 1, s =>
    match turn s with
    | .again s => advance turn n s
    | .done _ => none

@[simp] theorem advance_zero (s : σ) : advance turn 0 s = some s := rfl

theorem advance_succ_of_again {s t : σ} (h : turn s = .again t) (n : Nat) :
    advance turn (n + 1) s = advance turn n t := by
  simp [advance, h]

theorem advance_succ_of_done {s : σ} {r : ρ} (h : turn s = .done r) (n : Nat) :
    advance turn (n + 1) s = none := by
  simp [advance, h]

theorem again_of_advance_succ {n : Nat} {s u : σ} (h : advance turn (n + 1) s = some u) :
    ∃ t, turn s = .again t ∧ advance turn n t = some u := by
  cases ht : turn s with
  | again t => exact ⟨t, rfl, (advance_succ_of_again ht n).symm.trans h⟩
  | done r => simp [advance_succ_of_done ht] at h

theorem advance_add (m n : Nat) (s : σ) :
    advance turn (m + n) s = (advance turn m s).bind (advance turn n) := by
  induction m generalizing s with
  | zero => simp
  | succ m ih =>
    rw [Nat.succ_add]
    cases ht : turn s with
    | again t => rw [advance_succ_of_again ht, advance_succ_of_again ht, ih]
    | done r => rw [advance_succ_of_done ht, advance_succ_of_done ht]; rfl

theorem advance_trans {m n : Nat} {s t u : σ} (h : advance turn m s = some t) (h' : advance turn n t = some u) :
    advance turn (m + n) s = some u := by
  rw [advance_add, h]
  exact h'

theorem advance_of_le {m n : Nat} {s u : σ} (h : advance turn n s = some u) (hm : m ≤ n) :
    ∃ t, advance turn m s = some t ∧ advance turn (n - m) t = some u := by
  have he : n = m + (n - m) := by omega
  rw [he, advance_add] at h
  exact Option.bind_eq_some_iff.mp h

theorem le_of_advance_done {m n : Nat} {s t u : σ} {r : ρ} (h : advance turn m s = some t) (hd : turn t = .done r)
    (h' : advance turn n s = some u) : n ≤ m := by
  apply Nat.le_of_not_lt
  intro hlt
  obtain ⟨t', ht', hrest⟩ := advance_of_le h' (Nat.le_of_lt hlt)
  obtain rfl := Option.some.inj (h.symm.trans ht')
  obtain ⟨k, hk⟩ : ∃ k, n - m = k + 1 := ⟨n - m - 1, by omega⟩
  rw [hk, advance_succ_of_done hd] at hrest
  cases hrest

theorem iterate_eq_some_iff {fuel : Nat} {s : σ} {r : ρ} :
    iterate turn fuel s = some r ↔ ∃ n t, n < fuel ∧ advance turn n s = some t ∧ turn t = .done r := by
  induction fuel generalizing s with
  | zero => simp [iterate]
  | succ fuel ih =>
    cases ht : turn s with
    | again t =>
      have he : iterate turn (fuel + 1) s = iterate turn fuel t := by simp [iterate, ht]
      rw [he, ih]
      constructor
      · rintro ⟨n, u, hn, hu, hd⟩
        exact ⟨n + 1, u, by omega, (advance_succ_of_again ht n).trans hu, hd⟩
      · rintro ⟨n, u, hn, hu, hd⟩
        cases n with
        | zero => simp_all
        | succ n => exact ⟨n, u, by omega, (advance_succ_of_again ht n).symm.trans hu, hd⟩
    | done r' =>
      have he : iterate turn (fuel + 1) s = some r' := by simp [iterate, ht]
      rw [he]
      constructor
      · intro h
        exact ⟨0, s, by omega, rfl, by rw [ht, Option.some.inj h]⟩
      · rintro ⟨n, u, hn, hu, hd⟩
        cases n with
        | zero => simp_all
        | succ n => simp [advance_succ_of_done ht] at hu

theorem advance_invariant {P : σ → Prop} (hstep : ∀ s t, P s → turn s = .again t → P t) {n : Nat} {s t : σ} (hs : P s)
    (h : advance turn n s = some t) : P t := by
  induction n generalizing s with
  | zero => exact Option.some.inj h ▸ hs
  | succ n ih =>
    obtain ⟨u, hu, h⟩ := again_of_advance_succ h
    exact ih (hstep s u hs hu) h

theorem iterate_invariant {P : σ → Prop} {Q : ρ → Prop} (hstep : ∀ s t, P s → turn s = .again t → P t)
    (hlast : ∀ s r, P s → turn s = .done r → Q r) {fuel : Nat} {s : σ} {r : ρ} (hs : P s)
    (h : iterate turn fuel s = some r) : Q r := by
  obtain ⟨n, t, _, ht, hd⟩ := iterate_eq_some_iff.mp h
  exact hlast t r (advance_invariant hstep hs ht) hd

theorem iterate_of_advance {n : Nat} {s t : σ} {r : ρ} (h : advance turn n s = some t) (hd : turn t = .done r) :
    iterate turn (n + 1) s = some r :=
  iterate_eq_some_iff.mpr ⟨n, t, by omega, h, hd⟩

theorem iterate_of_reached {n fuel : Nat} {s t : σ} {r : ρ} (h : advance turn n s = some t)
    (hr : iterate turn fuel t = some r) : iterate turn (n + fuel) s = some r := by
  obtain ⟨k, u, hk, hu, hd⟩ := iterate_eq_some_iff.mp hr
  exact iterate_eq_some_iff.mpr ⟨n + k, u, by omega, advance_trans h hu, hd⟩

theorem iterate_mono {fuel fuel' : Nat} {s : σ} {r : ρ} (h : iterate turn fuel s = some r) (hf : fuel ≤ fuel') :
    iterate turn fuel' s = some r := by
  obtain ⟨n, t, hn, ht, hd⟩ := iterate_eq_some_iff.mp h
  exact iterate_eq_some_iff.mpr ⟨n, t, by omega, ht, hd⟩

/-- A result comes after a number of turns that does not depend on how many the iteration is given. -/
theorem iterate_eq_ite {fuel : Nat} {s : σ} {r : ρ} (h : iterate turn fuel s = some r) :
    ∃ n, ∀ fuel', iterate turn fuel' s = if n < fuel' then some r else none := by
  obtain ⟨n, t, _, ht, hd⟩ := iterate_eq_some_iff.mp h
  refine ⟨n, fun fuel' => ?_⟩
  split
  · rename_i hlt
    exact iterate_eq_some_iff.mpr ⟨n, t, hlt, ht, hd⟩
  · rename_i hle
    apply Option.eq_none_iff_forall_ne_some.mpr
    intro r' hr'
    obtain ⟨k, u, hk, hu, hdone⟩ := iterate_eq_some_iff.mp hr'
    have := le_of_advance_done hu hdone ht
    omega

theorem iterate_unique {fuel fuel' : Nat} {s : σ} {r r' : ρ} (h : iterate turn fuel s = some r)
    (h' : iterate turn fuel' s = some r') : r = r' := by
  have hm := iterate_mono h (Nat.le_max_left fuel fuel')
  have hm' := iterate_mono h' (Nat.le_max_right fuel fuel')
  exact Option.some.inj (hm.symm.trans hm')

theorem iterate_after_advance {m fuel : Nat} {s t : σ} {r : ρ} (h : iterate turn fuel s = some r)
    (ht : advance turn m s = some t) : ∃ fuel', fuel' + m = fuel ∧ iterate turn fuel' t = some r := by
  induction m generalizing s fuel with
  | zero => exact ⟨fuel, rfl, by simpa [← Option.some.inj ht] using h⟩
  | succ m ih =>
    obtain ⟨u, hu, hadv⟩ := again_of_advance_succ ht
    cases fuel with
    | zero => simp [iterate] at h
    | succ fuel =>
      have h' : iterate turn fuel u = some r := by simpa [iterate, hu] using h
      obtain ⟨fuel', he, hr⟩ := ih h' hadv
      exact ⟨fuel', by omega, hr⟩

end HotLoop
