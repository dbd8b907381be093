import HotLoop.Machine.Arith
import Mathlib.Data.Int.Bitwise

namespace HotLoop

section Bits

theorem eq_of_testBit_eq {m n : Int} (h : ∀ i, m.testBit i = n.testBit i) : m = n := by
  -- far to the left, every bit is the sign
  have opposite (a b : Nat) (h : ∀ i, (Int.ofNat a).testBit i = (Int.negSucc b).testBit i) : False := by
    have ha : a < 2 ^ (a + b) := Nat.lt_of_le_of_lt (Nat.le_add_right a b) Nat.lt_two_pow_self
    have hb : b < 2 ^ (a + b) := Nat.lt_of_le_of_lt (Nat.le_add_left b a) Nat.lt_two_pow_self
    have hbit := h (a + b)
    simp only [Int.testBit, Nat.testBit_lt_two_pow ha, Nat.testBit_lt_two_pow hb] at hbit
    cases hbit
  cases m with
  | ofNat a =>
    cases n with
    | ofNat b => exact congrArg Int.ofNat (Nat.eq_of_testBit_eq h)
    | negSucc b => exact (opposite a b h).elim
  | negSucc a =>
    cases n with
    | ofNat b => exact (opposite b a fun i => (h i).symm).elim
    | negSucc b => exact congrArg Int.negSucc (Nat.eq_of_testBit_eq fun i => Bool.not_inj (h i))

theorem testBit_toInt {w : Nat} (x : BitVec w) (i : Nat) :
    x.toInt.testBit i = if i < w then x.getLsbD i else x.msb := by
  rw [BitVec.toInt_eq_msb_cond]
  cases hx : x.msb with
  | false =>
    have hbit : Int.testBit (x.toNat : Int) i = x.getLsbD i := BitVec.testBit_toNat x
    by_cases hi : i < w
    · simp [hi, hbit]
    · simp [hi, hbit, BitVec.getLsbD_of_ge x i (Nat.le_of_not_lt hi)]
  | true =>
    have hneg : (x.toNat : Int) - (2 ^ w : Nat) = Int.negSucc (2 ^ w - (x.toNat + 1)) := by
      have := x.isLt
      omega
    rw [if_pos rfl, hneg]
    simp only [Int.testBit, Nat.testBit_two_pow_sub_succ x.isLt, BitVec.testBit_toNat]
    by_cases hi : i < w <;> simp [hi]

theorem toInt_eq_bitwise {w : Nat} {x y z : BitVec w} {f : Bool → Bool → Bool}
    (hbit : ∀ i, z.getLsbD i = f (x.getLsbD i) (y.getLsbD i)) (hmsb : z.msb = f x.msb y.msb) :
    z.toInt = Int.bitwise f x.toInt y.toInt := by
  apply eq_of_testBit_eq
  intro i
  rw [Int.testBit_bitwise, testBit_toInt, testBit_toInt, testBit_toInt, hbit, hmsb]
  split <;> rfl

end Bits

section Signed

variable (l r : Int64)

theorem toInt_and : (l &&& r).toInt = Int.land l.toInt r.toInt := by
  rw [← Int.bitwise_and]
  apply toInt_eq_bitwise
  · exact fun _ => BitVec.getLsbD_and
  · exact BitVec.msb_and

theorem toInt_or : (l ||| r).toInt = Int.lor l.toInt r.toInt := by
  rw [← Int.bitwise_or]
  apply toInt_eq_bitwise
  · exact fun _ => BitVec.getLsbD_or
  · exact BitVec.msb_or

theorem toInt_xor : (l ^^^ r).toInt = Int.xor l.toInt r.toInt := by
  rw [← Int.bitwise_xor]
  apply toInt_eq_bitwise
  · exact fun _ => BitVec.getLsbD_xor
  · exact BitVec.msb_xor

theorem toNat_smod_count : ((r &&& 63).toBitVec.smod 64).toNat = (r.toInt % 64).toNat := by
  have hmask : (r &&& 63).toBitVec.toNat = r.toBitVec.toNat % 64 := by
    simpa using Nat.and_two_pow_sub_one_eq_mod r.toBitVec.toNat 6
  have hmsb : (r &&& 63).toBitVec.msb = false := by
    rw [BitVec.msb_eq_false_iff_two_mul_lt, hmask]
    omega
  have hsmod : ((r &&& 63).toBitVec.smod 64).toNat = (r &&& 63).toBitVec.toNat % 64 := by
    have h64 : (64 : BitVec 64).msb = false := rfl
    simp only [BitVec.smod_eq, hmsb, h64]
    rfl
  have hr : r.toInt = _ := BitVec.toInt_eq_toNat_cond r.toBitVec
  rw [hsmod, hmask]
  split at hr <;> omega

theorem toInt_shiftLeft :
    (l <<< (r &&& 63)).toInt = (l.toInt * Nat.pow 2 (r.toInt % 64).toNat).bmod UInt64.size := by
  rw [← Int64.toInt_toBitVec, Int64.toBitVec_shiftLeft, BitVec.shiftLeft_eq', BitVec.toInt_shiftLeft,
    toNat_smod_count, ← Int64.toInt_toBitVec l, BitVec.toInt_eq_toNat_bmod, Int.bmod_mul_bmod, Nat.shiftLeft_eq,
    Int.natCast_mul]
  rfl

theorem toInt_shiftRight : (l >>> (r &&& 63)).toInt = l.toInt / Nat.pow 2 (r.toInt % 64).toNat := by
  rw [← Int64.toInt_toBitVec, Int64.toBitVec_shiftRight, BitVec.toInt_sshiftRight', toNat_smod_count,
    Int64.toInt_toBitVec, Int.shiftRight_eq_div_pow]
  rfl

theorem toInt_eq_bmod {w : Int64} {n : Int} (h : w.toInt = n) : w.toInt = n.bmod UInt64.size := by
  rw [← h]
  exact (BitVec.toInt_bmod_cancel w.toBitVec).symm

end Signed

section Unsigned

variable (l r : UInt64)

theorem toNat_count : (r &&& 63).toNat % 64 = ((r.toNat : Int) % 64).toNat := by
  have hmask : (r &&& 63).toNat = r.toNat % 64 := by
    simpa using Nat.and_two_pow_sub_one_eq_mod r.toNat 6
  omega

theorem toNat_shiftLeft :
    ((l <<< (r &&& 63)).toNat : Int) = l.toNat * Nat.pow 2 ((r.toNat : Int) % 64).toNat % UInt64.size := by
  rw [UInt64.toNat_shiftLeft, toNat_count, Nat.shiftLeft_eq, Int.natCast_emod, Int.natCast_mul]
  rfl

theorem toNat_shiftRight :
    ((l >>> (r &&& 63)).toNat : Int) = l.toNat / Nat.pow 2 ((r.toNat : Int) % 64).toNat := by
  rw [UInt64.toNat_shiftRight, toNat_count, Nat.shiftRight_eq_div_pow, Int.natCast_ediv]
  rfl

theorem toNat_sub : ((l - r).toNat : Int) = ((l.toNat : Int) - r.toNat) % UInt64.size := by
  have hr := r.toNat_lt
  rw [UInt64.toNat_sub]
  simp only [UInt64.size]
  omega

theorem toNat_eq_emod {w : UInt64} {n : Int} (h : (w.toNat : Int) = n) : (w.toNat : Int) = n % UInt64.size := by
  have hw := w.toNat_lt
  rw [← h]
  exact (Int.emod_eq_of_lt (Int.natCast_nonneg _) (Int.ofNat_lt.mpr hw)).symm

end Unsigned

def Value.number (v : Value) : Int :=
  match v.kind with
  | .i64 => v.int.toInt
  | .u64 | .usize => v.uint.toNat
  | .bool => v.bool.toInt
  | _ => 0

def Kind.isInteger : Kind → Bool
  | i64 | u64 | usize => true
  | _ => false

def Kind.reduce (k : Kind) (n : Int) : Int :=
  if k = .i64 then n.bmod UInt64.size else n % UInt64.size

theorem Kind.emod_reduce (k : Kind) (n : Int) : k.reduce n % UInt64.size = n % UInt64.size := by
  unfold reduce
  split
  · exact Int.bmod_emod
  · exact Int.emod_emod n _

theorem Value.reduce_number {v : Value} (h : v.kind.isInteger) : v.kind.reduce v.number = v.number := by
  unfold number
  cases hv : v.kind <;> rw [hv] at h <;> cases h
  case i64 => exact (toInt_eq_bmod rfl).symm
  case u64 | usize => exact (toNat_eq_emod rfl).symm

theorem Kind.reduce_tmod {k : Kind} {n : Int} (h : k.reduce n = n) (d : Int) :
    k.reduce (n.tmod d) = n.tmod d := by
  have hsize : 0 < UInt64.size := by decide
  have hle : (n.tmod d).natAbs ≤ n.natAbs := by
    rw [Int.natAbs_tmod]
    exact Nat.mod_le _ _
  have hnonneg : 0 ≤ n → 0 ≤ n.tmod d := Int.tmod_nonneg d
  -- the remainder of a negative number may not cross over to the positive side, which is one shorter
  have hnonpos : n ≤ 0 → n.tmod d ≤ 0 := by
    intro hn
    have hneg := Int.tmod_nonneg d (Int.neg_nonneg_of_nonpos hn)
    rw [Int.neg_tmod] at hneg
    omega
  unfold reduce at h ⊢
  split at h
  case isTrue hk =>
    have hlow := Int.le_bmod (x := n) hsize
    have hhigh := Int.bmod_lt (x := n) hsize
    rw [h] at hlow hhigh
    rw [if_pos hk]
    apply Int.bmod_eq_of_le <;> omega
  case isFalse hk =>
    have hlow := Int.emod_nonneg n (Int.natCast_ne_zero.mpr hsize.ne')
    have hhigh := Int.emod_lt_of_pos n (Int.natCast_pos.mpr hsize)
    rw [h] at hlow hhigh
    rw [if_neg hk]
    apply Int.emod_eq_of_lt <;> omega

namespace Operator

def divides : Operator → Bool
  | div | rem => true
  | _ => false

def isLogical : Operator → Bool
  | xor | and | or => true
  | _ => false

def arithmetic? : Operator → Option (Int → Int → Int)
  | add => some fun l r => l + r
  | sub => some fun l r => l - r
  | mul => some fun l r => l * r
  | div => some Int.tdiv
  | rem => some Int.tmod
  | xor => some Int.xor
  | and => some Int.land
  | or => some Int.lor
  | shl => some fun l r => l * Nat.pow 2 (r % 64).toNat
  | shr => some fun l r => l / Nat.pow 2 (r % 64).toNat
  | _ => none

def comparison? : Operator → Option (Int → Int → Bool)
  | eq => some fun l r => l = r
  | ne => some fun l r => l ≠ r
  | lt => some fun l r => l < r
  | le => some fun l r => l ≤ r
  | gt => some fun l r => r < l
  | ge => some fun l r => r ≤ l
  | _ => none

variable {o : Operator} {f : Int → Int → Int} {p : Int → Int → Bool}

theorem onSigned_arithmetic (l r : Int64) (hf : o.arithmetic? = some f) (hz : o.divides → r ≠ 0) :
    ∃ w : Int64, o.onSigned l r = .ok (.i64 w) ∧ w.toInt = (f l.toInt r.toInt).bmod UInt64.size := by
  cases o <;> cases hf
  case add => exact ⟨l + r, rfl, Int64.toInt_add l r⟩
  case sub => exact ⟨l - r, rfl, Int64.toInt_sub l r⟩
  case mul => exact ⟨l * r, rfl, Int64.toInt_mul l r⟩
  case div => exact ⟨l / r, if_neg (hz rfl), Int64.toInt_div l r⟩
  case rem => exact ⟨l % r, if_neg (hz rfl), toInt_eq_bmod (Int64.toInt_mod l r)⟩
  case xor => exact ⟨l ^^^ r, rfl, toInt_eq_bmod (toInt_xor l r)⟩
  case and => exact ⟨l &&& r, rfl, toInt_eq_bmod (toInt_and l r)⟩
  case or => exact ⟨l ||| r, rfl, toInt_eq_bmod (toInt_or l r)⟩
  case shl => exact ⟨l <<< (r &&& 63), rfl, toInt_shiftLeft l r⟩
  case shr => exact ⟨l >>> (r &&& 63), rfl, toInt_eq_bmod (toInt_shiftRight l r)⟩

theorem onUnsigned_arithmetic (wrap : UInt64 → Value) (l r : UInt64) (hf : o.arithmetic? = some f)
    (hz : o.divides → r ≠ 0) :
    ∃ w : UInt64, o.onUnsigned wrap l r = .ok (wrap w) ∧ (w.toNat : Int) = f l.toNat r.toNat % UInt64.size := by
  cases o <;> cases hf
  case add => exact ⟨l + r, rfl, by simp [UInt64.size]⟩
  case sub => exact ⟨l - r, rfl, toNat_sub l r⟩
  case mul => exact ⟨l * r, rfl, by simp [UInt64.size]⟩
  case div => exact ⟨l / r, if_neg (hz rfl), toNat_eq_emod (Int.ofNat_tdiv l.toNat r.toNat)⟩
  case rem => exact ⟨l % r, if_neg (hz rfl), toNat_eq_emod (Int.ofNat_tmod l.toNat r.toNat)⟩
  case xor => exact ⟨l ^^^ r, rfl, toNat_eq_emod rfl⟩
  case and => exact ⟨l &&& r, rfl, toNat_eq_emod rfl⟩
  case or => exact ⟨l ||| r, rfl, toNat_eq_emod rfl⟩
  case shl => exact ⟨l <<< (r &&& 63), rfl, toNat_shiftLeft l r⟩
  case shr => exact ⟨l >>> (r &&& 63), rfl, toNat_eq_emod (toNat_shiftRight l r)⟩

theorem onSigned_comparison (l r : Int64) (hp : o.comparison? = some p) :
    o.onSigned l r = .ok (.ofBool (p l.toInt r.toInt)) := by
  cases o <;> cases hp
  all_goals simp [onSigned, Int64.toInt_inj, Int64.lt_iff_toInt_lt, Int64.le_iff_toInt_le]

theorem onUnsigned_comparison (wrap : UInt64 → Value) (l r : UInt64) (hp : o.comparison? = some p) :
    o.onUnsigned wrap l r = .ok (.ofBool (p l.toNat r.toNat)) := by
  cases o <;> cases hp
  all_goals simp [onUnsigned, UInt64.toNat_inj, UInt64.lt_iff_toNat_lt, UInt64.le_iff_toNat_le]

theorem onBool_comparison (l r : Bool) (hp : o.comparison? = some p) :
    o.onBool l r = .ok (.ofBool (p l.toInt r.toInt)) := by
  cases o <;> cases hp
  all_goals cases l <;> cases r <;> rfl

theorem onBool_logical (l r : Bool) (ho : o.isLogical) (hf : o.arithmetic? = some f) :
    ∃ b : Bool, o.onBool l r = .ok (.ofBool b) ∧ b.toInt = f l.toInt r.toInt % UInt64.size := by
  cases o <;> cases ho
  all_goals cases hf
  case xor => exact ⟨l != r, rfl, by cases l <;> cases r <;> rfl⟩
  case and => exact ⟨l && r, rfl, by cases l <;> cases r <;> rfl⟩
  case or => exact ⟨l || r, rfl, by cases l <;> cases r <;> rfl⟩

theorem onBool_of_neither (l r : Bool) (hc : o.isComparison = false) (ho : o.isLogical = false) :
    o.onBool l r = .error (.mismatch (.operator o .bool)) := by
  cases o
  case xor | and | or => cases ho
  case eq | ne | lt | le | gt | ge => cases hc
  all_goals rfl

/-- What an operator gives on two operands of the integer kind `k` that stand for `l` and `r`. -/
structure Exact (o : Operator) (k : Kind) (l r : Int) (out : Except Cause Value) : Prop where
  compares : ∀ p, o.comparison? = some p → out = .ok (.ofBool (p l r))
  computes : ∀ f, o.arithmetic? = some f → (o.divides → r ≠ 0) →
    ∃ v, out = .ok v ∧ v.kind = k ∧ v.number = k.reduce (f l r)
  zero : o.divides → r = 0 → out = .error .divideByZero
  unknown : ∀ n, o = other n → out = .error (.unknownOperator o)

theorem exact_onSigned (o : Operator) (l r : Int64) : Exact o .i64 l.toInt r.toInt (o.onSigned l r) where
  compares p hp := onSigned_comparison l r hp
  computes f hf hz := by
    have hr : o.divides → r ≠ 0 := fun ho h0 => hz ho (congrArg Int64.toInt h0)
    obtain ⟨w, hw, hn⟩ := onSigned_arithmetic l r hf hr
    exact ⟨.i64 w, hw, rfl, hn⟩
  zero ho h0 := by
    have hr : r = 0 := Int64.toInt_inj.mp h0
    cases o <;> cases ho
    all_goals exact if_pos hr
  unknown n ho := by
    subst ho
    rfl

theorem exact_onUnsigned (o : Operator) {k : Kind} {wrap : UInt64 → Value} (hk : k ≠ .i64)
    (hwrap : ∀ w, (wrap w).kind = k ∧ (wrap w).number = w.toNat) (l r : UInt64) :
    Exact o k l.toNat r.toNat (o.onUnsigned wrap l r) where
  compares p hp := onUnsigned_comparison wrap l r hp
  computes f hf hz := by
    have hr : o.divides → r ≠ 0 := fun ho h0 => hz ho (congrArg (fun w : UInt64 => (w.toNat : Int)) h0)
    obtain ⟨w, hw, hn⟩ := onUnsigned_arithmetic wrap l r hf hr
    refine ⟨wrap w, hw, (hwrap w).1, ?_⟩
    rw [(hwrap w).2, hn, Kind.reduce, if_neg hk]
  zero ho h0 := by
    have hr : r = 0 := UInt64.toNat_inj.mp (Int.ofNat_inj.mp h0)
    cases o <;> cases ho
    all_goals exact if_pos hr
  unknown n ho := by
    subst ho
    rfl

variable {l r : Value}

theorem exact_apply (o : Operator) (hk : l.kind = r.kind) (hi : l.kind.isInteger) :
    Exact o l.kind l.number r.number (o.apply l r) := by
  cases hl : l.kind <;> rw [hl] at hk hi <;> cases hi
  all_goals simp only [Value.number, apply, hl, ← hk, if_true]
  case i64 => exact exact_onSigned o l.int r.int
  case u64 =>
    have hk : Kind.u64 ≠ .i64 := by decide
    exact exact_onUnsigned o hk (fun _ => ⟨rfl, rfl⟩) l.uint r.uint
  case usize =>
    have hk : Kind.usize ≠ .i64 := by decide
    exact exact_onUnsigned o hk (fun _ => ⟨rfl, rfl⟩) l.uint r.uint

theorem comparison_or_arithmetic_or_other (o : Operator) :
    (∃ p, o.comparison? = some p) ∨ (∃ f, o.arithmetic? = some f) ∨ ∃ n, o = other n := by
  cases o
  case other n => exact .inr (.inr ⟨n, rfl⟩)
  case eq | ne | lt | le | gt | ge => exact .inl ⟨_, rfl⟩
  all_goals exact .inr (.inl ⟨_, rfl⟩)

theorem apply_of_bool (o : Operator) (hl : l.kind = .bool) (hr : r.kind = .bool) :
    o.apply l r = o.onBool l.bool r.bool := by
  simp only [apply, hl, hr, if_true]

inductive Refuses (o : Operator) (l r : Value) : Cause → Prop
  | kinds (hk : l.kind ≠ r.kind) : Refuses o l r (.mismatch (.operands l.kind o r.kind))
  | kind (hk : l.kind = r.kind) (hi : ¬ l.kind.isInteger) (hb : l.kind ≠ .bool) :
    Refuses o l r (.mismatch (.operator o l.kind))
  | bool (hl : l.kind = .bool) (hr : r.kind = .bool) (hc : ¬ o.isComparison) (ho : ¬ o.isLogical) :
    Refuses o l r (.mismatch (.operator o .bool))
  | zero (hk : l.kind = r.kind) (hi : l.kind.isInteger) (ho : o.divides) (h0 : r.number = 0) :
    Refuses o l r .divideByZero
  | unknown (hk : l.kind = r.kind) (hi : l.kind.isInteger) (n : Fin 240) (ho : o = other n) :
    Refuses o l r (.unknownOperator o)

inductive Computes (o : Operator) (l r : Value) : Value → Prop
  | truth (hk : l.kind = r.kind) (hs : l.kind.isInteger ∨ l.kind = .bool) (p : Int → Int → Bool)
      (hp : o.comparison? = some p) :
    Computes o l r (.ofBool (p l.number r.number))
  | word (hk : l.kind = r.kind) (hs : l.kind.isInteger ∨ l.kind = .bool ∧ o.isLogical)
      (hz : o.divides → r.number ≠ 0) (f : Int → Int → Int) (hf : o.arithmetic? = some f) (v : Value)
      (hkind : v.kind = l.kind) (hnumber : v.number = l.kind.reduce (f l.number r.number)) :
    Computes o l r v

theorem apply_of_refuses {c : Cause} (h : o.Refuses l r c) : o.apply l r = .error c := by
  cases h with
  | kinds hk => exact if_neg hk
  | kind hk hi hb =>
    rw [apply, if_pos hk]
    revert hi hb
    cases l.kind <;> intro hi hb
    case i64 | u64 | usize => exact absurd rfl hi
    case bool => exact absurd rfl hb
    all_goals rfl
  | bool hl hr hc ho =>
    rw [apply_of_bool o hl hr]
    exact onBool_of_neither l.bool r.bool (Bool.eq_false_of_not_eq_true hc) (Bool.eq_false_of_not_eq_true ho)
  | zero hk hi ho h0 => exact (exact_apply o hk hi).zero ho h0
  | unknown hk hi n ho => exact (exact_apply o hk hi).unknown n ho

theorem refuses_or_computes_of_integer (o : Operator) (hk : l.kind = r.kind) (hi : l.kind.isInteger) :
    (∃ c, o.Refuses l r c) ∨ ∃ v, o.apply l r = .ok v ∧ o.Computes l r v := by
  have out := exact_apply o hk hi
  rcases comparison_or_arithmetic_or_other o with ⟨p, hp⟩ | ⟨f, hf⟩ | ⟨n, ho⟩
  · exact .inr ⟨_, out.compares p hp, .truth hk (.inl hi) p hp⟩
  · by_cases h0 : o.divides ∧ r.number = 0
    · exact .inl ⟨_, .zero hk hi h0.1 h0.2⟩
    · have hz : o.divides → r.number ≠ 0 := fun ho hr => h0 ⟨ho, hr⟩
      obtain ⟨v, hv, hkind, hnumber⟩ := out.computes f hf hz
      exact .inr ⟨v, hv, .word hk (.inl hi) hz f hf v hkind hnumber⟩
  · exact .inl ⟨_, .unknown hk hi n ho⟩

theorem refuses_or_computes_of_bool (o : Operator) (hl : l.kind = .bool) (hr : r.kind = .bool) :
    (∃ c, o.Refuses l r c) ∨ ∃ v, o.apply l r = .ok v ∧ o.Computes l r v := by
  have hk : l.kind = r.kind := hl.trans hr.symm
  have hln : l.number = l.bool.toInt := by simp only [Value.number, hl]
  have hrn : r.number = r.bool.toInt := by simp only [Value.number, hr]
  rw [apply_of_bool o hl hr]
  by_cases hc : o.isComparison
  · obtain ⟨p, hp⟩ : ∃ p, o.comparison? = some p := by
      cases o <;> cases hc
      all_goals exact ⟨_, rfl⟩
    refine .inr ⟨.ofBool (p l.number r.number), ?_, .truth hk (.inr hl) p hp⟩
    rw [hln, hrn]
    exact onBool_comparison l.bool r.bool hp
  · by_cases ho : o.isLogical
    · obtain ⟨f, hf, hd⟩ : ∃ f, o.arithmetic? = some f ∧ o.divides = false := by
        cases o <;> cases ho
        all_goals exact ⟨_, rfl, rfl⟩
      obtain ⟨b, hb, hnumber⟩ := onBool_logical l.bool r.bool ho hf
      refine .inr ⟨.ofBool b, hb, .word hk (.inr ⟨hl, ho⟩) (by simp [hd]) f hf _ hl.symm ?_⟩
      rw [hl, hln, hrn]
      exact hnumber
    · exact .inl ⟨_, .bool hl hr hc ho⟩

theorem refuses_or_computes (o : Operator) (l r : Value) :
    (∃ c, o.Refuses l r c) ∨ ∃ v, o.apply l r = .ok v ∧ o.Computes l r v := by
  by_cases hk : l.kind = r.kind
  · by_cases hi : l.kind.isInteger
    · exact refuses_or_computes_of_integer o hk hi
    · by_cases hb : l.kind = .bool
      · exact refuses_or_computes_of_bool o hb (hk ▸ hb)
      · exact .inl ⟨_, .kind hk hi hb⟩
  · exact .inl ⟨_, .kinds hk⟩

theorem apply_eq_error_iff {c : Cause} : o.apply l r = .error c ↔ o.Refuses l r c := by
  refine ⟨fun h => ?_, apply_of_refuses⟩
  rcases refuses_or_computes o l r with ⟨d, hd⟩ | ⟨v, hv, -⟩
  · cases h.symm.trans (apply_of_refuses hd)
    exact hd
  · cases h.symm.trans hv

theorem computes_of_apply {v : Value} (h : o.apply l r = .ok v) : o.Computes l r v := by
  rcases refuses_or_computes o l r with ⟨c, hc⟩ | ⟨w, hw, hcomputes⟩
  · cases h.symm.trans (apply_of_refuses hc)
  · cases h.symm.trans hw
    exact hcomputes

structure Divided (l r quotient remainder : Int) : Prop where
  identity : (quotient * r + remainder) % UInt64.size = l % UInt64.size
  small : remainder.natAbs < r.natAbs
  sign : remainder = 0 ∨ remainder.sign = l.sign

theorem divided_of_exact {l r q m : Int} (hr : r ≠ 0) (hq : q % UInt64.size = l.tdiv r % UInt64.size)
    (hm : m = l.tmod r) : Divided l r q m where
  identity := by
    rw [Int.add_emod, Int.mul_emod, hq, ← Int.mul_emod, ← Int.add_emod, hm, Int.tdiv_mul_add_tmod]
  small := by
    rw [hm, Int.natAbs_tmod]
    exact Nat.mod_lt _ (Int.natAbs_pos.mpr hr)
  sign := by
    rw [hm, Int.sign_tmod]
    by_cases hd : r ∣ l
    · exact .inl (Int.tmod_eq_zero_of_dvd hd)
    · exact .inr (if_neg hd)

theorem apply_exact (o : Operator) (l r : Value) :
    (∀ c, o.apply l r = .error c ↔ o.Refuses l r c) ∧
      (∀ v, o.apply l r = .ok v → o.Computes l r v) ∧
      (l.kind = r.kind → l.kind.isInteger → r.number ≠ 0 →
        ∃ q m, div.apply l r = .ok q ∧ rem.apply l r = .ok m ∧ q.kind = l.kind ∧ m.kind = l.kind ∧
          Divided l.number r.number q.number m.number) := by
  refine ⟨fun c => apply_eq_error_iff, fun v => computes_of_apply, fun hk hi h0 => ?_⟩
  obtain ⟨q, hq, hqk, hqn⟩ := (exact_apply div hk hi).computes Int.tdiv rfl (fun _ => h0)
  obtain ⟨m, hm, hmk, hmn⟩ := (exact_apply rem hk hi).computes Int.tmod rfl (fun _ => h0)
  refine ⟨q, m, hq, hm, hqk, hmk, divided_of_exact h0 ?_ ?_⟩
  · rw [hqn, Kind.emod_reduce]
  · rw [hmn, Kind.reduce_tmod (Value.reduce_number hi)]

theorem apply_exact_least :
    div.apply (.i64 Int64.minValue) (.i64 (-1)) = .ok (.i64 Int64.minValue) ∧
      rem.apply (.i64 Int64.minValue) (.i64 (-1)) = .ok (.i64 0) ∧
      Divided (Value.i64 Int64.minValue).number (Value.i64 (-1)).number (Value.i64 Int64.minValue).number
        (Value.i64 0).number := by
  have hne : (Value.i64 (-1)).number ≠ 0 := by decide
  have hdiv : div.apply (.i64 Int64.minValue) (.i64 (-1)) = .ok (.i64 Int64.minValue) := by decide
  have hrem : rem.apply (.i64 Int64.minValue) (.i64 (-1)) = .ok (.i64 0) := by decide
  obtain ⟨q, m, hq, hm, -, -, hdivided⟩ := (apply_exact div (.i64 Int64.minValue) (.i64 (-1))).2.2 rfl rfl hne
  cases hdiv.symm.trans hq
  cases hrem.symm.trans hm
  exact ⟨hdiv, hrem, hdivided⟩

end Operator

end HotLoop
