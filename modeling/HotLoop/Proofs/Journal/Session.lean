import HotLoop.Journal.Session

namespace HotLoop

namespace Text

def digitValue (c : Char) : Nat := if c ≤ '9' then c.toNat - 48 else c.toNat - 87

def digitsValue (cs : List Char) : Nat := cs.foldl (fun n c => n * 16 + digitValue c) 0

theorem digitValue_digitChar {d : Nat} (h : d < 16) : digitValue d.digitChar = d := by
  decide +revert

theorem digitsValue_concat (cs : List Char) (c : Char) :
    digitsValue (cs ++ [c]) = digitsValue cs * 16 + digitValue c := by
  simp only [digitsValue, List.foldl_append, List.foldl_cons, List.foldl_nil]

theorem digitsValue_toDigits (n : Nat) : digitsValue (Nat.toDigits 16 n) = n := by
  induction n using Nat.strongRecOn with
  | ind n ih =>
    by_cases h : n < 16
    · rw [Nat.toDigits_of_lt_base h]
      simp [digitsValue, digitValue_digitChar h]
    · rw [Nat.toDigits_of_base_le (by decide) (Nat.le_of_not_lt h), digitsValue_concat, ih (n / 16) (by omega),
        digitValue_digitChar (Nat.mod_lt n (by decide))]
      omega

theorem toList_hex (width n : Nat) : (hex width n).toList =
    List.replicate (width - (Nat.toDigits 16 n).length) '0' ++ Nat.toDigits 16 n := by
  simp [hex, padZeros, zeros]

theorem digitsValue_zeros_append (k : Nat) (cs : List Char) :
    digitsValue (List.replicate k '0' ++ cs) = digitsValue cs := by
  induction k with
  | zero => rfl
  | succ k ih => exact ih

theorem digitsValue_hex (width n : Nat) : digitsValue (hex width n).toList = n := by
  rw [toList_hex, digitsValue_zeros_append, digitsValue_toDigits]

theorem length_hex {width n : Nat} (hwidth : 0 < width) (h : n < Nat.pow 16 width) :
    (hex width n).toList.length = width := by
  have hlength : (Nat.toDigits 16 n).length ≤ width := (Nat.length_toDigits_le_iff (by decide) hwidth).mpr h
  rw [toList_hex, List.length_append, List.length_replicate]
  omega

end Text

namespace Session

def digits (s : Session) : List Char := (Text.hex 32 s.id.toNat).toList

theorem length_digits (s : Session) : s.digits.length = 32 := Text.length_hex (by decide) s.id.isLt

def group (s : Session) (offset n : Nat) : List Char := (s.digits.drop offset).take n

theorem length_group (s : Session) {offset n : Nat} (h : offset + n ≤ 32) : (s.group offset n).length = n := by
  rw [group, List.length_take, List.length_drop, length_digits]
  omega

theorem toList_text (s : Session) : s.text.toList =
    s.group 0 8 ++ '-' :: (s.group 8 4 ++ '-' :: (s.group 12 4 ++ '-' :: (s.group 16 4 ++ '-' :: s.group 20 12))) := by
  simp [text, group, digits]

theorem digits_eq_groups (s : Session) :
    s.digits = s.group 0 8 ++ (s.group 8 4 ++ (s.group 12 4 ++ (s.group 16 4 ++ s.group 20 12))) := by
  have hsplit : ∀ offset n, s.digits.drop offset = s.group offset n ++ s.digits.drop (offset + n) := by
    intro offset n
    rw [group, ← List.drop_drop, List.take_append_drop]
  have hlast : s.digits.drop 32 = [] := List.drop_of_length_le (Nat.le_of_eq (length_digits s))
  calc s.digits
    _ = s.digits.drop 0 := rfl
    _ = _ := by rw [hsplit 0 8, hsplit 8 4, hsplit 12 4, hsplit 16 4, hsplit 20 12, hlast, List.append_nil]

theorem group_inj {s s' : Session} {offset n : Nat} {c : Char} {xs ys : List Char} (hn : offset + n ≤ 32)
    (h : s.group offset n ++ c :: xs = s'.group offset n ++ c :: ys) :
    s.group offset n = s'.group offset n ∧ xs = ys := by
  obtain ⟨hgroup, hrest⟩ := List.append_inj h ((s.length_group hn).trans (s'.length_group hn).symm)
  exact ⟨hgroup, (List.cons.inj hrest).2⟩

theorem text_inj {s s' : Session} (h : s.text = s'.text) : s = s' := by
  have htext := congrArg String.toList h
  rw [toList_text, toList_text] at htext
  obtain ⟨h₁, htext⟩ := group_inj (by decide) htext
  obtain ⟨h₂, htext⟩ := group_inj (by decide) htext
  obtain ⟨h₃, htext⟩ := group_inj (by decide) htext
  obtain ⟨h₄, h₅⟩ := group_inj (by decide) htext
  have hdigits : s.digits = s'.digits := by
    rw [digits_eq_groups, digits_eq_groups, h₁, h₂, h₃, h₄, h₅]
  have hvalue : s.id.toNat = s'.id.toNat := by
    calc s.id.toNat
      _ = Text.digitsValue s.digits := (Text.digitsValue_hex 32 _).symm
      _ = Text.digitsValue s'.digits := by rw [hdigits]
      _ = s'.id.toNat := Text.digitsValue_hex 32 _
  cases s
  cases s'
  exact congrArg Session.mk (BitVec.eq_of_toNat_eq hvalue)

end Session

end HotLoop
