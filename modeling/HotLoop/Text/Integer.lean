import HotLoop.Word

namespace HotLoop.Text

inductive IntegerError
  | malformed
  | outOfRange
deriving DecidableEq, Repr

def IntegerError.message : IntegerError → String
  | malformed => "parse error"
  | outOfRange => "value out of range"

def splitBase : List Char → Nat × Bool × List Char
  | '0' :: mark :: c :: rest =>
    let lower := mark.toLower
    if lower = 'x' then (16, true, c :: rest)
    else if lower = 'o' then (8, true, c :: rest)
    else if lower = 'b' then (2, true, c :: rest)
    else (8, false, '0' :: mark :: c :: rest)
  | '0' :: rest => (8, false, '0' :: rest)
  | s => (10, false, s)

def digitValue? (c : Char) : Option Nat :=
  if '0' ≤ c ∧ c ≤ '9' then some (c.toNat - 48)
  else if 'a' ≤ c ∧ c ≤ 'z' then some (c.toNat - 87)
  else if 'A' ≤ c ∧ c ≤ 'Z' then some (c.toNat - 55)
  else none

def readDigits (base : Nat) (afterDigit : Bool) (n : Nat) : List Char → Option Nat
  | [] => if afterDigit then some n else none
  | c :: rest =>
    if c = '_' then if afterDigit then readDigits base false n rest else none
    else do
      let d ← digitValue? c
      if d < base then readDigits base true (n * base + d) rest else none

def natural? (s : List Char) : Option Nat :=
  let (base, marked, digits) := splitBase s
  readDigits base marked 0 digits

def integer? : List Char → Option Int
  | '-' :: s => (natural? s).map fun n => -(n : Int)
  | '+' :: s => (natural? s).map Int.ofNat
  | s => (natural? s).map Int.ofNat

def readWord (s : String) : Except IntegerError UInt64 :=
  match natural? s.toList with
  | none => .error .malformed
  | some n => (word? n).elim (.error .outOfRange) .ok

def readInt (s : String) : Except IntegerError Int64 :=
  match integer? s.toList with
  | none => .error .malformed
  | some n => (signedWord? n).elim (.error .outOfRange) .ok

end HotLoop.Text
