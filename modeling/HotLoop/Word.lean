namespace HotLoop

abbrev Bytes := List UInt8

def word? (n : Nat) : Option UInt64 :=
  if n < UInt64.size then some (UInt64.ofNat n) else none

def signedWord? (n : Int) : Option Int64 :=
  if Int64.minValue.toInt ≤ n ∧ n ≤ Int64.maxValue.toInt then some (Int64.ofInt n) else none

variable {α : Type}

def nth? (xs : List α) (i : Int64) : Option α :=
  if i < 0 then none else xs[i.toNatClampNeg]?

def wordLength (xs : List α) : Int64 :=
  Int64.ofNat xs.length

end HotLoop
