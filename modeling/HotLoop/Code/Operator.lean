namespace HotLoop

inductive Operator
  | add
  | sub
  | mul
  | div
  | rem
  | xor
  | and
  | or
  | shl
  | shr
  | eq
  | ne
  | lt
  | le
  | gt
  | ge
  | other (n : Fin 240)
deriving DecidableEq, Repr, Inhabited

namespace Operator

def toByte : Operator → UInt8
  | add => 0
  | sub => 1
  | mul => 2
  | div => 3
  | rem => 4
  | xor => 5
  | and => 6
  | or => 7
  | shl => 8
  | shr => 9
  | eq => 10
  | ne => 11
  | lt => 12
  | le => 13
  | gt => 14
  | ge => 15
  | other n => UInt8.ofNat (n.val + 16)

def ofByte (b : UInt8) : Operator :=
  if h : 16 ≤ b.toNat then
    other ⟨b.toNat - 16, by have := b.toNat_lt; omega⟩
  else
    match b.toNat with
    | 0 => add
    | 1 => sub
    | 2 => mul
    | 3 => div
    | 4 => rem
    | 5 => xor
    | 6 => and
    | 7 => or
    | 8 => shl
    | 9 => shr
    | 10 => eq
    | 11 => ne
    | 12 => lt
    | 13 => le
    | 14 => gt
    | _ => ge

def name : Operator → String
  | add => "add"
  | sub => "sub"
  | mul => "mul"
  | div => "div"
  | rem => "rem"
  | xor => "xor"
  | and => "and"
  | or => "or"
  | shl => "shl"
  | shr => "shr"
  | eq => "eq"
  | ne => "ne"
  | lt => "lt"
  | le => "le"
  | gt => "gt"
  | ge => "ge"
  | other n => "BinOp(" ++ toString (n.val + 16) ++ ")"

def isComparison : Operator → Bool
  | eq | ne | lt | le | gt | ge => true
  | _ => false

end Operator

end HotLoop
