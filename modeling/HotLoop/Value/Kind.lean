namespace HotLoop

inductive Kind
  | unit
  | i64
  | u64
  | usize
  | bool
  | func
  | record
  | pointer
  | static
  | other (n : Fin 247)
deriving DecidableEq, Repr, Inhabited

namespace Kind

def toByte : Kind → UInt8
  | unit => 0
  | i64 => 1
  | u64 => 2
  | usize => 3
  | bool => 4
  | func => 5
  | record => 6
  | pointer => 7
  | static => 8
  | other n => UInt8.ofNat (n.val + 9)

def ofByte (b : UInt8) : Kind :=
  if h : 9 ≤ b.toNat then
    other ⟨b.toNat - 9, by have := b.toNat_lt; omega⟩
  else
    match b.toNat with
    | 0 => unit
    | 1 => i64
    | 2 => u64
    | 3 => usize
    | 4 => bool
    | 5 => func
    | 6 => record
    | 7 => pointer
    | _ => static

def name : Kind → String
  | unit => "unit"
  | i64 => "i64"
  | u64 => "u64"
  | usize => "usize"
  | bool => "bool"
  | func => "func"
  | record => "struct"
  | pointer => "ptr"
  | static => "static"
  | other n => "Kind(" ++ toString (n.val + 9) ++ ")"

end Kind

end HotLoop
