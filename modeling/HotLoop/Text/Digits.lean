import HotLoop.Word

namespace HotLoop.Text

def zeros (n : Nat) : String := String.ofList (List.replicate n '0')

def padZeros (width : Nat) (s : String) : String := zeros (width - s.length) ++ s

def hex (width n : Nat) : String := padZeros width (String.ofList (Nat.toDigits 16 n))

def upperHex (width n : Nat) : String := (hex width n).toUpper

def hexWord (n : UInt64) : String := hex 16 n.toNat

def paddedInt (width : Nat) (n : Int) : String :=
  if n < 0 then "-" ++ padZeros (width - 1) (toString n.natAbs) else padZeros width (toString n.natAbs)

def decimal (n : Int64) : String := toString n.toInt

def bytes (s : String) : Bytes := s.toUTF8.data.toList

def ofBytes? (b : Bytes) : Option String := String.fromUTF8? (ByteArray.mk b.toArray)

def unhex? : List Char → Option Bytes
  | [] => some []
  | a :: b :: rest => do
    let x ← digit? a
    let y ← digit? b
    let bytes ← unhex? rest
    return UInt8.ofNat (x * 16 + y) :: bytes
  | _ => none
where
  digit? (c : Char) : Option Nat :=
    if '0' ≤ c ∧ c ≤ '9' then some (c.toNat - 48)
    else if 'a' ≤ c ∧ c ≤ 'f' then some (c.toNat - 87)
    else if 'A' ≤ c ∧ c ≤ 'F' then some (c.toNat - 55)
    else none

def hexBytes (bytes : Bytes) : String :=
  String.join (bytes.map fun b => hex 2 b.toNat)

end HotLoop.Text
