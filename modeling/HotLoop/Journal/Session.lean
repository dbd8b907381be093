import HotLoop.Text.Quoted

namespace HotLoop

structure Session where
  id : BitVec 128
deriving DecidableEq, Repr, Inhabited

inductive SessionError
  | length (n : Nat)
  | format
  | scheme (front : List UInt8)
deriving DecidableEq, Repr

def SessionError.message : SessionError → String
  | length n => "invalid UUID length: " ++ toString n
  | format => "invalid UUID format"
  | scheme front => "invalid urn prefix: " ++ Text.quoteBytes front

namespace Session

def text (s : Session) : String :=
  let digits := (Text.hex 32 s.id.toNat).toList
  let group (offset n : Nat) : String := String.ofList ((digits.drop offset).take n)
  String.intercalate "-" [group 0 8, group 8 4, group 12 4, group 16 4, group 20 12]

def ofRandom (n : Nat) : Session :=
  let n := BitVec.ofNat 128 n
  let version : BitVec 128 := 0xf <<< 76
  let variant : BitVec 128 := 3 <<< 62
  ⟨(n &&& ~~~(version ||| variant)) ||| (4 <<< 76) ||| (2 <<< 62)⟩

def lower (b : UInt8) : UInt8 := if 65 ≤ b ∧ b ≤ 90 then b + 32 else b

def ofDigits (digits : List UInt8) : Except SessionError Session :=
  match Text.unhex? (digits.map fun b => Char.ofNat b.toNat) with
  | some bytes => .ok ⟨BitVec.ofNat 128 (bytes.foldl (fun n b => n * 256 + b.toNat) 0)⟩
  | none => .error .format

def ofGroups (bytes : List UInt8) : Except SessionError Session :=
  let group (offset n : Nat) : List UInt8 := (bytes.drop offset).take n
  if [8, 13, 18, 23].all fun i => bytes[i]? = some 45 then
    ofDigits (group 0 8 ++ group 9 4 ++ group 14 4 ++ group 19 4 ++ group 24 12)
  else .error .format

/-- Reads a session: the digits in groups, which may stand in braces or after `urn:uuid:`, or the digits alone. -/
def parse (s : String) : Except SessionError Session :=
  let bytes := s.toUTF8.toList
  match bytes.length with
  | 36 => ofGroups bytes
  | 45 =>
    if (bytes.take 9).map lower = "urn:uuid:".toUTF8.toList then ofGroups (bytes.drop 9)
    else .error (.scheme (bytes.take 9))
  | 38 => ofGroups (bytes.drop 1)
  | 32 => ofDigits bytes
  | n => .error (.length n)

end Session

end HotLoop
