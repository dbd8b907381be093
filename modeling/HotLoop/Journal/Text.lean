import HotLoop.Journal.Basic

namespace HotLoop

def Row.line (r : Row) : String :=
  String.intercalate " "
    [Text.hexWord r.key.toUInt64, Text.decimal r.start.func, Text.decimal r.start.pc, toString r.recorded,
      Text.hexBytes r.code, Text.hexBytes r.session.toUTF8.toList]

def Row.ofLine? (s : String) : Option Row :=
  match s.splitOn " " with
  | [key, func, pc, recorded, code, session] => do
    let key ← Text.unhex? key.toList
    let session ← Text.unhex? session.toList
    return {
      session := ← String.fromUTF8? (ByteArray.mk session.toArray)
      key := (UInt64.ofNat (key.foldl (fun n b => n * 256 + b.toNat) 0)).toInt64
      start := ⟨Int64.ofInt (← func.toInt?), Int64.ofInt (← pc.toInt?)⟩
      code := ← Text.unhex? code.toList
      recorded := ← recorded.toInt? }
  | _ => none

namespace Journal

def text (j : Journal) : String := String.join (j.map fun r => r.line ++ "\n")

def ofText? (s : String) : Option Journal :=
  ((s.splitOn "\n").filter (· ≠ "")).mapM Row.ofLine?

def nextTime (j : Journal) : Int := (j.map Row.recorded).foldl max 0 + 1

end Journal

end HotLoop
