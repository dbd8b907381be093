import HotLoop.Text.Digits
import HotLoop.Text.Printable

namespace HotLoop.Text

def escapeChar (c : Char) : String :=
  let n := c.toNat
  if n = 0x22 then "\\\""
  else if n = 0x5c then "\\\\"
  else if isPrintable c then String.singleton c
  else if n = 7 then "\\a"
  else if n = 8 then "\\b"
  else if n = 9 then "\\t"
  else if n = 10 then "\\n"
  else if n = 11 then "\\v"
  else if n = 12 then "\\f"
  else if n = 13 then "\\r"
  else if n < 0x20 ∨ n = 0x7f then "\\x" ++ hex 2 n
  else if n < 0x10000 then "\\u" ++ hex 4 n
  else "\\U" ++ hex 8 n

def quote (s : String) : String := "\"" ++ String.join (s.toList.map escapeChar) ++ "\""

def frontChar? (bytes : List UInt8) : Option (Char × Nat) :=
  [1, 2, 3, 4].findSome? fun k =>
    match (String.fromUTF8? (ByteArray.mk (bytes.take k).toArray)).map String.toList with
    | some [c] => some (c, k)
    | _ => none

def escapeBytes (bytes : List UInt8) : String :=
  match bytes with
  | [] => ""
  | b :: rest =>
    match frontChar? (b :: rest) with
    | some (c, k) => escapeChar c ++ escapeBytes (rest.drop (k - 1))
    | none => "\\x" ++ hex 2 b.toNat ++ escapeBytes rest
termination_by bytes.length
decreasing_by all_goals grind

def quoteBytes (bytes : List UInt8) : String := "\"" ++ escapeBytes bytes ++ "\""

end HotLoop.Text
