namespace HotLoop

inductive Location
  | file (path : String)
  | transient
deriving DecidableEq, Repr, Inhabited

namespace Location

def transientName : String := ":memory:"

def ofPath (path : String) : Location :=
  if path = "" ∨ path = transientName then .transient else .file path

/-- The part of a text in front of a question mark. One that stands at the very front counts as a character. -/
def withoutParameters : List Char → List Char
  | '?' :: rest => '?' :: rest
  | s => s.takeWhile (· ≠ '?')

def hexDigit? (b : UInt8) : Option UInt8 :=
  if 48 ≤ b ∧ b ≤ 57 then some (b - 48)
  else if 97 ≤ b ∧ b ≤ 102 then some (b - 87)
  else if 65 ≤ b ∧ b ≤ 70 then some (b - 55)
  else none

def unescapeBytes : List UInt8 → List UInt8
  | [] => []
  | 37 :: a :: b :: rest =>
    match hexDigit? a, hexDigit? b with
    | some x, some y => if x = 0 ∧ y = 0 then [] else (x * 16 + y) :: unescapeBytes rest
    | _, _ => 37 :: unescapeBytes (a :: b :: rest)
  | b :: rest => b :: unescapeBytes rest

def unescape? (s : List Char) : Option String :=
  String.fromUTF8? (ByteArray.mk (unescapeBytes (String.ofList s).toUTF8.toList).toArray)

def dropAuthority? : List Char → Option (List Char)
  | '/' :: '/' :: rest =>
    let authority := String.ofList (rest.takeWhile (· ≠ '/'))
    if authority = "" ∨ authority = "localhost" then some (rest.dropWhile (· ≠ '/')) else none
  | s => some s

def asksTransient (parameters : List Char) : Bool :=
  let modes := ((String.ofList parameters).splitOn "&").filter fun p => p.startsWith "mode="
  modes.getLast? = some "mode=memory"

def ofUri? (s : List Char) : Option Location := do
  let s := (← dropAuthority? s).takeWhile (· ≠ '#')
  let path ← unescape? (s.takeWhile (· ≠ '?'))
  return if asksTransient ((s.dropWhile (· ≠ '?')).drop 1) then .transient else ofPath path

def parse? (s : String) : Option Location :=
  match s.toList with
  | 'f' :: 'i' :: 'l' :: 'e' :: ':' :: rest => ofUri? rest
  | s => some (ofPath (String.ofList (withoutParameters s)))

end Location

end HotLoop
