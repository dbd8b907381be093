import HotLoop.Wire.Item
import HotLoop.Word

/-!
Reading typed fields out of items. Null and undefined stand for the zero of every type. Records are maps with
small integer keys; a text key that spells the number serves as well, unknown keys are passed over, and of
two entries for one key the first counts.
-/

namespace HotLoop.Wire

namespace Item

def isNull : Item → Bool
  | simple n => n = 22 || n = 23
  | _ => false

def tagAdmits (n : UInt64) (content : Item) : Bool :=
  if n = 0 then
    match content with
    | text _ => true
    | _ => false
  else if n = 1 then
    match content with
    | uint _ | nint _ | float _ _ => true
    | _ => false
  else if n = 2 ∨ n = 3 then
    match content with
    | bytes _ => true
    | _ => false
  else true

def ofBignum? (n : UInt64) (chunks : List Bytes) : Option Item :=
  (word? (ofBigEndian chunks.flatten)).map fun m => if n = 2 then uint m else nint m

def payload? : Item → Option Item
  | tag n content =>
    if tagAdmits n content then
      match content with
      | bytes chunks => if n = 2 ∨ n = 3 then ofBignum? n chunks else some (bytes chunks)
      | content => payload? content
    else none
  | i => some i

def integer? (i : Item) : Option Int := do
  match ← i.payload? with
  | uint n => some n.toNat
  | nint n => some (-1 - n.toNat)
  | simple n => if n = 22 ∨ n = 23 then some 0 else if n = 20 ∨ n = 21 then none else some n.toNat
  | _ => none

def signed? (i : Item) : Option Int64 := do
  signedWord? (← i.integer?)

def unsigned? (bits : Nat) (i : Item) : Option Nat := do
  let n ← i.integer?
  if 0 ≤ n ∧ n < Nat.pow 2 bits then some n.toNat else none

def bool? (i : Item) : Option Bool := do
  match ← i.payload? with
  | simple n => if n = 21 then some true else if n = 20 ∨ n = 22 ∨ n = 23 then some false else none
  | _ => none

def isText (bytes : Bytes) : Bool := (ByteArray.mk bytes.toArray).validateUTF8

def string? (i : Item) : Option Bytes := do
  match ← i.payload? with
  | text chunks => if chunks.all isText then some chunks.flatten else none
  | simple n => if n = 22 ∨ n = 23 then some [] else none
  | _ => none

def list? {α : Type} (element : Item → Option α) (i : Item) : Option (Option (List α)) := do
  match ← i.payload? with
  | array items => (items.mapM element).map some
  | simple n => if n = 22 ∨ n = 23 then some none else none
  | _ => none

def keyAdmissible : Item → Bool
  | uint _ => true
  | nint n => n.toNat < Nat.pow 2 63
  | text chunks => chunks.all isText
  | _ => false

def keysAdmissible : List Item → Bool
  | key :: _ :: rest => keyAdmissible key && keysAdmissible rest
  | _ => true

def isKey (n : Nat) : Item → Bool
  | uint m => m.toNat = n
  | text chunks => chunks.flatten = (toString n).toUTF8.toList
  | _ => false

def entry? (n : Nat) : List Item → Option Item
  | key :: value :: rest => if isKey n key then some value else entry? n rest
  | _ => none

def entries? (i : Item) : Option (List Item) := do
  match ← i.payload? with
  | map items => if keysAdmissible items then some items else none
  | simple n => if n = 22 ∨ n = 23 then some [] else none
  | _ => none

def field? {α : Type} (zero : α) (value : Item → Option α) (n : Nat) (entries : List Item) : Option α :=
  match entry? n entries with
  | none => some zero
  | some i => value i

def nullable? {α : Type} (value : Item → Option α) (i : Item) : Option (Option α) :=
  if i.isNull then some none else (value i).map some

def ofInt64 (n : Int64) : Item :=
  if n < 0 then nint (~~~n.toUInt64) else uint n.toUInt64

def ofBool (b : Bool) : Item := simple (if b then 21 else 20)

def ofString (s : Bytes) : Item := text [s]

def null : Item := simple 22

def ofList? {α : Type} (element : α → Item) : Option (List α) → Item
  | none => null
  | some xs => array (xs.map element)

def record (entries : List (Nat × Option Item)) : Item :=
  map (entries.flatMap fun
    | (n, some value) => [uint (UInt64.ofNat n), value]
    | (_, none) => [])

end Item

end HotLoop.Wire
