import HotLoop.Toml.Value
import HotLoop.Word

namespace HotLoop.Toml

def digitOf (c : Char) : Nat :=
  if isDigit c then c.toNat - 48
  else if 'a' ≤ c then c.toNat - 87
  else c.toNat - 55

def ofDigits (base : Nat) (digits : List Char) : Nat := digits.foldl (fun n c => n * base + digitOf c) 0

def underscoresAdmissible (afterDigit : Bool) : List Char → Bool
  | [] => afterDigit
  | c :: rest => (c ≠ '_' || afterDigit) && underscoresAdmissible (isHexDigit c) rest

def hasLeadingZero : List Char → Bool
  | '0' :: c :: _ => c ≠ 'b' && c ≠ 'o' && c ≠ 'x'
  | '+' :: '0' :: _ :: _ => true
  | '-' :: '0' :: _ :: _ => true
  | _ => false

def dropUnderscores (s : List Char) : List Char := s.filter fun c => c ≠ '_'

def magnitude : List Char → Nat
  | '0' :: 'x' :: digits => ofDigits 16 digits
  | '0' :: 'o' :: digits => ofDigits 8 digits
  | '0' :: 'b' :: digits => ofDigits 2 digits
  | digits => ofDigits 10 digits

def signed : List Char → Int
  | '+' :: digits => magnitude digits
  | '-' :: digits => -(magnitude digits : Int)
  | digits => magnitude digits

def integer? (s : List Char) : Option Value :=
  if underscoresAdmissible false s ∧ !hasLeadingZero s then
    (signedWord? (signed (dropUnderscores s))).map .integer
  else none

def pieces (isSeparator : Char → Bool) (current : List Char) : List Char → List (List Char)
  | [] => if current.isEmpty then [] else [current.reverse]
  | c :: rest =>
    if isSeparator c then
      if current.isEmpty then pieces isSeparator [] rest else current.reverse :: pieces isSeparator [] rest
    else pieces isSeparator (c :: current) rest

def pointsAdmissible (afterPoint : Bool) : List Char → Bool
  | [] => !afterPoint
  | c :: rest => (!afterPoint || isDigit c) && pointsAdmissible (c = '.') rest

def dropSign : List Char → List Char
  | '+' :: rest => rest
  | '-' :: rest => rest
  | s => s

def decimal? (s : List Char) : Option (List Char × Int) :=
  let s := dropSign s
  let whole := s.takeWhile isDigit
  let s := s.dropWhile isDigit
  let (fraction, s) :=
    match s with
    | '.' :: rest => (rest.takeWhile isDigit, rest.dropWhile isDigit)
    | s => ([], s)
  let digits := whole ++ fraction
  if digits.isEmpty then none
  else
    let exponent? : Option Int :=
      match s with
      | [] => some 0
      | c :: rest =>
        if (c = 'e' ∨ c = 'E') ∧ (dropSign rest).all isDigit ∧ !(dropSign rest).isEmpty then
          some (signed rest)
        else none
    exponent?.map fun e => (digits, e - fraction.length)

def floatLimit : Nat := Nat.pow 2 1024 - Nat.pow 2 970

def inRange (digits : List Char) (power : Int) : Bool :=
  let m := ofDigits 10 digits
  let count := (digits.dropWhile fun c => c = '0').length
  if m = 0 then true
  else if 400 < count + power then false
  else if count + power < -400 then true
  else if 0 ≤ power then m * Nat.pow 10 power.toNat < floatLimit
  else m < floatLimit * Nat.pow 10 (-power).toNat

def isSpecialFloat (s : List Char) : Bool :=
  dropSign s = ['i', 'n', 'f'] || dropSign s = ['n', 'a', 'n']

def float? (s : List Char) : Option Value :=
  if isSpecialFloat s then some (.float (String.ofList s))
  else
    let parts := pieces (fun c => c = '.' || c = 'e' || c = 'E') [] s
    if parts.all (underscoresAdmissible false) ∧ !hasLeadingZero (parts.headD []) ∧
        pointsAdmissible false s then
      match decimal? (dropUnderscores s) with
      | some (digits, power) => if inRange digits power then some (.float (String.ofList s)) else none
      | none => none
    else none

def isLeap (year : Nat) : Bool := year % 4 = 0 && (year % 100 ≠ 0 || year % 400 = 0)

def daysIn (year month : Nat) : Nat :=
  if month = 2 then if isLeap year then 29 else 28
  else if month = 4 ∨ month = 6 ∨ month = 9 ∨ month = 11 then 30
  else 31

def digits? (n : Nat) (s : List Char) : Option (Nat × List Char) :=
  let front := s.take n
  if front.length = n ∧ front.all isDigit then some (ofDigits 10 front, s.drop n) else none

def char? (c : Char) : List Char → Option (List Char)
  | d :: rest => if c = d then some rest else none
  | [] => none

def date? (s : List Char) : Option (List Char) := do
  let (year, s) ← digits? 4 s
  let (month, s) ← digits? 2 (← char? '-' s)
  let (day, s) ← digits? 2 (← char? '-' s)
  if 1 ≤ month ∧ month ≤ 12 ∧ 1 ≤ day ∧ day ≤ daysIn year month then some s else none

def seconds? : List Char → Option (List Char)
  | ':' :: s => do
    let (second, s) ← digits? 2 s
    if 60 ≤ second then none
    else
      match s with
      | '.' :: c :: rest => if isDigit c then some (rest.dropWhile isDigit) else some s
      | s => some s
  | s => some s

def time? (s : List Char) : Option (List Char) := do
  let (hour, s) ← digits? 2 s
  let (minute, s) ← digits? 2 (← char? ':' s)
  if hour < 24 ∧ minute < 60 then seconds? s else none

def isZone : List Char → Bool
  | ['Z'] => true
  | sign :: s =>
    (sign = '+' || sign = '-') &&
      match (do
        let (hours, s) ← digits? 2 s
        let (minutes, s) ← digits? 2 (← char? ':' s)
        return (hours, minutes, s)) with
      | some (hours, minutes, []) => hours ≤ 24 && minutes ≤ 60
      | _ => false
  | [] => false

def isDateTime (s : List Char) : Bool :=
  match date? s with
  | some [] => true
  | some ('T' :: s) =>
    match time? s with
    | some [] => true
    | some zone => isZone zone
    | none => false
  | some _ => false
  | none => time? s = some []

def normalDateChar (c : Char) : Char :=
  if c = 'z' then 'Z' else if c = 't' ∨ c = ' ' then 'T' else c

def dateTime? (s : List Char) : Option Value :=
  let s := (s.reverse.dropWhile isBlank).reverse
  if isDateTime (s.map normalDateChar) then some (.date (String.ofList s)) else none

abbrev Scanned := Option (Value × List Char)

def scan (front : List Char) (isMember : Char → Bool) (make : List Char → Option Value) (s : List Char) : Scanned :=
  (make (front ++ s.takeWhile isMember)).map fun v => (v, s.dropWhile isMember)

def isFloatChar (c : Char) : Bool :=
  isDigit c || c = '_' || c = '.' || c = '-' || c = '+' || c = 'e' || c = 'E'

def isDateChar (c : Char) : Bool :=
  isDigit c || c = '-' || c = ':' || c = 'T' || c = 't' || c = ' ' || c = '.' || c = 'Z' || c = 'z' || c = '+'

def startsFloat (c : Char) : Bool := c = '.' || c = 'e' || c = 'E'

def readDecimal (front s : List Char) : Scanned :=
  let front := front ++ s.takeWhile fun c => isDigit c || c = '_'
  let s := s.dropWhile fun c => isDigit c || c = '_'
  match s with
  | c :: _ => if startsFloat c then scan front isFloatChar float? s else (integer? front).map (·, s)
  | [] => (integer? front).map (·, s)

def readNumberOrDate (s : List Char) : Scanned :=
  let front := s.takeWhile isDigit
  match s.dropWhile isDigit with
  | c :: rest =>
    if c = '-' ∨ c = ':' then scan front isDateChar dateTime? (c :: rest) else readDecimal front (c :: rest)
  | [] => readDecimal front []

def readBased (mark : Char) (isMember : Char → Bool) (s : List Char) : Scanned :=
  if s.head?.any isMember then scan ['0', mark] (fun c => isMember c || c = '_') integer? s else none

def readNumber : List Char → Scanned
  | '0' :: 'x' :: s => readBased 'x' isHexDigit s
  | '0' :: 'o' :: s => readBased 'o' (fun c => '0' ≤ c && c ≤ '7') s
  | '0' :: 'b' :: s => readBased 'b' (fun c => c = '0' || c = '1') s
  | s => readNumberOrDate s

def readSigned (sign : Char) : List Char → Scanned
  | 'i' :: 'n' :: 'f' :: s => (float? [sign, 'i', 'n', 'f']).map (·, s)
  | 'n' :: 'a' :: 'n' :: s => (float? [sign, 'n', 'a', 'n']).map (·, s)
  | '0' :: 'x' :: _ | '0' :: 'o' :: _ | '0' :: 'b' :: _ => none
  | c :: s => if isDigit c then readDecimal [sign, c] s else none
  | [] => none

end HotLoop.Toml
