import HotLoop.Toml.Quoted

namespace HotLoop.Toml

def readPart : List Char → Option (String × List Char)
  | [] => none
  | c :: s =>
    if c = quoteMark then readBasic s
    else if c = apostrophe then readRaw s
    else
      let part := (c :: s).takeWhile isBare
      if part.isEmpty then none else some (String.ofList part, (c :: s).dropWhile isBare)

def readKey (close : Char) : Nat → List Char → Option (Key × List Char)
  | 0, _ => none
  | fuel + 1, s => do
    let (part, s) ← readPart (skipBlanks s)
    match skipBlanks s with
    | c :: s =>
      if c = close then some ([part], s)
      else if c = '.' then (readKey close fuel s).map fun (key, s) => (part :: key, s)
      else none
    | [] => none

def readWord (s : List Char) : Scanned :=
  let rest := s.dropWhile isLetter
  match s.takeWhile isLetter with
  | ['t', 'r', 'u', 'e'] => some (.boolean true, rest)
  | ['f', 'a', 'l', 's', 'e'] => some (.boolean false, rest)
  | ['i', 'n', 'f'] => some (.float "inf", rest)
  | ['n', 'a', 'n'] => some (.float "nan", rest)
  | _ => none

def readScalar : List Char → Scanned
  | [] => none
  | c :: s =>
    if isDigit c then readNumber (c :: s)
    else if c = '+' ∨ c = '-' then readSigned c s
    else if c = quoteMark ∨ c = apostrophe then
      (readString (c :: s)).map fun (text, s) => (.string text, s)
    else readWord (c :: s)

mutual

def readValue : Nat → List Char → Scanned
  | 0, _ => none
  | fuel + 1, s =>
    match skipBlanks s with
    | '[' :: s => (readItems fuel s).map fun (items, s) => (.array items, s)
    | '\x7b' :: s => (readEntries fuel s).map fun (entries, s) => (.inline entries, s)
    | s => readScalar s

def readItems : Nat → List Char → Option (List Value × List Char)
  | 0, _ => none
  | fuel + 1, s =>
    match skipFiller false s with
    | ']' :: s => some ([], s)
    | s => do
      let (item, s) ← readValue fuel s
      match skipFiller false s with
      | ']' :: s => some ([item], s)
      | ',' :: s => do
        let (items, s) ← readItems fuel s
        return (item :: items, s)
      | _ => none

def readEntries : Nat → List Char → Option (List (Key × Value) × List Char)
  | 0, _ => none
  | fuel + 1, s =>
    match skipFiller false s with
    | '\x7d' :: s => some ([], s)
    | s => do
      let (key, s) ← readKey '=' fuel s
      let (value, s) ← readValue fuel s
      match skipFiller false s with
      | '\x7d' :: s => some ([(key, value)], s)
      | ',' :: s => do
        let (entries, s) ← readEntries fuel s
        return ((key, value) :: entries, s)
      | _ => none

end

def lineEnd? (s : List Char) : Option (List Char) :=
  match skipBlanks s with
  | [] => some []
  | c :: s => if isNewline c ∨ c = '#' then some (c :: s) else none

def readStatement (s : List Char) : Option (Statement × List Char) :=
  match s with
  | '[' :: '[' :: s => do
    let (key, s) ← readKey ']' s.length s
    return (.arrayTable key, ← char? ']' s)
  | '[' :: s => (readKey ']' s.length s).map fun (key, s) => (.table key, s)
  | s => do
    let (key, s) ← readKey '=' s.length s
    let (value, s) ← readValue (s.length + 1) s
    return (.assign key value, s)

def readStatements : Nat → List Char → Option (List Statement)
  | fuel, s =>
    match fuel, skipFiller false s with
    | _, [] => some []
    | 0, _ => none
    | fuel + 1, s => do
      let (statement, s) ← readStatement s
      let rest ← readStatements fuel (← lineEnd? s)
      return statement :: rest

def statements? (text : String) : Option (List Statement) :=
  let s :=
    match text.toList with
    | c :: rest => if c.toNat = 0xfeff then rest else c :: rest
    | [] => []
  if admissible s then readStatements s.length s else none

end HotLoop.Toml
