import HotLoop.Toml.Number

namespace HotLoop.Toml

def quoteMark : Char := Char.ofNat 0x22

def apostrophe : Char := Char.ofNat 0x27

def backslash : Char := Char.ofNat 0x5c

def charOfDigits? (n : Nat) (s : List Char) : Option (Char × List Char) :=
  let front := s.take n
  let code := ofDigits 16 front
  if front.length = n ∧ front.all isHexDigit ∧ code.isValidChar then some (Char.ofNat code, s.drop n) else none

def escape? : List Char → Option (Char × List Char)
  | [] => none
  | c :: s =>
    if c = 'b' then some (Char.ofNat 8, s)
    else if c = 't' then some (Char.ofNat 9, s)
    else if c = 'n' then some (Char.ofNat 10, s)
    else if c = 'f' then some (Char.ofNat 12, s)
    else if c = 'r' then some (Char.ofNat 13, s)
    else if c = 'e' then some (Char.ofNat 27, s)
    else if c = quoteMark then some (c, s)
    else if c = backslash then some (c, s)
    else if c = 'x' then charOfDigits? 2 s
    else if c = 'u' then charOfDigits? 4 s
    else if c = 'U' then charOfDigits? 8 s
    else none

def unescape? : Nat → List Char → Option (List Char)
  | _, [] => some []
  | 0, _ => none
  | fuel + 1, c :: s =>
    if c = backslash then do
      let (c, s) ← escape? s
      let rest ← unescape? fuel s
      return c :: rest
    else (unescape? fuel s).map (c :: ·)

def stringOf? (raw : List Char) : Option String := (unescape? raw.length raw).map String.ofList

abbrev ScannedString := Option (String × List Char)

def basicInside : List Char → Option (List Char × List Char)
  | [] => none
  | c :: s =>
    if isNewline c then none
    else if c = quoteMark then some ([], s)
    else if c = backslash then
      match s with
      | [] => none
      | d :: s => if isNewline d then none else (basicInside s).map fun (inside, s) => (c :: d :: inside, s)
    else (basicInside s).map fun (inside, s) => (c :: inside, s)

def readBasic (s : List Char) : ScannedString := do
  let (inside, s) ← basicInside s
  return (← stringOf? inside, s)

def readRaw : List Char → ScannedString := fun s =>
  let inside := s.takeWhile fun c => c ≠ apostrophe && !isNewline c
  match s.dropWhile fun c => c ≠ apostrophe && !isNewline c with
  | c :: rest => if c = apostrophe then some (String.ofList inside, rest) else none
  | [] => none

def dropFirstNewline : List Char → List Char
  | '\n' :: s => s
  | '\r' :: '\n' :: s => s
  | s => s

def tooManyQuotes (quote : Char) (seen : List Char) : Bool :=
  (seen.take 5).length = 5 && (seen.take 5).all (· = quote) && !(quote = quoteMark && seen[5]? = some backslash)

def longInside (quote : Char) (escapes : Bool) (seen : List Char) : List Char → Option (List Char × List Char)
  | [] => none
  | c :: s =>
    if escapes ∧ c = backslash then
      match s with
      | [] => none
      | d :: s => longInside quote escapes (d :: c :: seen) s
    else if c = quote then
      match s with
      | d :: e :: rest =>
        if d = quote ∧ e = quote then
          if rest.head? = some quote then
            if tooManyQuotes quote (quote :: quote :: quote :: seen) then none
            else longInside quote escapes (c :: seen) (d :: e :: rest)
          else some (seen.reverse, rest)
        else longInside quote escapes (c :: seen) (d :: e :: rest)
      | s => longInside quote escapes (c :: seen) s
    else longInside quote escapes (c :: seen) s

def isSpace (c : Char) : Bool := isBlank c || isNewline c

def joinLines : Nat → List Char → List Char
  | _, [] => []
  | 0, s => s
  | fuel + 1, c :: s =>
    if c = backslash then
      let space := s.takeWhile isSpace
      if s.head? = some backslash then c :: backslash :: joinLines fuel s.tail
      else if space.any (· = '\n') then joinLines fuel (s.dropWhile isSpace)
      else c :: joinLines fuel s
    else c :: joinLines fuel s

def readLongBasic (s : List Char) : ScannedString := do
  let (inside, s) ← longInside quoteMark true [] s
  let inside := dropFirstNewline inside
  return (← stringOf? (joinLines inside.length inside), s)

def readLongRaw (s : List Char) : ScannedString := do
  let (inside, s) ← longInside apostrophe false [] s
  return (String.ofList (dropFirstNewline inside), s)

def readString : List Char → ScannedString
  | [] => none
  | c :: s =>
    match s with
    | d :: e :: rest =>
      if d = c ∧ e = c then
        if c = quoteMark then readLongBasic rest else readLongRaw rest
      else readShort c s
    | s => readShort c s
where
  readShort (c : Char) (s : List Char) : ScannedString :=
    if c = quoteMark then readBasic s else readRaw s

end HotLoop.Toml
