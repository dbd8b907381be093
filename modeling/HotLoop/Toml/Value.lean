namespace HotLoop.Toml

abbrev Key := List String

inductive Value
  | string (s : String)
  | integer (n : Int64)
  | boolean (b : Bool)
  | float (text : String)
  | date (text : String)
  | array (items : List Value)
  | inline (entries : List (Key × Value))
deriving Repr, Inhabited

inductive Statement
  | table (key : Key)
  | arrayTable (key : Key)
  | assign (key : Key) (value : Value)
deriving Repr, Inhabited

def isBlank (c : Char) : Bool := c = ' ' || c = '\t'

def isNewline (c : Char) : Bool := c = '\n' || c = '\r'

def isDigit (c : Char) : Bool := '0' ≤ c && c ≤ '9'

def isLetter (c : Char) : Bool := ('a' ≤ c && c ≤ 'z') || ('A' ≤ c && c ≤ 'Z')

def isHexDigit (c : Char) : Bool := isDigit c || ('a' ≤ c && c ≤ 'f') || ('A' ≤ c && c ≤ 'F')

def isBare (c : Char) : Bool := isLetter c || isDigit c || c = '_' || c = '-'

def skipBlanks (s : List Char) : List Char := s.dropWhile isBlank

def skipFiller (inComment : Bool) : List Char → List Char
  | [] => []
  | c :: rest =>
    if isNewline c then skipFiller false rest
    else if inComment then skipFiller true rest
    else if isBlank c then skipFiller false rest
    else if c = '#' then skipFiller true rest
    else c :: rest

def admissible : List Char → Bool
  | [] => true
  | ['\r'] => false
  | '\r' :: c :: rest => c = '\n' && admissible (c :: rest)
  | c :: rest => (0x20 ≤ c.toNat && c.toNat ≠ 0x7f || c = '\t' || c = '\n') && admissible rest

def keyPartText (part : String) : String :=
  if part ≠ "" ∧ part.toList.all isBare then part
  else "\"" ++ String.join (part.toList.map escape) ++ "\""
where
  hexDigit (n : Nat) : Char := (Nat.digitChar n)
  escape (c : Char) : String :=
    let n := c.toNat
    if n = 0x22 then "\\\""
    else if n = 0x5c then "\\\\"
    else if n = 8 then "\\b"
    else if n = 9 then "\\t"
    else if n = 10 then "\\n"
    else if n = 12 then "\\f"
    else if n = 13 then "\\r"
    else if n < 0x20 ∨ n = 0x7f then "\\u00" ++ String.ofList [hexDigit (n / 16), hexDigit (n % 16)]
    else String.singleton c

def keyText (key : Key) : String := String.intercalate "." (key.map keyPartText)

end HotLoop.Toml
