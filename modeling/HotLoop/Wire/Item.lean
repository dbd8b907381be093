import HotLoop.Word

/-!
The data items of CBOR: their shortest written form, and a reader for every well-formed form. Strings are kept
in the chunks they came in, and maps as a flat list of keys and values in turn.
-/

namespace HotLoop.Wire

inductive Item
  | uint (n : UInt64)
  | nint (n : UInt64)
  | bytes (chunks : List Bytes)
  | text (chunks : List Bytes)
  | array (items : List Item)
  | map (items : List Item)
  | tag (n : UInt64) (content : Item)
  | simple (n : UInt8)
  | float (width : Nat) (bits : UInt64)
deriving Repr, Inhabited

def bigEndian : Nat → Nat → Bytes
  | 0, _ => []
  | k + 1, n => bigEndian k (n / 256) ++ [UInt8.ofNat n]

def ofBigEndian (bytes : Bytes) : Nat := bytes.foldl (fun n b => n * 256 + b.toNat) 0

def head (major : Nat) (n : UInt64) : Bytes :=
  let first (info : Nat) : UInt8 := UInt8.ofNat (major * 32 + info)
  if n < 24 then [first n.toNat]
  else if n < 256 then first 24 :: bigEndian 1 n.toNat
  else if n < 65536 then first 25 :: bigEndian 2 n.toNat
  else if n < 4294967296 then first 26 :: bigEndian 4 n.toNat
  else first 27 :: bigEndian 8 n.toNat

def headOfLength (major length : Nat) : Bytes := head major (UInt64.ofNat length)

def writeChunk (major : Nat) (chunk : Bytes) : Bytes := headOfLength major chunk.length ++ chunk

def writeString (major : Nat) : List Bytes → Bytes
  | [chunk] => writeChunk major chunk
  | chunks => UInt8.ofNat (major * 32 + 31) :: chunks.flatMap (writeChunk major) ++ [255]

namespace Item

mutual

def write : Item → Bytes
  | uint n => head 0 n
  | nint n => head 1 n
  | bytes chunks => writeString 2 chunks
  | text chunks => writeString 3 chunks
  | array items => headOfLength 4 items.length ++ writeAll items
  | map items => headOfLength 5 (items.length / 2) ++ writeAll items
  | tag n content => head 6 n ++ content.write
  | simple n => if n < 24 then [224 + n] else [248, n]
  | float width bits => (if width = 2 then 249 else if width = 4 then 250 else 251) :: bigEndian width bits.toNat

def writeAll : List Item → Bytes
  | [] => []
  | i :: rest => i.write ++ writeAll rest

end

end Item

abbrev Reader (α : Type) := Bytes → Option (α × Bytes)

structure Head where
  major : Nat
  info : Nat
  arg : UInt64

namespace Head

def indefinite (h : Head) : Bool := h.info = 31

def argWidth (info : Nat) : Option Nat :=
  if info < 24 then some 0
  else if info < 28 then some (Nat.pow 2 (info - 24))
  else if info = 31 then some 0
  else none

def admissible (h : Head) : Bool :=
  !(h.major = 7 && h.info = 24 && h.arg < 32) &&
    !(h.indefinite && (h.major = 0 || h.major = 1 || h.major = 6 || h.major = 7))

def read : Reader Head
  | [] => none
  | b :: rest => do
    let info := b.toNat % 32
    let width ← argWidth info
    if rest.length < width then none
    else
      let arg := if width = 0 then info else ofBigEndian (rest.take width)
      let h : Head := ⟨b.toNat / 32, info, UInt64.ofNat arg⟩
      if h.admissible then some (h, rest.drop width) else none

end Head

def lengthLimit : Nat := 131072

def depthLimit : Nat := 32

def readChunk (n : Nat) : Reader Bytes := fun bytes =>
  if bytes.length < n then none else some (bytes.take n, bytes.drop n)

def readChunks (major : Nat) : Nat → Reader (List Bytes)
  | _, [] => none
  | 0, b :: rest => if b = 255 then some ([], rest) else none
  | fuel + 1, b :: rest =>
    if b = 255 then some ([], rest)
    else do
      let (h, rest) ← Head.read (b :: rest)
      if h.major = major ∧ !h.indefinite then
        let (chunk, rest) ← readChunk h.arg.toNat rest
        let (chunks, rest) ← readChunks major fuel rest
        return (chunk :: chunks, rest)
      else none

def readString (h : Head) : Reader (List Bytes) := fun bytes =>
  if h.indefinite then readChunks h.major bytes.length bytes
  else (readChunk h.arg.toNat bytes).map fun (chunk, rest) => ([chunk], rest)

def times (r : Reader Item) : Nat → Reader (List Item)
  | 0, bytes => some ([], bytes)
  | n + 1, bytes => do
    let (i, bytes) ← r bytes
    let (items, bytes) ← times r n bytes
    return (i :: items, bytes)

def untilBreak (r : Reader Item) : Nat → Reader (List Item)
  | _, [] => none
  | 0, b :: rest => if b = 255 then some ([], rest) else none
  | n + 1, b :: rest =>
    if b = 255 then some ([], rest)
    else do
      let (i, rest) ← r (b :: rest)
      let (items, rest) ← untilBreak r n rest
      return (i :: items, rest)

def readSequence (r : Reader Item) (h : Head) (scale : Nat) : Reader (List Item) := fun bytes =>
  if h.indefinite then untilBreak r (lengthLimit * scale) bytes
  else if lengthLimit < h.arg.toNat then none
  else times r (h.arg.toNat * scale) bytes

def readPlain (inner : Option (Reader Item)) : Reader Item := fun bytes => do
  let (h, rest) ← Head.read bytes
  match h.major with
  | 0 => some (.uint h.arg, rest)
  | 1 => some (.nint h.arg, rest)
  | 2 => (readString h rest).map fun (chunks, rest) => (.bytes chunks, rest)
  | 3 => (readString h rest).map fun (chunks, rest) => (.text chunks, rest)
  | 4 => do
    let (items, rest) ← readSequence (← inner) h 1 rest
    return (.array items, rest)
  | 5 => do
    let (items, rest) ← readSequence (← inner) h 2 rest
    if items.length % 2 = 0 then some (.map items, rest) else none
  | 7 =>
    if h.info ≤ 24 then some (.simple h.arg.toUInt8, rest)
    else some (.float (Nat.pow 2 (h.info - 24)) h.arg, rest)
  | _ => none

def startsWithTag : Bytes → Bool
  | [] => false
  | b :: _ => b.toNat / 32 = 6

def readTagged (inner : Option (Reader Item)) : Reader Item := fun bytes =>
  if startsWithTag bytes then do
    let (h, rest) ← Head.read bytes
    let (content, rest) ←
      if startsWithTag rest then do (← inner) rest
      else readPlain inner rest
    return (.tag h.arg content, rest)
  else readPlain inner bytes

def readItem : Nat → Reader Item
  | 0 => readTagged none
  | depth + 1 => readTagged (some (readItem depth))

def Item.read? (bytes : Bytes) : Option Item :=
  match readItem depthLimit bytes with
  | some (i, []) => some i
  | _ => none

end HotLoop.Wire
