import HotLoop.Engine.Basic
import HotLoop.File.Path
import HotLoop.Toml.Document

namespace HotLoop

structure JournalSettings where
  path : String := ""
  load : Bool := false
deriving DecidableEq, Repr, Inhabited

structure LogSettings where
  verbosity : Int64 := 1
  file : String := ""
deriving DecidableEq, Repr, Inhabited

structure Manifest where
  tracer : Options := {}
  journal : JournalSettings := {}
  log : LogSettings := {}
  dir : String := ""
deriving DecidableEq, Repr, Inhabited

inductive ManifestError
  | malformed
  | unknownKeys (keys : List Toml.Key)
  | negativeBound (n : Int64)
  | loadWithoutPath
deriving DecidableEq, Repr

def ManifestError.message : ManifestError → String
  | malformed => "parse error: toml"
  | unknownKeys keys => "invalid manifest: unknown keys " ++ String.intercalate ", " (keys.map Toml.keyText)
  | negativeBound n => "invalid manifest: tracer.max-traces is " ++ Text.decimal n
  | loadWithoutPath => "invalid manifest: journal.load needs journal.path"

namespace Manifest

abbrev Setter := Toml.Node → Manifest → Option Manifest

def integerSetter (set : Int64 → Manifest → Manifest) : Setter
  | .value (.integer n), m => some (set n m)
  | _, _ => none

def booleanSetter (set : Bool → Manifest → Manifest) : Setter
  | .value (.boolean b), m => some (set b m)
  | _, _ => none

def stringSetter (set : String → Manifest → Manifest) : Setter
  | .value (.string s), m => some (set s m)
  | _, _ => none

/-- The tables of a manifest with their settings. A negative threshold wraps. -/
def sections : List (String × List (String × Setter)) :=
  [("tracer",
      [("hot-threshold", integerSetter fun n m => { m with tracer.threshold := n.toUInt64 }),
        ("max-traces", integerSetter fun n m => { m with tracer.maxTraces := n }),
        ("optimize", booleanSetter fun b m => { m with tracer.optimize := b }),
        ("disabled", booleanSetter fun b m => { m with tracer.disabled := b })]),
    ("journal",
      [("path", stringSetter fun s m => { m with journal.path := s }),
        ("load", booleanSetter fun b m => { m with journal.load := b })]),
    ("log",
      [("verbosity", integerSetter fun n m => { m with log.verbosity := n }),
        ("file", stringSetter fun s m => { m with log.file := s })])]

def foldCase (s : String) : List Char :=
  s.toList.map fun c => if c.toNat = 0x17f then 's' else if c.toNat = 0x212a then 'k' else c.toLower

def named? {α : Type} (items : List (String × α)) (name : String) : Option α :=
  (items.lookup name).or ((items.find? fun item => foldCase item.1 = foldCase name).map Prod.snd)

structure Decoded where
  manifest : Manifest := {}
  keys : List Toml.Key := []

def decodeSetting (table : String) (setters : List (String × Setter)) (d : Decoded) (entry : String × Toml.Node) :
    Option Decoded :=
  match named? setters entry.1 with
  | none => some d
  | some set => (set entry.2 d.manifest).map fun manifest => { manifest, keys := [table, entry.1] :: d.keys }

def decodeTable (d : Decoded) (entry : String × Toml.Node) : Option Decoded :=
  match named? sections entry.1 with
  | none => some d
  | some setters =>
    match entry.2 with
    | .table inner => inner.foldlM (decodeSetting entry.1 setters) { d with keys := [entry.1] :: d.keys }
    | _ => none

def decode? (doc : Toml.Document) : Option Decoded := doc.entries.foldlM decodeTable {}

def check (m : Manifest) : Except ManifestError Manifest :=
  if m.tracer.maxTraces < 0 then .error (.negativeBound m.tracer.maxTraces)
  else if m.journal.load ∧ m.journal.path = "" then .error .loadWithoutPath
  else .ok m

def parse (text : String) : Except ManifestError Manifest :=
  match Toml.Document.parse? text with
  | none => .error .malformed
  | some doc =>
    match decode? doc with
    | none => .error .malformed
    | some d =>
      match doc.keys.filter (!d.keys.contains ·) with
      | [] => d.manifest.check
      | unknown => .error (.unknownKeys unknown)

def resolve (m : Manifest) (path : String) : String :=
  if path = "" ∨ Path.isAbsolute path ∨ m.dir = "" then path else Path.join m.dir path

def journalPath (m : Manifest) : String := m.resolve m.journal.path

def logPath (m : Manifest) : String := m.resolve m.log.file

end Manifest

end HotLoop
