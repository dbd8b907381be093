import HotLoop.Toml.Statement

/-!
Documents: the tree of tables that the statements of a text build, with every key in the order of the text. A key
is defined once. A table that only came up inside longer keys may still be defined by a header of its own.
-/

namespace HotLoop.Toml

inductive Node
  | value (v : Value)
  | table (entries : List (String × Node))
  | tables (newest : List (String × Node)) (older : List (List (String × Node)))
deriving Inhabited

abbrev Entries := List (String × Node)

namespace Entries

def put (es : Entries) (name : String) (node : Node) : Entries :=
  if (es.lookup name).isSome then es.map fun e => if e.1 = name then (name, node) else e
  else es ++ [(name, node)]

def descend? : Key → Entries → Option Entries
  | [], es => some es
  | name :: path, es =>
    match es.lookup name with
    | some (.table inner) => descend? path inner
    | some (.tables newest _) => descend? path newest
    | _ => none

def alter? (f : Entries → Option Entries) : Key → Entries → Option Entries
  | [], es => f es
  | name :: path, es =>
    match es.lookup name with
    | some (.table inner) => (alter? f path inner).map fun inner => es.put name (.table inner)
    | some (.tables newest older) => (alter? f path newest).map fun newest => es.put name (.tables newest older)
    | _ => none

end Entries

structure Document where
  entries : Entries := []
  context : Key := []
  keys : List Key := []
  implied : List Key := []
  arrays : List Key := []
deriving Inhabited

namespace Document

def imply (d : Document) (key : Key) : Document := { d with implied := key :: d.implied }

def markArray (d : Document) (key : Key) : Document := { d with arrays := key :: d.arrays }

def unmarkArray (d : Document) (key : Key) : Document := { d with arrays := d.arrays.filter (· ≠ key) }

def typeKey (d : Document) (name : String) : Key :=
  if name = "" ∧ d.context ≠ [] then d.context else d.context ++ [name]

def noteKey (d : Document) (key : Key) : Document := { d with keys := d.keys ++ [key] }

def alter? (d : Document) (path : Key) (f : Entries → Option Entries) : Option Document :=
  (Entries.alter? f path d.entries).map fun entries => { d with entries }

def define? (d : Document) (path : Key) (name : String) (node : Node) : Option Document := do
  let es ← Entries.descend? path d.entries
  let key := path ++ [name]
  if (es.lookup name).isSome then
    if key ∈ d.implied then
      let d := { d with implied := d.implied.filter (· ≠ key) }
      if key ∈ d.arrays then d.alter? path fun es => some (es.put name node) else some d
    else none
  else d.alter? path fun es => some (es.put name node)

def reach? (d : Document) (path : Key) : Key → Option Document
  | [] => some d
  | name :: rest => do
    let es ← Entries.descend? path d.entries
    match es.lookup name with
    | none =>
      let d ← (d.imply (path ++ [name])).alter? path fun es => some (es.put name (.table []))
      d.reach? (path ++ [name]) rest
    | some (.value _) => none
    | some _ => d.reach? (path ++ [name]) rest

def addTable? (name : String) (es : Entries) : Option Entries :=
  match es.lookup name with
  | none => some (es.put name (.tables [] []))
  | some (.tables newest older) => some (es.put name (.tables [] (newest :: older)))
  | some _ => none

def enter? (d : Document) (key : Key) (several : Bool) : Option Document := do
  let path := key.dropLast
  let name ← key.getLast?
  let d ← d.reach? [] path
  let d ← if several then d.alter? path (addTable? name) else d.define? path name (.table [])
  return { d with context := key }

def enterParts? (d : Document) : Key → Option Document
  | [] => some d
  | part :: rest => do
    let key := d.context ++ [part]
    let d ← (d.imply key).enter? key false
    d.enterParts? rest

def plant? (node : Node) : Key → Entries → Option Entries
  | [], _ => none
  | [name], es => some (es.put name node)
  | name :: rest, es =>
    match es.lookup name with
    | none => (plant? node rest []).map fun inner => es.put name (.table inner)
    | some (.table inner) => (plant? node rest inner).map fun inner => es.put name (.table inner)
    | some _ => none

mutual

/-- Takes in a value under a name of the open table. An inline table is built both in its place and on its own; the
second is its value. -/
def evaluate? (d : Document) (name : String) (inArray : Bool) : Value → Option (Document × Node)
  | .array items => do
    let d ← (d.markArray (d.typeKey name)).evaluateItems? name items
    return (d, .value (.array items))
  | .inline entries => do
    let outer := d.context
    let key := outer ++ [name]
    let d ← (d.imply key).enter? key inArray
    let (d, table) ← d.assignAll? [] entries
    return ({ d with context := outer }, .table table)
  | v => some (d, .value v)

def evaluateItems? (d : Document) (name : String) : List Value → Option Document
  | [] => some d
  | item :: rest => do
    let (d, _) ← d.evaluate? name true item
    d.evaluateItems? name rest

def assignAll? (d : Document) (table : Entries) : List (Key × Value) → Option (Document × Entries)
  | [] => some (d, table)
  | entry :: rest => do
    let (d, node) ← d.assign? entry
    let table ← plant? node entry.1 table
    d.assignAll? table rest

def assign? (d : Document) : Key × Value → Option (Document × Node)
  | (key, value) => do
    let outer := d.context
    let name ← key.getLast?
    let d ← d.enterParts? key.dropLast
    let (d, node) ← (d.noteKey (d.context ++ [name])).evaluate? name false value
    let d ← d.define? d.context name node
    let d :=
      match value with
      | .array _ => d.markArray (d.typeKey name)
      | _ => d.unmarkArray (d.typeKey name)
    return ({ d with context := outer }, node)

end

def header? (d : Document) (key : Key) (several : Bool) : Option Document := do
  let d ← d.enter? key several
  return (d.unmarkArray key).noteKey key

def add? (d : Document) : Statement → Option Document
  | .table key => d.header? key false
  | .arrayTable key => d.header? key true
  | .assign key value => (d.assign? (key, value)).map Prod.fst

def parse? (text : String) : Option Document := do
  (← statements? text).foldlM add? {}

end Document

end HotLoop.Toml
