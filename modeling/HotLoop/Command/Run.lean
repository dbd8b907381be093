import HotLoop.Command.Flags
import HotLoop.Command.Report
import HotLoop.Journal.Location
import HotLoop.Journal.Text
import HotLoop.Manifest.Search

namespace HotLoop.Command

structure Outcome where
  exit : UInt32 := 0
  stdout : String := ""
  stderr : String := ""
  files : FileTree

def programs : List (String × List UInt64) :=
  [("counter", Counter.countdown), ("interleaved", Counter.interleaved)]

def override (m : Manifest) (f : Flags) : Manifest :=
  { m with
    tracer.disabled := m.tracer.disabled || f.noTrace
    journal.path := if f.journal = "" then m.journal.path else f.journal
    log.verbosity := if 0 ≤ f.verbosity then f.verbosity else m.log.verbosity }

def settings (files : FileTree) (working : String) (f : Flags) : Except LoadError Manifest :=
  (Manifest.search files working f.config).map fun m => override (m.getD {}) f

def logFile? (m : Manifest) : Option String :=
  if m.logPath = "" ∨ m.log.verbosity ≤ -4 then none else some m.logPath

def journalPlace? (m : Manifest) : Option Location :=
  if m.journalPath = "" then some .transient else Location.parse? m.journalPath

def journalFile? (m : Manifest) : Option String :=
  match journalPlace? m with
  | some (.file path) => some path
  | _ => none

def openLog (files : FileTree) (working : String) (m : Manifest) : Except String FileTree :=
  match logFile? m with
  | none => .ok files
  | some path =>
    let path := Path.absolute working path
    match files.openFile path with
    | .ok content => .ok (files.write path content)
    | .error _ => .error ("log file error: cannot open " ++ path ++ "\n")

inductive OpenError
  | unopenable
  | noJournal
deriving DecidableEq, Repr

def OpenError.message : OpenError → String
  | unopenable => "setting busy timeout: unable to open database file: out of memory (14)"
  | noJournal => "creating table: file is not a database (26)"

def openJournal (files : FileTree) (working : String) (m : Manifest) : Except OpenError Journal :=
  match journalPlace? m with
  | none => .error .unopenable
  | some .transient => .ok []
  | some (.file path) =>
    match files.openFile (Path.absolute working path) with
    | .error _ => .error .unopenable
    | .ok text =>
      match Journal.ofText? text with
      | some j => .ok j
      | none => .error .noJournal

def saveJournal (files : FileTree) (working : String) (m : Manifest) (j : Journal) : FileTree :=
  match journalFile? m with
  | none => files
  | some path => files.write (Path.absolute working path) j.text

def saveOffers (j : Journal) (offers : List Offer) : Journal :=
  offers.foldl (fun j o => j.save o.session o.trace j.nextTime) j

def prepare (session : Session) (m : Manifest) (j : Journal) : Engine × String :=
  let e := Engine.ofOptions m.tracer session
  if m.journalPath = "" then (e, "")
  else
    let (e, warning) :=
      if m.journal.load then
        match j.latest with
        | .ok traces => (e.warm traces, "")
        | .error err => (e, "Warning: cannot warm from " ++ m.journalPath ++ ": " ++ err.message ++ "\n")
      else (e, "")
    (e.withJournal fun _ => true, warning)

def report (f : Flags) (r : Counter.Finished) (expected : Counter.State) : UInt32 × String × String :=
  match r.error, r.crashed with
  | some e, _ => (1, "", "Error: " ++ e.message ++ "\n")
  | none, true => (2, "", "")
  | none, false =>
    let out := result f.program r.state
    if r.state = expected then
      (0, out ++ (if f.dump then dump r.engine.traces else "") ++ (if f.stats then statistics r.engine else ""), "")
    else
      (1, out, "Error: engine diverged from native run (cell=" ++ toString expected.cell.toNat ++ " pc=" ++
        toString expected.pc.toNat ++ ")\n")

def perform (fuel : Nat) (session : Session) (working : String) (files : FileTree) (f : Flags) (m : Manifest)
    (user : List UInt64) : Option Outcome :=
  match openLog files working m with
  | .error message => some { exit := 1, stderr := message, files }
  | .ok files =>
    match openJournal files working m with
    | .error e => some { exit := 1, stderr := "Error: " ++ e.message ++ "\n", files }
    | .ok j => do
      let (e, warning) := prepare session m j
      let r ← Counter.run fuel 0 e user f.cell
      let expected ← Counter.native user fuel f.cell
      let (exit, stdout, stderr) := report f r expected
      return { exit, stdout, stderr := warning ++ stderr
               files := saveJournal files working m (saveOffers j r.engine.offers) }

/-- Runs the command in a working directory. Nothing comes out if `fuel` does not last. -/
def run (fuel : Nat) (session : Session) (working : String) (files : FileTree) (args : List String) :
    Option Outcome :=
  match Flags.parse args with
  | .error .help => some { stderr := usage, files }
  | .error e => some { exit := 2, stderr := e.message ++ "\n" ++ usage, files }
  | .ok f =>
    match programs.lookup f.program with
    | none => some { exit := 2, stderr := "Error: unknown program " ++ Text.quote f.program ++ "\n" ++ usage, files }
    | some user =>
      match settings files working f with
      | .error e => some { exit := 1, stderr := "Error: " ++ e.message ++ "\n", files }
      | .ok m => perform fuel session working files f m user

def manifestPlaces (working : String) (args : List String) : List String :=
  match Flags.parse args with
  | .error _ => []
  | .ok f =>
    let parts := Path.parts (Path.absolute working f.config)
    ((List.range (parts.length + 1)).map fun n => Path.join (Path.ofParts (parts.take n)) Manifest.fileName).reverse

def dataFiles (files : FileTree) (working : String) (args : List String) : List String :=
  match Flags.parse args with
  | .error _ => []
  | .ok f =>
    match settings files working f with
    | .error _ => []
    | .ok m => ((logFile? m).toList ++ (journalFile? m).toList).map (Path.absolute working)

end HotLoop.Command
