import HotLoop.Text.Integer
import HotLoop.Text.Quoted

namespace HotLoop.Command

structure Flags where
  config : String := "."
  program : String := "counter"
  cell : UInt64 := 10
  noTrace : Bool := false
  dump : Bool := false
  stats : Bool := false
  journal : String := ""
  verbosity : Int64 := -1
deriving DecidableEq, Repr, Inhabited

inductive FlagError
  | help
  | badForm (arg : String)
  | unknown (name : String)
  | missingValue (name : String)
  | badSwitch (name value : String)
  | badValue (name value : String) (e : Text.IntegerError)
deriving DecidableEq, Repr

def FlagError.message : FlagError → String
  | help => ""
  | badForm arg => "bad flag syntax: " ++ arg
  | unknown name => "flag provided but not defined: -" ++ name
  | missingValue name => "flag needs an argument: -" ++ name
  | badSwitch name value => "invalid boolean value " ++ Text.quote value ++ " for -" ++ name ++ ": parse error"
  | badValue name value e =>
    "invalid value " ++ Text.quote value ++ " for flag -" ++ name ++ ": " ++ e.message

def usage : String :=
  "Usage: grass [options]\n\n" ++
  "Runs a demo counter program natively with the engine called at its loop header.\n\n" ++
  "Options:\n" ++
  "  -cell uint\n    \tInitial cell value (default 10)\n" ++
  "  -config string\n    \tDirectory to search upwards for grass.toml (default \".\")\n" ++
  "  -dump\n    \tPrint the engine program and the recorded traces\n" ++
  "  -journal string\n    \tTrace journal database (overrides grass.toml)\n" ++
  "  -no-trace\n    \tDisable tracing; every merge point is a no-op\n" ++
  "  -program string\n    \tDemo program to run: counter, interleaved (default \"counter\")\n" ++
  "  -stats\n    \tPrint engine statistics as YAML\n" ++
  "  -v int\n    \tLog verbosity (overrides grass.toml) (default -1)\n" ++
  "\nExamples:\n" ++
  "  grass -program interleaved -cell 10\n" ++
  "  grass -journal traces.db -stats   # journal traces, print counters\n" ++
  "  grass -dump -no-trace             # show the engine bytecode only\n"

namespace Flags

def switch? (s : String) : Option Bool :=
  if s ∈ ["1", "t", "T", "TRUE", "true", "True"] then some true
  else if s ∈ ["0", "f", "F", "FALSE", "false", "False"] then some false
  else none

def setValue? (name : String) : Option (String → Flags → Except Text.IntegerError Flags) :=
  match name with
  | "config" => some fun s f => .ok { f with config := s }
  | "program" => some fun s f => .ok { f with program := s }
  | "journal" => some fun s f => .ok { f with journal := s }
  | "cell" => some fun s f => (Text.readWord s).map fun cell => { f with cell }
  | "v" => some fun s f => (Text.readInt s).map fun verbosity => { f with verbosity }
  | _ => none

def setSwitch? (name : String) : Option (Bool → Flags → Flags) :=
  match name with
  | "no-trace" => some fun b f => { f with noTrace := b }
  | "dump" => some fun b f => { f with dump := b }
  | "stats" => some fun b f => { f with stats := b }
  | _ => none

inductive Argument
  | plain
  | malformed
  | flag (name : String) (value : Option String)
deriving DecidableEq, Repr

def splitValue (s : List Char) : Argument :=
  match s with
  | [] => .malformed
  | c :: rest =>
    if c = '-' ∨ c = '=' then .malformed
    else
      let name := String.ofList (c :: rest.takeWhile (· ≠ '='))
      match rest.dropWhile (· ≠ '=') with
      | [] => .flag name none
      | _ :: value => .flag name (some (String.ofList value))

def argument (arg : String) : Argument :=
  match arg.toList with
  | ['-', '-'] => .plain
  | '-' :: '-' :: rest => splitValue rest
  | ['-'] => .plain
  | '-' :: rest => splitValue rest
  | _ => .plain

def assign (name value : String) (set : String → Flags → Except Text.IntegerError Flags) (f : Flags) :
    Except FlagError Flags :=
  match set value f with
  | .ok f => .ok f
  | .error e => .error (.badValue name value e)

def turn (name : String) (value : Option String) (set : Bool → Flags → Flags) (f : Flags) :
    Except FlagError Flags :=
  match value with
  | none => .ok (set true f)
  | some s =>
    match switch? s with
    | some b => .ok (set b f)
    | none => .error (.badSwitch name s)

def parseFrom (f : Flags) : List String → Except FlagError Flags
  | [] => .ok f
  | arg :: rest =>
    match argument arg with
    | .plain => .ok f
    | .malformed => .error (.badForm arg)
    | .flag name value =>
      match setSwitch? name, setValue? name with
      | some set, _ => do (← turn name value set f).parseFrom rest
      | none, some set =>
        match value, rest with
        | some s, rest => do (← assign name s set f).parseFrom rest
        | none, s :: rest => do (← assign name s set f).parseFrom rest
        | none, [] => .error (.missingValue name)
      | none, none => .error (if name = "h" ∨ name = "help" then .help else .unknown name)

def parse (args : List String) : Except FlagError Flags := parseFrom {} args

end Flags

end HotLoop.Command
