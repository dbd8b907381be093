import HotLoop.Journal.Session
import HotLoop.Trace.Basic

namespace HotLoop

structure Row where
  session : String
  key : Int64
  start : Position
  code : Bytes
  recorded : Int
deriving DecidableEq, Repr, Inhabited

inductive JournalError
  | sessionNotFound (s : Session)
  | decoding (key : LoopKey) (e : Wire.ReadError)
  | badSession (text : String) (e : SessionError)
deriving DecidableEq, Repr

def JournalError.message : JournalError → String
  | sessionNotFound s => "session not found: " ++ s.text
  | decoding key e => "decoding trace " ++ Text.hexWord key ++ ": " ++ e.message
  | badSession text e => "session " ++ Text.quote text ++ ": " ++ e.message

abbrev Journal := List Row

namespace Journal

def write (j : Journal) (r : Row) : Journal :=
  j.filter (fun old => !(old.session = r.session && old.key = r.key)) ++ [r]

def save (j : Journal) (s : Session) (t : Trace) (time : Int) : Journal :=
  j.write
    { session := s.text, key := t.key.toInt64, start := t.start, code := Wire.writeCode t.code, recorded := time }

def decode (r : Row) : Except JournalError Trace :=
  match Wire.readCode r.code with
  | .ok code => .ok { key := r.key.toUInt64, start := r.start, code }
  | .error e => .error (.decoding r.key.toUInt64 e)

def byTime (rows : List Row) : List Row := rows.mergeSort fun a b => a.recorded ≤ b.recorded

def load (j : Journal) (s : Session) : Except JournalError (List Trace) := do
  let traces ← (byTime (j.filter fun r => r.session = s.text)).mapM decode
  if traces.isEmpty then .error (.sessionNotFound s) else .ok traces

def lastOfKeys : List Row → List Row
  | [] => []
  | r :: rest => if rest.any fun later => later.key = r.key then lastOfKeys rest else r :: lastOfKeys rest

def latest (j : Journal) : Except JournalError (List Trace) :=
  (lastOfKeys (byTime j)).mapM decode

def sessionTexts (j : Journal) : List String :=
  (j.map Row.session).eraseDups.mergeSort fun a b => a ≤ b

def latestTime (j : Journal) (session : String) : Int :=
  let times := (j.filter fun r => r.session = session).map Row.recorded
  times.foldl max (times.headD 0)

def sessions (j : Journal) : Except JournalError (List (Session × Nat)) :=
  ((sessionTexts j).mergeSort fun a b => j.latestTime b ≤ j.latestTime a).mapM fun text =>
    match Session.parse text with
    | .ok s => .ok (s, j.countP fun r => r.session = text)
    | .error e => .error (.badSession text e)

end Journal

end HotLoop
