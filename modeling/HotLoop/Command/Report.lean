import HotLoop.Code.Listing
import HotLoop.Counter.Run

namespace HotLoop.Command

def result (program : String) (s : Counter.State) : String :=
  program ++ ": cell=" ++ toString s.cell.toNat ++ " pc=" ++ toString s.pc.toNat ++ "\n"

def heading (title : String) : String :=
  "# " ++ title ++ " " ++ String.ofList (List.replicate (60 - title.utf8ByteSize) '-') ++ "\n"

def traceTitle (t : Trace) : String :=
  "trace " ++ Text.hexWord t.key ++ " from " ++ t.start.text ++ " (" ++ toString t.instrs.length ++ " ops, " ++
    toString t.guards ++ " guards)"

def traceDump (t : Trace) : String := "\n" ++ heading (traceTitle t) ++ Instr.listing t.instrs

def dump (traces : List Trace) : String :=
  heading "engine program" ++ (Counter.program.listing?.bind Text.ofBytes?).getD "" ++
    String.join (traces.map traceDump)

def line (depth : Nat) (key value : String) : String :=
  String.ofList (List.replicate (2 * depth) ' ') ++ key ++ ":" ++ (if value = "" then "" else " " ++ value) ++ "\n"

def count (depth : Nat) (key : String) (n : UInt64) : String := line depth key (toString n.toNat)

def statistics (e : Engine) : String :=
  let t := e.tracer
  let p := t.profiler
  line 0 "session" e.session.text ++
  count 0 "visits" e.visits ++
  count 0 "recordings" e.recordings ++
  count 0 "replays" e.replays ++
  count 0 "guard-failures" e.guardFailures ++
  count 0 "faults" e.faults ++
  count 0 "journal-errors" e.journalErrors ++
  line 0 "tracer" "" ++
  line 1 "profiler" "" ++
  line 2 "loops" (toString p.loops) ++
  count 2 "total-visits" p.totalVisits ++
  count 2 "hot-events" p.hotEvents ++
  count 2 "resets" p.resets ++
  count 1 "recordings" t.recordings ++
  count 1 "aborted" t.aborted ++
  count 1 "installed" t.installed ++
  count 1 "evicted" t.evicted ++
  count 1 "hits" t.hits ++
  line 1 "cached" (toString t.cache.size)

end HotLoop.Command
