import HotLoop.Trace.Basic
import Std.Data.HashMap

namespace HotLoop

structure Profile where
  visits : UInt64 := 0
  total : UInt64 := 0
  hot : UInt64 := 0
deriving DecidableEq, Repr, Inhabited

structure Profiler where
  threshold : UInt64
  profiles : Std.HashMap LoopKey Profile := {}
  totalVisits : UInt64 := 0
  hotEvents : UInt64 := 0
  resets : UInt64 := 0

namespace Profiler

def profile? (p : Profiler) (key : LoopKey) : Option Profile := p.profiles[key]?

def count (p : Profiler) (key : LoopKey) : UInt64 := ((p.profile? key).map Profile.visits).getD 0

def loops (p : Profiler) : Nat := p.profiles.size

def visit (p : Profiler) (key : LoopKey) : Bool × Profiler :=
  let old := (p.profile? key).getD {}
  let visits := old.visits + 1
  let hot := p.threshold < visits
  let new : Profile :=
    { visits, total := old.total + 1, hot := if hot then old.hot + 1 else old.hot }
  (hot, { p with
    profiles := p.profiles.insert key new
    totalVisits := p.totalVisits + 1
    hotEvents := if hot then p.hotEvents + 1 else p.hotEvents })

def reset (p : Profiler) : Profiler :=
  { p with
    profiles := p.profiles.map fun _ profile => { profile with visits := 0 }
    resets := p.resets + 1 }

def ranksBefore (a b : LoopKey × UInt64) : Bool :=
  b.2 < a.2 || (a.2 == b.2 && a.1 < b.1)

def better (all : Array (LoopKey × UInt64)) (best j : Nat) : Nat :=
  if ranksBefore all[j]! all[best]! then j else best

def bestFrom (all : Array (LoopKey × UInt64)) (i : Nat) : Nat :=
  (List.range' (i + 1) (all.size - (i + 1))).foldl (better all) i

def select (all : Array (LoopKey × UInt64)) (i : Nat) : Array (LoopKey × UInt64) :=
  all.swapIfInBounds i (bestFrom all i)

def ranking (n : Nat) (totals : List (LoopKey × UInt64)) : List LoopKey :=
  (((List.range (min n totals.length)).foldl select totals.toArray).toList.take n).map Prod.fst

def totals (p : Profiler) : List (LoopKey × UInt64) :=
  p.profiles.toList.map fun (key, profile) => (key, profile.total)

def topLimit : Nat := Nat.pow 2 45

def topOf? (totals : List (LoopKey × UInt64)) (n : Int64) : Option (List LoopKey) :=
  let n := n.toNatClampNeg
  if topLimit < n then none else some (ranking n totals)

def top? (p : Profiler) (n : Int64) : Option (List LoopKey) := topOf? p.totals n

end Profiler

end HotLoop
