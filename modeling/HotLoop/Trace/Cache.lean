import HotLoop.Trace.Basic
import Std.Data.HashMap

/-!
The trace cache: a table of traces by loop key, and the keys in the order in which they came in. When the cache
outgrows its bound, the oldest traces go first. A trace that replaces another of its key keeps its place.
-/

namespace HotLoop

structure Cache where
  order : List LoopKey := []
  table : Std.HashMap LoopKey Trace := {}

namespace Cache

def get? (c : Cache) (key : LoopKey) : Option Trace := c.table[key]?

def size (c : Cache) : Nat := c.table.size

def traces (c : Cache) : List Trace := c.order.filterMap c.get?

def dropTo (bound : Nat) : List LoopKey → Std.HashMap LoopKey Trace → Cache × Nat
  | [], table => (⟨[], table⟩, 0)
  | key :: rest, table =>
    if bound < table.size then
      let (c, n) := dropTo bound rest (table.erase key)
      (c, n + 1)
    else (⟨key :: rest, table⟩, 0)

def trim (bound : Int64) (c : Cache) : Cache × Nat :=
  if 0 < bound then dropTo bound.toNatClampNeg c.order c.table else (c, 0)

def insert (bound : Int64) (c : Cache) (t : Trace) : Cache × Nat :=
  let order := if c.table.contains t.key then c.order else c.order ++ [t.key]
  trim bound ⟨order, c.table.insert t.key t⟩

end Cache

end HotLoop
