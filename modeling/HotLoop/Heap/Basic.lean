import HotLoop.Value.Operand
import HotLoop.Word

namespace HotLoop

structure Heap where
  cells : Array Value := #[]
deriving DecidableEq, Repr, Inhabited

namespace Heap

def size (h : Heap) : Nat := h.cells.size

def contains (h : Heap) (c : CellId) : Bool := c.toNat < h.size

def load? (h : Heap) (c : CellId) : Option Value := h.cells[c.toNat]?

def store? (h : Heap) (c : CellId) (v : Value) : Option Heap :=
  if c.toNat < h.cells.size then some ⟨h.cells.set! c.toNat v⟩ else none

def alloc (h : Heap) (v : Value) : CellId × Heap :=
  (UInt32.ofNat h.cells.size, ⟨h.cells.push v⟩)

def upcoming (h : Heap) (n : Nat) : List CellId :=
  (List.range n).map fun i => UInt32.ofNat (h.size + i)

def allocUnits (h : Heap) (n : Nat) : List CellId × Heap :=
  (h.upcoming n, ⟨h.cells ++ Array.replicate n Value.unit⟩)

def blockLimit : Nat := Nat.pow 2 46

def blockSize? (n : Int64) : Option Nat :=
  if n < 0 ∨ blockLimit < n.toNatClampNeg then none else some n.toNatClampNeg

def newRecord? (h : Heap) (n : Int64) : Option (Value × Heap) :=
  (blockSize? n).map fun k =>
    let (cells, h) := h.allocUnits k
    (Value.record cells, h)

def field (v : Value) (index : Int64) : Except ShapeError CellId :=
  if v.kind = .record then
    match nth? v.fields index with
    | some c => .ok c
    | none => .error (.fieldRange index v.fields.length)
  else .error (.recordExpected v.kind)

def materialize? (h : Heap) : Operand → Option Value
  | .owned v => some v
  | .place c => h.load? c

def promote (h : Heap) : Operand → CellId × Heap
  | .owned v => h.alloc v
  | .place c => (c, h)

def address : Operand → Except ShapeError Value
  | .owned v => .error (.noAddress v.kind)
  | .place c => .ok (Value.pointer c)

def deref (h : Heap) (v : Value) : Except ShapeError CellId :=
  if v.kind = .pointer then
    if h.contains v.cell then .ok v.cell else .error (.dangling v.cell)
  else .error (.pointerExpected v.kind)

end Heap

end HotLoop
