import HotLoop.Code.Program
import HotLoop.Counter.Native

namespace HotLoop.Counter

def slotProgram : Int64 := 1
def slotCell : Int64 := 2
def slotPc : Int64 := 3
def slotOpcode : Int64 := 4

def size (n : UInt64) : Instr := Instr.const (Value.usize n)

def header : Position := ⟨0, 1⟩

def checkEnd : List Instr :=
  [.load slotPc, .load slotProgram, .plain .len, .binary .ge, .sized .skipIf 40]

def fetch : List Instr :=
  [.load slotPc, .load slotProgram, .plain .getIndex, .store slotOpcode]

def unlessOpcode (op : UInt64) : List Instr :=
  [.load slotOpcode, size op, .binary .eq, .plain .not, .sized .skipIf 6]

def change (slot : Int64) (o : Operator) : List Instr :=
  [.load slot, size 1, .binary o, .store slot]

def repeatStep : List Instr :=
  [.load slotCell, size 0, .binary .gt, .plain .not, .sized .skipIf 6] ++ change slotPc .sub ++
    [.sized .jumpBack 39]

def stepCode : List Instr :=
  [.plain .noop] ++ checkEnd ++ fetch ++
    unlessOpcode dec ++ change slotCell .sub ++ [.sized .skip 21] ++
    unlessOpcode inc ++ change slotCell .add ++ [.sized .skip 11] ++
    repeatStep ++
    change slotPc .add ++ [.sized .jumpBack 44] ++
    [.plain .ret]

def program : Program :=
  ⟨some [some { name := Text.bytes "step", locals := 5, mergePoint := header.pc, body := some stepCode }]⟩

end HotLoop.Counter
