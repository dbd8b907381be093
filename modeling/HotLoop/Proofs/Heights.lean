import HotLoop.Proofs.Checked
import HotLoop.Proofs.Lap

namespace HotLoop

def Instr.rise (i : Instr) : Int :=
  match i.code with
  | .const | .tuple | .load => 1
  | .pop | .tupleInit | .getIndex | .store | .binary | .checkedBinary | .guard | .skipIf | .jumpBackIf => -1
  | .tupleSet => -2
  | .assignIndex => -3
  | .array => 1 - i.n.toNatClampNeg
  | _ => 0

namespace Exec

variable {α β : Type} {j k : Int} {prog : Program}

end Exec

end HotLoop
