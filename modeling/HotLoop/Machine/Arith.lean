import HotLoop.Machine.Fault

namespace HotLoop.Operator

def onSigned (o : Operator) (l r : Int64) : Except Cause Value :=
  match o with
  | add => .ok (.i64 (l + r))
  | sub => .ok (.i64 (l - r))
  | mul => .ok (.i64 (l * r))
  | div => if r = 0 then .error .divideByZero else .ok (.i64 (l / r))
  | rem => if r = 0 then .error .divideByZero else .ok (.i64 (l % r))
  | xor => .ok (.i64 (l ^^^ r))
  | and => .ok (.i64 (l &&& r))
  | or => .ok (.i64 (l ||| r))
  | shl => .ok (.i64 (l <<< (r &&& 63)))
  | shr => .ok (.i64 (l >>> (r &&& 63)))
  | eq => .ok (.ofBool (l = r))
  | ne => .ok (.ofBool (l ≠ r))
  | lt => .ok (.ofBool (l < r))
  | le => .ok (.ofBool (l ≤ r))
  | gt => .ok (.ofBool (r < l))
  | ge => .ok (.ofBool (r ≤ l))
  | other n => .error (.unknownOperator (other n))

def onUnsigned (o : Operator) (wrap : UInt64 → Value) (l r : UInt64) : Except Cause Value :=
  match o with
  | add => .ok (wrap (l + r))
  | sub => .ok (wrap (l - r))
  | mul => .ok (wrap (l * r))
  | div => if r = 0 then .error .divideByZero else .ok (wrap (l / r))
  | rem => if r = 0 then .error .divideByZero else .ok (wrap (l % r))
  | xor => .ok (wrap (l ^^^ r))
  | and => .ok (wrap (l &&& r))
  | or => .ok (wrap (l ||| r))
  | shl => .ok (wrap (l <<< (r &&& 63)))
  | shr => .ok (wrap (l >>> (r &&& 63)))
  | eq => .ok (.ofBool (l = r))
  | ne => .ok (.ofBool (l ≠ r))
  | lt => .ok (.ofBool (l < r))
  | le => .ok (.ofBool (l ≤ r))
  | gt => .ok (.ofBool (r < l))
  | ge => .ok (.ofBool (r ≤ l))
  | other n => .error (.unknownOperator (other n))

def onBool (o : Operator) (l r : Bool) : Except Cause Value :=
  match o with
  | eq => .ok (.ofBool (l == r))
  | ne => .ok (.ofBool (l != r))
  | lt => .ok (.ofBool (!l && r))
  | le => .ok (.ofBool (!l || r))
  | gt => .ok (.ofBool (l && !r))
  | ge => .ok (.ofBool (l || !r))
  | and => .ok (.ofBool (l && r))
  | or => .ok (.ofBool (l || r))
  | xor => .ok (.ofBool (l != r))
  | o => .error (.mismatch (.operator o .bool))

def apply (o : Operator) (l r : Value) : Except Cause Value :=
  if l.kind = r.kind then
    match l.kind with
    | .i64 => o.onSigned l.int r.int
    | .u64 => o.onUnsigned Value.u64 l.uint r.uint
    | .usize => o.onUnsigned Value.usize l.uint r.uint
    | .bool => o.onBool l.bool r.bool
    | k => .error (.mismatch (.operator o k))
  else .error (.mismatch (.operands l.kind o r.kind))

end HotLoop.Operator
