import Concatenative.Machine

/-!
The arithmetic primitives. Results are exact, and a result outside the range of
integers is a fault. The quotient is cut toward zero and the remainder is never
negative.
-/

namespace Concatenative

namespace MathOp

def written (op : MathOp) (result : Int) : Except Fault Text :=
  if Integer.InRange result then .ok (Integer.write result)
  else .error (.overflow (.math op))

def apply (op : MathOp) (left right : Int) : Except Fault Text :=
  match op with
  | .add => op.written (left + right)
  | .sub => op.written (left - right)
  | .mul => op.written (left * right)
  | .div =>
    if right = 0 then .error (.divisionByZero (.math op))
    else op.written (left.tdiv right)
  | .mod =>
    if right = 0 then .error (.divisionByZero (.math op))
    else .ok (Integer.write (left % right))
  | .greater => .ok (truth (left > right))

def applyText (op : MathOp) (left right : Text) : Except Fault Text :=
  match Integer.read? left, Integer.read? right with
  | some l, some r => op.apply l r
  | none, _ => .error (.undefinedFor (.math op) left)
  | some _, none => .error (.undefinedFor (.math op) right)

end MathOp

/-- Both operands are consumed, even when one is refused. -/
def Machine.performMath (machine : Machine) (op : MathOp) : Outcome :=
  match machine.main with
  | right :: left :: below =>
    let machine := { machine with main := below }
    match op.applyText left right with
    | .ok value => .ok (machine.push value)
    | .error fault => .ok (machine.fault fault)
  | _ => machine.underflow (.math op)

end Concatenative
