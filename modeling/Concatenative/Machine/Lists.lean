import Concatenative.Machine

/-!
The list primitives. A list operand is inline text or a live reference; a
changed list goes back where it came from, so a reference is overwritten in its
slot while an inline list gives a new text.
-/

namespace Concatenative

namespace ListOp

/-- Where a changed list goes back to. -/
inductive Target where
  | slot (handle : Handle)
  | inline
deriving DecidableEq, Repr

structure Operand where
  target : Target
  items : List Text

structure Effect where
  cells : List Text
  arena : Arena

def operand (op : ListOp) (arena : Arena) (list : Text) : Except Fault Operand :=
  match Handle.read? list with
  | some handle =>
    match arena.get? handle with
    | some body => .ok ⟨.slot handle, ListText.items body⟩
    | none => .error (.dangling (.list op) list)
  | none =>
    if ListText.isList list then .ok ⟨.inline, ListText.items list⟩
    else .error (.undefinedFor (.list op) list)

def position (op : ListOp) (index : Text) (size bound : Nat) : Except Fault Nat :=
  match Integer.read? index with
  | none => .error (.undefinedFor (.list op) index)
  | some i =>
    if 0 ≤ i ∧ i < bound then .ok i.toNat
    else .error (.outOfBounds (.list op) i size)

def Target.store (target : Target) (arena : Arena) (items : List Text) : Text × Arena :=
  match target with
  | .slot handle => (handle.toText, arena.set handle (ListText.render items))
  | .inline => (ListText.render items, arena)

def fresh (arena : Arena) (items : List Text) : Effect :=
  let (handle, arena) := arena.mint (ListText.render items)
  ⟨[handle.toText], arena⟩

end ListOp

namespace Arena

def listSize (arena : Arena) (list : Text) : Except Fault ListOp.Effect := do
  let operand ← ListOp.operand .size arena list
  return ⟨[Decimal.write operand.items.length], arena⟩

def copyList (arena : Arena) (list : Text) : Except Fault ListOp.Effect := do
  let operand ← ListOp.operand .copy arena list
  return ListOp.fresh arena operand.items

def appendLists (arena : Arena) (first second : Text) : Except Fault ListOp.Effect := do
  let first ← ListOp.operand .append arena first
  let second ← ListOp.operand .append arena second
  return ListOp.fresh arena (first.items ++ second.items)

def getItem (arena : Arena) (index list : Text) : Except Fault ListOp.Effect := do
  let operand ← ListOp.operand .get arena list
  let i ← ListOp.position .get index operand.items.length operand.items.length
  return ⟨[operand.items.getD i []], arena⟩

def setItem (arena : Arena) (value index list : Text) : Except Fault ListOp.Effect := do
  let operand ← ListOp.operand .set arena list
  let i ← ListOp.position .set index operand.items.length operand.items.length
  let (stored, arena) := operand.target.store arena (operand.items.set i value)
  return ⟨[stored], arena⟩

def removeItem (arena : Arena) (index list : Text) : Except Fault ListOp.Effect := do
  let operand ← ListOp.operand .remove arena list
  let i ← ListOp.position .remove index operand.items.length operand.items.length
  let (stored, arena) := operand.target.store arena (operand.items.eraseIdx i)
  return ⟨[operand.items.getD i [], stored], arena⟩

def insertItem (arena : Arena) (value index list : Text) : Except Fault ListOp.Effect := do
  let operand ← ListOp.operand .insert arena list
  let i ← ListOp.position .insert index operand.items.length (operand.items.length + 1)
  let (stored, arena) := operand.target.store arena (operand.items.insertIdx i value)
  return ⟨[stored], arena⟩

end Arena

namespace Machine

def settle (machine : Machine) (below : List Text) :
    Except Fault ListOp.Effect → Machine
  | .ok effect => { machine with main := effect.cells ++ below, arena := effect.arena }
  | .error fault => { machine with main := fault.message :: below }

/-- The list is on top, below it the index, and below that the value. -/
def performList (machine : Machine) (op : ListOp) : Outcome :=
  match op, machine.main with
  | .size, list :: below =>
    .ok (machine.settle below (machine.arena.listSize list))
  | .copy, list :: below =>
    .ok (machine.settle below (machine.arena.copyList list))
  | .append, second :: first :: below =>
    .ok (machine.settle below (machine.arena.appendLists first second))
  | .get, list :: index :: below =>
    .ok (machine.settle below (machine.arena.getItem index list))
  | .remove, list :: index :: below =>
    .ok (machine.settle below (machine.arena.removeItem index list))
  | .set, list :: index :: value :: below =>
    .ok (machine.settle below (machine.arena.setItem value index list))
  | .insert, list :: index :: value :: below =>
    .ok (machine.settle below (machine.arena.insertItem value index list))
  | op, _ => machine.underflow (.list op)

end Machine

end Concatenative
