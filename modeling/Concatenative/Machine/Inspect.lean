import Concatenative.Machine

/-!
Primitives that move cells between the stacks, tell the kind of a value, count
cells and remove them.
-/

namespace Concatenative.Machine

def stash (machine : Machine) : Outcome :=
  match machine.main with
  | value :: below =>
    .ok { machine with main := below, retain := value :: machine.retain }
  | [] => machine.underflow .stash

def unstash (machine : Machine) : Outcome :=
  match machine.retain with
  | value :: below =>
    .ok { machine with main := value :: machine.main, retain := below }
  | [] => .raised (.underflow Primitive.unstash.name Primitive.unstash.needs 0) machine

def kindOf (machine : Machine) : Outcome :=
  match machine.main with
  | value :: _ => .ok (machine.push (Kind.of value).name)
  | [] => machine.underflow .kindOf

def isKind (machine : Machine) (kind : Kind) : Outcome :=
  match machine.main with
  | value :: below =>
    .ok { machine with main := truth (kind.admits value) :: below }
  | [] => machine.underflow (.isKind kind)

/-- The word `main` selects the main stack and any other the retain stack. -/
def height (machine : Machine) : Outcome :=
  match machine.main with
  | selector :: below =>
    let size := if selector = "main".toList then below.length else machine.retain.length
    .ok { machine with main := Decimal.write size :: below }
  | [] => machine.underflow .height

/-- A negative count is the one mistake of a program that ends its run. -/
def discard (machine : Machine) : Outcome :=
  match machine.main with
  | count :: below =>
    let machine := { machine with main := below }
    match Integer.read? count with
    | none => .ok (machine.fault (.undefinedFor .discard count))
    | some n =>
      if n < 0 then .raised (.negativeDiscard n) machine
      else if below.length < n.toNat then
        .raised (.underflow Primitive.discard.name n.toNat below.length) machine
      else .ok { machine with main := below.drop n.toNat }
  | [] => machine.underflow .discard

end Concatenative.Machine
