import Concatenative.Kind

/-!
The primitive operations: their names and how many cells each one needs.
-/

namespace Concatenative

inductive ListOp where
  | size
  | get
  | set
  | remove
  | insert
  | append
  | copy
deriving DecidableEq, Repr

inductive MathOp where
  | add
  | sub
  | mul
  | div
  | mod
  | greater
deriving DecidableEq, Repr

inductive Primitive where
  | list (op : ListOp)
  | math (op : MathOp)
  | choose
  | loop
  | times
  | define
  | eval
  | stash
  | unstash
  | kindOf
  | isKind (kind : Kind)
  | height
  | discard
  | load
deriving DecidableEq, Repr

def ListOp.name : ListOp → Text
  | .size => "size".toList
  | .get => "get".toList
  | .set => "set".toList
  | .remove => "remove".toList
  | .insert => "insert".toList
  | .append => "append".toList
  | .copy => "copy".toList

def ListOp.needs : ListOp → Nat
  | .size | .copy => 1
  | .get | .remove | .append => 2
  | .set | .insert => 3

def MathOp.name : MathOp → Text
  | .add => "+".toList
  | .sub => "-".toList
  | .mul => "*".toList
  | .div => "/".toList
  | .mod => "mod".toList
  | .greater => ">".toList

namespace Primitive

def all : List Primitive :=
  [.list .size, .list .get, .list .set, .list .remove, .list .insert,
    .list .append, .list .copy,
    .math .add, .math .sub, .math .mul, .math .div, .math .mod, .math .greater,
    .choose, .loop, .times, .define, .eval, .stash, .unstash, .kindOf,
    .isKind .int, .isKind .list, .isKind .bool, .isKind .reference,
    .isKind .string, .height, .discard, .load]

def name : Primitive → Text
  | .list op => op.name
  | .math op => op.name
  | .choose => "if".toList
  | .loop => "loop".toList
  | .times => "rep".toList
  | .define => "def".toList
  | .eval => "eval".toList
  | .stash => ">r".toList
  | .unstash => "r>".toList
  | .kindOf => "type".toList
  | .isKind .int => "int?".toList
  | .isKind .list => "list?".toList
  | .isKind .bool => "bool?".toList
  | .isKind .reference => "ref?".toList
  | .isKind .string => "string?".toList
  | .height => "debug.size".toList
  | .discard => "debug.remove".toList
  | .load => "import".toList

/-- The least number of cells: on the retain stack for `unstash`, on the main
stack for every other primitive. -/
def needs : Primitive → Nat
  | .list op => op.needs
  | .math _ => 2
  | .choose => 3
  | .times | .define => 2
  | _ => 1

def ofName? (name : Text) : Option Primitive :=
  all.find? (·.name = name)

end Primitive

end Concatenative
