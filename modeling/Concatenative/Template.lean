import Concatenative.Block

/-!
Templates: token lists with numbered holes. A hole is a dollar sign followed by
a numeral from 1 below 2^64, as long as the digits go; any other dollar sign is
an ordinary character.
-/

namespace Concatenative

inductive Segment where
  | char (c : Char)
  | hole (index : Nat)
deriving DecidableEq, Repr

namespace Segment

def index? (digits : Text) : Option Nat :=
  (Decimal.read? digits).bind fun n =>
    if 0 < n ∧ n < Decimal.wordBound then some n else none

/-- Scan for holes, first skipping the digits of the hole just found. -/
def scan : Nat → Text → List Segment
  | _, [] => []
  | skip + 1, _ :: rest => scan skip rest
  | 0, c :: rest =>
    let digits := rest.takeWhile Char.isDigit
    match (if c = '$' then index? digits else none) with
    | some index => .hole index :: scan digits.length rest
    | none => .char c :: scan 0 rest

def ofText (text : Text) : List Segment := scan 0 text

def fill (arguments : List Text) : Segment → Text
  | .char c => [c]
  | .hole index =>
    match arguments[index - 1]? with
    | some argument => argument
    | none => '$' :: Decimal.write index

def index : Segment → Option Nat
  | .char _ => none
  | .hole index => some index

end Segment

/-- How far the numbers 1, 2, 3, … all occur in the list. -/
def unbrokenCount (indexes : List Nat) : Nat :=
  ((List.range' 1 indexes.length).takeWhile (indexes.contains ·)).length

structure Template where
  tokens : List (List Segment)
deriving DecidableEq, Repr

namespace Template

def ofSource (source : Text) : Template :=
  ⟨(parse source).map Segment.ofText⟩

def ofBody (body : Text) : Template :=
  ofSource (if ListText.isList body then ListText.inner body else body)

/-- The number of arguments: holes count from 1 up to the first gap. -/
def arity (template : Template) : Nat :=
  unbrokenCount (template.tokens.flatten.filterMap Segment.index)

/-- Put the arguments into the holes, the first argument into hole 1. Holes past
the arity stay. -/
def instantiate (template : Template) (arguments : List Text) : List Text :=
  let arguments := arguments.take template.arity
  template.tokens.map fun token => token.flatMap (Segment.fill arguments)

end Template

end Concatenative
