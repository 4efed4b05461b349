import Concatenative.Library
import Concatenative.Machine.Run

/-!
Sample programs, evaluated on a fresh machine with the library words.
-/

namespace Concatenative.Programs

def countdown : Text := "10000 [ 1 - dup 0 > ] loop".toList

def factorial : Text :=
  "[ fact ] [ dup 1 > [ dup 1 - fact * ] [ ] if ] def [ 20 fact drop ] 200 rep".toList

def buildList (size : Nat) : Text :=
  "[ ] [ dup >r size dup r> insert ] ".toList ++ Decimal.write size ++ " rep".toList

def sumList : Text :=
  "0 >r [ dup size 0 > [ 0 swap remove r> + >r t ] [ f ] if ] loop r>".toList

def listSum : Text := buildList 500 ++ ' ' :: sumList

/-- The named program, or the text itself as a program. -/
def named (program : Text) : Text :=
  if program = "countdown".toList then countdown
  else if program = "factorial".toList then factorial
  else if program = "list_sum".toList then listSum
  else program

def run (rounds : Nat) (source : Text) : Text :=
  match ({} : Machine).evaluate { context := Library.dictionary } rounds source with
  | .ok machine => machine.renderMain
  | .raised error _ => "error: ".toList ++ error.message
  | .unfinished _ => []

end Concatenative.Programs
