import Concatenative.Module
import Concatenative.Primitive

/-!
What can go wrong. A fault is an answer: its message is pushed as a value and
the run goes on. An error ends the call that met it; of the errors only
underflow is recovered from, by pushing its message too.
-/

namespace Concatenative

inductive Fault where
  | undefinedFor (op : Primitive) (value : Text)
  | divisionByZero (op : Primitive)
  | overflow (op : Primitive)
  | outOfBounds (op : Primitive) (index : Int) (size : Nat)
  | dangling (op : Primitive) (handle : Text)
  | load (error : LoadError)
deriving DecidableEq, Repr

inductive Error where
  | underflow (op : Text) (needs has : Nat)
  | negativeDiscard (count : Int)
  | recursionLimit (limit : Nat)
deriving DecidableEq, Repr

def errorIn (op : Text) : Text := "Error in ".toList ++ op ++ ": ".toList

def Fault.message : Fault → Text
  | .undefinedFor op value =>
    errorIn op.name ++ "Not defined for value ".toList ++ value ++
      " of type ".toList ++ (Kind.of value).name
  | .divisionByZero op => errorIn op.name ++ "Division by zero".toList
  | .overflow op => errorIn op.name ++ "Integer overflow".toList
  | .outOfBounds op index size =>
    errorIn op.name ++ "Index ".toList ++ Integer.write index ++
      " out of bounds for list of size ".toList ++ Decimal.write size
  | .dangling op handle => errorIn op.name ++ "Dangling reference ".toList ++ handle
  | .load error => errorIn Primitive.load.name ++ error.message

def Error.message : Error → Text
  | .underflow op needs has =>
    errorIn op ++ "Needs ".toList ++ Decimal.write needs ++
      " elements, Stack has ".toList ++ Decimal.write has
  | .negativeDiscard _ => "You can't remove what's not there!".toList
  | .recursionLimit limit =>
    "recursion limit of ".toList ++ Decimal.write limit ++
      " nested executions exceeded".toList

end Concatenative
