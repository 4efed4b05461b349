import Concatenative.Handle
import Concatenative.ListText

/-!
Values carry no tag; their kind is read off the text each time it is asked for.
-/

namespace Concatenative

inductive Kind where
  | int
  | bool
  | string
  | list
  | reference
deriving DecidableEq, Repr

namespace Kind

def name : Kind → Text
  | .int => "int".toList
  | .bool => "bool".toList
  | .string => "string".toList
  | .list => "list".toList
  | .reference => "reference".toList

def ofName? (name : Text) : Option Kind :=
  if name = "ref".toList then some .reference
  else [int, bool, string, list, reference].find? (·.name = name)

/-- The one kind of a value. A dollar sign in front settles it before an integer
is looked for. Truth values are integers, so `bool` is never the answer. -/
def of (value : Text) : Kind :=
  if (Handle.read? value).isSome then .reference
  else if ListText.isList value then .list
  else if value.head? = some '$' then .string
  else if (Integer.read? value).isSome then .int
  else .string

/-- Whether a value will do where the kind is wanted: a reference is as good as
the list behind it, and a truth value is an integer. -/
def admits (kind : Kind) (value : Text) : Bool :=
  match kind with
  | .int => (Integer.read? value).isSome
  | .bool => value = truth true || value = truth false
  | .string => Kind.of value = .string
  | .list => ListText.isList value || (Handle.read? value).isSome
  | .reference => (Handle.read? value).isSome

end Kind

end Concatenative
