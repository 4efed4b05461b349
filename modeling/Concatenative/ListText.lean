import Concatenative.Text.Blank

/-!
Lists are text: elements between brackets, separated by blanks. Taking a list
apart keeps a nested bracket group together as one element; putting one together
writes the canonical form with single spaces.
-/

namespace Concatenative.ListText

def opening : Text := ['[']

def closing : Text := [']']

def isList (text : Text) : Bool := text.head? = some '['

/-- The text between the brackets, trimmed. A missing bracket is no obstacle. -/
def inner (list : Text) : Text :=
  let body := match list with
    | '[' :: rest => rest
    | _ => list
  Text.trim (Text.stripEnd ']' body)

/-- Collect the elements. `group` holds the words of the open bracket group,
newest first, and `depth` counts its open brackets; a group that is still open
at the end is closed there. A closing bracket outside all groups is a word. -/
def gather : Nat → List Text → List Text → List Text
  | depth, group, [] =>
    if depth = 0 then []
    else [Text.unwords (group.reverse ++ List.replicate depth closing)]
  | depth, group, word :: rest =>
    if word = opening then gather (depth + 1) (word :: group) rest
    else if depth = 0 then word :: gather 0 [] rest
    else if word = closing then
      if depth = 1 then Text.unwords (word :: group).reverse :: gather 0 [] rest
      else gather (depth - 1) (word :: group) rest
    else gather depth (word :: group) rest

def items (list : Text) : List Text :=
  gather 0 [] (Text.words (inner list))

/-- The canonical form; the empty list is two brackets with a space between. -/
def render (elements : List Text) : Text :=
  "[ ".toList ++ elements.flatMap (· ++ [' ']) ++ closing

end Concatenative.ListText
