import Concatenative.Text.Blank

/-!
Cutting a sequence at every separator, and cutting bytes into decoded lines.
-/

namespace Concatenative

/-- The parts between separators, one more than there are separators. -/
def pieces {α : Type} [DecidableEq α] (separator : α) (xs : List α) : List (List α) :=
  let (first, rest) := xs.foldr
    (fun x (first, rest) =>
      if x = separator then ([], first :: rest) else (x :: first, rest))
    ([], [])
  first :: rest

namespace Encoding

def invalid : Text := "stream did not contain valid UTF-8".toList

def decode? (bytes : List UInt8) : Option Text :=
  (String.fromUTF8? ⟨bytes.toArray⟩).map String.toList

def lineFeed : UInt8 := 10

def carriageReturn : UInt8 := 13

/-- A line that was ended may have a carriage return before its end. -/
def dropCarriageReturn (line : List UInt8) : List UInt8 :=
  if line.getLast? = some carriageReturn then line.dropLast else line

def lines (bytes : List UInt8) : List (List UInt8) :=
  let parts := pieces lineFeed bytes
  parts.dropLast.map dropCarriageReturn ++ parts.getLast?.toList.filter (!·.isEmpty)

def decodedLines (bytes : List UInt8) : List (Option Text) :=
  (lines bytes).map decode?

end Encoding

end Concatenative
