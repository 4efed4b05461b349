import Concatenative.Text.Blank

/-!
The lines entered so far, oldest first, and a cursor for going through them. The
cursor is one past the newest entry when nobody is browsing.
-/

namespace Concatenative

structure History where
  capacity : Nat
  entries : List Text := []
  cursor : Nat := 0
deriving DecidableEq, Repr

namespace History

def keeps (history : History) (line : Text) : Bool :=
  !(Text.trim line).isEmpty && history.entries.getLast? != some line

/-- Record a line and stop browsing; beyond the capacity the oldest entry goes. -/
def push (history : History) (line : Text) : History :=
  let entries :=
    if history.keeps line && history.capacity > 0 then
      (if history.entries.length = history.capacity then history.entries.drop 1
        else history.entries) ++ [line]
    else history.entries
  { history with entries, cursor := entries.length }

def current (history : History) : Option Text := history.entries[history.cursor]?

def older (history : History) : History :=
  { history with cursor := history.cursor - 1 }

def newer (history : History) : History :=
  if history.cursor < history.entries.length then
    { history with cursor := history.cursor + 1 }
  else history

end History

end Concatenative
