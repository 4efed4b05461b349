import Concatenative.Text.Decimal

/-!
Handles name the slots of an arena. In source a handle is an ampersand followed
by a positive numeral below 2^64.
-/

namespace Concatenative

/-- A one-based slot number. -/
structure Handle where
  number : Nat
  positive : 0 < number
  bounded : number < Decimal.wordBound
deriving DecidableEq, Repr

namespace Handle

def ofNat? (n : Nat) : Option Handle :=
  if h : 0 < n ∧ n < Decimal.wordBound then some ⟨n, h.1, h.2⟩ else none

def read? : Text → Option Handle
  | '&' :: digits => (Decimal.read? digits).bind ofNat?
  | _ => none

def toText (handle : Handle) : Text := '&' :: Decimal.write handle.number

def index (handle : Handle) : Nat := handle.number - 1

@[simp] theorem read?_toText (handle : Handle) : read? handle.toText = some handle := by
  simp [read?, toText, ofNat?, handle.positive, handle.bounded]

end Handle

end Concatenative
