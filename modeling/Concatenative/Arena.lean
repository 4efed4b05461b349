import Concatenative.Handle

/-!
The arena holds the list bodies that handles refer to. Slots are appended and
overwritten, never removed, so a live handle stays live.
-/

namespace Concatenative

structure Arena where
  slots : Array Text := #[]
deriving DecidableEq, Repr

namespace Arena

/-- Handles are numbered from one; past the last number the last one is given again. -/
def nextHandle (arena : Arena) : Handle where
  number := min (arena.slots.size + 1) (Decimal.wordBound - 1)
  positive := by
    have := arena.slots.size.zero_le
    simp only [Decimal.wordBound]
    omega
  bounded := by
    simp only [Decimal.wordBound]
    omega

def mint (arena : Arena) (body : Text) : Handle × Arena :=
  (arena.nextHandle, ⟨arena.slots.push body⟩)

def get? (arena : Arena) (handle : Handle) : Option Text :=
  arena.slots[handle.index]?

def set (arena : Arena) (handle : Handle) (body : Text) : Arena :=
  ⟨arena.slots.setIfInBounds handle.index body⟩

def isLive (arena : Arena) (handle : Handle) : Bool :=
  handle.index < arena.slots.size

def deref? (arena : Arena) (text : Text) : Option Text :=
  (Handle.read? text).bind arena.get?

def derefOrKeep (arena : Arena) (text : Text) : Text :=
  (arena.deref? text).getD text

/-- The live handle that a word names, with its body, unless it is being
expanded already. -/
def liveBody? (arena : Arena) (visiting : List Handle) (word : Text) :
    Option (Handle × Text) :=
  match Handle.read? word with
  | none => none
  | some handle =>
    if handle ∈ visiting then none else (arena.get? handle).map (handle, ·)

def expandWithin (arena : Arena) : Nat → List Handle → Text → Text
  | 0, _, text => Text.unwords (Text.words text)
  | levels + 1, visiting, text =>
    Text.unwords <| (Text.words text).map fun word =>
      match arena.liveBody? visiting word with
      | none => word
      | some (handle, body) => arena.expandWithin levels (handle :: visiting) body

/-- Replace every live handle by the list it names, all the way down. A handle
met inside its own expansion stays as it is. Expansions nest through distinct
live handles, so no more levels than slots are needed. -/
def expand (arena : Arena) (text : Text) : Text :=
  arena.expandWithin arena.slots.size [] text

@[simp] theorem mint_handle (arena : Arena) (body : Text) :
    (arena.mint body).1 = arena.nextHandle := rfl

@[simp] theorem slots_mint (arena : Arena) (body : Text) :
    (arena.mint body).2.slots = arena.slots.push body := rfl

theorem get?_set (arena : Arena) (handle other : Handle) (body : Text) :
    (arena.set handle body).get? other =
      if handle.index = other.index ∧ handle.index < arena.slots.size then some body
      else arena.get? other := by
  simp only [set, get?, Array.getElem?_setIfInBounds]
  grind

@[simp] theorem size_slots_set (arena : Arena) (handle : Handle) (body : Text) :
    (arena.set handle body).slots.size = arena.slots.size := by
  simp [set]

end Arena

end Concatenative
