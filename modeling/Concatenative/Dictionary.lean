import Concatenative.Primitive
import Concatenative.Template

/-!
Dictionaries bind names to primitives and to definitions. Entries keep the order in
which their names were first bound, and a name that is bound again keeps its place.
-/

namespace Concatenative

/-- A body as it was bound, and the template that was made of it then. Calls fill in
the template and do not look at the body again. -/
structure Definition where
  body : Text
  template : Template
  prepared : template = Template.ofBody body
deriving Repr

namespace Definition

def ofBody (body : Text) : Definition := ⟨body, Template.ofBody body, rfl⟩

instance : Coe Text Definition := ⟨ofBody⟩

instance : Coe Definition Text := ⟨body⟩

theorem eq_of_body_eq {left right : Definition} (same : left.body = right.body) :
    left = right := by
  obtain ⟨body, template, prepared⟩ := left
  obtain ⟨other, _, otherPrepared⟩ := right
  cases same
  cases prepared
  cases otherPrepared
  rfl

instance : DecidableEq Definition := fun left right =>
  decidable_of_iff (left.body = right.body) ⟨eq_of_body_eq, congrArg body⟩

end Definition

inductive Binding where
  | native (primitive : Primitive)
  | defined (definition : Definition)
deriving DecidableEq, Repr

structure Dictionary where
  entries : List (Text × Binding) := []
deriving DecidableEq, Repr

namespace Dictionary

def lookupEntry (name : Text) : List (Text × Binding) → Option Binding
  | [] => none
  | entry :: rest => if entry.1 = name then some entry.2 else lookupEntry name rest

def get? (dictionary : Dictionary) (name : Text) : Option Binding :=
  lookupEntry name dictionary.entries

def contains (dictionary : Dictionary) (name : Text) : Bool :=
  (dictionary.get? name).isSome

def size (dictionary : Dictionary) : Nat := dictionary.entries.length

def insertEntry (name : Text) (binding : Binding) :
    List (Text × Binding) → List (Text × Binding)
  | [] => [(name, binding)]
  | entry :: rest =>
    if entry.1 = name then (name, binding) :: rest
    else entry :: insertEntry name binding rest

def insert (dictionary : Dictionary) (name : Text) (binding : Binding) : Dictionary :=
  ⟨insertEntry name binding dictionary.entries⟩

def define (dictionary : Dictionary) (name body : Text) : Dictionary :=
  dictionary.insert name (.defined body)

def defineAll (dictionary : Dictionary) (definitions : List (Text × Text)) : Dictionary :=
  definitions.foldl (fun dictionary (name, body) => dictionary.define name body) dictionary

/-- The order of names: by the first character that differs, and a name before
its extensions. -/
def inOrder : Text → Text → Bool
  | [], _ => true
  | _ :: _, [] => false
  | a :: as, b :: bs => if a = b then inOrder as bs else a.toNat < b.toNat

def sorted (dictionary : Dictionary) : List (Text × Binding) :=
  dictionary.entries.mergeSort fun a b => inOrder a.1 b.1

def natives : Dictionary :=
  ⟨Primitive.all.map fun primitive => (primitive.name, .native primitive)⟩

theorem lookupEntry_insertEntry (name other : Text) (binding : Binding)
    (entries : List (Text × Binding)) :
    lookupEntry other (insertEntry name binding entries) =
      if other = name then some binding else lookupEntry other entries := by
  induction entries with
  | nil => simp [insertEntry, lookupEntry, eq_comm]
  | cons entry rest ih =>
    simp only [insertEntry]
    split
    · next same => grind [lookupEntry]
    · next differ => grind [lookupEntry]

theorem get?_insert (dictionary : Dictionary) (name other : Text) (binding : Binding) :
    (dictionary.insert name binding).get? other =
      if other = name then some binding else dictionary.get? other :=
  lookupEntry_insertEntry name other binding dictionary.entries

theorem mem_entries_of_get? {dictionary : Dictionary} {name : Text}
    {binding : Binding} (found : dictionary.get? name = some binding) :
    (name, binding) ∈ dictionary.entries := by
  obtain ⟨entries⟩ := dictionary
  unfold get? at found
  induction entries with
  | nil => cases found
  | cons entry rest ih =>
    rw [lookupEntry] at found
    split at found
    · next same =>
      have first : (name, binding) = entry := by
        rw [← same, ← Option.some.inj found]
      rw [first]
      exact List.mem_cons_self
    · exact List.mem_cons_of_mem entry (ih found)

end Dictionary

end Concatenative
