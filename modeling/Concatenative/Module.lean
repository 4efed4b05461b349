import Concatenative.Text.Blank

/-!
Modules are found by name through a loader. A module is source text, or a native
list of steps that define words and push values.
-/

namespace Concatenative

inductive NativeStep where
  | define (name body : Text)
  | push (value : Text)
deriving DecidableEq, Repr

inductive Module where
  | source (text : Text)
  | native (steps : List NativeStep)
deriving DecidableEq, Repr

inductive LoadError where
  | notFound (name : Text)
  | unreadable (report : Text)
deriving DecidableEq, Repr

def LoadError.message : LoadError → Text
  | .notFound name => "File ".toList ++ name ++ " not found".toList
  | .unreadable report => report

abbrev Loader := Text → Except LoadError Module

def Loader.empty : Loader := fun name => .error (.notFound name)

end Concatenative
