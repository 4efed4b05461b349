import Concatenative.Dictionary
import Concatenative.Fault

/-!
The machine that runs tokens: two stacks, the arena, the user's definitions and
the number of executions in progress. Every outcome of a run keeps the machine
as the run left it.
-/

namespace Concatenative

/-- The state of a run. Stacks have their top at the head. -/
structure Machine where
  main : List Text := []
  retain : List Text := []
  arena : Arena := {}
  user : Dictionary := {}
  depth : Nat := 0
deriving DecidableEq, Repr

structure Environment where
  context : Dictionary
  loader : Loader := Loader.empty
  maxDepth : Nat := 256

/-- How a run ends. A run is unfinished when a loop used up its rounds. -/
inductive Outcome where
  | ok (machine : Machine)
  | raised (error : Error) (machine : Machine)
  | unfinished (machine : Machine)
deriving DecidableEq, Repr

/-- A way to run a list of tokens. -/
abbrev Runner := List Text → Machine → Outcome

namespace Outcome

def machine : Outcome → Machine
  | .ok machine => machine
  | .raised _ machine => machine
  | .unfinished machine => machine

def map (change : Machine → Machine) : Outcome → Outcome
  | .ok machine => .ok (change machine)
  | .raised error machine => .raised error (change machine)
  | .unfinished machine => .unfinished (change machine)

end Outcome

namespace Machine

def push (machine : Machine) (value : Text) : Machine :=
  { machine with main := value :: machine.main }

def fault (machine : Machine) (fault : Fault) : Machine :=
  machine.push fault.message

def underflow (machine : Machine) (primitive : Primitive) : Outcome :=
  .raised (.underflow primitive.name primitive.needs machine.main.length) machine

def define (machine : Machine) (name body : Text) : Machine :=
  { machine with user := machine.user.define name body }

def clear (machine : Machine) : Machine :=
  { machine with main := [], retain := [] }

/-- The user's definitions come before the context. -/
def lookup (machine : Machine) (environment : Environment) (name : Text) :
    Option Binding :=
  (machine.user.get? name).or (environment.context.get? name)

def renderMain (machine : Machine) : Text :=
  ListText.render (machine.main.reverse.map machine.arena.expand)

end Machine

def Outcome.contain : Outcome → Outcome
  | .raised (.underflow op needs has) machine =>
    .ok (machine.push (Error.underflow op needs has).message)
  | outcome => outcome

end Concatenative
