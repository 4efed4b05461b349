import Concatenative.Machine.Arithmetic
import Concatenative.Machine.Control
import Concatenative.Machine.Inspect
import Concatenative.Machine.Lists

/-!
Running tokens. Executions nest, and the number of levels left goes down with
every nested one, so a run is defined by recursion on that number. Only `loop`
may go on for ever; `rounds` bounds each of its runs.
-/

namespace Concatenative.Machine

def perform (environment : Environment) (rounds : Nat) (run : Runner)
    (primitive : Primitive) (machine : Machine) : Outcome :=
  match primitive with
  | .list op => machine.performList op
  | .math op => machine.performMath op
  | .choose => machine.choose run
  | .loop => machine.loop run rounds
  | .times => machine.times run
  | .define => machine.defineNames
  | .eval => machine.eval run
  | .stash => machine.stash
  | .unstash => machine.unstash
  | .kindOf => machine.kindOf
  | .isKind kind => machine.isKind kind
  | .height => machine.height
  | .discard => machine.discard
  | .load => machine.load environment.loader run

def dispatch (environment : Environment) (rounds : Nat) (run : Runner)
    (name : Text) (machine : Machine) : Outcome :=
  match machine.lookup environment name with
  | none => .ok (machine.push name)
  | some (.native primitive) => machine.perform environment rounds run primitive
  | some (.defined definition) => machine.call run name definition.template

/-- One token. A dollar sign quotes the rest of the token. -/
def step (environment : Environment) (rounds : Nat) (run : Runner)
    (token : Text) (machine : Machine) : Outcome :=
  match token with
  | ['$'] => .ok (machine.push token)
  | '$' :: quoted => .ok (machine.push quoted)
  | _ => (machine.dispatch environment rounds run token).contain

/-- The tokens one after the other, up to the first that does not end well. -/
def steps (step : Text → Machine → Outcome) : Runner
  | [], machine => .ok machine
  | token :: rest, machine =>
    match step token machine with
    | .ok machine => steps step rest machine
    | ended => ended

/-- Run tokens with the given number of levels left. -/
def runWithin (environment : Environment) (rounds : Nat) : Nat → Runner
  | 0, _, machine => .raised (.recursionLimit environment.maxDepth) machine
  | levels + 1, tokens, machine =>
    let deeper := { machine with depth := machine.depth + 1 }
    (steps (step environment rounds (runWithin environment rounds levels)) tokens deeper).map
      fun machine => { machine with depth := machine.depth - 1 }

def run (environment : Environment) (rounds : Nat) (tokens : List Text)
    (machine : Machine) : Outcome :=
  runWithin environment rounds (environment.maxDepth - machine.depth) tokens machine

def execute (environment : Environment) (rounds : Nat) (source : Text)
    (machine : Machine) : Outcome :=
  machine.run environment rounds (parse source)

def evaluate (environment : Environment) (rounds : Nat) (source : Text)
    (machine : Machine) : Outcome :=
  machine.runSource (run environment rounds) source

end Concatenative.Machine
