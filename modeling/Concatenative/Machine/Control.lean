import Concatenative.Machine

/-!
Primitives that run bodies: evaluation, choice, repetition, definition and
modules. They are given the way to run tokens, so that nothing here recurs
through the machine.
-/

namespace Concatenative.Machine

/-- Run a template on arguments from the top of the main stack, the topmost being
the first. -/
def call (run : Runner) (op : Text) (template : Template) (machine : Machine) : Outcome :=
  if machine.main.length < template.arity then
    .raised (.underflow op template.arity machine.main.length) machine
  else
    run (template.instantiate (machine.main.take template.arity))
      { machine with main := machine.main.drop template.arity }

def eval (run : Runner) (machine : Machine) : Outcome :=
  match machine.main with
  | [] => machine.underflow .eval
  | value :: below =>
    let machine := { machine with main := below }
    match Handle.read? value with
    | none => machine.call run Primitive.eval.name (.ofBody value)
    | some handle =>
      match machine.arena.get? handle with
      | some body => machine.call run Primitive.eval.name (.ofBody body)
      | none => .ok (machine.fault (.dangling .eval value))

/-- Push a body and evaluate it; a lack of arguments becomes a value. -/
def evalBody (run : Runner) (body : Text) (machine : Machine) : Outcome :=
  ((machine.push body).eval run).contain

/-- Evaluate the condition below the two bodies, then the body it selects, or
none if it is no truth value. The bodies are looked up before the condition runs. -/
def choose (run : Runner) (machine : Machine) : Outcome :=
  match machine.main with
  | onFalse :: onTrue :: condition :: below =>
    let onFalse := machine.arena.derefOrKeep onFalse
    let onTrue := machine.arena.derefOrKeep onTrue
    match { machine with main := below }.evalBody run condition with
    | .ok machine =>
      match machine.main with
      | [] => .raised (.underflow Primitive.choose.name 1 0) machine
      | flag :: below =>
        let machine := { machine with main := below }
        if flag = truth true then machine.evalBody run onTrue
        else if flag = truth false then machine.evalBody run onFalse
        else .ok machine
    | ended => ended
  | _ => machine.underflow .choose

def loopRounds (run : Runner) (body : Text) : Nat → Machine → Outcome
  | 0, machine => .unfinished machine
  | rounds + 1, machine =>
    match machine.evalBody run body with
    | .ok machine =>
      match machine.main with
      | [] => .raised (.underflow Primitive.loop.name 1 0) machine
      | flag :: below =>
        let machine := { machine with main := below }
        if flag = truth true then loopRounds run body rounds machine else .ok machine
    | ended => ended

def loop (run : Runner) (rounds : Nat) (machine : Machine) : Outcome :=
  match machine.main with
  | body :: below => { machine with main := below }.loopRounds run body rounds
  | [] => machine.underflow .loop

def repeatBody (run : Runner) (body : Text) : Nat → Machine → Outcome
  | 0, machine => .ok machine
  | count + 1, machine =>
    match machine.evalBody run body with
    | .ok machine => repeatBody run body count machine
    | ended => ended

def times (run : Runner) (machine : Machine) : Outcome :=
  match machine.main with
  | count :: body :: below =>
    let machine := { machine with main := below }
    match Integer.read? count with
    | none => .ok (machine.fault (.undefinedFor .times count))
    | some n => machine.repeatBody run body n.toNat
  | _ => machine.underflow .times

/-- The names that a definition binds. One leading colon is decoration. -/
def boundNames (names : Text) : List Text :=
  let names := if ListText.isList names then ListText.inner names else names
  let bare (word : Text) := match word with
    | ':' :: name => name
    | name => name
  ((Text.words names).map bare).filter (!·.isEmpty)

def defineNames (machine : Machine) : Outcome :=
  match machine.main with
  | body :: names :: below =>
    let body := machine.arena.derefOrKeep body
    let names := machine.arena.derefOrKeep names
    .ok ((boundNames names).foldl (fun machine name => machine.define name body)
      { machine with main := below })
  | _ => machine.underflow .define

/-- Run top-level source: every block becomes a fresh reference. -/
def runSource (run : Runner) (source : Text) (machine : Machine) : Outcome :=
  let (tokens, arena) := parseMinting machine.arena source
  run tokens { machine with arena }

def nativeStep (machine : Machine) : NativeStep → Machine
  | .define name body => machine.define name body
  | .push value => machine.push value

def load (loader : Loader) (run : Runner) (machine : Machine) : Outcome :=
  match machine.main with
  | name :: below =>
    let machine := { machine with main := below }
    match loader name with
    | .ok (.source text) => machine.runSource run text
    | .ok (.native steps) => .ok (steps.foldl nativeStep machine)
    | .error error => .ok (machine.fault (.load error))
  | [] => machine.underflow .load

end Concatenative.Machine
