import Concatenative.Machine.Run

/-!
A session evaluates one line after the other. Every line starts with empty
stacks, while definitions and the arena carry over.
-/

namespace Concatenative

/-- What a line is answered with. -/
inductive Reply where
  | shown (stack : Text) (exit : Bool)
  | failed (error : Error)
  | unfinished
deriving DecidableEq, Repr

namespace Reply

def text : Reply → Text
  | .shown stack _ => stack
  | .failed error => "error: ".toList ++ error.message
  | .unfinished => []

/-- Nothing follows a line that asks to exit, or one that is never finished. -/
def ends : Reply → Bool
  | .shown _ exit => exit
  | .failed _ => false
  | .unfinished => true

end Reply

namespace Session

def exitWord : Text := "exit".toList

def asksToExit (machine : Machine) : Bool := machine.main.head? = some exitWord

def stackLine (machine : Machine) : Text := "main: ".toList ++ machine.renderMain

def reply : Outcome → Reply
  | .ok machine => .shown (stackLine machine) (asksToExit machine)
  | .raised error _ => .failed error
  | .unfinished _ => .unfinished

def answer (environment : Environment) (rounds : Nat) (line : Text) (machine : Machine) :
    Reply × Machine :=
  let outcome := machine.clear.evaluate environment rounds line
  (reply outcome, outcome.machine)

structure Transcript where
  output : Text
  machine : Machine
  broken : Bool

/-- Answer lines, one line of output for each, until one of them ends the session
or is no text. -/
def converse (environment : Environment) (rounds : Nat) :
    List (Option Text) → Machine → Transcript
  | [], machine => ⟨[], machine, false⟩
  | none :: _, machine => ⟨[], machine, true⟩
  | some line :: rest, machine =>
    let (reply, machine) := answer environment rounds line machine
    if reply.ends then ⟨reply.text ++ ['\n'], machine, false⟩
    else
      let after := converse environment rounds rest machine
      { after with output := reply.text ++ '\n' :: after.output }

end Session

end Concatenative
