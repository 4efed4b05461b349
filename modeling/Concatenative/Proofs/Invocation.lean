import Concatenative.Proofs.Quotation

/-!
Calling a definition and evaluating its body. A definition keeps its body as it was bound, and
evaluation looks behind a body that names a slot. Both put the arguments into the same template, so
a call is the evaluation of the body, unless the body is a handle: that one is called as the word
it is, and what it names is not looked at.
-/

namespace Concatenative

open Text ListText

namespace Handle

variable {text : Text} {handle : Handle}

theorem exists_of_read? (named : read? text = some handle) :
    ∃ digits : Text, text = '&' :: digits ∧ ∀ c ∈ digits, c.isDigit = true := by
  unfold read? at named
  split at named
  · next digits =>
    obtain ⟨number, numeral, _⟩ := Option.bind_eq_some_iff.1 named
    exact ⟨digits, rfl, Template.isDigit_of_read? numeral⟩
  · cases named

theorem noPlaceholder_of_read? (named : read? text = some handle) : NoPlaceholder text := by
  obtain ⟨digits, rfl, all⟩ := exists_of_read? named
  apply noPlaceholder_of_not_mem
  rw [List.mem_cons, not_or]
  exact ⟨by decide, fun mem => absurd (all '$' mem) (by decide)⟩

theorem parse_of_read? (named : read? text = some handle) :
    parse (Template.bodyText text) = [text] := by
  obtain ⟨digits, rfl, all⟩ := exists_of_read? named
  have isWord : IsWord ('&' :: digits) := by
    refine ⟨List.cons_ne_nil _ _, List.forall_mem_cons.2 ⟨by decide, ?_⟩⟩
    exact fun c mem => not_isBlank_of_isDigit (all c mem)
  have isAtom : Node.IsAtom ('&' :: digits) := by
    refine ⟨?_, ?_, ?_⟩ <;> rintro ⟨⟩
  have parsed := parse_word_cons isWord isAtom []
  rwa [parse_unwords_nil] at parsed

end Handle

namespace Machine

section

variable {machine : Machine} {body : Text} (run : Runner)

theorem eval_push (machine : Machine) (body : Text) :
    (machine.push body).eval run =
      match Handle.read? body with
      | none => machine.call run Primitive.eval.name (.ofBody body)
      | some handle =>
        match machine.arena.get? handle with
        | some stored => machine.call run Primitive.eval.name (.ofBody stored)
        | none => .ok (machine.fault (.dangling .eval body)) := rfl

theorem call_of_arity_le (op : Text) {template : Template}
    (enough : template.arity ≤ machine.main.length) :
    machine.call run op template =
      run (template.instantiate (machine.main.take template.arity))
        { machine with main := machine.main.drop template.arity } :=
  if_neg (Nat.not_lt.2 enough)

theorem call_of_length_lt (op : Text) {template : Template}
    (short : machine.main.length < template.arity) :
    machine.call run op template =
      .raised (.underflow op template.arity machine.main.length) machine :=
  if_pos short

theorem call_of_read? {handle : Handle} (named : Handle.read? body = some handle) (op : Text) :
    machine.call run op (.ofBody body) = run [body] machine := by
  have tokens : parse (Template.bodyText body) = [body] := Handle.parse_of_read? named
  have plain : ∀ token ∈ parse (Template.bodyText body), NoPlaceholder token := by
    simpa [tokens] using Handle.noPlaceholder_of_read? named
  have arity : (Template.ofBody body).arity = 0 := Template.arity_of_noPlaceholder plain
  have filled : (Template.ofBody body).instantiate [] = [body] :=
    (Template.instantiate_of_noPlaceholder plain).trans tokens
  rw [call_of_arity_le run op (by simp [arity]), arity, List.take_zero, List.drop_zero, filled]

end

/-- Calling a definition is pushing its body and evaluating it, whatever runs the tokens; if there
are too few arguments, both leave the machine as it was, and only the name they report differs. A
body that is a handle is the exception: the call runs it as a word, and evaluation runs what is in
its slot or reports that there is no such slot. -/
theorem dispatch_eq_eval {environment : Environment} {machine : Machine} {name : Text}
    {definition : Definition}
    (bound : machine.lookup environment name = some (.defined definition)) (rounds : Nat)
    (run : Runner) :
    (Handle.read? definition.body = none →
      (definition.template.arity ≤ machine.main.length →
        machine.dispatch environment rounds run name =
          (machine.push definition.body).eval run) ∧
      (machine.main.length < definition.template.arity →
        machine.dispatch environment rounds run name =
            .raised (.underflow name definition.template.arity machine.main.length) machine ∧
          (machine.push definition.body).eval run =
            .raised (.underflow Primitive.eval.name definition.template.arity
              machine.main.length) machine)) ∧
    ∀ handle, Handle.read? definition.body = some handle →
      machine.dispatch environment rounds run name = run [definition.body] machine ∧
      (machine.push definition.body).eval run =
        match machine.arena.get? handle with
        | some stored => machine.call run Primitive.eval.name (.ofBody stored)
        | none => .ok (machine.fault (.dangling .eval definition.body)) := by
  have called : machine.dispatch environment rounds run name =
      machine.call run name definition.template := by
    rw [dispatch, bound]
  refine ⟨fun unnamed => ?_, fun handle named => ?_⟩
  · -- Evaluation makes the template anew, and it comes out as it was when the name was bound.
    have evaluated : (machine.push definition.body).eval run =
        machine.call run Primitive.eval.name definition.template := by
      rw [eval_push, unnamed, definition.prepared]
    rw [called, evaluated]
    refine ⟨fun enough => ?_, fun short => ?_⟩
    · rw [call_of_arity_le run name enough, call_of_arity_le run Primitive.eval.name enough]
    · exact ⟨call_of_length_lt run name short, call_of_length_lt run Primitive.eval.name short⟩
  · rw [called, definition.prepared, call_of_read? run named, eval_push, named]
    exact ⟨rfl, rfl⟩

theorem dispatch_eq_eval_twice :
    ∃ environment : Environment, ∃ machine : Machine,
      machine.main = ["a".toList] ∧
      machine.user.get? "twice".toList = some (.defined "[ $1 $1 ]".toList) ∧
      machine.user.get? "x".toList = some (.defined "&2".toList) ∧
      machine.dispatch environment 0 (run environment 0) "twice".toList =
        (machine.push "[ $1 $1 ]".toList).eval (run environment 0) ∧
      machine.clear.dispatch environment 0 (run environment 0) "twice".toList =
        .raised (.underflow "twice".toList 1 0) machine.clear ∧
      (machine.clear.push "[ $1 $1 ]".toList).eval (run environment 0) =
        .raised (.underflow "eval".toList 1 0) machine.clear ∧
      machine.dispatch environment 0 (run environment 0) "x".toList =
        run environment 0 ["&2".toList] machine := by
  let environment : Environment := { context := Dictionary.natives }
  let machine : Machine :=
    { main := ["a".toList]
      arena := { slots := #["[ 7 ]".toList] }
      user := (({} : Dictionary).define "twice".toList "[ $1 $1 ]".toList).define "x".toList
        "&2".toList }
  have arity : (Definition.ofBody "[ $1 $1 ]".toList).template.arity = 1 := by decide +kernel
  have full : machine.lookup environment "twice".toList = some (.defined "[ $1 $1 ]".toList) := by
    decide
  have empty : machine.clear.lookup environment "twice".toList =
      some (.defined "[ $1 $1 ]".toList) := full
  have named : machine.lookup environment "x".toList = some (.defined "&2".toList) := by decide
  have called := (dispatch_eq_eval full 0 (run environment 0)).1 rfl
  have short := ((dispatch_eq_eval empty 0 (run environment 0)).1 rfl).2 (by rw [arity]; decide)
  have kept := (dispatch_eq_eval named 0 (run environment 0)).2 ⟨2, by decide, by decide⟩
    (by decide)
  rw [arity] at called short
  exact ⟨environment, machine, rfl, by decide, by decide, called.1 (by decide), short.1, short.2,
    kept.1⟩

/-- A name is bound to a handle before there is such a slot. Calling it leaves the handle, both
while there is none, where evaluation reports it, and after a list has taken the slot, where
evaluation runs the list. -/
theorem dispatch_handle_body :
    ∃ environment : Environment, ∃ before after : Machine,
      environment.context = Dictionary.natives ∧
      ({} : Machine).execute environment 0 "x &1 def".toList = .ok before ∧
      before.evaluate environment 0 "[ 7 ]".toList = .ok after ∧
      before.dispatch environment 0 (run environment 0) "x".toList =
        .ok (before.push "&1".toList) ∧
      (before.push "&1".toList).eval (run environment 0) =
        .ok (before.push "Error in eval: Dangling reference &1".toList) ∧
      after.dispatch environment 0 (run environment 0) "x".toList =
        .ok (after.push "&1".toList) ∧
      (after.push "&1".toList).eval (run environment 0) = .ok (after.push "7".toList) := by
  refine ⟨{ context := Dictionary.natives },
    { user := ({} : Dictionary).define "x".toList "&1".toList },
    { main := ["&1".toList]
      arena := { slots := #["[ 7 ]".toList] }
      user := ({} : Dictionary).define "x".toList "&1".toList }, rfl, ?_⟩
  decide +kernel

end Machine

end Concatenative
