import Concatenative.Proofs.Execution
import Concatenative.Proofs.Expansion
import Concatenative.Proofs.ListOperations
import Concatenative.Proofs.Arithmetic

/-!
Operations that fail. A lack of operands is found before anything is touched, so it leaves the
machine as it was under one message. An operation that has its operands takes exactly these and
ends well: it leaves data, or the message of a fault, and after a fault the arena is as it was.
Data are words and lists, which no message is, so the cell on top tells the two endings apart.
-/

namespace Concatenative

open Text ListText

def Text.IsDatum (text : Text) : Prop := IsWord text ∨ isList text = true

theorem Fault.not_isDatum_message (fault : Fault) : ¬fault.message.IsDatum := by
  rintro (word | list)
  · obtain ⟨c, mem, blank⟩ := fault.isSpaced_message
    rw [word.2 c mem] at blank
    cases blank
  · rw [isList, fault.head?_message] at list
    exact absurd list (by decide)

theorem Decimal.isWord_write (n : Nat) : IsWord (Decimal.write n) :=
  ⟨Nat.toDigits_ne_nil, fun _ mem => not_isBlank_of_isDigit (isDigit_of_mem_write mem)⟩

theorem Integer.isWord_write (n : Int) : IsWord (Integer.write n) := by
  cases n with
  | ofNat n => exact Decimal.isWord_write n
  | negSucc n =>
    refine ⟨List.cons_ne_nil _ _, List.forall_mem_cons.2 ⟨by decide, ?_⟩⟩
    exact (Decimal.isWord_write (n + 1)).2

theorem ListText.IsElement.isDatum {text : Text} (element : IsElement text) : text.IsDatum := by
  rcases element with ⟨word, -⟩ | ⟨⟨first, -⟩, joined⟩
  · exact .inl word
  · right
    obtain ⟨rest, split⟩ := List.head?_eq_some_iff.1 first
    rw [← joined, split]
    cases rest with
    | nil => rfl
    | cons word rest => rfl

namespace ListOp

def Pushes (op : ListOp) (cells : List Text) : Prop :=
  cells.length = (if op = .remove then 2 else 1) ∧ ∀ cell ∈ cells, cell.IsDatum

theorem resolves_of_operand {op : ListOp} {arena : Arena} {list : Text} {operand : Operand}
    (taken : ListOp.operand op arena list = .ok operand) :
    Resolves arena list operand.target operand.items := by
  unfold ListOp.operand at taken
  split at taken
  · next handle named =>
    split at taken
    · next body live =>
      cases taken
      exact .slot named live
    · cases taken
  · split at taken
    · next bracketed =>
      cases taken
      exact .inline bracketed
    · cases taken

theorem lt_of_position {op : ListOp} {index : Text} {size bound i : Nat}
    (found : position op index size bound = .ok i) : i < bound := by
  unfold position at found
  split at found
  · cases found
  · split at found
    · cases found
      omega
    · cases found

theorem isDatum_getD {op other : ListOp} {arena : Arena} {index list : Text} {operand : Operand}
    {i : Nat} (taken : ListOp.operand op arena list = .ok operand)
    (found : position other index operand.items.length operand.items.length = .ok i) :
    (operand.items.getD i []).IsDatum := by
  have inside : i < operand.items.length := lt_of_position found
  rw [List.getD_eq_getElem?_getD, List.getElem?_eq_getElem inside, Option.getD_some]
  exact ((resolves_of_operand taken).isElement (List.getElem_mem inside)).isDatum

theorem isDatum_store (target : Target) (arena : Arena) (items : List Text) :
    (target.store arena items).1.IsDatum := by
  cases target with
  | slot handle => exact .inl handle.isWord_toText
  | inline => exact .inr (isList_render items)

theorem pushes_singleton {op : ListOp} (other : op ≠ .remove) {cell : Text}
    (datum : cell.IsDatum) : op.Pushes [cell] := by
  refine ⟨(if_neg other).symm, ?_⟩
  simpa using datum

theorem Computes.pushes {op : ListOp} {arena : Arena} {effect : Effect}
    (computes : op.Computes arena (.ok effect)) : op.Pushes effect.cells := by
  generalize same : Except.ok effect = result at computes
  cases computes with
  | size list =>
    obtain ⟨operand, -, finish⟩ := exists_of_bind_eq_ok same.symm
    cases finish
    exact pushes_singleton (by decide) (.inl (Decimal.isWord_write _))
  | copy list =>
    obtain ⟨operand, -, finish⟩ := exists_of_bind_eq_ok same.symm
    cases finish
    exact pushes_singleton (by decide) (.inl (Handle.isWord_toText _))
  | append first second =>
    obtain ⟨first, -, further⟩ := exists_of_bind_eq_ok same.symm
    obtain ⟨second, -, finish⟩ := exists_of_bind_eq_ok further
    cases finish
    exact pushes_singleton (by decide) (.inl (Handle.isWord_toText _))
  | get index list =>
    obtain ⟨operand, taken, further⟩ := exists_of_bind_eq_ok same.symm
    obtain ⟨i, found, finish⟩ := exists_of_bind_eq_ok further
    cases finish
    exact pushes_singleton (by decide) (isDatum_getD taken found)
  | remove index list =>
    obtain ⟨operand, taken, further⟩ := exists_of_bind_eq_ok same.symm
    obtain ⟨i, found, finish⟩ := exists_of_bind_eq_ok further
    cases finish
    refine ⟨rfl, ?_⟩
    simp only [List.forall_mem_cons]
    exact ⟨isDatum_getD taken found, isDatum_store _ _ _, List.forall_mem_nil _⟩
  | set value index list =>
    obtain ⟨operand, -, further⟩ := exists_of_bind_eq_ok same.symm
    obtain ⟨i, -, finish⟩ := exists_of_bind_eq_ok further
    cases finish
    exact pushes_singleton (by decide) (isDatum_store _ _ _)
  | insert value index list =>
    obtain ⟨operand, -, further⟩ := exists_of_bind_eq_ok same.symm
    obtain ⟨i, -, finish⟩ := exists_of_bind_eq_ok further
    cases finish
    exact pushes_singleton (by decide) (isDatum_store _ _ _)

end ListOp

namespace MathOp

theorem isDatum_of_written {op : MathOp} {result : Int} {value : Text}
    (done : op.written result = .ok value) : value.IsDatum := by
  unfold written at done
  split at done
  · cases done
    exact .inl (Integer.isWord_write result)
  · cases done

theorem isDatum_of_apply {op : MathOp} {a b : Int} {value : Text}
    (done : op.apply a b = .ok value) : value.IsDatum := by
  cases op with
  | add | sub | mul => exact isDatum_of_written done
  | div =>
    simp only [apply] at done
    split at done
    · cases done
    · exact isDatum_of_written done
  | mod =>
    simp only [apply] at done
    split at done
    · cases done
    · cases done
      exact .inl (Integer.isWord_write _)
  | greater =>
    cases done
    unfold truth
    split <;> exact .inl (by decide)

theorem isDatum_of_applyText {op : MathOp} {left right value : Text}
    (done : op.applyText left right = .ok value) : value.IsDatum := by
  unfold applyText at done
  split at done
  · exact isDatum_of_apply done
  · cases done
  · cases done

end MathOp

/-- The primitives that compute a result from their operands and run nothing. -/
def Primitive.isOperation : Primitive → Bool
  | .list _ | .math _ => true
  | _ => false

/-- What an operation leaves for its operands: the message of a fault, with the arena as it was,
or data, two of them only where an element is taken out of a list. -/
def Primitive.Settles (primitive : Primitive) (before after : Arena) (cells : List Text) : Prop :=
  (∃ fault : Fault, cells = [fault.message]) ∧ after = before ∨
    (∀ fault : Fault, fault.message ∉ cells) ∧
      cells.length = if primitive = .list .remove then 2 else 1

theorem Fault.message_not_mem {cells : List Text} (data : ∀ cell ∈ cells, cell.IsDatum)
    (fault : Fault) : fault.message ∉ cells := fun mem =>
  fault.not_isDatum_message (data _ mem)

namespace Machine

section

variable (environment : Environment) (rounds : Nat) (run : Runner) (machine : Machine)

theorem perform_short {primitive : Primitive} (operation : primitive.isOperation = true)
    (short : machine.main.length < primitive.needs) :
    machine.perform environment rounds run primitive = machine.underflow primitive := by
  cases primitive with
  | list op =>
    obtain ⟨-, refused⟩ | ⟨enough, -⟩ := performList_cases machine op
    · exact refused
    · exact absurd short (Nat.not_lt.2 enough)
  | math op =>
    obtain ⟨-, refused⟩ | ⟨left, right, enough, -⟩ := performMath_cases machine op
    · exact refused
    · exact absurd short (Nat.not_lt.2 enough)
  | _ => cases operation

theorem perform_settles {primitive : Primitive} (operation : primitive.isOperation = true)
    (enough : primitive.needs ≤ machine.main.length) :
    ∃ cells after, machine.perform environment rounds run primitive =
        .ok { machine with main := cells ++ machine.main.drop primitive.needs, arena := after } ∧
      primitive.Settles machine.arena after cells := by
  cases primitive with
  | list op =>
    obtain ⟨short, -⟩ | ⟨-, result, computes, settled⟩ := performList_cases machine op
    · exact absurd enough (Nat.not_le.2 short)
    · cases result with
      | error fault =>
        exact ⟨[fault.message], machine.arena, settled, .inl ⟨⟨fault, rfl⟩, rfl⟩⟩
      | ok effect =>
        obtain ⟨length, data⟩ := computes.pushes
        refine ⟨effect.cells, effect.arena, settled, .inr ⟨Fault.message_not_mem data, ?_⟩⟩
        simpa only [Primitive.list.injEq] using length
  | math op =>
    obtain ⟨short, -⟩ | ⟨left, right, -, replaced⟩ := performMath_cases machine op
    · exact absurd enough (Nat.not_le.2 short)
    · refine ⟨[op.answer left right], machine.arena, replaced, ?_⟩
      cases applied : op.applyText left right with
      | error fault => exact .inl ⟨⟨fault, by rw [MathOp.answer_of_error applied]⟩, rfl⟩
      | ok value =>
        rw [MathOp.answer_of_ok applied]
        have datum : ∀ cell ∈ [value], cell.IsDatum := by
          simpa using MathOp.isDatum_of_applyText applied
        exact .inr ⟨Fault.message_not_mem datum, rfl⟩
  | _ => cases operation

/-- A step that lacks operands leaves the machine as it was under one message. A list or
arithmetic primitive that has them takes exactly these off the stack, pushes one cell, or two for
an element taken out, and keeps the arena whenever that one cell is a fault. -/
theorem failing_step_frames {token : Text} (unquoted : token.head? ≠ some '$') :
    (∀ primitive, primitive.isOperation = true →
      machine.lookup environment token = some (.native primitive) →
      (machine.main.length < primitive.needs →
        machine.step environment rounds run token =
          .ok (machine.push
            (Error.underflow primitive.name primitive.needs machine.main.length).message)) ∧
      (primitive.needs ≤ machine.main.length →
        ∃ cells after, machine.step environment rounds run token =
            .ok { machine with
              main := cells ++ machine.main.drop primitive.needs
              arena := after } ∧
          primitive.Settles machine.arena after cells)) ∧
    ∀ definition, machine.lookup environment token = some (.defined definition) →
      machine.main.length < definition.template.arity →
        machine.step environment rounds run token =
          .ok (machine.push (Error.underflow token definition.template.arity
            machine.main.length).message) := by
  refine ⟨fun primitive operation bound => ⟨fun short => ?_, fun enough => ?_⟩,
    fun definition bound short => ?_⟩
  · rw [step_native environment rounds unquoted bound,
      perform_short environment rounds run machine operation short]
    rfl
  · obtain ⟨cells, after, performed, settles⟩ :=
      perform_settles environment rounds run machine operation enough
    refine ⟨cells, after, ?_, settles⟩
    rw [step_native environment rounds unquoted bound, performed]
    rfl
  · rw [step_defined environment rounds unquoted bound, call, if_pos short]
    rfl

end

theorem failing_step_frames_short :
    ∃ environment : Environment, ∃ machine : Machine,
      (∃ cells after,
        { machine with main := ["&1", "1", "v", "c"].map String.toList }.step environment 0
            (run environment 0) "set".toList =
          .ok { machine with main := cells ++ ["c".toList], arena := after } ∧
        Primitive.Settles (.list .set) machine.arena after cells) ∧
      { machine with main := ["&1".toList] }.step environment 0 (run environment 0)
          "remove".toList =
        .ok { machine with main :=
          ["Error in remove: Needs 2 elements, Stack has 1", "&1"].map String.toList } ∧
      { machine with main := ["&1".toList] }.step environment 0 (run environment 0)
          "pair".toList =
        .ok { machine with main :=
          ["Error in pair: Needs 2 elements, Stack has 1", "&1"].map String.toList } := by
  let environment : Environment := { context := Dictionary.natives }
  let machine : Machine :=
    { arena := ⟨#["[ a ]".toList]⟩
      user := ⟨[("pair".toList, .defined "[ $2 $1 ]".toList)]⟩ }
  let full : Machine := { machine with main := ["&1", "1", "v", "c"].map String.toList }
  let short : Machine := { machine with main := ["&1".toList] }
  have unquoted : ∀ token ∈ ["set", "remove", "pair"].map String.toList,
      token.head? ≠ some '$' := by
    decide
  have steps := fun machine token named =>
    failing_step_frames environment 0 (run environment 0) machine (unquoted token named)
  have arity : (Definition.ofBody "[ $2 $1 ]".toList).template.arity = 2 := by decide +kernel
  have sets := ((steps full "set".toList (by decide)).1 (.list .set) rfl rfl).2 (by decide)
  have removes := ((steps short "remove".toList (by decide)).1 (.list .remove) rfl rfl).1
    (by decide)
  have pairs := (steps short "pair".toList (by decide)).2 "[ $2 $1 ]".toList rfl
  rw [arity] at pairs
  have paired := pairs (by decide)
  have messages : (Error.underflow "remove".toList 2 1).message =
        "Error in remove: Needs 2 elements, Stack has 1".toList ∧
      (Error.underflow "pair".toList 2 1).message =
        "Error in pair: Needs 2 elements, Stack has 1".toList := by
    decide
  refine ⟨environment, machine, sets, removes.trans ?_, paired.trans ?_⟩
  · exact congrArg (fun text => Outcome.ok (short.push text)) messages.1
  · exact congrArg (fun text => Outcome.ok (short.push text)) messages.2

end Machine

end Concatenative
