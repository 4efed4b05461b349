import Concatenative.Proofs.Reading

/-!
Reading in a single pass. The reader of blocks calls itself for every block and hands
back the words that it left. Here one pass goes over the words from left to right and
remembers only how many comments it is in and which lists are open. The two find the
same tokens in every source, balanced or not.
-/

namespace Concatenative

open ListText Node

/-- What the pass remembers: the comments it is in, the list that it adds to, and the
open lists around that one, innermost first. -/
structure Pass where
  comments : Nat := 0
  innermost : List Text := []
  enclosing : List (List Text) := []

namespace Pass

/-- Close the innermost list, which becomes one element of the list around it. There is
nothing to close when no list is around it. -/
def close? (pass : Pass) : Option Pass :=
  match pass.enclosing with
  | [] => none
  | outer :: enclosing =>
    some { pass with innermost := outer ++ [ListText.render pass.innermost], enclosing }

def step (pass : Pass) (word : Text) : Option Pass :=
  if 0 < pass.comments then
    if word = commentOpening then some { pass with comments := pass.comments + 1 }
    else if word = commentClosing then some { pass with comments := pass.comments - 1 }
    else some pass
  else if word = commentOpening then some { pass with comments := 1 }
  else if word = opening then
    some { pass with innermost := [], enclosing := pass.innermost :: pass.enclosing }
  else if word = closing then pass.close?
  else some { pass with innermost := pass.innermost ++ [word] }

def run : Pass → List Text → Pass
  | pass, [] => pass
  | pass, word :: rest =>
    match pass.step word with
    | none => pass
    | some next => next.run rest

def answer (pass : Pass) : List Text :=
  pass.enclosing.foldl (fun items outer => outer ++ [ListText.render items]) pass.innermost

def read (source : Text) : List Text := (({} : Pass).run (Text.words source)).answer

theorem run_step {pass next : Pass} {word : Text} (stepped : pass.step word = some next)
    (rest : List Text) : pass.run (word :: rest) = next.run rest := by
  rw [run, stepped]

theorem run_stop {pass : Pass} {word : Text} (stopped : pass.step word = none)
    (rest : List Text) : pass.run (word :: rest) = pass := by
  rw [run, stopped]

theorem step_comment (items : List Text) (enclosing : List (List Text)) :
    step ⟨0, items, enclosing⟩ commentOpening = some ⟨1, items, enclosing⟩ := by
  simp only [step, Nat.lt_irrefl, if_false, if_true]

theorem step_opening (items : List Text) (enclosing : List (List Text)) :
    step ⟨0, items, enclosing⟩ opening = some ⟨0, [], items :: enclosing⟩ := by
  have other : opening ≠ commentOpening := by decide
  simp only [step, Nat.lt_irrefl, if_false, if_neg other, if_true]

theorem step_closing (items : List Text) (enclosing : List (List Text)) :
    step ⟨0, items, enclosing⟩ closing = close? ⟨0, items, enclosing⟩ := by
  have other : closing ≠ commentOpening ∧ closing ≠ opening := by decide
  simp only [step, Nat.lt_irrefl, if_false, if_neg other.1, if_neg other.2, if_true]

theorem step_atom {word : Text} (isAtom : IsAtom word) (items : List Text)
    (enclosing : List (List Text)) :
    step ⟨0, items, enclosing⟩ word = some ⟨0, items ++ [word], enclosing⟩ := by
  simp only [step, Nat.lt_irrefl, if_false, if_neg isAtom.1, if_neg isAtom.2.1,
    if_neg isAtom.2.2]

theorem step_inner_opening (comments : Nat) (items : List Text) (enclosing : List (List Text)) :
    step ⟨comments + 1, items, enclosing⟩ commentOpening =
      some ⟨comments + 2, items, enclosing⟩ := by
  simp only [step, Nat.succ_pos, if_true]

theorem step_inner_closing (comments : Nat) (items : List Text) (enclosing : List (List Text)) :
    step ⟨comments + 1, items, enclosing⟩ commentClosing = some ⟨comments, items, enclosing⟩ := by
  have other : commentClosing ≠ commentOpening := by decide
  simp only [step, Nat.succ_pos, if_true, if_neg other, Nat.add_sub_cancel]

theorem step_inner_word {word : Text} (opens : word ≠ commentOpening)
    (closes : word ≠ commentClosing) (comments : Nat) (items : List Text)
    (enclosing : List (List Text)) :
    step ⟨comments + 1, items, enclosing⟩ word = some ⟨comments + 1, items, enclosing⟩ := by
  simp only [step, Nat.succ_pos, if_true, if_neg opens, if_neg closes]

/-- The counter of the pass goes down to none where the reader is back from as many comments. -/
theorem answer_run_comments (comments : Nat) (items : List Text) (enclosing : List (List Text))
    (words : List Text) :
    (run ⟨comments, items, enclosing⟩ words).answer =
      (run ⟨0, items, enclosing⟩ (leaveComments comments words)).answer := by
  induction comments, words using comments_induction with
  | left words => rfl
  | nil comments => simp only [leaveComments_nil, run, answer]
  | opened comments words ih =>
    rw [run_step (step_inner_opening comments items enclosing), ih, leaveComments_opening]
  | closed comments words ih =>
    rw [run_step (step_inner_closing comments items enclosing), ih, leaveComments_closing]
  | passed comments word words opens closes ih =>
    rw [run_step (step_inner_word opens closes comments items enclosing), ih,
      leaveComments_word opens closes]

/-- The pass adds to its innermost list what the reader reads. Outside all blocks that is
the answer; inside one, the list is then closed and the pass goes on with the words that
the reader left. -/
theorem answer_run (words : List Text) :
    (∀ items, (run ⟨0, items, []⟩ words).answer = items ++ renderAll (nodes words)) ∧
      ∀ items outer enclosing,
        (run ⟨0, items, outer :: enclosing⟩ words).answer =
          (run ⟨0, outer ++ [ListText.render (items ++ renderAll (nodes words))], enclosing⟩
            (rest words)).answer := by
  induction words using reading_induction with
  | nil => simp [run, answer, renderAll]
  | comment words ih =>
    simp only [run_step (step_comment _ _), answer_run_comments 1, nodes_comment, rest_comment]
    exact ih
  | block words inside after =>
    simp only [run_step (step_opening _ _), inside.2, nodes_opening, rest_opening, renderAll,
      Node.render, List.nil_append]
    refine ⟨fun items => ?_, fun items outer enclosing => ?_⟩
    · rw [after.1, List.append_assoc items, List.singleton_append]
    · rw [after.2, List.append_assoc items, List.singleton_append]
  | closed words =>
    simp only [nodes_closing, rest_closing, renderAll, List.append_nil]
    refine ⟨fun items => ?_, fun items outer enclosing => ?_⟩
    · rw [run_stop (step_closing items [])]
      rfl
    · rw [run_step (step_closing items (outer :: enclosing))]
  | atom word words isAtom ih =>
    simp only [run_step (step_atom isAtom _ _), nodes_atom isAtom, rest_atom isAtom, renderAll,
      Node.render]
    refine ⟨fun items => ?_, fun items outer enclosing => ?_⟩
    · rw [ih.1, List.append_assoc items, List.singleton_append]
    · rw [ih.2, List.append_assoc items, List.singleton_append]

end Pass

/-- Reading block by block and reading in a single pass give the same tokens. -/
theorem parse_eq_pass_read (source : Text) : parse source = Pass.read source := by
  have outermost := (Pass.answer_run (Text.words source)).1 []
  rw [List.nil_append] at outermost
  exact outermost.symm

example : Pass.read "1 [ 2 ( [ ) ] [ a ) [ ] ( b [ c".toList =
    ["1".toList, "[ 2 ]".toList, "[ a ) [ ] ]".toList] := by
  decide

end Concatenative
