import Concatenative.Proofs.LibraryWords

/-!
Comparisons. The library has one primitive comparison, "greater than", and builds all others
from it with a choice between quoted bodies. They are exact on all integers, however these are
spelled, and the larger and the smaller of two integers come back in their own spelling.
-/

namespace Concatenative.Machine

open Text ListText Library

def truthName (flag : Bool) : Text := if flag then "t".toList else "f".toList

def negationWords : List Text := ["not", "f", "t", "if"].map String.toList

def equalityWords : List Text := ["=", ">", "and"].map String.toList ++ negationWords

section

variable {environment : Environment} {rounds levels : Nat} {machine : Machine} {words : List Text}

theorem runsTo_truthName (keeps : machine.KeepsWords environment words) (flag : Bool)
    (used : truthName flag ∈ words) (below : List Text) :
    RunsTo environment rounds (levels + 1) [truthName flag] { machine with main := below }
      { machine with main := truth flag :: below } := by
  have unfolds : Unfolds (truthName flag) [] [truth flag] := by
    cases flag with
    | true => exact unfolds_of_cut rfl (by simp [truth])
    | false => exact unfolds_of_cut rfl (by simp [truth])
  exact keeps.runsTo_word used unfolds (keeps.runsTo_integer (read?_truth flag) below)

theorem runsTo_not (keeps : machine.KeepsWords environment words)
    (used : negationWords ⊆ words) (flag : Bool) (below : List Text) :
    RunsTo environment rounds (levels + 2) ["not".toList]
      { machine with main := truth flag :: below }
      { machine with main := truth (!flag) :: below } := by
  have unfolds : Unfolds "not".toList [truth flag]
      [truth flag, "f".toList, "t".toList, "if".toList] :=
    unfolds_of_cut rfl (by simp [Segment.fill])
  have chosen : truth (!flag) = if flag then truth false else truth true := by
    cases flag <;> rfl
  rw [chosen]
  apply keeps.runsTo_word (used (by decide)) unfolds
  apply RunsTo.cons (keeps.runsTo_integer (read?_truth flag) below)
  apply RunsTo.cons (runsTo_truthName keeps false (used (by decide)) _)
  apply RunsTo.cons (runsTo_truthName keeps true (used (by decide)) _)
  exact keeps.runsTo_if_integer (used (by decide)) (read?_truth false) (read?_truth true) below

theorem runsTo_and (keeps : machine.KeepsWords environment words)
    (used : equalityWords ⊆ words) (first second : Bool) (below : List Text) :
    RunsTo environment rounds (levels + 2) ["and".toList]
      { machine with main := truth second :: truth first :: below }
      { machine with main := truth (first && second) :: below } := by
  have unfolds : Unfolds "and".toList [truth second, truth first]
      [truth second, truth first, "f".toList, "if".toList] :=
    unfolds_of_cut rfl (by simp [Segment.fill])
  have chosen : truth (first && second) = if second then truth first else truth false := by
    cases first <;> cases second <;> rfl
  rw [chosen]
  apply keeps.runsTo_word (used (by decide)) unfolds
  apply RunsTo.cons (keeps.runsTo_integer (read?_truth second) below)
  apply RunsTo.cons (keeps.runsTo_integer (read?_truth first) _)
  apply RunsTo.cons (runsTo_truthName keeps false (used (by decide)) _)
  exact keeps.runsTo_if_integer (used (by decide)) (read?_truth first) (read?_truth false) below

variable {left right : Text} {a b : Int}

section

variable (readLeft : Integer.read? left = some a) (readRight : Integer.read? right = some b)

include readLeft readRight

theorem runsTo_greater (keeps : machine.KeepsWords environment words)
    (used : ">".toList ∈ words) (below : List Text) :
    RunsTo environment rounds levels [">".toList]
      { machine with main := right :: left :: below }
      { machine with main := truth (b < a) :: below } := by
  have compared : truth (b < a) = MathOp.greater.answer left right := by
    rw [MathOp.answer, MathOp.applyText, readLeft, readRight]
    rfl
  rw [compared]
  exact keeps.runsTo_math .greater used left right below

theorem runsTo_less (keeps : machine.KeepsWords environment words)
    (used : ["<".toList, ">".toList] ⊆ words) (below : List Text) :
    RunsTo environment rounds (levels + 1) ["<".toList]
      { machine with main := right :: left :: below }
      { machine with main := truth (a < b) :: below } := by
  have unfolds : Unfolds "<".toList [right, left] [right, left, ">".toList] :=
    unfolds_of_cut rfl (by simp [Segment.fill])
  apply keeps.runsTo_word (used (by decide)) unfolds
  apply RunsTo.cons (keeps.runsTo_integer readRight below)
  apply RunsTo.cons (keeps.runsTo_integer readLeft _)
  exact runsTo_greater readRight readLeft keeps (used (by decide)) below

theorem runsTo_equal (keeps : machine.KeepsWords environment words)
    (used : equalityWords ⊆ words) (below : List Text) :
    RunsTo environment rounds (levels + 3) ["=".toList]
      { machine with main := right :: left :: below }
      { machine with main := truth (a = b) :: below } := by
  have unfolds : Unfolds "=".toList [right, left] [left, right, ">".toList, "not".toList,
      right, left, ">".toList, "not".toList, "and".toList] :=
    unfolds_of_cut rfl (by simp [Segment.fill])
  have negates : negationWords ⊆ words := List.Subset.trans (by decide) used
  have neither : decide (a = b) = (!decide (b < a) && !decide (a < b)) := by
    by_cases equal : a = b
    · simp [equal]
    · rcases Int.lt_or_gt_of_ne equal with less | greater
      · simp [equal, less]
      · simp [equal, greater]
  rw [neither]
  apply keeps.runsTo_word (used (by decide)) unfolds
  apply RunsTo.cons (keeps.runsTo_integer readLeft below)
  apply RunsTo.cons (keeps.runsTo_integer readRight _)
  apply RunsTo.cons (runsTo_greater readLeft readRight keeps (used (by decide)) _)
  apply RunsTo.cons (runsTo_not keeps negates _ _)
  apply RunsTo.cons (keeps.runsTo_integer readRight _)
  apply RunsTo.cons (keeps.runsTo_integer readLeft _)
  apply RunsTo.cons (runsTo_greater readRight readLeft keeps (used (by decide)) _)
  apply RunsTo.cons (runsTo_not keeps negates _ _)
  exact runsTo_and keeps used _ _ below

theorem runsTo_unequal (keeps : machine.KeepsWords environment words)
    (used : "!=".toList :: equalityWords ⊆ words) (below : List Text) :
    RunsTo environment rounds (levels + 4) ["!=".toList]
      { machine with main := right :: left :: below }
      { machine with main := truth (a ≠ b) :: below } := by
  have unfolds : Unfolds "!=".toList [] ["=".toList, "not".toList] :=
    unfolds_of_cut rfl (by simp)
  have negated : decide (a ≠ b) = !decide (a = b) := decide_not
  rw [negated]
  have compares : equalityWords ⊆ words := List.Subset.trans (by decide) used
  apply keeps.runsTo_word (used (by decide)) unfolds
  apply RunsTo.cons (runsTo_equal readLeft readRight keeps compares below)
  exact runsTo_not keeps (List.Subset.trans (by decide) compares) _ below

theorem runsTo_or_equal (keeps : machine.KeepsWords environment words)
    (used : equalityWords ⊆ words) (flag : Bool) (below : List Text) :
    RunsTo environment rounds (levels + 4)
      ["t".toList, render [left, right, "=".toList], "if".toList]
      { machine with main := truth flag :: below }
      { machine with main := truth (flag || a = b) :: below } := by
  have block : machine.IsLiteral environment (render [left, right, "=".toList]) :=
    keeps.isLiteral_spaced (by simp [render_eq]) (isSpaced_render _)
  have unnamed : Handle.read? (truth true) = none ∧
      Handle.read? (render [left, right, "=".toList]) = none := ⟨rfl, rfl⟩
  apply RunsTo.cons (runsTo_truthName keeps true (used (by decide)) _)
  apply RunsTo.cons (runsTo_literal block _)
  apply keeps.runsTo_if (used (by decide)) unnamed
  cases flag with
  | true => exact keeps.evaluatesTo_integer (read?_truth true) below
  | false =>
    rw [Bool.false_or]
    apply evaluatesTo_block
    · simp only [List.forall_mem_cons]
      exact ⟨Integer.isWord_of_read? readLeft, Integer.isWord_of_read? readRight, by decide,
        List.forall_mem_nil _⟩
    · simp only [List.forall_mem_cons]
      exact ⟨Integer.isAtom_of_read? readLeft, Integer.isAtom_of_read? readRight,
        by decide, List.forall_mem_nil _⟩
    · simp only [List.forall_mem_cons]
      exact ⟨Integer.not_mem_of_read? readLeft (by decide),
        Integer.not_mem_of_read? readRight (by decide), by decide, List.forall_mem_nil _⟩
    · apply RunsTo.cons (keeps.runsTo_integer readLeft below)
      apply RunsTo.cons (keeps.runsTo_integer readRight _)
      exact runsTo_equal readLeft readRight keeps used below

theorem runsTo_atLeast (keeps : machine.KeepsWords environment words)
    (used : ">=".toList :: equalityWords ⊆ words) (below : List Text) :
    RunsTo environment rounds (levels + 5) [">=".toList]
      { machine with main := right :: left :: below }
      { machine with main := truth (b ≤ a) :: below } := by
  have unfolds : Unfolds ">=".toList [right, left]
      [left, right, ">".toList, "t".toList, render [left, right, "=".toList], "if".toList] :=
    unfolds_of_cut rfl (by simp [Segment.fill, render_eq])
  have either : decide (b ≤ a) = (decide (b < a) || decide (a = b)) := by
    simp only [Int.le_iff_lt_or_eq, eq_comm, Bool.decide_or]
  rw [either]
  apply keeps.runsTo_word (used (by decide)) unfolds
  apply RunsTo.cons (keeps.runsTo_integer readLeft below)
  apply RunsTo.cons (keeps.runsTo_integer readRight _)
  apply RunsTo.cons (runsTo_greater readLeft readRight keeps (used (by decide)) _)
  exact runsTo_or_equal readLeft readRight keeps (List.Subset.trans (by decide) used) _ below

theorem runsTo_atMost (keeps : machine.KeepsWords environment words)
    (used : "<=".toList :: equalityWords ⊆ words) (below : List Text) :
    RunsTo environment rounds (levels + 5) ["<=".toList]
      { machine with main := right :: left :: below }
      { machine with main := truth (a ≤ b) :: below } := by
  have unfolds : Unfolds "<=".toList [right, left]
      [right, left, ">".toList, "t".toList, render [left, right, "=".toList], "if".toList] :=
    unfolds_of_cut rfl (by simp [Segment.fill, render_eq])
  have either : decide (a ≤ b) = (decide (a < b) || decide (a = b)) := by
    simp only [Int.le_iff_lt_or_eq, Bool.decide_or]
  rw [either]
  apply keeps.runsTo_word (used (by decide)) unfolds
  apply RunsTo.cons (keeps.runsTo_integer readRight below)
  apply RunsTo.cons (keeps.runsTo_integer readLeft _)
  apply RunsTo.cons (runsTo_greater readRight readLeft keeps (used (by decide)) _)
  exact runsTo_or_equal readLeft readRight keeps (List.Subset.trans (by decide) used) _ below

theorem runsTo_select (keeps : machine.KeepsWords environment words) {name onTrue onFalse : Text}
    (used : [name, ">".toList, "if".toList] ⊆ words)
    (unfolds : Unfolds name [right, left]
      [left, right, ">".toList, onTrue, onFalse, "if".toList])
    {yes no : Int} (readTrue : Integer.read? onTrue = some yes)
    (readFalse : Integer.read? onFalse = some no) (below : List Text) :
    RunsTo environment rounds (levels + 2) [name]
      { machine with main := right :: left :: below }
      { machine with main := (if b < a then onTrue else onFalse) :: below } := by
  have chosen : (if b < a then onTrue else onFalse) =
      if decide (b < a) then onTrue else onFalse := by
    simp only [decide_eq_true_eq]
  rw [chosen]
  apply keeps.runsTo_word (used (by simp)) unfolds
  apply RunsTo.cons (keeps.runsTo_integer readLeft below)
  apply RunsTo.cons (keeps.runsTo_integer readRight _)
  apply RunsTo.cons (runsTo_greater readLeft readRight keeps (used (by simp)) _)
  apply RunsTo.cons (keeps.runsTo_integer readTrue _)
  apply RunsTo.cons (keeps.runsTo_integer readFalse _)
  exact keeps.runsTo_if_integer (used (by simp)) readTrue readFalse below

end

end

inductive Comparison where
  | less
  | greater
  | atMost
  | atLeast
  | equal
  | unequal
deriving DecidableEq, Repr

namespace Comparison

def name : Comparison → Text
  | less => "<".toList
  | greater => ">".toList
  | atMost => "<=".toList
  | atLeast => ">=".toList
  | equal => "=".toList
  | unequal => "!=".toList

def holds : Comparison → Int → Int → Bool
  | less, a, b => a < b
  | greater, a, b => b < a
  | atMost, a, b => a ≤ b
  | atLeast, a, b => b ≤ a
  | equal, a, b => a = b
  | unequal, a, b => a ≠ b

def words : Comparison → List Text
  | less => ["<".toList, ">".toList]
  | greater => [">".toList]
  | equal => equalityWords
  | comparison => comparison.name :: equalityWords

theorem runsTo {environment : Environment} {rounds levels : Nat} {machine : Machine}
    {left right : Text} {a b : Int} (comparison : Comparison)
    (keeps : machine.KeepsWords environment comparison.words)
    (readLeft : Integer.read? left = some a) (readRight : Integer.read? right = some b)
    (below : List Text) :
    RunsTo environment rounds (levels + 5) [comparison.name]
      { machine with main := right :: left :: below }
      { machine with main := truth (comparison.holds a b) :: below } := by
  cases comparison with
  | less => exact runsTo_less readLeft readRight keeps (List.Subset.refl _) below
  | greater => exact runsTo_greater readLeft readRight keeps List.mem_cons_self below
  | atMost => exact runsTo_atMost readLeft readRight keeps (List.Subset.refl _) below
  | atLeast => exact runsTo_atLeast readLeft readRight keeps (List.Subset.refl _) below
  | equal => exact runsTo_equal readLeft readRight keeps (List.Subset.refl _) below
  | unequal => exact runsTo_unequal readLeft readRight keeps (List.Subset.refl _) below

end Comparison

inductive Extremum where
  | larger
  | smaller
deriving DecidableEq, Repr

namespace Extremum

def fullName : Extremum → Text
  | larger => "math.max".toList
  | smaller => "math.min".toList

def shortName : Extremum → Text
  | larger => "max".toList
  | smaller => "min".toList

def of : Extremum → Int → Int → Int
  | larger, a, b => max a b
  | smaller, a, b => min a b

def words (extremum : Extremum) : List Text := [extremum.fullName, ">".toList, "if".toList]

/-- The operand that is kept; of two equal ones the larger is the right one and the smaller
the left one. -/
def choice (extremum : Extremum) (left right : Text) (a b : Int) : Text :=
  match extremum with
  | larger => if b < a then left else right
  | smaller => if b < a then right else left

theorem choice_mem (extremum : Extremum) (left right : Text) (a b : Int) :
    extremum.choice left right a b ∈ [left, right] := by
  cases extremum <;> simp only [choice] <;> split <;> simp

theorem read?_choice {left right : Text} {a b : Int} (readLeft : Integer.read? left = some a)
    (readRight : Integer.read? right = some b) (extremum : Extremum) :
    Integer.read? (extremum.choice left right a b) = some (extremum.of a b) := by
  cases extremum with
  | larger =>
    by_cases greater : b < a
    · rw [choice, of, if_pos greater, readLeft, Int.max_eq_left (Int.le_of_lt greater)]
    · rw [choice, of, if_neg greater, readRight, Int.max_eq_right (Int.not_lt.1 greater)]
  | smaller =>
    by_cases greater : b < a
    · rw [choice, of, if_pos greater, readRight, Int.min_eq_right (Int.le_of_lt greater)]
    · rw [choice, of, if_neg greater, readLeft, Int.min_eq_left (Int.not_lt.1 greater)]

section

variable {environment : Environment} {rounds levels : Nat} {machine : Machine} {words : List Text}
  {left right : Text} {a b : Int}

theorem runsTo_fullName (extremum : Extremum) (keeps : machine.KeepsWords environment words)
    (used : extremum.words ⊆ words) (readLeft : Integer.read? left = some a)
    (readRight : Integer.read? right = some b) (below : List Text) :
    RunsTo environment rounds (levels + 2) [extremum.fullName]
      { machine with main := right :: left :: below }
      { machine with main := extremum.choice left right a b :: below } := by
  cases extremum with
  | larger =>
    have unfolds : Unfolds larger.fullName [right, left]
        [left, right, ">".toList, left, right, "if".toList] :=
      unfolds_of_cut rfl (by simp [Segment.fill])
    exact runsTo_select readLeft readRight keeps used unfolds readLeft readRight below
  | smaller =>
    have unfolds : Unfolds smaller.fullName [right, left]
        [left, right, ">".toList, right, left, "if".toList] :=
      unfolds_of_cut rfl (by simp [Segment.fill])
    exact runsTo_select readLeft readRight keeps used unfolds readRight readLeft below

theorem runsTo {name : Text} (extremum : Extremum)
    (named : name ∈ [extremum.fullName, extremum.shortName])
    (keeps : machine.KeepsWords environment (name :: extremum.words))
    (readLeft : Integer.read? left = some a) (readRight : Integer.read? right = some b)
    (below : List Text) :
    RunsTo environment rounds (levels + 3) [name]
      { machine with main := right :: left :: below }
      { machine with main := extremum.choice left right a b :: below } := by
  have used : extremum.words ⊆ name :: extremum.words := List.subset_cons_self _ _
  rcases List.mem_pair.1 named with rfl | rfl
  · exact runsTo_fullName extremum keeps used readLeft readRight below
  · have larger : Unfolds "max".toList [] ["math.max".toList] := unfolds_of_cut rfl (by simp)
    have smaller : Unfolds "min".toList [] ["math.min".toList] := unfolds_of_cut rfl (by simp)
    have unfolds : Unfolds extremum.shortName [] [extremum.fullName] := by
      cases extremum with
      | larger => exact larger
      | smaller => exact smaller
    apply keeps.runsTo_word List.mem_cons_self unfolds
    exact runsTo_fullName extremum keeps used readLeft readRight below

end

end Extremum

/-- The derived comparisons are exact on all integers in all their spellings, and the words for
the larger and the smaller one keep an operand of that value. Nothing else of the machine
changes. -/
theorem comparisons_exact {environment : Environment} {machine : Machine} {left right : Text}
    {a b : Int} (readLeft : Integer.read? left = some a)
    (readRight : Integer.read? right = some b)
    (room : machine.depth + 16 ≤ environment.maxDepth) (rounds : Nat) :
    (∀ comparison : Comparison, machine.KeepsWords environment comparison.words →
      machine.Gives environment rounds (unwords [left, right, comparison.name])
        { machine with main := truth (comparison.holds a b) :: machine.main }) ∧
    ∀ extremum : Extremum, ∀ name ∈ [extremum.fullName, extremum.shortName],
      machine.KeepsWords environment (name :: extremum.words) →
      ∃ chosen ∈ [left, right], Integer.read? chosen = some (extremum.of a b) ∧
        machine.Gives environment rounds (unwords [left, right, name])
          { machine with main := chosen :: machine.main } := by
  constructor
  · intro comparison keeps
    have plain : IsWord comparison.name ∧ Node.IsAtom comparison.name := by
      cases comparison <;> decide
    have runs : RunsTo environment rounds 5 [comparison.name]
        { machine with main := right :: left :: machine.main }
        { machine with main := truth (comparison.holds a b) :: machine.main } :=
      comparison.runsTo keeps readLeft readRight machine.main
    exact keeps.gives_binary readLeft readRight plain runs rfl (by omega)
  · intro extremum name named keeps
    have plain : ∀ name ∈ [extremum.fullName, extremum.shortName],
        IsWord name ∧ Node.IsAtom name := by
      cases extremum <;> decide
    have runs : RunsTo environment rounds 3 [name]
        { machine with main := right :: left :: machine.main }
        { machine with main := extremum.choice left right a b :: machine.main } :=
      extremum.runsTo named keeps readLeft readRight machine.main
    exact ⟨extremum.choice left right a b, extremum.choice_mem left right a b,
      extremum.read?_choice readLeft readRight,
      keeps.gives_binary readLeft readRight (plain name named) runs rfl (by omega)⟩

theorem comparisons_exact_spelled :
    ∃ environment : Environment, ∃ machine : Machine,
      machine.depth + 16 = environment.maxDepth ∧ machine.main = ["c".toList] ∧
      machine.user.get? "twice".toList = some (.defined "[ 2 * ]".toList) ∧
      machine.Gives environment 0 "+5 007 <=".toList
        { machine with main := ["-1".toList, "c".toList] } ∧
      machine.Gives environment 0 "+5 007 =".toList
        { machine with main := ["0".toList, "c".toList] } ∧
      ∃ chosen ∈ ["+5".toList, "007".toList], Integer.read? chosen = some 7 ∧
        machine.Gives environment 0 "+5 007 max".toList
          { machine with main := [chosen, "c".toList] } := by
  let environment : Environment := { context := Library.dictionary }
  let machine : Machine :=
    { main := ["c".toList], depth := 240,
      user := ⟨[("twice".toList, .defined "[ 2 * ]".toList)]⟩ }
  have readLeft : Integer.read? "+5".toList = some 5 := by decide
  have readRight : Integer.read? "007".toList = some 7 := by decide
  have room : machine.depth + 16 ≤ environment.maxDepth := by decide
  have laws := comparisons_exact readLeft readRight room 0
  exact ⟨environment, machine, rfl, rfl, by decide,
    laws.1 .atMost (keepsWords_of_entries rfl (by decide)),
    laws.1 .equal (keepsWords_of_entries rfl (by decide)),
    laws.2 .larger "max".toList (by decide) (keepsWords_of_entries rfl (by decide))⟩

end Concatenative.Machine
