import Concatenative.Proofs.LibraryWords

/-!
The words that rearrange the main stack. They are library words whose arguments are put back into
their bodies as whole tokens and run again, so they do what their names say of every cell that
stands for itself, whatever text it is. One word clears the stack by counting it first; the count
and the selector for it lie on the very stack that is counted.
-/

namespace Concatenative.Machine

open Text ListText

section

variable {environment : Environment} {rounds levels : Nat} {machine : Machine} {top under : Text}

theorem runsTo_dup (known : machine.Knows environment "dup".toList)
    (literal : machine.IsLiteral environment top) (below : List Text) :
    RunsTo environment rounds (levels + 1) ["dup".toList]
      { machine with main := top :: below }
      { machine with main := top :: top :: below } := by
  have unfolds : Library.Unfolds "dup".toList [top] [top, top] :=
    Library.unfolds_of_cut rfl (by simp [Segment.fill])
  apply runsTo_word known unfolds
  apply RunsTo.cons (runsTo_literal literal below)
  exact runsTo_literal literal _

theorem runsTo_over (known : machine.Knows environment "over".toList)
    (literalTop : machine.IsLiteral environment top)
    (literalUnder : machine.IsLiteral environment under) (below : List Text) :
    RunsTo environment rounds (levels + 1) ["over".toList]
      { machine with main := top :: under :: below }
      { machine with main := under :: top :: under :: below } := by
  have unfolds : Library.Unfolds "over".toList [top, under] [under, top, under] :=
    Library.unfolds_of_cut rfl (by simp [Segment.fill])
  apply runsTo_word known unfolds
  apply RunsTo.cons (runsTo_literal literalUnder below)
  apply RunsTo.cons (runsTo_literal literalTop _)
  exact runsTo_literal literalUnder _

theorem runsTo_swap (known : machine.Knows environment "swap".toList)
    (literalTop : machine.IsLiteral environment top)
    (literalUnder : machine.IsLiteral environment under) (below : List Text) :
    RunsTo environment rounds (levels + 1) ["swap".toList]
      { machine with main := top :: under :: below }
      { machine with main := under :: top :: below } := by
  have unfolds : Library.Unfolds "swap".toList [top, under] [top, under] :=
    Library.unfolds_of_cut rfl (by simp [Segment.fill])
  apply runsTo_word known unfolds
  apply RunsTo.cons (runsTo_literal literalTop below)
  exact runsTo_literal literalUnder _

theorem runsTo_drop (known : ∀ word ∈ ["drop".toList, "def".toList], machine.Knows environment word)
    (names : machine.IsLiteral environment "[ @ ]".toList)
    (literal : machine.IsLiteral environment top) (below : List Text) :
    RunsTo environment rounds (levels + 1) ["drop".toList]
      { machine with main := top :: below }
      { machine with
        main := below
        user := machine.user.define "@".toList (machine.arena.derefOrKeep top) } := by
  have unfolds : Library.Unfolds "drop".toList [top] ["[ @ ]".toList, top, "def".toList] :=
    Library.unfolds_of_cut rfl (by simp [Segment.fill])
  have defines : RunsTo environment rounds levels ["def".toList]
      { machine with main := top :: "[ @ ]".toList :: below }
      { machine with
        main := below
        user := machine.user.define "@".toList (machine.arena.derefOrKeep top) } := by
    have knownDefine : machine.Knows environment Primitive.define.name :=
      known "def".toList (by decide)
    refine runsTo_native knownDefine (by decide) fun depth room => ?_
    have bound : boundNames "[ @ ]".toList = ["@".toList] := by decide +kernel
    have block : machine.arena.derefOrKeep "[ @ ]".toList = "[ @ ]".toList :=
      Arena.derefOrKeep_of_unnamed rfl
    simp only [perform, defineNames, main_withDepth, arena_withDepth, block, bound]
    rfl
  apply runsTo_word (known "drop".toList (by decide)) unfolds
  apply RunsTo.cons (runsTo_literal names below)
  apply RunsTo.cons (runsTo_literal literal _)
  exact defines

theorem runsTo_height (known : machine.Knows environment "debug.size".toList) (cells : List Text) :
    RunsTo environment rounds levels ["debug.size".toList]
      { machine with main := "main".toList :: cells }
      { machine with main := Decimal.write cells.length :: cells } := by
  have knownHeight : machine.Knows environment Primitive.height.name := known
  exact runsTo_native knownHeight (by decide) fun depth room => rfl

theorem runsTo_discard_all (known : machine.Knows environment "debug.remove".toList)
    {cells : List Text} (countable : Integer.InRange cells.length) :
    RunsTo environment rounds levels ["debug.remove".toList]
      { machine with main := Decimal.write cells.length :: cells }
      { machine with main := [] } := by
  have knownDiscard : machine.Knows environment Primitive.discard.name := known
  refine runsTo_native knownDiscard (by decide) fun depth room => ?_
  have read : Integer.read? (Decimal.write cells.length) = some (cells.length : Int) :=
    Integer.read?_write countable
  have nonneg : ¬(cells.length : Int) < 0 := by omega
  simp only [perform, discard, main_withDepth, read, if_neg nonneg, Int.toNat_natCast,
    Nat.lt_irrefl, if_false, List.drop_length]
  rfl

theorem runsTo_clear
    (known : ∀ word ∈ ["debug.clear", "debug.size", "debug.remove"].map String.toList,
      machine.Knows environment word)
    (selector : machine.IsLiteral environment "main".toList) {cells : List Text}
    (countable : Integer.InRange cells.length) :
    RunsTo environment rounds (levels + 1) ["debug.clear".toList]
      { machine with main := cells } { machine with main := [] } := by
  have unfolds : Library.Unfolds "debug.clear".toList []
      ["main".toList, "debug.size".toList, "debug.remove".toList] :=
    Library.unfolds_of_cut rfl (by simp)
  apply runsTo_word (known "debug.clear".toList (by decide)) unfolds
  apply RunsTo.cons (runsTo_literal selector cells)
  apply RunsTo.cons (runsTo_height (known "debug.size".toList (by decide)) cells)
  exact runsTo_discard_all (known "debug.remove".toList (by decide)) countable

end

def stackVocabulary : List Text :=
  ["dup", "over", "swap", "drop", "debug.clear", "def", "debug.size", "debug.remove", "main",
    "[ @ ]"].map String.toList

/-- The stack words do what their names say. All but the last ask the cells they move to stand for
themselves: a text that quotes nothing and is bound to nothing. The last one removes any cells, as
many as an integer can count. Nothing else changes, save that dropping a cell binds `@`. -/
theorem stack_words_rearrange {environment : Environment} {machine : Machine}
    (library : environment.context = Library.dictionary)
    (free : ∀ word ∈ stackVocabulary, machine.user.get? word = none)
    (room : machine.depth + 8 ≤ environment.maxDepth) (rounds : Nat) :
    (∀ a, machine.IsLiteral environment a → ∀ below,
      { machine with main := a :: below }.Gives environment rounds "dup".toList
        { machine with main := a :: a :: below } ∧
      { machine with main := a :: below }.Gives environment rounds "drop".toList
        { machine with
          main := below
          user := machine.user.define "@".toList (machine.arena.derefOrKeep a) }) ∧
    (∀ a b, machine.IsLiteral environment a → machine.IsLiteral environment b → ∀ below,
      { machine with main := b :: a :: below }.Gives environment rounds "over".toList
        { machine with main := a :: b :: a :: below } ∧
      { machine with main := b :: a :: below }.Gives environment rounds "swap".toList
        { machine with main := a :: b :: below }) ∧
    ∀ cells : List Text, cells.length < 9223372036854775808 →
      { machine with main := cells }.Gives environment rounds "debug.clear".toList
        { machine with main := [] } := by
  have known : ∀ word ∈ stackVocabulary, machine.Knows environment word := fun word mem =>
    knows_of_unbound library (free word mem)
  have unlisted : ∀ word ∈ ["main".toList, "[ @ ]".toList],
      word ∈ stackVocabulary ∧ word.head? ≠ some '$' ∧ Library.dictionary.get? word = none := by
    decide +kernel
  have literal : ∀ word ∈ ["main".toList, "[ @ ]".toList], machine.IsLiteral environment word := by
    intro word mem
    obtain ⟨listed, unquoted, absent⟩ := unlisted word mem
    exact ⟨unquoted, (known word listed).trans absent⟩
  have gives : ∀ name ∈ ["dup", "drop", "over", "swap", "debug.clear"].map String.toList,
      ∀ first last : Machine, first.depth = machine.depth → last.depth = machine.depth →
        RunsTo environment rounds 1 [name] first last →
          first.Gives environment rounds name last := by
    intro name named first last levelFirst levelLast runs
    have plain : ∀ name ∈ ["dup", "drop", "over", "swap", "debug.clear"].map String.toList,
        ∀ token ∈ [name], IsWord token ∧ Node.IsAtom token := by
      decide
    exact runs.gives (plain name named) (levelLast.trans levelFirst.symm) (by omega)
  have drops : ["drop".toList, "def".toList] ⊆ stackVocabulary := by decide
  have clears : ["debug.clear", "debug.size", "debug.remove"].map String.toList ⊆
      stackVocabulary := by
    decide
  refine ⟨fun a literalA below => ⟨?_, ?_⟩, fun a b literalA literalB below => ⟨?_, ?_⟩,
    fun cells counted => ?_⟩
  · exact gives _ (by decide) _ _ rfl rfl (runsTo_dup (known _ (by decide)) literalA below)
  · exact gives _ (by decide) _ _ rfl rfl (runsTo_drop (fun word mem => known word (drops mem))
      (literal _ (by decide)) literalA below)
  · exact gives _ (by decide) _ _ rfl rfl
      (runsTo_over (known _ (by decide)) literalB literalA below)
  · exact gives _ (by decide) _ _ rfl rfl
      (runsTo_swap (known _ (by decide)) literalB literalA below)
  · have countable : Integer.InRange cells.length := by
      unfold Integer.InRange
      omega
    exact gives _ (by decide) _ _ rfl rfl (runsTo_clear (fun word mem => known word (clears mem))
      (literal _ (by decide)) countable)

theorem stack_words_rearrange_texts :
    ∃ environment : Environment, ∃ machine : Machine,
      machine.depth + 8 = environment.maxDepth ∧
      { machine with main := ["[ $1 dup ]".toList] }.Gives environment 0 "dup".toList
        { machine with main := ["[ $1 dup ]".toList, "[ $1 dup ]".toList] } ∧
      { machine with main := ["&01".toList] }.Gives environment 0 "drop".toList
        { machine with main := [], user := machine.user.define "@".toList "[ 7 ]".toList } ∧
      { machine with main := ["&01".toList, "Error in /: Division by zero".toList] }.Gives
        environment 0 "over".toList
        { machine with main := ["Error in /: Division by zero".toList, "&01".toList,
            "Error in /: Division by zero".toList] } ∧
      { machine with main := ["$1".toList, "dup".toList] }.Gives environment 0
        "debug.clear".toList { machine with main := [] } := by
  let environment : Environment := { context := Library.dictionary }
  let machine : Machine :=
    { depth := 248, arena := ⟨#["[ 7 ]".toList]⟩,
      user := ⟨[("@".toList, .defined "0".toList), ("twice".toList, .defined "2 *".toList)]⟩ }
  have free : ∀ word ∈ stackVocabulary, machine.user.get? word = none := by decide
  have literal : ∀ text ∈ ["[ $1 dup ]", "&01", "Error in /: Division by zero"].map String.toList,
      text.head? ≠ some '$' ∧ machine.lookup environment text = none := by
    decide +kernel
  have room : machine.depth + 8 ≤ environment.maxDepth := by decide
  obtain ⟨single, double, clear⟩ := stack_words_rearrange rfl free room 0
  exact ⟨environment, machine, rfl, (single _ (literal _ (by decide)) []).1,
    (single _ (literal _ (by decide)) []).2,
    (double _ _ (literal _ (by decide)) (literal _ (by decide)) []).1, clear _ (by decide)⟩

end Concatenative.Machine
