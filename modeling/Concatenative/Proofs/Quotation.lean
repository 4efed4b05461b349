import Mathlib.Data.List.Chain
import Concatenative.Proofs.Concatenation
import Concatenative.Proofs.Execution
import Concatenative.Proofs.NormalForm
import Concatenative.Proofs.Substitution

/-!
Quotation laws. A quoted source is rendered, pushed, taken from the stack, stripped of its
brackets and read again through a template before it runs. If it has no placeholders, all
of this comes to running the source itself one level further down: once for `eval` and for
the branch of `if` that is taken, and as often as `rep` is told.
-/

namespace Concatenative

open Text ListText

namespace Text

/-- No dollar sign has a digit right behind it. -/
def NoPlaceholder (text : Text) : Prop :=
  text.IsChain fun c next => c = '$' → next.isDigit = false

instance (text : Text) : Decidable (NoPlaceholder text) :=
  inferInstanceAs (Decidable (text.IsChain fun c next => c = '$' → next.isDigit = false))

theorem noPlaceholder_of_not_mem {text : Text} (plain : '$' ∉ text) : NoPlaceholder text := by
  unfold NoPlaceholder
  induction text with
  | nil => exact List.isChain_nil
  | cons c text ih =>
    rw [List.mem_cons, not_or] at plain
    rw [List.isChain_cons]
    exact ⟨fun _ _ dollar => absurd dollar.symm plain.1, ih plain.2⟩

def quote (source : Text) : Text := unwords [opening, source, closing]

theorem isInfix_of_mem_words {text word : Text} (mem : word ∈ words text) : word <:+: text := by
  induction text using blank_induction with
  | solid text solid =>
    by_cases empty : text = []
    · rw [empty, words_nil] at mem
      cases mem
    · rw [words_of_isWord ⟨empty, solid⟩, List.mem_singleton] at mem
      subst mem
      exact List.infix_rfl
  | divided first c second blank front back =>
    rw [words_append_blank blank] at mem
    rcases List.mem_append.1 mem with mem | mem
    · exact (front mem).trans (List.prefix_append _ _).isInfix
    · exact (back mem).trans (List.suffix_append_of_suffix (List.suffix_cons c second)).isInfix

theorem noPlaceholder_render {elements : List Text}
    (all : ∀ element ∈ elements, NoPlaceholder element) : NoPlaceholder (render elements) := by
  have inside : NoPlaceholder (elements.flatMap (· ++ [' ']) ++ [']']) := by
    unfold NoPlaceholder
    induction elements with
    | nil => exact List.isChain_singleton _
    | cons element rest ih =>
      have later := ih fun other mem => all other (List.mem_cons_of_mem element mem)
      rw [List.flatMap_cons, List.append_assoc, List.append_assoc, List.singleton_append,
        List.isChain_append]
      refine ⟨all element List.mem_cons_self, ?_, ?_⟩
      · rw [List.isChain_cons]
        exact ⟨fun _ _ dollar => absurd dollar (by decide), later⟩
      · intro c _ next space _
        rw [← Option.some.inj space]
        decide
  unfold NoPlaceholder at inside ⊢
  rw [render_eq, List.cons_append, List.cons_append, List.isChain_cons, List.isChain_cons]
  exact ⟨fun _ _ dollar => absurd dollar (by decide),
    fun _ _ dollar => absurd dollar (by decide), inside⟩

end Text

namespace Node

theorem noPlaceholder_render_of_atoms {node : Node} (atoms : node.AllAtoms NoPlaceholder) :
    NoPlaceholder node.render := by
  induction atoms with
  | atom one =>
    rw [render]
    exact one
  | block all ih =>
    rw [render]
    apply noPlaceholder_render
    intro element mem
    rw [renderAll_eq_map] at mem
    obtain ⟨item, member, rfl⟩ := List.mem_map.1 mem
    exact ih item member

theorem readsAs_quote {source : Text} (balanced : IsBalanced source) :
    ReadsAs (words (quote source)) (.block (read source)) := by
  intro later
  obtain ⟨items, after⟩ := readsOn_of_closes balanced (closing :: later)
  rw [nodes_closing, List.append_nil] at items
  rw [rest_closing] at after
  have split : words (quote source) ++ later = opening :: (words source ++ closing :: later) := by
    have brackets : words opening = [opening] ∧ words closing = [closing] := by decide
    rw [quote, words_unwords_eq_flatMap]
    simp [brackets.1, brackets.2]
  rw [split, nodes_opening, rest_opening, items, after]
  exact ⟨rfl, rfl⟩

theorem parse_unwords_cons {text : Text} {node : Node} (reads : ReadsAs (words text) node)
    (texts : List Text) :
    parse (unwords (text :: texts)) = node.render :: parse (unwords texts) := by
  simp only [parse, Node.read, words_unwords_eq_flatMap, List.flatMap_cons, (reads _).1, renderAll]

end Node

theorem parse_quote_cons {source : Text} (balanced : Node.IsBalanced source) (texts : List Text) :
    parse (unwords (quote source :: texts)) = render (parse source) :: parse (unwords texts) := by
  rw [Node.parse_unwords_cons (Node.readsAs_quote balanced), Node.render]
  rfl

theorem parse_word_cons {word : Text} (isWord : IsWord word) (isAtom : Node.IsAtom word)
    (texts : List Text) : parse (unwords (word :: texts)) = word :: parse (unwords texts) := by
  have reads : Node.ReadsAs (words word) (.atom word) := by
    rw [words_of_isWord isWord]
    exact Node.readsAs_atom isAtom
  rw [Node.parse_unwords_cons reads, Node.render]

theorem parse_unwords_nil : parse (unwords []) = [] := by
  rw [parse, Node.read, unwords, words_nil, Node.nodes_nil, Node.renderAll]

theorem noPlaceholder_of_mem_parse {source token : Text} (plain : NoPlaceholder source)
    (mem : token ∈ parse source) : NoPlaceholder token := by
  rw [parse, Node.renderAll_eq_map] at mem
  obtain ⟨node, member, rfl⟩ := List.mem_map.1 mem
  apply Node.noPlaceholder_render_of_atoms
  exact Node.allAtoms_of_mem_nodes
    (fun word inside _ => List.IsChain.infix plain (isInfix_of_mem_words inside)) member

namespace Template

open Segment

theorem hole_not_mem_ofText {text : Text} (plain : NoPlaceholder text) (number : Nat) :
    .hole number ∉ ofText text := by
  intro mem
  obtain ⟨before, after, rfl, index⟩ := exists_of_hole_mem mem
  have behind := (List.isChain_append.1 plain).2.1
  cases after with
  | nil => cases index
  | cons next after =>
    have nonDigit := (List.isChain_cons_cons.1 behind).1 rfl
    rw [List.takeWhile_cons, nonDigit] at index
    cases index

theorem ofText_of_noPlaceholder {text : Text} (plain : NoPlaceholder text) :
    ofText text = text.map .char := by
  have holes := hole_not_mem_ofText plain
  clear plain
  induction text using ofText_induction with
  | nil => rfl
  | char c text segments ih =>
    rw [segments] at holes
    rw [segments, ih fun number mem => holes number (List.mem_cons_of_mem _ mem), List.map_cons]
  | hole text number found ih =>
    rw [ofText_hole found] at holes
    exact absurd List.mem_cons_self (holes number)

section

variable {source : Text} (plain : ∀ token ∈ parse source, NoPlaceholder token)

include plain

theorem arity_of_noPlaceholder : (ofSource source).arity = 0 := by
  have none : (ofSource source).tokens.flatten.filterMap Segment.index = [] := by
    rw [List.filterMap_eq_nil_iff]
    intro segment mem
    obtain ⟨segments, member, inside⟩ := List.mem_flatten.1 mem
    obtain ⟨token, found, rfl⟩ := List.mem_map.1 member
    rw [ofText_of_noPlaceholder (plain token found)] at inside
    obtain ⟨c, _, rfl⟩ := List.mem_map.1 inside
    rfl
  rw [arity, none]
  rfl

theorem instantiate_of_noPlaceholder : (ofSource source).instantiate [] = parse source := by
  rw [instantiate_ofSource (Nat.zero_le _)]
  have kept : ∀ token ∈ parse source, substitute [] token = token := by
    intro token mem
    rw [substitute_eq_fill, ofText_of_noPlaceholder (plain token mem), List.flatMap_map]
    exact List.flatMap_singleton' token
  rw [List.map_congr_left kept, List.map_id']

end

end Template

namespace Integer

theorem mem_of_read? {text : Text} {number : Int} (read : read? text = some number) :
    text ≠ [] ∧ ∀ c ∈ text, c.isDigit = true ∨ c = '-' ∨ c = '+' := by
  have digits : ∀ digits : Text, ∀ next : Nat → Option Int,
      (Decimal.read? digits).bind next = some number →
        digits ≠ [] ∧ ∀ c ∈ digits, c.isDigit = true ∨ c = '-' ∨ c = '+' := by
    intro digits next found
    obtain ⟨value, numeral, _⟩ := Option.bind_eq_some_iff.1 found
    refine ⟨?_, fun c mem => Or.inl (Template.isDigit_of_read? numeral c mem)⟩
    rintro rfl
    cases numeral
  unfold read? at read
  split at read
  · have behind := (digits _ _ read).2
    exact ⟨List.cons_ne_nil _ _, List.forall_mem_cons.2 ⟨Or.inr (Or.inl rfl), behind⟩⟩
  · have behind := (digits _ _ read).2
    exact ⟨List.cons_ne_nil _ _, List.forall_mem_cons.2 ⟨Or.inr (Or.inr rfl), behind⟩⟩
  · exact digits _ _ read

theorem isWord_of_read? {text : Text} {number : Int} (read : read? text = some number) :
    IsWord text := by
  obtain ⟨some, all⟩ := mem_of_read? read
  refine ⟨some, fun c mem => ?_⟩
  rcases all c mem with digit | rfl | rfl
  · exact not_isBlank_of_isDigit digit
  · decide
  · decide

theorem not_mem_of_read? {text : Text} {number : Int} (read : read? text = some number) {c : Char}
    (foreign : ¬(c.isDigit = true ∨ c = '-' ∨ c = '+')) : c ∉ text := fun mem =>
  foreign ((mem_of_read? read).2 c mem)

theorem isAtom_of_read? {text : Text} {number : Int} (read : read? text = some number) :
    Node.IsAtom text := by
  refine ⟨?_, ?_, ?_⟩
  all_goals
    rintro rfl
    exact absurd List.mem_cons_self (not_mem_of_read? read (by decide))

end Integer

theorem parse_integer_cons {text : Text} {number : Int} (read : Integer.read? text = some number)
    (texts : List Text) : parse (unwords (text :: texts)) = text :: parse (unwords texts) :=
  parse_word_cons (Integer.isWord_of_read? read) (Integer.isAtom_of_read? read) texts

namespace Machine

def executeTimes (environment : Environment) (rounds : Nat) (source : Text) :
    Nat → Machine → Outcome
  | 0, machine => .ok machine
  | count + 1, machine =>
    (machine.execute environment rounds source).andThen
      (executeTimes environment rounds source count)

section

variable (environment : Environment) (rounds : Nat)

/-- A body without placeholders takes no arguments and runs as its text. -/
theorem evalBody_eq_execute {body : Text} (unnamed : Handle.read? body = none)
    (plain : ∀ token ∈ parse (Template.bodyText body), NoPlaceholder token) (machine : Machine) :
    machine.evalBody (run environment rounds) body =
      machine.execute environment rounds (Template.bodyText body) := by
  have template : Template.ofBody body = Template.ofSource (Template.bodyText body) := rfl
  have called : (machine.push body).eval (run environment rounds) =
      machine.execute environment rounds (Template.bodyText body) := by
    simp only [eval, push, unnamed, call, template, Template.arity_of_noPlaceholder plain,
      Nat.not_lt_zero, if_false, List.take_zero, List.drop_zero,
      Template.instantiate_of_noPlaceholder plain]
    rfl
  rw [evalBody, called]
  exact Outcome.contain_of_isRecovered (isRecovered_execute environment rounds _ machine)

theorem evalBody_quote {source : Text} (plain : NoPlaceholder source) (machine : Machine) :
    machine.evalBody (run environment rounds) (render (parse source)) =
      machine.execute environment rounds source := by
  have text : Template.bodyText (render (parse source)) = inner (render (parse source)) :=
    if_pos (isList_render _)
  have tokens : parse (Template.bodyText (render (parse source))) = parse source := by
    rw [text, parse_inner_render]
  have unnamed : Handle.read? (render (parse source)) = none := rfl
  rw [evalBody_eq_execute environment rounds unnamed, execute, execute, tokens]
  intro token mem
  rw [tokens] at mem
  exact noPlaceholder_of_mem_parse plain mem

theorem evalBody_truth {machine : Machine} {flag : Bool}
    (unbound : machine.lookup environment (truth flag) = none) :
    machine.evalBody (run environment rounds) (truth flag) =
      if environment.maxDepth ≤ machine.depth then
        .raised (.recursionLimit environment.maxDepth) machine
      else .ok (machine.push (truth flag)) := by
  have tokens : parse (Template.bodyText (truth flag)) = [truth flag] := by
    cases flag <;> decide +kernel
  have unnamed : Handle.read? (truth flag) = none := by
    cases flag <;> rfl
  have literal : (machine.withDepth (machine.depth + 1)).IsLiteral environment (truth flag) :=
    ⟨by cases flag <;> decide, unbound⟩
  have plain : ∀ token ∈ parse (Template.bodyText (truth flag)), NoPlaceholder token := by
    rw [tokens]
    cases flag <;> decide
  rw [evalBody_eq_execute environment rounds unnamed plain, execute, tokens]
  split
  · next limit => exact run_at_limit environment rounds limit _
  · next below =>
    rw [run_below_limit environment rounds (Nat.lt_of_not_le below), inside, steps_singleton,
      step_literal environment rounds literal]
    rfl

theorem repeatBody_quote {source : Text} (plain : NoPlaceholder source) (count : Nat)
    (machine : Machine) :
    machine.repeatBody (run environment rounds) (render (parse source)) count =
      machine.executeTimes environment rounds source count := by
  induction count generalizing machine with
  | zero => rfl
  | succ count ih =>
    rw [repeatBody_succ, evalBody_quote environment rounds plain, executeTimes]
    congr 1
    funext after
    exact ih after

theorem isRecovered_executeTimes (source : Text) (count : Nat) (machine : Machine) :
    (machine.executeTimes environment rounds source count).IsRecovered := by
  induction count generalizing machine with
  | zero => trivial
  | succ count ih =>
    have recovered := isRecovered_execute environment rounds source machine
    rw [executeTimes]
    cases ended : machine.execute environment rounds source with
    | ok after => exact ih after
    | raised error after => rwa [ended] at recovered
    | unfinished after => trivial

theorem choose_quote {machine : Machine} {flag : Bool} {onTrue onFalse : Text}
    {below : List Text}
    (stack : machine.main = render (parse onFalse) :: render (parse onTrue) :: truth flag :: below)
    (unbound : machine.lookup environment (truth flag) = none)
    (plain : NoPlaceholder (if flag then onTrue else onFalse)) :
    machine.choose (run environment rounds) =
      { machine with main := below }.execute environment rounds
        (if flag then onTrue else onFalse) := by
  have kept : ∀ list, machine.arena.derefOrKeep (render list) = render list := fun _ => rfl
  have condition : ({ machine with main := below } : Machine).lookup environment (truth flag) =
      none := unbound
  rw [choose_eq stack, evalBody_truth environment rounds condition]
  split
  · next limit => exact (run_at_limit environment rounds limit _).symm
  · simp only [Outcome.andThen, takeFlag, push, kept]
    cases flag with
    | true =>
      rw [if_pos rfl]
      exact evalBody_quote environment rounds plain _
    | false =>
      rw [if_neg (by decide), if_pos rfl]
      exact evalBody_quote environment rounds plain _

section

variable {environment} {machine : Machine}

/-- Where a primitive runs a source on the operands in front of it, so does the program, also
at the limit, where neither of them runs. -/
theorem run_literals_eq_inside {literals : List Text}
    (all : ∀ literal ∈ literals, machine.IsLiteral environment literal) {name : Text}
    {primitive : Primitive} (unquoted : name.head? ≠ some '$')
    (bound : machine.lookup environment name = some (.native primitive)) {source : Text}
    (performed : ∀ deeper : Machine, deeper.user = machine.user →
      ({ deeper with main := literals.reverse ++ deeper.main }.perform environment rounds
        (run environment rounds) primitive).contain =
          deeper.execute environment rounds source) :
    machine.run environment rounds (literals ++ [name]) =
      machine.inside (execute environment rounds source) := by
  by_cases limit : environment.maxDepth ≤ machine.depth
  · have deeper : environment.maxDepth ≤ (machine.withDepth (machine.depth + 1)).depth :=
      Nat.le_succ_of_le limit
    rw [run_at_limit environment rounds limit, inside, execute,
      run_at_limit environment rounds deeper]
    rfl
  · rw [run_literals environment rounds (Nat.lt_of_not_le limit) all unquoted bound, inside,
      inside, performed (machine.withDepth (machine.depth + 1)) rfl]

theorem isLiteral_render {elements : List Text}
    (unbound : machine.lookup environment (render elements) = none) :
    machine.IsLiteral environment (render elements) :=
  ⟨by rw [render_eq]; simp, unbound⟩

theorem isLiteral_integer {text : Text} {number : Int} (read : Integer.read? text = some number)
    (unbound : machine.lookup environment text = none) : machine.IsLiteral environment text :=
  ⟨fun dollar => Integer.not_mem_of_read? read (by decide) (List.mem_of_head? dollar), unbound⟩

theorem execute_quote_eval {source : Text} (balanced : Node.IsBalanced source)
    (plain : NoPlaceholder source)
    (unbound : machine.lookup environment (render (parse source)) = none)
    (evals : machine.lookup environment "eval".toList = some (.native .eval)) :
    machine.execute environment rounds (unwords [quote source, "eval".toList]) =
      machine.inside (execute environment rounds source) := by
  have tokens : parse (unwords [quote source, "eval".toList]) =
      [render (parse source)] ++ ["eval".toList] := by
    rw [parse_quote_cons balanced, parse_word_cons (by decide) ⟨by decide, by decide, by decide⟩,
      parse_unwords_nil, List.singleton_append]
  have literals : ∀ literal ∈ [render (parse source)], machine.IsLiteral environment literal := by
    simpa using isLiteral_render unbound
  rw [execute, tokens]
  apply run_literals_eq_inside rounds literals (by decide) evals
  intro deeper _
  exact evalBody_quote environment rounds plain deeper

theorem execute_quote_if (flag : Bool) {onTrue onFalse : Text}
    (balancedTrue : Node.IsBalanced onTrue) (balancedFalse : Node.IsBalanced onFalse)
    (plain : NoPlaceholder (if flag then onTrue else onFalse))
    (condition : machine.lookup environment (truth flag) = none)
    (first : machine.lookup environment (render (parse onTrue)) = none)
    (second : machine.lookup environment (render (parse onFalse)) = none)
    (chooses : machine.lookup environment "if".toList = some (.native .choose)) :
    machine.execute environment rounds
        (unwords [truth flag, quote onTrue, quote onFalse, "if".toList]) =
      machine.inside (execute environment rounds (if flag then onTrue else onFalse)) := by
  have read : Integer.read? (truth flag) = some (if flag then -1 else 0) := by
    cases flag <;> decide
  have tokens : parse (unwords [truth flag, quote onTrue, quote onFalse, "if".toList]) =
      [truth flag, render (parse onTrue), render (parse onFalse)] ++ ["if".toList] := by
    rw [parse_integer_cons read, parse_quote_cons balancedTrue, parse_quote_cons balancedFalse,
      parse_word_cons (by decide) ⟨by decide, by decide, by decide⟩, parse_unwords_nil]
    rfl
  have literals : ∀ literal ∈ [truth flag, render (parse onTrue), render (parse onFalse)],
      machine.IsLiteral environment literal := by
    simp only [List.forall_mem_cons]
    exact ⟨isLiteral_integer read condition, isLiteral_render first, isLiteral_render second,
      List.forall_mem_nil _⟩
  rw [execute, tokens]
  apply run_literals_eq_inside rounds literals (by decide) chooses
  intro deeper same
  let ready : Machine := { deeper with
    main := render (parse onFalse) :: render (parse onTrue) :: truth flag :: deeper.main }
  have unbound : ready.lookup environment (truth flag) = none := by
    rw [lookup] at condition ⊢
    rwa [show ready.user = machine.user from same]
  have chosen : ready.choose (run environment rounds) =
      deeper.execute environment rounds (if flag then onTrue else onFalse) :=
    choose_quote environment rounds rfl unbound plain
  change (ready.choose (run environment rounds)).contain = _
  rw [chosen]
  exact Outcome.contain_of_isRecovered (isRecovered_execute environment rounds _ deeper)

theorem execute_quote_rep {source count : Text} {number : Nat}
    (balanced : Node.IsBalanced source) (plain : NoPlaceholder source)
    (read : Integer.read? count = some (number : Int))
    (unbound : machine.lookup environment (render (parse source)) = none)
    (counts : machine.lookup environment count = none)
    (repeats : machine.lookup environment "rep".toList = some (.native .times))
    (below : machine.depth < environment.maxDepth) :
    machine.execute environment rounds (unwords [quote source, count, "rep".toList]) =
      machine.inside (executeTimes environment rounds source number) := by
  have tokens : parse (unwords [quote source, count, "rep".toList]) =
      [render (parse source), count] ++ ["rep".toList] := by
    rw [parse_quote_cons balanced, parse_integer_cons read,
      parse_word_cons (by decide) ⟨by decide, by decide, by decide⟩, parse_unwords_nil]
    rfl
  have literals : ∀ literal ∈ [render (parse source), count],
      machine.IsLiteral environment literal := by
    simp only [List.forall_mem_cons]
    exact ⟨isLiteral_render unbound, isLiteral_integer read counts, List.forall_mem_nil _⟩
  rw [execute, tokens, run_literals environment rounds below literals (by decide) repeats]
  congr 1
  funext deeper
  let ready : Machine := { deeper with main := count :: render (parse source) :: deeper.main }
  have repeated : ready.times (run environment rounds) =
      deeper.executeTimes environment rounds source number := by
    rw [times]
    simp only [ready, read, Int.toNat_natCast]
    exact repeatBody_quote environment rounds plain number deeper
  change (ready.times (run environment rounds)).contain = _
  rw [repeated]
  exact Outcome.contain_of_isRecovered (isRecovered_executeTimes environment rounds _ _ deeper)

end

end

/-- A source without placeholders, quoted, runs one level further down: when it is evaluated,
as the branch of a choice that is taken, whatever the other branch is, and as often as an
integer from zero on tells. -/
theorem execute_quote {environment : Environment} {machine : Machine} {source other : Text}
    (balanced : Node.IsBalanced source) (plain : NoPlaceholder source)
    (otherBalanced : Node.IsBalanced other)
    (unbound : ∀ literal ∈ [render (parse source), render (parse other), "-1".toList, "0".toList],
      machine.lookup environment literal = none)
    (evals : machine.lookup environment "eval".toList = some (.native .eval))
    (chooses : machine.lookup environment "if".toList = some (.native .choose))
    (repeats : machine.lookup environment "rep".toList = some (.native .times)) (rounds : Nat) :
    machine.execute environment rounds (unwords [quote source, "eval".toList]) =
        machine.inside (execute environment rounds source) ∧
      machine.execute environment rounds
          (unwords ["-1".toList, quote source, quote other, "if".toList]) =
        machine.inside (execute environment rounds source) ∧
      machine.execute environment rounds
          (unwords ["0".toList, quote other, quote source, "if".toList]) =
        machine.inside (execute environment rounds source) ∧
      ∀ (count : Text) (number : Nat), Integer.read? count = some (number : Int) →
        machine.lookup environment count = none → machine.depth < environment.maxDepth →
        machine.execute environment rounds (unwords [quote source, count, "rep".toList]) =
          machine.inside (executeTimes environment rounds source number) := by
  simp only [List.forall_mem_cons] at unbound
  obtain ⟨quoted, otherQuoted, yes, no, -⟩ := unbound
  refine ⟨execute_quote_eval rounds balanced plain quoted evals, ?_, ?_, ?_⟩
  · exact execute_quote_if rounds true balanced otherBalanced plain yes quoted otherQuoted chooses
  · exact execute_quote_if rounds false otherBalanced balanced plain no otherQuoted quoted chooses
  · intro count number read counts below
    exact execute_quote_rep rounds balanced plain read quoted counts repeats below

theorem execute_quote_nested :
    ∃ environment : Environment, ∃ machine : Machine,
      environment.maxDepth = 9 ∧ machine.depth = 7 ∧
      machine.execute environment 0 "[ 1 ( [ ) $size [ a $b ] ] eval".toList =
        machine.inside (execute environment 0 "1 ( [ ) $size [ a $b ]".toList) ∧
      machine.execute environment 0 "0 [ $1 loop ] [ 1 ( [ ) $size [ a $b ] ] if".toList =
        machine.inside (execute environment 0 "1 ( [ ) $size [ a $b ]".toList) ∧
      machine.execute environment 0 "[ 1 ( [ ) $size [ a $b ] ] +02 rep".toList =
        machine.inside (executeTimes environment 0 "1 ( [ ) $size [ a $b ]".toList 2) := by
  let environment : Environment := { context := Dictionary.natives, maxDepth := 9 }
  let machine : Machine := { main := ["c".toList], depth := 7 }
  have unbound : ∀ literal ∈ [render (parse "1 ( [ ) $size [ a $b ]".toList),
      render (parse "$1 loop".toList), "-1".toList, "0".toList],
      machine.lookup environment literal = none := by
    decide +kernel
  have laws := execute_quote (by decide) (by decide) (by decide) unbound (by decide) (by decide)
    (by decide) 0
  exact ⟨environment, machine, rfl, rfl, laws.1, laws.2.2.1,
    laws.2.2.2 "+02".toList 2 (by decide) (by decide) (by decide)⟩

theorem executeTimes_nil {environment : Environment} {machine : Machine}
    (below : machine.depth < environment.maxDepth) (rounds count : Nat) :
    machine.executeTimes environment rounds [] count = .ok machine := by
  have once : machine.execute environment rounds [] = .ok machine := by
    have tokens : parse [] = [] := parse_unwords_nil
    rw [execute, tokens, run_below_limit environment rounds below]
    rfl
  induction count with
  | zero => rfl
  | succ count ih => rw [executeTimes, once, Outcome.andThen, ih]

/-- The integers end at 2^63, and a count from there on is none: the empty source, run that
often, would leave the stack empty, but the count is reported there. -/
theorem execute_quote_past_range :
    ∃ environment : Environment, ∃ machine : Machine,
      Node.IsBalanced [] ∧ NoPlaceholder [] ∧ machine.depth < environment.maxDepth ∧
      machine.lookup environment "eval".toList = some (.native .eval) ∧
      machine.lookup environment "if".toList = some (.native .choose) ∧
      machine.lookup environment "rep".toList = some (.native .times) ∧
      (∀ literal ∈ [render (parse []), "-1".toList, "0".toList, "9223372036854775808".toList],
        machine.lookup environment literal = none) ∧
      machine.execute environment 0
          (unwords [quote [], "9223372036854775808".toList, "rep".toList]) ≠
        machine.inside (executeTimes environment 0 [] 9223372036854775808) := by
  let environment : Environment := { context := Dictionary.natives }
  let machine : Machine := {}
  have reported : machine.execute environment 0
      (unwords [quote [], "9223372036854775808".toList, "rep".toList]) =
        .ok { main := [(Fault.undefinedFor .times "9223372036854775808".toList).message] } := by
    decide +kernel
  have repeated : machine.inside (executeTimes environment 0 [] 9223372036854775808) =
      .ok machine := by
    rw [inside, executeTimes_nil (by decide)]
    rfl
  refine ⟨environment, machine, by decide, by decide, by decide, by decide, by decide, by decide,
    by decide +kernel, ?_⟩
  rw [reported, repeated]
  simp [machine]

end Machine

end Concatenative
