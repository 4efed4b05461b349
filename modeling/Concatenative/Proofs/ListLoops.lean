import Mathlib.Algebra.Ring.Int.Defs
import Mathlib.Data.Nat.Choose.Basic
import Concatenative.Proofs.ListWords

/-!
Two loops over a list in its slot. One puts the length of the list at its end, round after round,
so that the list holds the numbers below the count. The other takes the elements off the front of
the list and adds them to a total on the retain stack, until none is left. What a round does is said
once for each, and the invariant of its loop is the state of the machine after so many rounds.
-/

namespace Concatenative

open Text ListText Library

namespace Programs

def numerals (size : Nat) : List Text := (List.range size).map Decimal.write

def growTokens : List Text := ["dup", ">r", "size", "dup", "r>", "insert"].map String.toList

def takeTokens : List Text := ["0", "swap", "remove", "r>", "+", ">r", "t"].map String.toList

def testTokens (onTrue onFalse : Text) : List Text :=
  ["dup", "size", "0", ">"].map String.toList ++ [onTrue, onFalse, "if".toList]

def vocabulary : List Text :=
  ["dup", ">r", "size", "r>", "insert", "rep", "swap", "remove", "+", "t", "f", ">", "if",
    "loop"].map String.toList

theorem numerals_succ (size : Nat) :
    numerals (size + 1) = numerals size ++ [Decimal.write size] := by
  rw [numerals, List.range_succ, List.map_append]
  rfl

@[simp] theorem length_numerals (size : Nat) : (numerals size).length = size := by
  rw [numerals, List.length_map, List.length_range]

end Programs

open Programs

theorem Integer.inRange_of_le {small large : Nat} (le : small ≤ large)
    (inRange : InRange (large : Int)) : InRange (small : Int) := by
  unfold InRange at inRange ⊢
  omega

theorem Integer.isElement_of_read? {text : Text} {number : Int}
    (read : read? text = some number) : IsElement text :=
  Or.inl ⟨isWord_of_read? read, (isAtom_of_read? read).2.1⟩

theorem Programs.isElement_numerals {size : Nat} (countable : Integer.InRange size) :
    ∀ item ∈ numerals size, IsElement item := by
  rw [numerals, List.forall_mem_map]
  intro number mem
  have inRange : Integer.InRange (number : Int) :=
    Integer.inRange_of_le (Nat.le_of_lt (List.mem_range.1 mem)) countable
  exact Integer.isElement_of_read? (Integer.read?_write inRange)

/-- Added to a total from the left, the numbers that the elements are read as keep it in range and
bring it to the goal. -/
inductive AddsUp : Int → List Text → Int → Prop where
  | nil (total : Int) : AddsUp total [] total
  | cons {total number goal : Int} {element : Text} {rest : List Text}
      (read : Integer.read? element = some number) (inRange : Integer.InRange (number + total))
      (later : AddsUp (number + total) rest goal) : AddsUp total (element :: rest) goal

namespace AddsUp

theorem exists_read? {total goal : Int} {elements : List Text}
    (adds : AddsUp total elements goal) :
    ∀ element ∈ elements, ∃ number, Integer.read? element = some number := by
  induction adds with
  | nil total => exact List.forall_mem_nil _
  | cons read inRange later ih => exact List.forall_mem_cons.2 ⟨⟨_, read⟩, ih⟩

theorem isElement {total goal : Int} {elements : List Text} (adds : AddsUp total elements goal) :
    ∀ element ∈ elements, IsElement element := by
  intro element mem
  obtain ⟨number, read⟩ := adds.exists_read? element mem
  exact Integer.isElement_of_read? read

theorem of_running_sums {elements : List Text} {numbers : List Int} {total : Int}
    (reads : elements.map Integer.read? = numbers.map some)
    (sums : ∀ count, Integer.InRange (total + (numbers.take count).sum)) :
    AddsUp total elements (total + numbers.sum) := by
  induction numbers generalizing elements total with
  | nil =>
    obtain rfl : elements = [] := List.map_eq_nil_iff.1 reads
    rw [List.sum_nil, Int.add_zero]
    exact .nil total
  | cons number numbers ih =>
    rw [List.map_cons, List.map_eq_cons_iff] at reads
    obtain ⟨element, rest, rfl, read, later⟩ := reads
    have next : ∀ count, Integer.InRange (number + total + (numbers.take count).sum) := by
      intro count
      have longer := sums (count + 1)
      rwa [List.take_succ_cons, List.sum_cons, ← Int.add_assoc, Int.add_comm total] at longer
    have inRange := next 0
    rw [List.take_zero, List.sum_nil, Int.add_zero] at inRange
    rw [List.sum_cons, ← Int.add_assoc, Int.add_comm total]
    exact .cons read inRange (ih later next)

theorem append_singleton {total middle number : Int} {elements : List Text} {element : Text}
    (adds : AddsUp total elements middle) (read : Integer.read? element = some number)
    (inRange : Integer.InRange (number + middle)) :
    AddsUp total (elements ++ [element]) (number + middle) := by
  induction adds with
  | nil total => exact .cons read inRange (.nil _)
  | cons first within later ih => exact .cons first within (ih inRange)

theorem numerals {size : Nat} (fits : Integer.InRange (size * (size - 1) / 2 : Nat)) :
    AddsUp 0 (numerals size) (size * (size - 1) / 2 : Nat) := by
  induction size with
  | zero => exact .nil 0
  | succ size ih =>
    rw [Nat.triangle_succ] at fits ⊢
    have before : Integer.InRange (size * (size - 1) / 2 : Nat) :=
      Integer.inRange_of_le (Nat.le_add_right _ _) fits
    have number : Integer.InRange (size : Int) :=
      Integer.inRange_of_le (Nat.le_add_left _ _) fits
    rw [Int.natCast_add, Int.add_comm] at fits ⊢
    rw [numerals_succ]
    exact append_singleton (ih before) (Integer.read?_write number) fits

end AddsUp

theorem MathOp.answer_add {left right : Text} {a b : Int} (readLeft : Integer.read? left = some a)
    (readRight : Integer.read? right = some b) (inRange : Integer.InRange (a + b)) :
    MathOp.add.answer left right = Integer.write (a + b) := by
  apply answer_of_ok
  rw [applyText_of_read? readLeft readRight]
  exact if_pos inRange

namespace Machine

open ListOp

section

variable {environment : Environment} {rounds levels : Nat} {machine last : Machine}
  (keeps : machine.KeepsWords environment vocabulary)

include keeps

theorem runsTo_zero (below : List Text) :
    RunsTo environment rounds levels ["0".toList, ">r".toList] { machine with main := below }
      { machine with main := below, retain := "0".toList :: machine.retain } := by
  have readZero : Integer.read? "0".toList = some 0 := by decide
  apply RunsTo.cons (keeps.runsTo_integer readZero below)
  exact keeps.runsTo_stash (by decide) "0".toList below

variable {handle : Handle} (literal : machine.IsLiteral environment handle.toText)

include literal

section

variable {list : List Text} (resolves : Resolves machine.arena handle.toText (.slot handle) list)

include resolves

theorem evaluatesTo_grow (countable : Integer.InRange list.length) (below : List Text) :
    EvaluatesTo environment rounds (levels + 2) (render growTokens)
      { machine with main := handle.toText :: below }
      { machine with
        main := handle.toText :: below
        arena := machine.arena.set handle (render (list ++ [Decimal.write list.length])) } := by
  let length := Decimal.write list.length
  let stashed := { machine with retain := handle.toText :: machine.retain }
  have read : Integer.read? length = some (list.length : Int) := Integer.read?_write countable
  have counted : machine.IsLiteral environment length := keeps.isLiteral_integer read
  have keepsStashed : stashed.KeepsWords environment vocabulary := keeps.of_user_eq rfl
  have size : Replaces stashed .size [handle.toText] [length] machine.arena :=
    replaces_size resolves
  have insert : Replaces machine .insert [handle.toText, length, length] [handle.toText]
      (machine.arena.set handle (render (list ++ [length]))) := by
    have inserted := replaces_insert resolves read (Nat.le_refl _) length
    rwa [List.insertIdx_length_self] at inserted
  apply evaluatesTo_block (by decide) (by decide) (by decide)
  apply RunsTo.cons (runsTo_dup (keeps.knows (by decide)) literal below)
  apply RunsTo.cons (keeps.runsTo_stash (by decide) handle.toText (handle.toText :: below))
  apply RunsTo.cons (keepsStashed.runsTo_list (by decide) size below)
  apply RunsTo.cons (runsTo_dup (keepsStashed.knows (by decide)) counted below)
  apply RunsTo.cons (keeps.runsTo_unstash (by decide) handle.toText (length :: length :: below)
    machine.retain)
  exact keeps.runsTo_list (by decide) insert below

theorem evaluatesTo_test {onTrue onFalse : Handle}
    (literalTrue : machine.IsLiteral environment onTrue.toText)
    (literalFalse : machine.IsLiteral environment onFalse.toText)
    (countable : Integer.InRange list.length) {below : List Text}
    (runs : EvaluatesTo environment rounds (levels + 1)
      (machine.arena.derefOrKeep (if list = [] then onFalse.toText else onTrue.toText))
      { machine with main := handle.toText :: below } last) :
    EvaluatesTo environment rounds (levels + 2)
      (render (testTokens onTrue.toText onFalse.toText))
      { machine with main := handle.toText :: below } last := by
  let length := Decimal.write list.length
  have readLength : Integer.read? length = some (list.length : Int) :=
    Integer.read?_write countable
  have readZero : Integer.read? "0".toList = some ((0 : Nat) : Int) := by decide
  have size : Replaces machine .size [handle.toText] [length] machine.arena :=
    replaces_size resolves
  have filled : ((0 : Nat) : Int) < (list.length : Int) ↔ list ≠ [] := by
    rw [Int.ofNat_lt, List.length_pos_iff]
  have plain : ∀ token ∈ testTokens onTrue.toText onFalse.toText,
      IsWord token ∧ Node.IsAtom token ∧ '$' ∉ token := by
    have named : ∀ handle : Handle, IsWord handle.toText ∧ Node.IsAtom handle.toText ∧
        '$' ∉ handle.toText :=
      fun handle => ⟨handle.isWord_toText, handle.isAtom_toText, handle.dollar_not_mem_toText⟩
    rw [testTokens, List.forall_mem_append]
    refine ⟨by decide, ?_⟩
    simp only [List.forall_mem_cons]
    exact ⟨named onTrue, named onFalse, by decide, List.forall_mem_nil _⟩
  apply evaluatesTo_block (fun token mem => (plain token mem).1)
    (fun token mem => (plain token mem).2.1) (fun token mem => (plain token mem).2.2)
  apply RunsTo.cons (runsTo_dup (keeps.knows (by decide)) literal below)
  apply RunsTo.cons (keeps.runsTo_list (by decide) size (handle.toText :: below))
  apply RunsTo.cons (keeps.runsTo_integer readZero (length :: handle.toText :: below))
  apply RunsTo.cons (runsTo_greater readLength readZero keeps (by decide)
    (handle.toText :: below))
  apply RunsTo.cons (runsTo_literal literalTrue _)
  apply RunsTo.cons (runsTo_literal literalFalse _)
  apply keeps.runsTo_choice (by decide)
  simpa only [decide_eq_true_eq, filled, ite_not] using runs

end

theorem evaluatesTo_take {element total : Text} {rest : List Text}
    (resolves : Resolves machine.arena handle.toText (.slot handle) (element :: rest)) {a b : Int}
    (readElement : Integer.read? element = some a) (readTotal : Integer.read? total = some b)
    (inRange : Integer.InRange (a + b)) (below : List Text) :
    EvaluatesTo environment rounds (levels + 2) (render takeTokens)
      { machine with main := handle.toText :: below, retain := total :: machine.retain }
      { machine with
        main := truth true :: handle.toText :: below
        retain := Integer.write (a + b) :: machine.retain
        arena := machine.arena.set handle (render rest) } := by
  let stashed := { machine with retain := total :: machine.retain }
  let taken := { machine with arena := machine.arena.set handle (render rest) }
  let added := { taken with retain := Integer.write (a + b) :: machine.retain }
  have readZero : Integer.read? "0".toList = some ((0 : Nat) : Int) := by decide
  have keepsStashed : stashed.KeepsWords environment vocabulary := keeps.of_user_eq rfl
  have keepsTaken : taken.KeepsWords environment vocabulary := keeps.of_user_eq rfl
  have keepsAdded : added.KeepsWords environment vocabulary := keeps.of_user_eq rfl
  have inside : Resolves stashed.arena handle.toText (.slot handle) (element :: rest) := resolves
  have remove : Replaces stashed .remove [handle.toText, "0".toList] [element, handle.toText]
      (machine.arena.set handle (render rest)) :=
    replaces_remove inside readZero (Nat.zero_lt_succ _)
  have sum : MathOp.add.answer element total = Integer.write (a + b) :=
    MathOp.answer_add readElement readTotal inRange
  apply evaluatesTo_block (by decide) (by decide) (by decide)
  apply RunsTo.cons (keepsStashed.runsTo_integer readZero (handle.toText :: below))
  apply RunsTo.cons (runsTo_swap (keepsStashed.knows (by decide))
    (keepsStashed.isLiteral_integer readZero) literal below)
  apply RunsTo.cons (keepsStashed.runsTo_list (by decide) remove below)
  apply RunsTo.cons (keepsTaken.runsTo_unstash (by decide) total
    (element :: handle.toText :: below) machine.retain)
  apply RunsTo.cons (keepsTaken.runsTo_math .add (by decide) element total
    (handle.toText :: below))
  rw [sum]
  apply RunsTo.cons (keepsTaken.runsTo_stash (by decide) (Integer.write (a + b))
    (handle.toText :: below))
  exact runsTo_truthName keepsAdded true (by decide) (handle.toText :: below)

theorem runsTo_rep_grow {body : Handle} (apart : handle ≠ body)
    (empty : machine.arena.get? handle = some (render []))
    (live : machine.arena.get? body = some (render growTokens)) {count : Text} {number : Nat}
    (read : Integer.read? count = some (number : Int)) (below : List Text) :
    RunsTo environment rounds (levels + 2) ["rep".toList]
      { machine with main := count :: body.toText :: handle.toText :: below }
      { machine with
        main := handle.toText :: below
        arena := machine.arena.set handle (render (numerals number)) } := by
  let grown (index : Nat) : Machine :=
    { machine with
      main := handle.toText :: below
      arena := machine.arena.set handle (render (numerals index)) }
  have round : ∀ index < number, ∀ current, current = grown index →
      ∃ next, EvaluatesTo environment rounds (levels + 2) body.toText current next ∧
        next = grown (index + 1) := by
    rintro index within _ rfl
    have inRange : Integer.InRange (index : Int) :=
      Integer.inRange_of_le (Nat.le_of_lt within) (Integer.inRange_of_read? read)
    have inside : Resolves (grown index).arena handle.toText (.slot handle) (numerals index) :=
      resolves_set empty (isElement_numerals inRange)
    have stored : (grown index).arena.get? body = some (render growTokens) :=
      (Arena.get?_set_of_ne apart _ _).trans live
    have keepsGrown : (grown index).KeepsWords environment vocabulary := keeps.of_user_eq rfl
    have countable : Integer.InRange (numerals index).length := by
      rw [length_numerals]
      exact inRange
    have grows : EvaluatesTo environment rounds (levels + 2) (render growTokens) (grown index) _ :=
      evaluatesTo_grow keepsGrown literal inside countable below
    rw [length_numerals, ← numerals_succ] at grows
    refine ⟨_, evaluatesTo_reference stored rfl grows, ?_⟩
    simp only [grown, Arena.set_set]
  have start : { machine with main := handle.toText :: below } = grown 0 := by
    have none : numerals 0 = [] := rfl
    simp only [grown, none, Arena.set_of_get? empty]
  obtain ⟨_, rfl, runs⟩ := keeps.runsTo_rep (by decide) read round start
  exact runs

end

/-- The bodies of the loop that adds up a list stand in slots apart from the list. -/
structure HoldsLoop (arena : Arena) (handle test take stop : Handle) : Prop where
  apart : ∀ body ∈ [test, take, stop], handle ≠ body
  test : arena.get? test = some (render (testTokens take.toText stop.toText))
  take : arena.get? take = some (render takeTokens)
  stop : arena.get? stop = some (render ["f".toList])

theorem HoldsLoop.set {arena : Arena} {handle test take stop : Handle}
    (holds : HoldsLoop arena handle test take stop) (body : Text) :
    HoldsLoop (arena.set handle body) handle test take stop where
  apart := holds.apart
  test := (Arena.get?_set_of_ne (holds.apart test (by simp)) _ _).trans holds.test
  take := (Arena.get?_set_of_ne (holds.apart take (by simp)) _ _).trans holds.take
  stop := (Arena.get?_set_of_ne (holds.apart stop (by simp)) _ _).trans holds.stop

section

variable {environment : Environment} {rounds levels : Nat} {machine : Machine}
  (keeps : machine.KeepsWords environment vocabulary)
  (literals : ∀ handle : Handle, machine.IsLiteral environment handle.toText)
  {handle test take stop : Handle}

include keeps literals

theorem runsTo_build {body : Handle} (apart : handle ≠ body)
    (empty : machine.arena.get? handle = some (render []))
    (live : machine.arena.get? body = some (render growTokens)) {count : Text} {number : Nat}
    (read : Integer.read? count = some (number : Int)) (below : List Text) :
    RunsTo environment rounds (levels + 2) [handle.toText, body.toText, count, "rep".toList]
      { machine with main := below }
      { machine with
        main := handle.toText :: below
        arena := machine.arena.set handle (render (numerals number)) } := by
  apply RunsTo.cons (runsTo_literal (literals handle) below)
  apply RunsTo.cons (runsTo_literal (literals body) (handle.toText :: below))
  apply RunsTo.cons (keeps.runsTo_integer read (body.toText :: handle.toText :: below))
  exact runsTo_rep_grow keeps (literals handle) apart empty live read below

variable (holds : HoldsLoop machine.arena handle test take stop)

include holds

theorem evaluatesTo_round {element total : Text} {rest : List Text}
    (resolves : Resolves machine.arena handle.toText (.slot handle) (element :: rest))
    (countable : Integer.InRange (element :: rest).length) {a b : Int}
    (readElement : Integer.read? element = some a) (readTotal : Integer.read? total = some b)
    (inRange : Integer.InRange (a + b)) (below : List Text) :
    EvaluatesTo environment rounds (levels + 3) test.toText
      { machine with main := handle.toText :: below, retain := total :: machine.retain }
      { machine with
        main := truth true :: handle.toText :: below
        retain := Integer.write (a + b) :: machine.retain
        arena := machine.arena.set handle (render rest) } := by
  let stashed := { machine with retain := total :: machine.retain }
  have keepsStashed : stashed.KeepsWords environment vocabulary := keeps.of_user_eq rfl
  have inside : Resolves stashed.arena handle.toText (.slot handle) (element :: rest) := resolves
  have chosen : stashed.arena.derefOrKeep
      (if element :: rest = [] then stop.toText else take.toText) = render takeTokens := by
    rw [if_neg (List.cons_ne_nil _ _)]
    exact Arena.derefOrKeep_toText holds.take
  refine evaluatesTo_reference holds.test rfl ?_
  apply evaluatesTo_test keepsStashed (literals handle) inside (literals take) (literals stop)
    countable
  rw [chosen]
  exact evaluatesTo_take keeps (literals handle) resolves readElement readTotal inRange below

theorem evaluatesTo_last_round (resolves : Resolves machine.arena handle.toText (.slot handle) [])
    (below : List Text) :
    EvaluatesTo environment rounds (levels + 3) test.toText
      { machine with main := handle.toText :: below }
      { machine with main := truth false :: handle.toText :: below } := by
  refine evaluatesTo_reference holds.test rfl ?_
  apply evaluatesTo_test keeps (literals handle) resolves (literals take) (literals stop)
    (by decide)
  rw [if_pos rfl, Arena.derefOrKeep_toText holds.stop]
  apply evaluatesTo_block (by decide) (by decide) (by decide)
  exact runsTo_truthName keeps false (by decide) (handle.toText :: below)

theorem runsTo_sum {old : Text} (live : machine.arena.get? handle = some old)
    {elements : List Text} {total goal : Int} (adds : AddsUp total elements goal)
    (small : Integer.InRange total) (countable : Integer.InRange elements.length)
    (within : elements.length < rounds) (below : List Text) :
    RunsTo environment rounds (levels + 3) ["loop".toList]
      { machine with
        main := test.toText :: handle.toText :: below
        retain := Integer.write total :: machine.retain
        arena := machine.arena.set handle (render elements) }
      { machine with
        main := handle.toText :: below
        retain := Integer.write goal :: machine.retain
        arena := machine.arena.set handle (render []) } := by
  let holding (total : Int) (elements : List Text) : Machine :=
    { machine with
      main := handle.toText :: below
      retain := Integer.write total :: machine.retain
      arena := machine.arena.set handle (render elements) }
  -- The rounds still to come are the elements still in the list.
  let invariant (left : Nat) (current : Machine) : Prop :=
    ∃ total elements, AddsUp total elements goal ∧ Integer.InRange total ∧
      Integer.InRange elements.length ∧ elements.length = left ∧ current = holding total elements
  have continues : ∀ left current, invariant (left + 1) current →
      ∃ next, EvaluatesTo environment rounds (levels + 3) test.toText current
          (next.push (truth true)) ∧ invariant left next := by
    rintro left _ ⟨total, elements, adds, small, countable, length, rfl⟩
    have inside := resolves_set live adds.isElement
    cases adds with
    | nil => cases length
    | @cons total number goal element rest read inRange later =>
      let current := { machine with arena := machine.arena.set handle (render (element :: rest)) }
      have keepsCurrent : current.KeepsWords environment vocabulary := keeps.of_user_eq rfl
      have holdsCurrent : HoldsLoop current.arena handle test take stop := holds.set _
      have round : EvaluatesTo environment rounds (levels + 3) test.toText
          (holding total (element :: rest)) _ :=
        evaluatesTo_round keepsCurrent literals holdsCurrent inside countable read
          (Integer.read?_write small) inRange below
      rw [Arena.set_set] at round
      refine ⟨holding (number + total) rest, round, _, rest, later, inRange, ?_, ?_, rfl⟩
      · exact Integer.inRange_of_le (Nat.le_succ _) countable
      · exact Nat.succ.inj length
  have stops : ∀ current, invariant 0 current →
      ∃ last, EvaluatesTo environment rounds (levels + 3) test.toText current
          (last.push (truth false)) ∧ last = holding goal [] := by
    rintro _ ⟨total, elements, adds, small, -, length, rfl⟩
    have inside := resolves_set live adds.isElement
    cases adds with
    | cons => cases length
    | nil =>
      have keepsCurrent : (holding goal []).KeepsWords environment vocabulary :=
        keeps.of_user_eq rfl
      have holdsCurrent : HoldsLoop (holding goal []).arena handle test take stop := holds.set _
      exact ⟨holding goal [], evaluatesTo_last_round keepsCurrent literals holdsCurrent inside
        below, rfl⟩
  have keepsStart : (holding total elements).KeepsWords environment vocabulary :=
    keeps.of_user_eq rfl
  have start : invariant elements.length (holding total elements) :=
    ⟨total, elements, adds, small, countable, rfl, rfl⟩
  obtain ⟨_, rfl, runs⟩ := keepsStart.runsTo_loop (by decide) continues stops within start
  exact runs

theorem runsTo_total {old : Text} (live : machine.arena.get? handle = some old)
    {elements : List Text} {goal : Int} (adds : AddsUp 0 elements goal)
    (countable : Integer.InRange elements.length) (within : elements.length < rounds)
    (below : List Text) :
    RunsTo environment rounds (levels + 3) [test.toText, "loop".toList, "r>".toList]
      { machine with
        main := handle.toText :: below
        retain := "0".toList :: machine.retain
        arena := machine.arena.set handle (render elements) }
      { machine with
        main := Integer.write goal :: handle.toText :: below
        arena := machine.arena.set handle (render []) } := by
  let started := { machine with
    retain := "0".toList :: machine.retain
    arena := machine.arena.set handle (render elements) }
  let emptied := { machine with arena := machine.arena.set handle (render []) }
  have keepsEmptied : emptied.KeepsWords environment vocabulary := keeps.of_user_eq rfl
  have pushed : started.IsLiteral environment test.toText := literals test
  apply RunsTo.cons (runsTo_literal pushed (handle.toText :: below))
  apply RunsTo.cons (runsTo_sum keeps literals holds live adds (by decide) countable within
    below)
  exact keepsEmptied.runsTo_unstash (by decide) (Integer.write goal) (handle.toText :: below)
    machine.retain

end

end Machine

end Concatenative
