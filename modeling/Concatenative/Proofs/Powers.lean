import Concatenative.Proofs.StackWords
import Mathlib.Algebra.Ring.Int.Defs

/-!
Powers. The library raises an integer to a power by repeated multiplication on the stack. A
product out of range leaves a fault, and a fault is a value like any other: the rounds that
remain multiply it again. It never turns back into a number, and no power is in range again
once one is out of it.
-/

namespace Concatenative

open Text ListText Library

namespace Integer

theorem not_inRange_pow_succ {base : Int} {exponent : Nat} (outside : ¬InRange (base ^ exponent)) :
    ¬InRange (base ^ (exponent + 1)) := by
  have size : (base ^ (exponent + 1)).natAbs = (base ^ exponent).natAbs * base.natAbs := by
    rw [pow_succ, Int.natAbs_mul]
  have large : 9223372036854775808 ≤ (base ^ exponent).natAbs := by
    unfold InRange at outside
    omega
  -- The powers of 0, 1 and -1 stay in range, and those of any other base grow in size.
  have grows : 2 ≤ base.natAbs := by
    by_contra small
    have bounded : (base ^ exponent).natAbs ≤ 1 := by
      rw [Int.natAbs_pow, ← Nat.one_pow exponent]
      exact Nat.pow_le_pow_left (by omega) exponent
    omega
  have doubled : (base ^ exponent).natAbs * 2 ≤ (base ^ (exponent + 1)).natAbs := by
    rw [size]
    exact Nat.mul_le_mul_left _ grows
  unfold InRange
  omega

end Integer

theorem Fault.unquoted_message (fault : Fault) : fault.message.head? ≠ some '$' := by
  rw [fault.head?_message]
  decide

/-- The text stands for the power: it is read as the power where that is in range, and is the
message of a fault elsewhere. -/
def IsPower (base : Int) (exponent : Nat) (text : Text) : Prop :=
  (Integer.InRange (base ^ exponent) ∧ Integer.read? text = some (base ^ exponent)) ∨
    (¬Integer.InRange (base ^ exponent) ∧ ∃ fault : Fault, text = fault.message)

namespace IsPower

variable {base : Text} {b : Int} {exponent : Nat} {text : Text}

theorem one (read : Integer.read? base = some b) : IsPower b 1 base := by
  rw [IsPower, pow_one]
  exact Or.inl ⟨Integer.inRange_of_read? read, read⟩

theorem succ (power : IsPower b exponent text) (read : Integer.read? base = some b) :
    IsPower b (exponent + 1) (MathOp.mul.answer text base) := by
  obtain ⟨inRange, number⟩ | ⟨outside, fault, rfl⟩ := power
  · have applied : MathOp.mul.applyText text base = MathOp.mul.written (b ^ (exponent + 1)) := by
      rw [MathOp.applyText, number, read, pow_succ]
      rfl
    by_cases fits : Integer.InRange (b ^ (exponent + 1))
    · left
      refine ⟨fits, ?_⟩
      rw [MathOp.answer, applied, MathOp.written, if_pos fits]
      exact Integer.read?_write fits
    · right
      refine ⟨fits, .overflow (.math .mul), ?_⟩
      rw [MathOp.answer, applied, MathOp.written, if_neg fits]
  · right
    refine ⟨Integer.not_inRange_pow_succ outside, .undefinedFor (.math .mul) fault.message, ?_⟩
    rw [MathOp.answer, MathOp.applyText, Integer.read?_of_isSpaced fault.isSpaced_message]

end IsPower

namespace Machine

def powerNames : List Text := ["math.pow", "pow", "^"].map String.toList

def powerWords : List Text :=
  ["math.pow", "over", "*", "-", "rep", "swap", "drop", "def"].map String.toList

section

variable {environment : Environment} {rounds levels : Nat} {machine : Machine} {words : List Text}
  (keeps : machine.KeepsWords environment words) {base : Text} {b : Int}
  (readBase : Integer.read? base = some b)

include keeps

theorem isLiteral_of_isPower {exponent : Nat} {text : Text} (power : IsPower b exponent text) :
    machine.IsLiteral environment text := by
  obtain ⟨_, number⟩ | ⟨_, fault, rfl⟩ := power
  · exact keeps.isLiteral_integer number
  · exact keeps.isLiteral_spaced fault.unquoted_message fault.isSpaced_message

include readBase

theorem evaluatesTo_factor (used : powerWords ⊆ words) {exponent : Nat} {text : Text}
    (power : IsPower b exponent text) (below : List Text) :
    EvaluatesTo environment rounds (levels + 2) "[ over * ]".toList
      { machine with main := text :: base :: below }
      { machine with main := MathOp.mul.answer text base :: base :: below } := by
  have block : "[ over * ]".toList = render ["over".toList, "*".toList] := by decide
  rw [block]
  apply evaluatesTo_block (by decide) (by decide) (by decide)
  apply RunsTo.cons (runsTo_over (keeps.knows (used (by decide)))
    (isLiteral_of_isPower keeps power) (keeps.isLiteral_integer readBase) below)
  exact keeps.runsTo_math .mul (used (by decide)) text base _

theorem runsTo_factors (rounds levels : Nat) (used : powerWords ⊆ words) {count : Text}
    {number : Nat} (readCount : Integer.read? count = some (number : Int)) (below : List Text) :
    ∃ result, IsPower b (number + 1) result ∧
      RunsTo environment rounds (levels + 2) ["rep".toList]
        { machine with main := count :: "[ over * ]".toList :: base :: base :: below }
        { machine with main := result :: base :: below } := by
  let invariant (index : Nat) (current : Machine) : Prop :=
    ∃ text, IsPower b (index + 1) text ∧ current = { machine with main := text :: base :: below }
  have round : ∀ index < number, ∀ current, invariant index current →
      ∃ next, EvaluatesTo environment rounds (levels + 2) "[ over * ]".toList current next ∧
        invariant (index + 1) next := by
    rintro index - _ ⟨text, power, rfl⟩
    exact ⟨_, evaluatesTo_factor keeps readBase used power below, _, power.succ readBase, rfl⟩
  have start : invariant 0 { machine with main := base :: base :: below } :=
    ⟨base, IsPower.one readBase, rfl⟩
  obtain ⟨_, ⟨result, power, rfl⟩, runs⟩ :=
    keeps.runsTo_rep (used (by decide)) readCount round start
  exact ⟨result, power, runs⟩

theorem runsTo_power (rounds levels : Nat) (used : powerWords ⊆ words) {exponent : Text}
    {number : Nat} (readExponent : Integer.read? exponent = some ((number + 1 : Nat) : Int))
    (below : List Text) :
    ∃ result, IsPower b (number + 1) result ∧
      RunsTo environment rounds (levels + 3) ["math.pow".toList]
        { machine with main := exponent :: base :: below }
        { machine with main := result :: below, user := machine.user.define "@".toList base } := by
  have unfolds : Unfolds "math.pow".toList [exponent, base]
      [base, base, "[ over * ]".toList, exponent, "1".toList, "-".toList, "rep".toList,
        "swap".toList, "drop".toList] :=
    unfolds_of_cut rfl (by simp [Segment.fill])
  have block : machine.IsLiteral environment "[ over * ]".toList :=
    keeps.isLiteral_spaced (by decide) ⟨' ', by decide, by decide⟩
  have readOne : Integer.read? "1".toList = some 1 := by decide
  have readCount : Integer.read? (MathOp.sub.answer exponent "1".toList) = some (number : Int) := by
    have inRange : Integer.InRange (number : Int) := by
      have bounds := Integer.inRange_of_read? readExponent
      unfold Integer.InRange at bounds ⊢
      omega
    have applied : MathOp.sub.applyText exponent "1".toList = .ok (Integer.write number) := by
      rw [MathOp.applyText, readExponent, readOne]
      simp [MathOp.apply, MathOp.written, inRange]
    rw [MathOp.answer, applied]
    exact Integer.read?_write inRange
  obtain ⟨result, power, multiplies⟩ :=
    runsTo_factors keeps readBase rounds levels used readCount below
  refine ⟨result, power, ?_⟩
  apply keeps.runsTo_word (used (by decide)) unfolds
  apply RunsTo.cons (keeps.runsTo_integer readBase below)
  apply RunsTo.cons (keeps.runsTo_integer readBase _)
  apply RunsTo.cons (runsTo_literal block _)
  apply RunsTo.cons (keeps.runsTo_integer readExponent _)
  apply RunsTo.cons (keeps.runsTo_integer readOne _)
  apply RunsTo.cons (keeps.runsTo_math .sub (used (by decide)) exponent "1".toList _)
  apply RunsTo.cons multiplies
  apply RunsTo.cons (runsTo_swap (keeps.knows (used (by decide)))
    (isLiteral_of_isPower keeps power) (keeps.isLiteral_integer readBase) below)
  -- Dropping the base names it, which is all that the definitions keep of the whole course.
  have drops : ["drop".toList, "def".toList] ⊆ words := List.Subset.trans (by decide) used
  have names : machine.IsLiteral environment "[ @ ]".toList :=
    keeps.isLiteral_spaced (by decide) ⟨' ', by decide, by decide⟩
  have kept : machine.arena.derefOrKeep base = base :=
    Arena.derefOrKeep_of_unnamed (Integer.handle_of_read? readBase)
  simpa only [kept] using runsTo_drop (fun word mem => keeps.knows (drops mem)) names
    (keeps.isLiteral_integer readBase) (result :: below)

theorem runsTo_powerName (rounds levels : Nat) {name : Text} (named : name ∈ powerNames)
    (used : name :: powerWords ⊆ words) {exponent : Text} {number : Nat}
    (readExponent : Integer.read? exponent = some ((number + 1 : Nat) : Int))
    (below : List Text) :
    ∃ result, IsPower b (number + 1) result ∧
      RunsTo environment rounds (levels + 4) [name]
        { machine with main := exponent :: base :: below }
        { machine with main := result :: below, user := machine.user.define "@".toList base } := by
  have own : powerWords ⊆ words := List.Subset.trans (List.subset_cons_self _ _) used
  rcases List.mem_cons.1 named with rfl | short
  · exact runsTo_power keeps readBase rounds (levels + 1) own readExponent below
  · have unfolds : Unfolds name [] ["math.pow".toList] := by
      rcases List.mem_pair.1 short with rfl | rfl
      · exact unfolds_of_cut rfl (by simp)
      · exact unfolds_of_cut rfl (by simp)
    obtain ⟨result, power, runs⟩ :=
      runsTo_power keeps readBase rounds levels own readExponent below
    exact ⟨result, power, keeps.runsTo_word (used List.mem_cons_self) unfolds runs⟩

end

/-- Raising to a power is exact for every base and every exponent from one on: the two operands
are replaced by one cell, which reads as the power if that is in range and is a fault that reads
as no integer if not. Of the rest only the definition of `@` changes. -/
theorem power_exact {environment : Environment} {machine : Machine} {base exponent name : Text}
    {b : Int} {n : Nat} (readBase : Integer.read? base = some b)
    (readExponent : Integer.read? exponent = some (n : Int)) (positive : 1 ≤ n)
    (named : name ∈ powerNames) (keeps : machine.KeepsWords environment (name :: powerWords))
    (room : machine.depth + 16 ≤ environment.maxDepth) (rounds : Nat) :
    ∃ result,
      machine.Gives environment rounds (unwords [base, exponent, name])
        { machine with
          main := result :: machine.main
          user := machine.user.define "@".toList base } ∧
      (Integer.InRange (b ^ n) → Integer.read? result = some (b ^ n)) ∧
      (¬Integer.InRange (b ^ n) →
        (∃ fault : Fault, result = fault.message) ∧ Integer.read? result = none) := by
  obtain ⟨number, rfl⟩ : ∃ number, n = number + 1 := ⟨n - 1, by omega⟩
  have plain : ∀ name ∈ powerNames, IsWord name ∧ Node.IsAtom name := by
    decide
  obtain ⟨result, power, runs⟩ := runsTo_powerName keeps readBase rounds 0 named
    (List.Subset.refl _) readExponent machine.main
  refine ⟨result, keeps.gives_binary readBase readExponent (plain name named) runs rfl (by omega),
    ?_⟩
  obtain ⟨inRange, number⟩ | ⟨outside, fault, rfl⟩ := power
  · exact ⟨fun _ => number, fun outside => absurd inRange outside⟩
  · exact ⟨fun inRange => absurd inRange outside,
      fun _ => ⟨⟨fault, rfl⟩, Integer.read?_of_isSpaced fault.isSpaced_message⟩⟩

theorem power_exact_at_limit :
    ∃ environment : Environment, ∃ machine : Machine,
      machine.depth + 16 = environment.maxDepth ∧ machine.user.contains "@".toList = true ∧
      (∃ result,
        machine.Gives environment 0 "-2 063 ^".toList
          { machine with
            main := result :: machine.main
            user := machine.user.define "@".toList "-2".toList } ∧
        Integer.read? result = some (-9223372036854775808)) ∧
      ∃ result,
        machine.Gives environment 0 "-2 +64 pow".toList
          { machine with
            main := result :: machine.main
            user := machine.user.define "@".toList "-2".toList } ∧
        (∃ fault : Fault, result = fault.message) ∧ Integer.read? result = none := by
  let environment : Environment := { context := Library.dictionary }
  let machine : Machine :=
    { main := ["c".toList], depth := 240, user := ⟨[("@".toList, .defined "0".toList)]⟩ }
  have room : machine.depth + 16 ≤ environment.maxDepth := by decide
  have readBase : Integer.read? "-2".toList = some (-2) := by decide
  have readInside : Integer.read? "063".toList = some ((63 : Nat) : Int) := by decide
  have readOutside : Integer.read? "+64".toList = some ((64 : Nat) : Int) := by decide
  have keeps : ∀ name ∈ powerNames, machine.KeepsWords environment (name :: powerWords) :=
    fun name named => keepsWords_of_entries rfl (by revert name; decide)
  obtain ⟨inside, givesInside, reads, _⟩ := power_exact readBase readInside (by decide)
    (by decide) (keeps "^".toList (by decide)) room 0
  obtain ⟨outside, givesOutside, _, faults⟩ := power_exact readBase readOutside (by decide)
    (by decide) (keeps "pow".toList (by decide)) room 0
  exact ⟨environment, machine, rfl, rfl, ⟨inside, givesInside, reads (by decide)⟩,
    outside, givesOutside, faults (by decide)⟩

end Machine

end Concatenative
