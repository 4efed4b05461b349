import Concatenative.Proofs.Quotation
import Concatenative.Proofs.StateInvariant

/-!
Arithmetic on integers. The primitives leave one cell in the place of two: the exact result where
it is an integer of the language, and a fault elsewhere. The quotient leaves the range for a single
pair of operands, and the remainder never does. A fault is no integer in any spelling, so what was
left tells which of the two it was.
-/

namespace Concatenative

open Text

namespace Integer

/-- The quotient cut toward zero: as large as the quotient of the sizes, with the sign that the
operands give it. -/
def IsQuotient (a b quotient : Int) : Prop :=
  quotient.natAbs = a.natAbs / b.natAbs ∧ 0 ≤ a * b * quotient

/-- A remainder is never negative, whatever the signs of the operands are. -/
def IsRemainder (a b remainder : Int) : Prop :=
  0 ≤ remainder ∧ remainder < b.natAbs ∧ b ∣ a - remainder

theorem inRange_of_read? {text : Text} {number : Int} (read : read? text = some number) :
    InRange number := by
  have checked : ∀ (digits : Text) (value : Nat → Int),
      ((Decimal.read? digits).bind fun n => check? (value n)) = some number → InRange number := by
    intro digits value found
    obtain ⟨numeral, _, kept⟩ := Option.bind_eq_some_iff.1 found
    rw [check?, Option.ite_none_right_eq_some] at kept
    obtain ⟨inRange, same⟩ := kept
    exact Option.some.inj same ▸ inRange
  unfold read? at read
  split at read
  · exact checked _ _ read
  · exact checked _ _ read
  · exact checked _ _ read

theorem read?_of_isSpaced {text : Text} (spaced : IsSpaced text) : read? text = none := by
  obtain ⟨c, mem, blank⟩ := spaced
  rw [Option.eq_none_iff_forall_ne_some]
  intro number read
  rw [(isWord_of_read? read).2 c mem] at blank
  cases blank

theorem isQuotient_tdiv (a b : Int) : IsQuotient a b (a.tdiv b) := by
  refine ⟨Int.natAbs_tdiv a b, ?_⟩
  obtain ⟨m, signA⟩ := a.eq_nat_or_neg
  obtain ⟨n, signB⟩ := b.eq_nat_or_neg
  have nonneg : (0 : Int) ≤ m * n * (m : Int).tdiv n := by
    rw [← Int.ofNat_tdiv]
    exact Int.natCast_nonneg (m * n * (m / n))
  -- Two of the three signs change together, so the product keeps its own.
  rcases signA with rfl | rfl <;> rcases signB with rfl | rfl <;>
    simpa [Int.neg_tdiv, Int.tdiv_neg, Int.neg_mul, Int.mul_neg] using nonneg

theorem not_inRange_tdiv_iff {a : Int} (inRange : InRange a) (b : Int) :
    ¬InRange (a.tdiv b) ↔ a = -9223372036854775808 ∧ b = -1 := by
  have size : (a.tdiv b).natAbs = a.natAbs / b.natAbs := (isQuotient_tdiv a b).1
  unfold InRange at *
  -- A divisor of size two or more halves the dividend at least.
  by_cases small : b.natAbs ≤ 1
  · have units : b = 0 ∨ b = 1 ∨ b = -1 := by omega
    rcases units with rfl | rfl | rfl
    · rw [Int.tdiv_zero]
      omega
    · rw [Int.tdiv_one]
      omega
    · rw [Int.tdiv_neg, Int.tdiv_one]
      omega
  · have halved : a.natAbs / b.natAbs ≤ a.natAbs / 2 :=
      Nat.div_le_div_left (by omega) (by decide)
    omega

theorem isRemainder_iff {a b : Int} (nonzero : b ≠ 0) (remainder : Int) :
    IsRemainder a b remainder ↔ remainder = a % b := by
  constructor
  · rintro ⟨nonneg, less, divides⟩
    have same : a % b = remainder % b :=
      Int.emod_eq_emod_iff_emod_sub_eq_zero.2 (Int.emod_eq_zero_of_dvd divides)
    rw [same]
    rcases Int.natAbs_eq b with positive | negative
    · rw [positive, Int.emod_eq_of_lt nonneg less]
    · rw [negative, Int.emod_neg, Int.emod_eq_of_lt nonneg less]
  · rintro rfl
    exact ⟨Int.emod_nonneg a nonzero, Int.emod_lt a nonzero, Int.dvd_self_sub_emod⟩

theorem inRange_emod {a b : Int} (nonzero : b ≠ 0) (inRange : InRange b) : InRange (a % b) := by
  have nonneg := Int.emod_nonneg a nonzero
  have less := Int.emod_lt a nonzero
  unfold InRange at *
  omega

end Integer

namespace MathOp

def answer (op : MathOp) (left right : Text) : Text :=
  match op.applyText left right with
  | .ok value => value
  | .error fault => fault.message

/-- The cell reads as the result, and is the overflow fault exactly where the result is out of
range. -/
def IsExact (op : MathOp) (result : Int) (cell : Text) : Prop :=
  (Integer.InRange result → Integer.read? cell = some result) ∧
    (cell = (Fault.overflow (.math op)).message ↔ ¬Integer.InRange result)

def IsAnswer (op : MathOp) (a b : Int) (cell : Text) : Prop :=
  match op with
  | .add => op.IsExact (a + b) cell
  | .sub => op.IsExact (a - b) cell
  | .mul => op.IsExact (a * b) cell
  | .div =>
    (cell = (Fault.divisionByZero (.math op)).message ↔ b = 0) ∧
      (cell = (Fault.overflow (.math op)).message ↔ a = -9223372036854775808 ∧ b = -1) ∧
      (b ≠ 0 → ¬(a = -9223372036854775808 ∧ b = -1) →
        ∃ quotient, Integer.IsQuotient a b quotient ∧ Integer.read? cell = some quotient)
  | .mod =>
    (cell = (Fault.divisionByZero (.math op)).message ↔ b = 0) ∧
      (b ≠ 0 → ∃ remainder, (∀ other, Integer.IsRemainder a b other ↔ other = remainder) ∧
        Integer.read? cell = some remainder)
  | .greater => cell = truth (b < a)

section

variable {op : MathOp} {left right : Text}

theorem answer_of_ok {value : Text} (applied : op.applyText left right = .ok value) :
    op.answer left right = value := by
  rw [answer, applied]

theorem answer_of_error {fault : Fault} (applied : op.applyText left right = .error fault) :
    op.answer left right = fault.message := by
  rw [answer, applied]

theorem ne_message_of_read? {cell : Text} {number : Int} (read : Integer.read? cell = some number)
    (fault : Fault) : cell ≠ fault.message := by
  rintro rfl
  rw [Integer.read?_of_isSpaced fault.isSpaced_message] at read
  cases read

theorem isExact_of_written {result : Int} (applied : op.applyText left right = op.written result) :
    op.IsExact result (op.answer left right) := by
  by_cases inRange : Integer.InRange result
  · have written : op.answer left right = Integer.write result :=
      answer_of_ok (applied.trans (if_pos inRange))
    have read : Integer.read? (op.answer left right) = some result := by
      rw [written, Integer.read?_write inRange]
    exact ⟨fun _ => read, iff_of_false (ne_message_of_read? read _) (not_not_intro inRange)⟩
  · have overflow : op.answer left right = (Fault.overflow (.math op)).message :=
      answer_of_error (applied.trans (if_neg inRange))
    exact ⟨fun inside => absurd inside inRange, iff_of_true overflow inRange⟩

variable {a b : Int} (readLeft : Integer.read? left = some a)
  (readRight : Integer.read? right = some b)

include readLeft readRight

theorem applyText_of_read? : op.applyText left right = op.apply a b := by
  rw [applyText, readLeft, readRight]

theorem isAnswer_div : IsAnswer .div a b (answer .div left right) := by
  have applied : applyText .div left right = apply .div a b := applyText_of_read? readLeft readRight
  have distinct : (Fault.divisionByZero (.math .div)).message ≠
      (Fault.overflow (.math .div)).message := by
    decide
  by_cases zero : b = 0
  · have divided : answer .div left right = (Fault.divisionByZero (.math .div)).message :=
      answer_of_error (applied.trans (if_pos zero))
    have other : answer .div left right ≠ (Fault.overflow (.math .div)).message := by
      rw [divided]
      exact distinct
    have ordinary : ¬(a = -9223372036854775808 ∧ b = -1) := by omega
    exact ⟨iff_of_true divided zero, iff_of_false other ordinary,
      fun nonzero => absurd zero nonzero⟩
  · obtain ⟨inside, overflow⟩ := isExact_of_written (applied.trans (if_neg zero))
    have extreme := Integer.not_inRange_tdiv_iff (Integer.inRange_of_read? readLeft) b
    have undivided : answer .div left right ≠ (Fault.divisionByZero (.math .div)).message := by
      by_cases fits : Integer.InRange (a.tdiv b)
      · exact ne_message_of_read? (inside fits) _
      · rw [overflow.2 fits]
        exact distinct.symm
    refine ⟨iff_of_false undivided zero, overflow.trans extreme, fun _ ordinary => ?_⟩
    have fits : Integer.InRange (a.tdiv b) := not_not.1 (mt extreme.1 ordinary)
    exact ⟨a.tdiv b, Integer.isQuotient_tdiv a b, inside fits⟩

theorem isAnswer_mod : IsAnswer .mod a b (answer .mod left right) := by
  have applied : applyText .mod left right = apply .mod a b := applyText_of_read? readLeft readRight
  by_cases zero : b = 0
  · have divided : answer .mod left right = (Fault.divisionByZero (.math .mod)).message :=
      answer_of_error (applied.trans (if_pos zero))
    exact ⟨iff_of_true divided zero, fun nonzero => absurd zero nonzero⟩
  · have written : answer .mod left right = Integer.write (a % b) :=
      answer_of_ok (applied.trans (if_neg zero))
    have inRange : Integer.InRange (a % b) :=
      Integer.inRange_emod zero (Integer.inRange_of_read? readRight)
    have read : Integer.read? (answer .mod left right) = some (a % b) := by
      rw [written, Integer.read?_write inRange]
    exact ⟨iff_of_false (ne_message_of_read? read _) zero,
      fun _ => ⟨a % b, Integer.isRemainder_iff zero, read⟩⟩

theorem isAnswer_of_read? : op.IsAnswer a b (op.answer left right) := by
  have applied : op.applyText left right = op.apply a b := applyText_of_read? readLeft readRight
  cases op with
  | add => exact isExact_of_written applied
  | sub => exact isExact_of_written applied
  | mul => exact isExact_of_written applied
  | div => exact isAnswer_div readLeft readRight
  | mod => exact isAnswer_mod readLeft readRight
  | greater => exact answer_of_ok applied

end

end MathOp

namespace Machine

theorem performMath_eq (machine : Machine) (op : MathOp) (left right : Text) (below : List Text) :
    { machine with main := right :: left :: below }.performMath op =
      .ok { machine with main := op.answer left right :: below } := by
  simp only [performMath, MathOp.answer]
  cases op.applyText left right with
  | ok value => rfl
  | error fault => rfl

theorem performMath_cases (machine : Machine) (op : MathOp) :
    (machine.main.length < 2 ∧ machine.performMath op = machine.underflow (.math op)) ∨
      ∃ left right, 2 ≤ machine.main.length ∧ machine.performMath op =
        .ok { machine with main := op.answer left right :: machine.main.drop 2 } := by
  obtain ⟨main, retain, arena, user, depth⟩ := machine
  rcases main with _ | ⟨right, _ | ⟨left, below⟩⟩
  · exact .inl ⟨Nat.zero_lt_two, rfl⟩
  · exact .inl ⟨Nat.one_lt_two, rfl⟩
  · exact .inr ⟨left, right, Nat.le_add_left 2 _,
      performMath_eq ⟨[], retain, arena, user, depth⟩ op left right below⟩

/-- An arithmetic primitive replaces its operands by one cell and changes nothing else. Between
integers the cell is the exact result or a fault that says why there is none; otherwise it is the
fault of the first operand that is no integer. -/
theorem performMath_exact (machine : Machine) (op : MathOp) (left right : Text)
    (below : List Text) :
    ∃ cell,
      { machine with main := right :: left :: below }.performMath op =
        .ok { machine with main := cell :: below } ∧
      (∀ a b, Integer.read? left = some a → Integer.read? right = some b →
        op.IsAnswer a b cell) ∧
      (Integer.read? left = none → cell = (Fault.undefinedFor (.math op) left).message) ∧
      ∀ a, Integer.read? left = some a → Integer.read? right = none →
        cell = (Fault.undefinedFor (.math op) right).message := by
  refine ⟨op.answer left right, machine.performMath_eq op left right below, ?_, ?_, ?_⟩
  · intro a b readLeft readRight
    exact MathOp.isAnswer_of_read? readLeft readRight
  · intro unread
    apply MathOp.answer_of_error
    rw [MathOp.applyText, unread]
  · intro a readLeft unread
    apply MathOp.answer_of_error
    rw [MathOp.applyText, readLeft, unread]

theorem performMath_exact_at_limits :
    (∃ cell, performMath { main := ["-1", "-9223372036854775808"].map String.toList } .div =
        .ok { main := [cell] } ∧
      cell = "Error in /: Integer overflow".toList) ∧
    (∃ cell, performMath { main := ["-9223372036854775808", "-01"].map String.toList } .mod =
        .ok { main := [cell] } ∧
      Integer.read? cell = some 9223372036854775807) ∧
    ∃ cell, performMath { main := ["[ ]", "x"].map String.toList } .add = .ok { main := [cell] } ∧
      cell = "Error in +: Not defined for value x of type string".toList := by
  have least : Integer.read? "-9223372036854775808".toList = some (-9223372036854775808) := by
    decide
  have minusOne : Integer.read? "-1".toList = some (-1) ∧
      Integer.read? "-01".toList = some (-1) := by
    decide
  have unread : Integer.read? "x".toList = none := by decide
  obtain ⟨quotient, divides, answer, _⟩ :=
    performMath_exact {} .div "-9223372036854775808".toList "-1".toList []
  obtain ⟨remainder, reduces, rest, _⟩ :=
    performMath_exact {} .mod "-01".toList "-9223372036854775808".toList []
  obtain ⟨fault, refuses, _, named, _⟩ := performMath_exact {} .add "x".toList "[ ]".toList []
  refine ⟨⟨quotient, divides, ?_⟩, ⟨remainder, reduces, ?_⟩, fault, refuses, ?_⟩
  · exact (answer _ _ least minusOne.1).2.1.2 ⟨rfl, rfl⟩
  · obtain ⟨number, only, read⟩ := (rest _ _ minusOne.2 least).2 (by decide)
    have isRemainder : Integer.IsRemainder (-1) (-9223372036854775808) 9223372036854775807 := by
      exact ⟨by decide, by decide, by decide⟩
    rw [read, ← (only _).1 isRemainder]
  · exact (named unread).trans (by decide)

end Machine

end Concatenative
