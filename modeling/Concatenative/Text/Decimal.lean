import Concatenative.Text.Blank

/-!
Decimal numbers as text. A numeral is a non-empty run of ASCII digits; an
integer has one optional sign in front and must lie in the signed 64-bit range.
-/

namespace Concatenative

namespace Decimal

/-- Numerals in source text count below 2^64. -/
def wordBound : Nat := 18446744073709551616

/-- Leading zeros are allowed, signs and separators are not. -/
def read? (text : Text) : Option Nat :=
  if !text.isEmpty && text.all Char.isDigit then
    some (Nat.ofDigitChars 10 text 0)
  else none

def write (n : Nat) : Text := Nat.toDigits 10 n

theorem isDigit_of_mem_write {n : Nat} {c : Char} (mem : c ∈ write n) : c.isDigit = true :=
  Nat.isDigit_of_mem_toDigits (by decide) (by decide) mem

@[simp] theorem read?_write (n : Nat) : read? (write n) = some n := by
  have digits : (write n).all Char.isDigit = true :=
    List.all_eq_true.2 fun _ => isDigit_of_mem_write
  have some_digit : (write n).isEmpty = false := by
    simp [write, Nat.toDigits_ne_nil]
  rw [read?, digits, some_digit]
  simp [write, Nat.ofDigitChars_toDigits]

end Decimal

namespace Integer

def InRange (n : Int) : Prop :=
  -9223372036854775808 ≤ n ∧ n < 9223372036854775808

instance (n : Int) : Decidable (InRange n) :=
  inferInstanceAs (Decidable (-9223372036854775808 ≤ n ∧ n < 9223372036854775808))

def check? (n : Int) : Option Int := if InRange n then some n else none

def read? : Text → Option Int
  | '-' :: digits => (Decimal.read? digits).bind fun n => check? (-n)
  | '+' :: digits => (Decimal.read? digits).bind fun n => check? n
  | digits => (Decimal.read? digits).bind fun n => check? n

def write : Int → Text
  | .ofNat n => Decimal.write n
  | .negSucc n => '-' :: Decimal.write (n + 1)

theorem check?_of_inRange {n : Int} (inRange : InRange n) : check? n = some n :=
  if_pos inRange

theorem read?_of_isDigit {text : Text} (digits : ∀ c ∈ text, c.isDigit = true) :
    read? text = (Decimal.read? text).bind fun n => check? n := by
  unfold read?
  split
  · exact absurd (digits '-' (by simp)) (by decide)
  · exact absurd (digits '+' (by simp)) (by decide)
  · rfl

theorem read?_write {n : Int} (inRange : InRange n) : read? (write n) = some n := by
  cases n with
  | ofNat n =>
    rw [write, read?_of_isDigit fun _ => Decimal.isDigit_of_mem_write, Decimal.read?_write,
      Option.bind_some]
    exact check?_of_inRange inRange
  | negSucc n =>
    rw [write, read?, Decimal.read?_write, Option.bind_some]
    exact check?_of_inRange inRange

end Integer

def truth (b : Bool) : Text := if b then "-1".toList else "0".toList

end Concatenative
