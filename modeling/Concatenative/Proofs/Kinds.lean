import Concatenative.Proofs.LibraryWords
import Mathlib.Data.Nat.Digits.Defs

/-!
The kind of a value, asked for in two ways. One names the kind of a text, the other says whether a
text will do for a kind, and each tries the spellings in an order of its own. They agree because no
text has two of them: a handle starts with an ampersand, a list with a bracket, an integer with a
sign or a digit. What is a handle is said here without reading it, by the numeral behind the
ampersand and the worth of its digits.
-/

namespace Concatenative

open Text ListText

namespace Decimal

def IsNumeral (digits : Text) : Prop :=
  digits ≠ [] ∧ ∀ c ∈ digits, '0'.toNat ≤ c.toNat ∧ c.toNat ≤ '9'.toNat

theorem isNumeral_iff {digits : Text} :
    IsNumeral digits ↔ (!digits.isEmpty && digits.all Char.isDigit) = true := by
  simp [IsNumeral, Char.isDigit, UInt32.le_iff_toNat_le]

instance (digits : Text) : Decidable (IsNumeral digits) :=
  decidable_of_iff _ isNumeral_iff.symm

/-- The worth of the digits by their places, where the last one counts units. -/
def value (digits : Text) : Nat :=
  Nat.ofDigits 10 (digits.reverse.map fun c => c.toNat - '0'.toNat)

theorem value_cons (c : Char) (digits : Text) :
    value (c :: digits) = value digits + 10 ^ digits.length * (c.toNat - '0'.toNat) := by
  simp [value, Nat.ofDigits_append]

theorem ofDigitChars_eq_value (digits : Text) (front : Nat) :
    Nat.ofDigitChars 10 digits front = 10 ^ digits.length * front + value digits := by
  induction digits generalizing front with
  | nil => simp [value]
  | cons c digits ih =>
    rw [Nat.ofDigitChars_cons, ih, value_cons, List.length_cons, pow_succ]
    ring

theorem read?_eq_some_iff {digits : Text} {number : Nat} :
    read? digits = some number ↔ IsNumeral digits ∧ value digits = number := by
  rw [read?, Option.ite_none_right_eq_some, ← isNumeral_iff, ofDigitChars_eq_value, Nat.mul_zero,
    Nat.zero_add, Option.some_inj]

end Decimal

namespace Handle

theorem ofNat?_eq_some_iff {number : Nat} {handle : Handle} :
    ofNat? number = some handle ↔ number = handle.number := by
  unfold ofNat?
  refine ⟨fun made => ?_, ?_⟩
  · split at made
    · cases made
      rfl
    · cases made
  · rintro rfl
    exact dif_pos ⟨handle.positive, handle.bounded⟩

theorem read?_eq_some_iff {text : Text} {handle : Handle} :
    read? text = some handle ↔
      ∃ digits, text = '&' :: digits ∧ Decimal.IsNumeral digits ∧
        Decimal.value digits = handle.number := by
  unfold read?
  split
  · next digits =>
    simp [Option.bind_eq_some_iff, Decimal.read?_eq_some_iff, ofNat?_eq_some_iff, and_assoc]
  · next other =>
    refine ⟨nofun, ?_⟩
    rintro ⟨digits, same, -⟩
    exact absurd same (other digits)

theorem isSome_read?_iff {text : Text} :
    (read? text).isSome = true ↔
      ∃ digits, text = '&' :: digits ∧ Decimal.IsNumeral digits ∧
        1 ≤ Decimal.value digits ∧ Decimal.value digits ≤ 2 ^ 64 - 1 := by
  rw [Option.isSome_iff_exists]
  refine ⟨?_, ?_⟩
  · rintro ⟨handle, named⟩
    obtain ⟨digits, same, numeral, worth⟩ := read?_eq_some_iff.1 named
    have bounded : handle.number < 2 ^ 64 := handle.bounded
    have positive := handle.positive
    exact ⟨digits, same, numeral, by omega, by omega⟩
  · rintro ⟨digits, same, numeral, positive, bounded⟩
    have below : Decimal.value digits < Decimal.wordBound := by
      simp only [Decimal.wordBound]
      omega
    exact ⟨⟨Decimal.value digits, positive, below⟩,
      read?_eq_some_iff.2 ⟨digits, same, numeral, rfl⟩⟩

end Handle

namespace Kind

variable {text : Text}

theorem of_eq_reference_iff : of text = .reference ↔ reference.admits text = true := by
  unfold of
  split_ifs with named <;> simp [admits, named]

theorem of_eq_list_iff :
    of text = .list ↔ list.admits text = true ∧ reference.admits text = false := by
  unfold of
  split_ifs with named bracket <;> simp_all [admits]

theorem of_eq_int_iff : of text = .int ↔ int.admits text = true := by
  refine ⟨fun same => ?_, fun admitted => ?_⟩
  · unfold of at same
    split_ifs at same with _ _ _ read
    exact read
  · obtain ⟨number, read⟩ := Option.isSome_iff_exists.1 admitted
    have dollar : text.head? ≠ some '$' := fun head =>
      Integer.not_mem_of_read? read (by decide) (List.mem_of_head? head)
    simp [of, Integer.handle_of_read? read, Integer.isList_of_read? read, dollar, read]

theorem of_eq_string_iff : of text = .string ↔ string.admits text = true := by
  simp [admits]

theorem of_ne_bool (text : Text) : of text ≠ .bool := by
  unfold of
  split_ifs <;> simp

/-- The kind that takes another one in: truth values are integers and references are lists. -/
def general : Kind → Kind
  | .bool => .int
  | .reference => .list
  | kind => kind

theorem general_eq_self_iff {kind : Kind} :
    kind.general = kind ↔ kind ∈ [Kind.int, Kind.list, Kind.string] := by
  cases kind <;> decide

theorem general_general (kind : Kind) : kind.general.general = kind.general := by
  cases kind <;> rfl

theorem admits_general {kind : Kind} (admitted : kind.admits text = true) :
    kind.general.admits text = true := by
  cases kind with
  | int | string | list => exact admitted
  | bool =>
    have either : text = truth true ∨ text = truth false := by simpa [admits] using admitted
    rcases either with rfl | rfl
    · exact Option.isSome_of_eq_some (Machine.read?_truth true)
    · exact Option.isSome_of_eq_some (Machine.read?_truth false)
  | reference => exact Bool.or_eq_true_iff.2 (Or.inr admitted)

theorem admits_list_iff :
    list.admits text = true ↔ of text = .list ∨ of text = .reference := by
  rw [of_eq_list_iff, of_eq_reference_iff]
  cases named : reference.admits text with
  | false => simp
  | true =>
    have taken : list.admits text = true := admits_general named
    simp [taken]

theorem admits_iff_general_of {kind : Kind} (broad : kind.general = kind) :
    kind.admits text = true ↔ (of text).general = kind := by
  have never := of_ne_bool text
  cases kind with
  | int =>
    rw [← of_eq_int_iff]
    cases found : of text <;> simp_all [general]
  | string =>
    rw [← of_eq_string_iff]
    cases found : of text <;> simp [general]
  | list =>
    rw [admits_list_iff]
    cases found : of text <;> simp [general]
  | bool | reference => cases broad

theorem existsUnique_admits (text : Text) :
    ∃! kind, kind ∈ [Kind.int, Kind.list, Kind.string] ∧ kind.admits text = true := by
  have broad := general_general (of text)
  refine ⟨(of text).general, ⟨general_eq_self_iff.1 broad, (admits_iff_general_of broad).2 rfl⟩, ?_⟩
  rintro kind ⟨mem, admitted⟩
  exact ((admits_iff_general_of (general_eq_self_iff.2 mem)).1 admitted).symm

/-- The two ways to ask for a kind agree on every text. A text will do for an integer, for a list
or for a string, and for one of them only; truth values are integers and references are lists; and
the kind that is named is the one that the text will do for, a reference before a list and never a
truth value. A reference is an ampersand and a numeral from 1 below 2^64, whose worth is the
handle's number, and each handle is read back from its own spelling. -/
theorem of_agrees_with_admits :
    (∀ text : Text,
      (∃! kind, kind ∈ [Kind.int, Kind.list, Kind.string] ∧ kind.admits text = true) ∧
      (Kind.bool.admits text = true → Kind.int.admits text = true) ∧
      (Kind.reference.admits text = true → Kind.list.admits text = true) ∧
      (Kind.of text = .reference ↔ Kind.reference.admits text = true) ∧
      (Kind.of text = .list ↔
        Kind.list.admits text = true ∧ Kind.reference.admits text = false) ∧
      (Kind.of text = .int ↔ Kind.int.admits text = true) ∧
      (Kind.of text = .string ↔ Kind.string.admits text = true) ∧
      Kind.of text ≠ .bool) ∧
    (∀ text : Text, (Handle.read? text).isSome = true ↔
      ∃ digits, text = '&' :: digits ∧ Decimal.IsNumeral digits ∧
        1 ≤ Decimal.value digits ∧ Decimal.value digits ≤ 2 ^ 64 - 1) ∧
    (∀ (text : Text) (handle : Handle), Handle.read? text = some handle ↔
      ∃ digits, text = '&' :: digits ∧ Decimal.IsNumeral digits ∧
        Decimal.value digits = handle.number) ∧
    ∀ handle : Handle, Handle.read? handle.toText = some handle := by
  refine ⟨fun text => ⟨existsUnique_admits text, admits_general, admits_general,
    of_eq_reference_iff, of_eq_list_iff, of_eq_int_iff, of_eq_string_iff, of_ne_bool text⟩, ?_⟩
  exact ⟨fun text => Handle.isSome_read?_iff, fun text handle => Handle.read?_eq_some_iff,
    Handle.read?_toText⟩

theorem of_agrees_with_admits_at_edges :
    Kind.of "+007".toList = .int ∧
      Kind.of "$1".toList = .string ∧
      Kind.of "[".toList = .list ∧
      (Kind.bool.admits "-1".toList = true ∧ Kind.int.admits "-1".toList = true) ∧
      (Kind.reference.admits "&007".toList = true ∧ Kind.list.admits "&007".toList = true) ∧
      Kind.of "&007".toList = .reference ∧
      (Handle.read? "&018446744073709551615".toList).isSome = true ∧
      (Handle.read? "&18446744073709551616".toList).isSome = false ∧
      (Handle.read? "&+1".toList).isSome = false := by
  obtain ⟨kinds, spelled, -, -⟩ := of_agrees_with_admits
  obtain ⟨-, -, -, -, -, signed, -⟩ := kinds "+007".toList
  obtain ⟨-, -, -, -, -, -, dollar, -⟩ := kinds "$1".toList
  obtain ⟨-, -, -, -, bracket, -⟩ := kinds "[".toList
  obtain ⟨-, truthful, -⟩ := kinds "-1".toList
  obtain ⟨-, -, listed, referred, -⟩ := kinds "&007".toList
  have refused : ∀ digits : Text,
      ¬(Decimal.IsNumeral digits ∧ 1 ≤ Decimal.value digits ∧ Decimal.value digits ≤ 2 ^ 64 - 1) →
        (Handle.read? ('&' :: digits)).isSome = false := by
    intro digits beyond
    rw [← Bool.not_eq_true, spelled]
    rintro ⟨others, same, within⟩
    exact beyond ((List.cons.inj same).2 ▸ within)
  refine ⟨signed.2 (by decide), dollar.2 (by decide), bracket.2 (by decide),
    ⟨by decide, truthful (by decide)⟩, ⟨by decide, listed (by decide)⟩, referred.2 (by decide), ?_,
    refused _ (by decide), refused _ (by decide)⟩
  exact (spelled _).2 ⟨_, rfl, by decide, by decide, by decide⟩

end Kind

end Concatenative
