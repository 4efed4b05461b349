import Concatenative.Text.Pieces

/-!
Lines of encoded text. Input is cut into lines while it is bytes, and each line is
decoded by itself. For input that encodes a text this gives the lines of the text: a
line feed and a carriage return are one byte each, and no other character has such a
byte in its encoding.
-/

namespace Concatenative

section Pieces

variable {α : Type} [DecidableEq α] {separator : α}

theorem pieces_separator (xs : List α) :
    pieces separator (separator :: xs) = [] :: pieces separator xs := by
  simp [pieces]

theorem exists_pieces (separator : α) (xs : List α) :
    ∃ first rest, pieces separator xs = first :: rest :=
  ⟨_, _, rfl⟩

theorem pieces_append {part xs first : List α} {rest : List (List α)} (absent : separator ∉ part)
    (cut : pieces separator xs = first :: rest) :
    pieces separator (part ++ xs) = (part ++ first) :: rest := by
  induction part with
  | nil => exact cut
  | cons x part ih =>
    have other : x ≠ separator := fun same => absent (same ▸ List.mem_cons_self)
    have later := ih fun mem => absent (List.mem_cons_of_mem x mem)
    simp only [pieces, List.cons_append, List.foldr_cons, if_neg other] at later ⊢
    rw [List.cons.injEq] at later ⊢
    exact ⟨by rw [later.1], later.2⟩

theorem pieces_of_not_mem {part : List α} (absent : separator ∉ part) :
    pieces separator part = [part] := by
  have whole := pieces_append absent (show pieces separator [] = [[]] from rfl)
  rwa [List.append_nil] at whole

theorem pieces_append_separator (first second : List α) :
    pieces separator (first ++ separator :: second) =
      pieces separator first ++ pieces separator second := by
  induction first with
  | nil => exact pieces_separator second
  | cons x first ih =>
    by_cases divides : x = separator
    · rw [divides, List.cons_append, pieces_separator, ih, pieces_separator, List.cons_append]
    · obtain ⟨piece, rest, cut⟩ := exists_pieces separator first
      have absent : separator ∉ [x] := fun mem => divides (List.mem_singleton.1 mem).symm
      rw [cut, List.cons_append] at ih
      have whole := pieces_append absent ih
      have front := pieces_append absent cut
      rw [List.singleton_append] at whole front
      rw [List.cons_append, whole, front]
      rfl

theorem pieces_eq_nil_piece_iff {xs : List α} : pieces separator xs = [[]] ↔ xs = [] := by
  constructor
  · intro cut
    cases xs with
    | nil => rfl
    | cons x xs =>
      by_cases divides : x = separator
      · rw [divides, pieces_separator, List.cons.injEq] at cut
        exact absurd cut.2 (List.cons_ne_nil _ _)
      · obtain ⟨piece, rest, found⟩ := exists_pieces separator xs
        have absent : separator ∉ [x] := fun mem => divides (List.mem_singleton.1 mem).symm
        have front := pieces_append absent found
        rw [List.singleton_append, cut] at front
        simp at front
  · rintro rfl
    rfl

end Pieces

/-- The lines of a text. Each but the last was ended, perhaps with a carriage return before
its end, and an empty rest is no line. -/
def Text.lines (text : Text) : List Text :=
  let parts := pieces '\n' text
  parts.dropLast.map (stripEnd '\r') ++ parts.getLast?.toList.filter (!·.isEmpty)

namespace Encoding

def encode (text : Text) : List UInt8 := text.flatMap String.utf8EncodeChar

/-- A byte below 128 stands for the character of that number and for no other. -/
theorem toNat_eq_of_mem_utf8EncodeChar {c : Char} {byte : UInt8}
    (mem : byte ∈ String.utf8EncodeChar c) (low : byte.toNat < 128) : c.toNat = byte.toNat := by
  have value : c.val.toNat = c.toNat := rfl
  simp only [String.utf8EncodeChar, value] at mem
  split at mem
  · next small =>
    rw [List.mem_singleton.1 mem, UInt8.toNat_ofNat']
    omega
  · -- No byte of a longer encoding is below 128, the first one included.
    have high : 128 ≤ byte.toNat := by
      split at mem
      · simp only [List.mem_cons, List.not_mem_nil, or_false] at mem
        rcases mem with rfl | rfl <;> rw [UInt8.toNat_ofNat'] <;> omega
      · split at mem <;> simp only [List.mem_cons, List.not_mem_nil, or_false] at mem
        · rcases mem with rfl | rfl | rfl <;> rw [UInt8.toNat_ofNat'] <;> omega
        · rcases mem with rfl | rfl | rfl | rfl <;> rw [UInt8.toNat_ofNat'] <;> omega
    omega

theorem toByteArray_ofList (text : Text) :
    (String.ofList text).toByteArray = ⟨(encode text).toArray⟩ := by
  rw [String.toByteArray_ofList, ← List.data_toByteArray]
  rfl

theorem decode?_eq_some_iff {bytes : List UInt8} {text : Text} :
    decode? bytes = some text ↔ bytes = encode text := by
  constructor
  · intro decoded
    obtain ⟨string, read, rfl⟩ := Option.map_eq_some_iff.1 decoded
    rw [String.fromUTF8?] at read
    split at read
    · have held : string.toByteArray = ⟨bytes.toArray⟩ := by
        rw [← Option.some.inj read]
        rfl
      have encoded : (⟨bytes.toArray⟩ : ByteArray) = ⟨(encode string.toList).toArray⟩ := by
        rw [← held, ← toByteArray_ofList, String.ofList_toList]
      rw [ByteArray.mk.injEq, Array.mk.injEq] at encoded
      exact encoded
    · cases read
  · rintro rfl
    rw [decode?, ← toByteArray_ofList, String.fromUTF8?, dif_pos (String.ofList text).isValidUTF8]
    exact congrArg some String.toList_ofList

@[simp] theorem encode_nil : encode [] = [] := rfl

@[simp] theorem encode_cons (c : Char) (text : Text) :
    encode (c :: text) = String.utf8EncodeChar c ++ encode text := rfl

theorem encode_concat (text : Text) (c : Char) :
    encode (text ++ [c]) = encode text ++ String.utf8EncodeChar c := by
  rw [encode, List.flatMap_append, List.flatMap_singleton, encode]

@[simp] theorem isEmpty_encode (text : Text) : (encode text).isEmpty = text.isEmpty := by
  cases text with
  | nil => rfl
  | cons c text => simp

/-- Cutting at line feeds and encoding commute. -/
theorem pieces_encode (text : Text) :
    pieces lineFeed (encode text) = (pieces '\n' text).map encode := by
  induction text with
  | nil => rfl
  | cons c text ih =>
    by_cases ends : c = '\n'
    · have byte : String.utf8EncodeChar '\n' = [lineFeed] := by decide
      rw [ends, encode_cons, byte, List.singleton_append, pieces_separator, pieces_separator, ih,
        List.map_cons, encode_nil]
    · have absent : lineFeed ∉ String.utf8EncodeChar c := fun mem =>
        ends (Char.toNat_inj.1 (toNat_eq_of_mem_utf8EncodeChar mem (by decide)))
      obtain ⟨first, rest, cut⟩ := exists_pieces '\n' text
      have other : '\n' ∉ [c] := fun mem => ends (List.mem_singleton.1 mem).symm
      rw [cut, List.map_cons] at ih
      rw [← List.singleton_append, pieces_append other cut, List.singleton_append, encode_cons,
        pieces_append absent ih, List.map_cons, List.singleton_append, encode_cons]

theorem dropCarriageReturn_encode (text : Text) :
    dropCarriageReturn (encode text) = encode (Text.stripEnd '\r' text) := by
  rcases List.eq_nil_or_concat text with rfl | ⟨text, c, rfl⟩
  · rfl
  rw [List.concat_eq_append, encode_concat, dropCarriageReturn, Text.stripEnd,
    List.getLast?_concat]
  by_cases returns : c = '\r'
  · have byte : String.utf8EncodeChar '\r' = [carriageReturn] := by decide
    rw [returns, byte, List.getLast?_concat, if_pos rfl, if_pos rfl, List.dropLast_concat,
      List.dropLast_concat]
  · have other : (encode text ++ String.utf8EncodeChar c).getLast? ≠ some carriageReturn := by
      intro last
      rw [List.getLast?_append, List.getLast?_eq_some_getLast String.utf8EncodeChar_ne_nil,
        Option.some_or] at last
      have mem := Option.some.inj last ▸ List.getLast_mem String.utf8EncodeChar_ne_nil
      exact returns (Char.toNat_inj.1 (toNat_eq_of_mem_utf8EncodeChar mem (by decide)))
    rw [if_neg other, if_neg (fun same => returns (Option.some.inj same)), encode_concat]

theorem lines_encode (text : Text) : lines (encode text) = text.lines.map encode := by
  rw [lines, Text.lines, pieces_encode, List.map_append, List.map_map, ← List.map_dropLast,
    List.map_map, List.getLast?_map]
  congr 1
  · apply List.map_congr_left
    intro part mem
    exact dropCarriageReturn_encode part
  · cases (pieces '\n' text).getLast? with
    | none => rfl
    | some part => by_cases empty : part.isEmpty <;> simp [empty]

theorem decodedLines_eq {bytes : List UInt8} {text : Text} (decoded : decode? bytes = some text) :
    decodedLines bytes = text.lines.map some := by
  rw [decodedLines, decode?_eq_some_iff.1 decoded, lines_encode, List.map_map]
  apply List.map_congr_left
  intro line mem
  exact decode?_eq_some_iff.2 rfl

end Encoding

end Concatenative
