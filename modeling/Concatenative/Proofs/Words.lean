import Concatenative.ListText

/-!
Words of texts that were put together from words. Joining words with single
spaces and rendering a list both keep the words apart, so that splitting gives
back what was put in.
-/

namespace Concatenative.Text

/-- A word by itself: some characters, none of them blank. -/
def IsWord (text : Text) : Prop := text ≠ [] ∧ ∀ c ∈ text, isBlank c = false

instance (text : Text) : Decidable (IsWord text) :=
  decidable_of_iff (text.isEmpty = false ∧ text.all (fun c => !isBlank c) = true) (by simp [IsWord])

theorem isWord_of_mem_words {text word : Text} (mem : word ∈ words text) : IsWord word :=
  mem_words mem

@[simp] theorem isBlank_space : isBlank ' ' = true := by decide

theorem not_isDigit_of_isBlank {c : Char} (blank : isBlank c = true) : c.isDigit = false := by
  simp only [isBlank, Bool.or_eq_true, Bool.and_eq_true, decide_eq_true_eq] at blank
  have value : c.val.toNat = c.toNat := rfl
  simp only [Char.isDigit, ge_iff_le, Bool.and_eq_false_iff, decide_eq_false_iff_not,
    UInt32.le_iff_toNat_le, value]
  have zero : ('0'.val).toNat = 48 := rfl
  have nine : ('9'.val).toNat = 57 := rfl
  rw [zero, nine]
  omega

theorem not_isBlank_of_isDigit {c : Char} (digit : c.isDigit = true) : isBlank c = false := by
  cases blank : isBlank c with
  | false => rfl
  | true =>
    rw [not_isDigit_of_isBlank blank] at digit
    cases digit

theorem splitRun_of_solid {text : Text} (solid : ∀ c ∈ text, isBlank c = false) :
    splitRun text = (text, []) := by
  induction text with
  | nil => rfl
  | cons c text ih =>
    rw [splitRun_cons, ih fun d mem => solid d (List.mem_cons_of_mem c mem)]
    simp [solid c List.mem_cons_self]

theorem words_of_isWord {text : Text} (word : IsWord text) : words text = [text] := by
  rw [words, splitRun_of_solid word.2]
  simp [consRun, word.1]

/-- Every text is without blanks, or is divided by one. -/
theorem blank_induction {motive : Text → Prop}
    (solid : ∀ text, (∀ c ∈ text, isBlank c = false) → motive text)
    (divided : ∀ first c second, isBlank c = true → motive first → motive second →
      motive (first ++ c :: second)) (text : Text) : motive text := by
  have general : ∀ first : Text, (∀ d ∈ first, isBlank d = false) → motive (first ++ text) := by
    induction text with
    | nil =>
      intro first front
      rw [List.append_nil]
      exact solid first front
    | cons c text ih =>
      intro first front
      by_cases blank : isBlank c = true
      · exact divided first c text blank (solid first front) (ih [] (by simp))
      · rw [List.append_cons]
        apply ih
        intro d mem
        rcases List.mem_append.1 mem with mem | mem
        · exact front d mem
        · rw [List.mem_singleton.1 mem]
          simpa using blank
  exact general [] (by simp)

theorem words_append_space (first second : Text) :
    words (first ++ ' ' :: second) = words first ++ words second :=
  words_append_blank isBlank_space first second

theorem unwords_cons_cons (word next : Text) (rest : List Text) :
    unwords (word :: next :: rest) = word ++ ' ' :: unwords (next :: rest) := rfl

theorem unwords_cons {rest : List Text} (more : rest ≠ []) (word : Text) :
    unwords (word :: rest) = word ++ ' ' :: unwords rest := by
  cases rest with
  | nil => exact absurd rfl more
  | cons next rest => exact unwords_cons_cons word next rest

theorem words_unwords_eq_flatMap (texts : List Text) :
    words (unwords texts) = texts.flatMap words := by
  induction texts with
  | nil => rfl
  | cons text rest ih =>
    cases rest with
    | nil => rw [List.flatMap_singleton, unwords]
    | cons next rest => rw [List.flatMap_cons, unwords_cons_cons, words_append_space, ih]

theorem flatMap_words {list : List Text} (all : ∀ word ∈ list, IsWord word) :
    list.flatMap words = list := by
  induction list with
  | nil => rfl
  | cons word rest ih =>
    rw [List.flatMap_cons, words_of_isWord (all word List.mem_cons_self),
      ih fun other mem => all other (List.mem_cons_of_mem word mem), List.singleton_append]

theorem words_unwords {list : List Text} (all : ∀ word ∈ list, IsWord word) :
    words (unwords list) = list := by
  rw [words_unwords_eq_flatMap, flatMap_words all]

theorem unwords_append {first second : List Text} (some : first ≠ []) (more : second ≠ []) :
    unwords (first ++ second) = unwords first ++ ' ' :: unwords second := by
  induction first with
  | nil => exact absurd rfl some
  | cons word first ih =>
    cases first with
    | nil => rw [List.singleton_append, unwords_cons more, unwords]
    | cons next first =>
      have later := ih (List.cons_ne_nil next first)
      rw [List.cons_append, unwords_cons (by simp), later, unwords_cons_cons, List.append_assoc,
        List.cons_append]

theorem unwords_flatMap {α : Type} {parts : α → List Text} {groups : List α}
    (some : ∀ group ∈ groups, parts group ≠ []) :
    unwords (groups.flatMap parts) = unwords (groups.map fun group => unwords (parts group)) := by
  induction groups with
  | nil => rfl
  | cons group groups ih =>
    have first := some group List.mem_cons_self
    have later := ih fun other mem => some other (List.mem_cons_of_mem group mem)
    rw [List.flatMap_cons, List.map_cons]
    cases groups with
    | nil => rw [List.flatMap_nil, List.append_nil, List.map_nil, unwords]
    | cons next groups =>
      have more : (next :: groups).flatMap parts ≠ [] := by
        have filled := some next (by simp)
        simp [filled]
      rw [unwords_append first more, later, unwords_cons (by simp)]

theorem words_dropWhile_isBlank (text : Text) : words (text.dropWhile isBlank) = words text := by
  induction text with
  | nil => rfl
  | cons c text ih =>
    by_cases blank : isBlank c = true
    · rw [List.dropWhile_cons_of_pos blank, ih, words_cons_blank blank]
    · rw [List.dropWhile_cons_of_neg blank]

theorem words_append_blanks (text : Text) {blanks : Text} (all : ∀ c ∈ blanks, isBlank c = true) :
    words (text ++ blanks) = words text := by
  induction blanks generalizing text with
  | nil => rw [List.append_nil]
  | cons c blanks ih =>
    rw [words_append_blank (all c List.mem_cons_self)]
    have none := ih [] fun d mem => all d (List.mem_cons_of_mem c mem)
    rw [List.nil_append] at none
    rw [none, words_nil, List.append_nil]

theorem words_append_separated {blanks : Text} (separates : blanks ≠ [])
    (blank : ∀ c ∈ blanks, isBlank c = true) (first second : Text) :
    words (first ++ blanks ++ second) = words first ++ words second := by
  cases blanks with
  | nil => exact absurd rfl separates
  | cons c blanks =>
    have dropped : (blanks ++ second).dropWhile isBlank = second.dropWhile isBlank :=
      List.dropWhile_append_of_pos fun d mem => blank d (List.mem_cons_of_mem c mem)
    rw [List.append_assoc, List.cons_append, words_append_blank (blank c List.mem_cons_self),
      ← words_dropWhile_isBlank (blanks ++ second), dropped, words_dropWhile_isBlank]

theorem words_trim (text : Text) : words (trim text) = words text := by
  let front := text.dropWhile isBlank
  have parts : (front.reverse.dropWhile isBlank).reverse ++
      (front.reverse.takeWhile isBlank).reverse = front := by
    rw [← List.reverse_append, List.takeWhile_append_dropWhile, List.reverse_reverse]
  have blanks : ∀ c ∈ (front.reverse.takeWhile isBlank).reverse, isBlank c = true := by
    intro c mem
    exact List.all_eq_true.1 List.all_takeWhile c (List.mem_reverse.1 mem)
  have same := words_append_blanks (front.reverse.dropWhile isBlank).reverse blanks
  rw [parts, words_dropWhile_isBlank] at same
  exact same.symm

@[simp] theorem stripEnd_append_singleton (last : Char) (text : Text) :
    stripEnd last (text ++ [last]) = text := by
  simp [stripEnd]

end Concatenative.Text

namespace Concatenative.ListText

open Text

theorem render_eq (elements : List Text) :
    render elements = '[' :: ' ' :: elements.flatMap (· ++ [' ']) ++ [']'] := rfl

theorem isList_render (elements : List Text) : isList (render elements) = true := rfl

theorem render_eq_unwords (elements : List Text) :
    render elements = unwords (opening :: (elements ++ [closing])) := by
  have inside : ∀ elements : List Text,
      unwords (elements ++ [closing]) = elements.flatMap (· ++ [' ']) ++ closing := by
    intro elements
    induction elements with
    | nil => rfl
    | cons element rest ih =>
      rw [List.cons_append, unwords_cons (by simp), ih, List.flatMap_cons, List.append_assoc,
        List.append_assoc, List.singleton_append]
  rw [unwords_cons (by simp), inside, render_eq]
  rfl

theorem words_flatMap_space (elements : List Text) (after : Text) :
    words (elements.flatMap (· ++ [' ']) ++ after) = elements.flatMap words ++ words after := by
  induction elements with
  | nil => rfl
  | cons element rest ih =>
    rw [List.flatMap_cons, List.append_assoc, List.append_assoc, List.singleton_append,
      words_append_space, ih, List.flatMap_cons, List.append_assoc]

theorem words_render (elements : List Text) :
    words (render elements) = opening :: elements.flatMap words ++ [closing] := by
  have split : render elements =
      opening ++ ' ' :: (elements.flatMap (· ++ [' ']) ++ closing) := by
    simp [render_eq, opening, closing]
  rw [split, words_append_space, words_flatMap_space, words_of_isWord (show IsWord closing by decide),
    words_of_isWord (show IsWord opening by decide)]
  rfl

theorem unwords_map_words_render {change : Text → Text} (keepsOpening : change opening = opening)
    (keepsClosing : change closing = closing) {elements : List Text}
    (filled : ∀ element ∈ elements, words element ≠ []) :
    unwords ((words (render elements)).map change) =
      render (elements.map fun element => unwords ((words element).map change)) := by
  let groups : List (List Text) :=
    [opening] :: (elements.map (fun element => (words element).map change) ++ [[closing]])
  have some : ∀ group ∈ groups, group ≠ [] := by
    simpa [groups, or_imp, forall_and] using filled
  have joined : unwords (groups.flatMap id) = unwords (groups.map fun group => unwords (id group)) :=
    unwords_flatMap some
  have flat : groups.flatMap id = (words (render elements)).map change := by
    rw [words_render]
    simp [groups, keepsOpening, keepsClosing, List.map_flatMap, List.flatMap_map]
  have mapped : groups.map (fun group => unwords (id group)) = opening ::
      (elements.map (fun element => unwords ((words element).map change)) ++ [closing]) := by
    simp [groups, unwords]
  rw [← flat, joined, mapped, render_eq_unwords]

theorem words_inner_render (elements : List Text) :
    words (inner (render elements)) = elements.flatMap words := by
  have body : inner (render elements) = trim (' ' :: elements.flatMap (· ++ [' '])) := by
    change trim (stripEnd ']' ((' ' :: elements.flatMap (· ++ [' '])) ++ [']'])) = _
    rw [stripEnd_append_singleton]
  have spaces := words_flatMap_space elements []
  rw [List.append_nil, words_nil, List.append_nil] at spaces
  rw [body, words_trim, words_cons_blank isBlank_space, spaces]

end Concatenative.ListText
