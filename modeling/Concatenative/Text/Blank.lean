/-!
Text, the only kind of value of the language, and its division into words.
A word is a maximal run of characters outside the White_Space property, so
words never hold a blank and are never empty.
-/

namespace Concatenative

/-- A value of the language: a finite sequence of characters. -/
abbrev Text := List Char

namespace Text

def isBlank (c : Char) : Bool :=
  let n := c.toNat
  (9 ≤ n && n ≤ 13) || n = 0x20 || n = 0x85 || n = 0xA0 || n = 0x1680 ||
    (0x2000 ≤ n && n ≤ 0x200A) || n = 0x2028 || n = 0x2029 || n = 0x202F ||
    n = 0x205F || n = 0x3000

def consRun (run : Text) (rest : List Text) : List Text :=
  if run.isEmpty then rest else run :: rest

def splitRun (text : Text) : Text × List Text :=
  text.foldr
    (fun c (run, rest) =>
      if isBlank c then ([], consRun run rest) else (c :: run, rest))
    ([], [])

/-- The maximal runs without a blank, in order. -/
def words (text : Text) : List Text :=
  consRun (splitRun text).1 (splitRun text).2

/-- The words in order with one space between neighbours. -/
def unwords : List Text → Text
  | [] => []
  | [word] => word
  | word :: rest => word ++ ' ' :: unwords rest

def trim (text : Text) : Text :=
  ((text.dropWhile isBlank).reverse.dropWhile isBlank).reverse

def stripEnd (last : Char) (text : Text) : Text :=
  if text.getLast? = some last then text.dropLast else text

@[simp] theorem splitRun_nil : splitRun [] = ([], []) := rfl

theorem splitRun_cons (c : Char) (text : Text) :
    splitRun (c :: text) =
      if isBlank c then ([], words text)
      else (c :: (splitRun text).1, (splitRun text).2) := by
  simp only [splitRun, words, List.foldr_cons]

@[simp] theorem words_nil : words [] = [] := rfl

theorem words_cons_blank {c : Char} (blank : isBlank c = true) (text : Text) :
    words (c :: text) = words text := by
  simp [words, splitRun_cons, blank, consRun]

theorem words_cons_of_not_blank {c : Char} (solid : isBlank c = false) (text : Text) :
    words (c :: text) = (c :: (splitRun text).1) :: (splitRun text).2 := by
  simp [words, splitRun_cons, solid, consRun]

theorem splitRun_append_blank {c : Char} (blank : isBlank c = true) (first second : Text) :
    splitRun (first ++ c :: second) =
      ((splitRun first).1, (splitRun first).2 ++ words second) := by
  induction first with
  | nil => simp [splitRun_cons, blank]
  | cons d first ih =>
    rw [List.cons_append, splitRun_cons, splitRun_cons]
    by_cases divides : isBlank d = true
    · by_cases empty : (splitRun first).1 = [] <;>
        simp [divides, words, ih, consRun, empty]
    · simp [divides, ih]

theorem words_append_blank {c : Char} (blank : isBlank c = true) (first second : Text) :
    words (first ++ c :: second) = words first ++ words second := by
  by_cases empty : (splitRun first).1 = [] <;>
    simp [words, splitRun_append_blank blank, consRun, empty]

theorem splitRun_solid (text : Text) :
    (∀ c ∈ (splitRun text).1, isBlank c = false) ∧
      ∀ word ∈ (splitRun text).2, word ≠ [] ∧ ∀ c ∈ word, isBlank c = false := by
  induction text with
  | nil => simp
  | cons d text ih =>
    rw [splitRun_cons]
    by_cases divides : isBlank d = true
    · refine ⟨by simp [divides], fun word mem => ?_⟩
      by_cases empty : (splitRun text).1 = []
      · exact ih.2 word (by simpa [divides, words, consRun, empty] using mem)
      · have cases : word = (splitRun text).1 ∨ word ∈ (splitRun text).2 := by
          simpa [divides, words, consRun, empty] using mem
        rcases cases with same | mem
        · exact same ▸ ⟨empty, ih.1⟩
        · exact ih.2 word mem
    · have solid : isBlank d = false := by simpa using divides
      refine ⟨fun c mem => ?_, by simpa [solid] using ih.2⟩
      have cases : c = d ∨ c ∈ (splitRun text).1 := by simpa [solid] using mem
      rcases cases with same | mem
      · exact same ▸ solid
      · exact ih.1 c mem

theorem mem_words {text word : Text} (mem : word ∈ words text) :
    word ≠ [] ∧ ∀ c ∈ word, isBlank c = false := by
  by_cases empty : (splitRun text).1 = []
  · exact (splitRun_solid text).2 word (by simpa [words, consRun, empty] using mem)
  · have cases : word = (splitRun text).1 ∨ word ∈ (splitRun text).2 := by
      simpa [words, consRun, empty] using mem
    rcases cases with same | mem
    · exact same ▸ ⟨empty, (splitRun_solid text).1⟩
    · exact (splitRun_solid text).2 word mem

end Text

end Concatenative
