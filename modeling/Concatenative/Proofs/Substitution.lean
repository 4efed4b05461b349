import Concatenative.Machine.Run
import Concatenative.Proofs.Reading

/-!
Calling a definition is putting the arguments into its text and running that.
A template cuts its tokens into segments once and fills the holes later; here
the text itself is filled and then read. The two agree for arguments that are
words, and for lists whose placeholders stand alone.
-/

namespace Concatenative

open Text ListText

namespace Template

/-- What stands for a dollar sign and the digits after it. A number from 1 below
2^64 selects an argument, or is written back without leading zeros if there is
none; any other dollar sign is left alone with its digits. -/
def placeholder (arguments : List Text) (digits : Text) : Text :=
  match Decimal.read? digits with
  | some number =>
    if 0 < number ∧ number < Decimal.wordBound then
      arguments[number - 1]?.getD ('$' :: Decimal.write number)
    else '$' :: digits
  | none => '$' :: digits

def substitute (arguments : List Text) (text : Text) : Text :=
  match text with
  | [] => []
  | c :: rest =>
    if c = '$' then
      placeholder arguments (rest.takeWhile Char.isDigit) ++
        substitute arguments (rest.dropWhile Char.isDigit)
    else c :: substitute arguments rest
termination_by text.length
decreasing_by
  · exact Nat.lt_succ_of_le (List.dropWhile_sublist _).length_le
  · exact Nat.lt_succ_self _

end Template

namespace Segment

theorem scan_eq_drop (skip : Nat) (text : Text) : scan skip text = ofText (text.drop skip) := by
  induction text generalizing skip with
  | nil => cases skip <;> rfl
  | cons c text ih =>
    cases skip with
    | zero => rfl
    | succ skip => exact ih skip

theorem drop_length_takeWhile (text : Text) :
    text.drop (text.takeWhile Char.isDigit).length = text.dropWhile Char.isDigit := by
  have parts : text.takeWhile Char.isDigit ++ text.dropWhile Char.isDigit = text :=
    List.takeWhile_append_dropWhile
  calc
    _ = (text.takeWhile Char.isDigit ++ text.dropWhile Char.isDigit).drop
        (text.takeWhile Char.isDigit).length := by rw [parts]
    _ = text.dropWhile Char.isDigit := List.drop_left

theorem ofText_hole {text : Text} {number : Nat}
    (found : index? (text.takeWhile Char.isDigit) = some number) :
    ofText ('$' :: text) = .hole number :: ofText (text.dropWhile Char.isDigit) := by
  simp only [ofText, scan, if_true, found]
  rw [scan_eq_drop, drop_length_takeWhile]
  rfl

theorem ofText_char {c : Char} {text : Text}
    (plain : c = '$' → index? (text.takeWhile Char.isDigit) = none) :
    ofText (c :: text) = .char c :: ofText text := by
  have nothing : (if c = '$' then index? (text.takeWhile Char.isDigit) else none) = none := by
    split
    · exact plain ‹_›
    · rfl
  simp only [ofText, scan, nothing]

theorem ofText_digits {digits : Text} (all : ∀ c ∈ digits, c.isDigit = true) (text : Text) :
    ofText (digits ++ text) = digits.map .char ++ ofText text := by
  induction digits with
  | nil => rfl
  | cons c digits ih =>
    have ordinary : c ≠ '$' := by
      rintro rfl
      exact absurd (all '$' List.mem_cons_self) (by decide)
    rw [List.cons_append, ofText_char fun same => absurd same ordinary,
      ih fun d mem => all d (List.mem_cons_of_mem c mem)]
    rfl

/-- Segments are found one after the other: an ordinary character, or a dollar sign
with the longest run of digits after it. -/
theorem ofText_induction {motive : Text → Prop} (nil : motive [])
    (char : ∀ c text, ofText (c :: text) = .char c :: ofText text → motive text →
      motive (c :: text))
    (hole : ∀ text number, index? (text.takeWhile Char.isDigit) = some number →
      motive (text.dropWhile Char.isDigit) → motive ('$' :: text))
    (text : Text) : motive text := by
  generalize bound : text.length = length
  induction length using Nat.strongRecOn generalizing text with
  | ind length ih =>
    cases text with
    | nil => exact nil
    | cons c text =>
      have shorter : ∀ later : Text, later.length ≤ text.length → motive later := by
        intro later le
        refine ih later.length ?_ later rfl
        rw [← bound, List.length_cons]
        omega
      by_cases found : c = '$' ∧ (index? (text.takeWhile Char.isDigit)).isSome
      · obtain ⟨rfl, found⟩ := found
        obtain ⟨number, found⟩ := Option.isSome_iff_exists.1 found
        exact hole text number found (shorter _ (List.dropWhile_sublist Char.isDigit).length_le)
      · apply char c text _ (shorter text (Nat.le_refl _))
        apply ofText_char
        intro same
        simpa [same] using found

end Segment

namespace Template

open Segment

theorem isDigit_of_mem_takeWhile {text : Text} {c : Char} (mem : c ∈ text.takeWhile Char.isDigit) :
    c.isDigit = true :=
  List.all_eq_true.1 List.all_takeWhile c mem

theorem index?_eq_some_iff {digits : Text} {number : Nat} :
    index? digits = some number ↔
      Decimal.read? digits = some number ∧ 0 < number ∧ number < Decimal.wordBound := by
  simp only [index?, Option.bind_eq_some_iff, Option.ite_none_right_eq_some, Option.some.injEq]
  constructor
  · rintro ⟨n, read, range, rfl⟩
    exact ⟨read, range⟩
  · rintro ⟨read, range⟩
    exact ⟨number, read, range, rfl⟩

theorem placeholder_of_index {digits : Text} {number : Nat} (found : index? digits = some number)
    (arguments : List Text) : placeholder arguments digits = fill arguments (.hole number) := by
  obtain ⟨read, range⟩ := index?_eq_some_iff.1 found
  simp only [placeholder, read, if_pos range, fill]
  cases arguments[number - 1]? <;> rfl

theorem placeholder_of_no_index {digits : Text} (missing : index? digits = none)
    (arguments : List Text) : placeholder arguments digits = '$' :: digits := by
  unfold placeholder
  split
  · next number read =>
    rw [if_neg]
    intro range
    have found := index?_eq_some_iff.2 ⟨read, range⟩
    rw [missing] at found
    cases found
  · rfl

theorem substitute_eq_fill (arguments : List Text) (text : Text) :
    substitute arguments text = (ofText text).flatMap (fill arguments) := by
  fun_induction substitute arguments text with
  | case1 => rfl
  | case2 rest ih =>
    cases found : index? (rest.takeWhile Char.isDigit) with
    | some number =>
      rw [ofText_hole found, placeholder_of_index found, ih, List.flatMap_cons]
    | none =>
      have digits : ofText rest = (rest.takeWhile Char.isDigit).map .char ++
          ofText (rest.dropWhile Char.isDigit) := by
        rw [← ofText_digits fun _ => isDigit_of_mem_takeWhile, List.takeWhile_append_dropWhile]
      rw [ofText_char fun _ => found, placeholder_of_no_index found, ih, digits]
      simp [List.flatMap_map, fill]
  | case3 c rest ordinary ih =>
    rw [ofText_char fun same => absurd same ordinary, ih, List.flatMap_cons]
    rfl

theorem span_isDigit_append {c : Char} (blank : isBlank c = true) (first second : Text) :
    (first ++ c :: second).takeWhile Char.isDigit = first.takeWhile Char.isDigit ∧
      (first ++ c :: second).dropWhile Char.isDigit =
        first.dropWhile Char.isDigit ++ c :: second := by
  induction first with
  | nil => simp [not_isDigit_of_isBlank blank]
  | cons d first ih =>
    by_cases digit : d.isDigit = true
    · simp [digit, ih.1, ih.2]
    · simp [digit]

theorem substitute_cons {c : Char} (ordinary : c ≠ '$') (arguments : List Text) (text : Text) :
    substitute arguments (c :: text) = c :: substitute arguments text := by
  rw [substitute, if_neg ordinary]

theorem substitute_blank {c : Char} (blank : isBlank c = true) (arguments : List Text) (text : Text) :
    substitute arguments (c :: text) = c :: substitute arguments text := by
  apply substitute_cons
  rintro rfl
  exact absurd blank (by decide)

theorem substitute_append_blank {c : Char} (blank : isBlank c = true) (arguments : List Text)
    (first second : Text) :
    substitute arguments (first ++ c :: second) =
      substitute arguments first ++ c :: substitute arguments second := by
  fun_induction substitute arguments first with
  | case1 => exact substitute_blank blank arguments second
  | case2 rest ih =>
    obtain ⟨front, back⟩ := span_isDigit_append blank rest second
    rw [List.cons_append, substitute, if_pos rfl, front, back, ih, List.append_assoc]
  | case3 d rest ordinary ih => rw [List.cons_append, substitute_cons ordinary, ih, List.cons_append]

theorem words_substitute (arguments : List Text) (text : Text) :
    words (substitute arguments text) =
      (words text).flatMap fun word => words (substitute arguments word) := by
  induction text using blank_induction with
  | solid text solid =>
    cases text with
    | nil => simp [substitute]
    | cons c text => rw [words_of_isWord ⟨List.cons_ne_nil c text, solid⟩, List.flatMap_singleton]
  | divided first c second blank front back =>
    rw [substitute_append_blank blank, words_append_blank blank, words_append_blank blank, front, back,
      List.flatMap_append]

theorem substitute_render (arguments elements : List Text) :
    substitute arguments (render elements) = render (elements.map (substitute arguments)) := by
  have inside : ∀ elements : List Text,
      substitute arguments (elements.flatMap (· ++ [' ']) ++ [']']) =
        (elements.map (substitute arguments)).flatMap (· ++ [' ']) ++ [']'] := by
    intro elements
    induction elements with
    | nil => simp [substitute]
    | cons element elements ih =>
      rw [List.flatMap_cons, List.append_assoc, List.append_assoc, List.singleton_append,
        substitute_append_blank isBlank_space, ih]
      simp
  rw [render_eq, render_eq, List.cons_append, List.cons_append, substitute_cons (by decide),
    substitute_cons (by decide), inside]
  rfl

theorem substitute_of_not_mem {arguments : List Text} {text : Text} (plain : '$' ∉ text) :
    substitute arguments text = text := by
  induction text with
  | nil => rw [substitute]
  | cons c text ih =>
    rw [substitute_cons fun same => plain (same ▸ List.mem_cons_self),
      ih fun mem => plain (List.mem_cons_of_mem c mem)]

theorem mem_of_char_mem {text : Text} {c : Char} (mem : .char c ∈ ofText text) : c ∈ text := by
  induction text using ofText_induction with
  | nil => cases mem
  | char d text segments ih =>
    rw [segments] at mem
    rcases List.mem_cons.1 mem with same | mem
    · cases same
      exact List.mem_cons_self
    · exact List.mem_cons_of_mem d (ih mem)
  | hole text number found ih =>
    rw [ofText_hole found] at mem
    rcases List.mem_cons.1 mem with same | mem
    · cases same
    · exact List.mem_cons_of_mem _ ((List.dropWhile_sublist Char.isDigit).subset (ih mem))

theorem exists_of_hole_mem {text : Text} {number : Nat} (mem : .hole number ∈ ofText text) :
    ∃ before after, text = before ++ '$' :: after ∧
      index? (after.takeWhile Char.isDigit) = some number := by
  induction text using ofText_induction with
  | nil => cases mem
  | char c text segments ih =>
    rw [segments] at mem
    rcases List.mem_cons.1 mem with same | mem
    · cases same
    · obtain ⟨before, after, rfl, found⟩ := ih mem
      exact ⟨c :: before, after, rfl, found⟩
  | hole text other first ih =>
    rw [ofText_hole first] at mem
    rcases List.mem_cons.1 mem with same | mem
    · cases same
      exact ⟨[], text, rfl, first⟩
    · obtain ⟨before, after, parts, found⟩ := ih mem
      refine ⟨'$' :: text.takeWhile Char.isDigit ++ before, after, ?_, found⟩
      rw [List.cons_append, List.cons_append, List.append_assoc, ← parts,
        List.takeWhile_append_dropWhile]

theorem eq_nil_of_ofText {text : Text} (empty : ofText text = []) : text = [] := by
  induction text using ofText_induction with
  | nil => rfl
  | char c text segments ih => simp [segments] at empty
  | hole text number found ih => simp [ofText_hole found] at empty

theorem eq_singleton_of_ofText {text : Text} {c : Char} (single : ofText text = [.char c]) :
    text = [c] := by
  induction text using ofText_induction with
  | nil => cases single
  | char d text segments ih =>
    rw [segments] at single
    obtain ⟨same, empty⟩ := List.cons.inj single
    cases same
    rw [eq_nil_of_ofText empty]
  | hole text number found ih =>
    rw [ofText_hole found] at single
    cases (List.cons.inj single).1

def IsPlainWord (text : Text) : Prop := IsWord text ∧ text ∉ Node.brackets

/-- The token that parsing makes of a block, without a comment bracket in it. -/
def IsBlockToken (token : Text) : Prop :=
  (∃ source items, Node.block items ∈ Node.read source ∧ (Node.block items).render = token) ∧
    Node.commentOpening ∉ words token ∧ Node.commentClosing ∉ words token

/-- Every placeholder with this number is a whole word of the source: its dollar sign
comes first and its digits go to the end of the word. -/
def StandsAlone (source : Text) (number : Nat) : Prop :=
  ∀ word ∈ words source, ∀ place < word.length, word[place]? = some '$' →
    Decimal.read? ((word.drop (place + 1)).takeWhile Char.isDigit) = some number →
    place = 0 ∧ (word.drop 1).all Char.isDigit = true

instance (source : Text) (number : Nat) : Decidable (StandsAlone source number) :=
  inferInstanceAs (Decidable (∀ word ∈ words source, ∀ place < word.length,
    word[place]? = some '$' →
    Decimal.read? ((word.drop (place + 1)).takeWhile Char.isDigit) = some number →
    place = 0 ∧ (word.drop 1).all Char.isDigit = true))

theorem takeWhile_isDigit_of_all {text : Text} (all : ∀ c ∈ text, c.isDigit = true) :
    text.takeWhile Char.isDigit = text := by
  rw [← List.append_nil text, List.takeWhile_append_of_pos all, List.takeWhile_nil]

theorem StandsAlone.eq_placeholder {source word before after : Text} {number : Nat}
    (alone : StandsAlone source number) (mem : word ∈ words source)
    (parts : word = before ++ '$' :: after)
    (read : Decimal.read? (after.takeWhile Char.isDigit) = some number) :
    word = '$' :: after.takeWhile Char.isDigit := by
  have rest : word.drop (before.length + 1) = after := by
    rw [parts, List.append_cons]
    exact List.drop_left' (by simp)
  have whole := alone word mem before.length (by simp [parts]) (by simp [parts]) (by rwa [rest])
  obtain rfl : before = [] := List.length_eq_zero_iff.1 whole.1
  have digits : (word.drop 1).all Char.isDigit = true := whole.2
  rw [show word.drop 1 = after from rest] at digits
  rw [takeWhile_isDigit_of_all (List.all_eq_true.1 digits)]
  exact parts

/-- The first argument is for placeholder 1. An argument is a plain word, or the token
of a block if its placeholders stand alone. -/
def Fits (arguments : List Text) (source : Text) : Prop :=
  ∀ place argument, arguments[place]? = some argument →
    IsPlainWord argument ∨ IsBlockToken argument ∧ StandsAlone source (place + 1)

theorem isWord_fill {arguments : List Text} {word : Text} (isWord : IsWord word)
    (plain : ∀ number argument, .hole number ∈ ofText word →
      arguments[number - 1]? = some argument → IsPlainWord argument)
    {segment : Segment} (mem : segment ∈ ofText word) : IsWord (fill arguments segment) := by
  cases segment with
  | char c => exact ⟨List.cons_ne_nil c [], by simpa [fill] using isWord.2 c (mem_of_char_mem mem)⟩
  | hole number =>
    rw [fill]
    split
    · next argument found => exact (plain number argument mem found).1
    · refine ⟨List.cons_ne_nil _ _, fun c member => ?_⟩
      rcases List.mem_cons.1 member with rfl | digit
      · decide
      · exact not_isBlank_of_isDigit (Decimal.isDigit_of_mem_write digit)

theorem isWord_flatMap {α : Type} {list : List α} {f : α → Text} (some : list ≠ [])
    (each : ∀ x ∈ list, IsWord (f x)) : IsWord (list.flatMap f) := by
  constructor
  · obtain ⟨x, mem⟩ := List.exists_mem_of_ne_nil list some
    intro empty
    exact (each x mem).1 (List.flatMap_eq_nil_iff.1 empty x mem)
  · intro c mem
    obtain ⟨x, member, inside⟩ := List.mem_flatMap.1 mem
    exact (each x member).2 c inside

theorem of_mem_brackets {text : Text} (mem : text ∈ Node.brackets) :
    text.length = 1 ∧ '$' ∉ text := by
  have each : ∀ text ∈ Node.brackets, text.length = 1 ∧ '$' ∉ text := by decide
  exact each text mem

/-- Plain words put into a plain word make a plain word: they can be joined to
something longer, but never come to be a bracket. -/
theorem isPlainWord_substitute {arguments : List Text} {word : Text} (isPlain : IsPlainWord word)
    (plain : ∀ number argument, .hole number ∈ ofText word →
      arguments[number - 1]? = some argument → IsPlainWord argument) :
    IsPlainWord (substitute arguments word) := by
  rw [substitute_eq_fill]
  have each : ∀ segment ∈ ofText word, IsWord (fill arguments segment) := fun _ =>
    isWord_fill isPlain.1 plain
  have nonempty : ofText word ≠ [] := fun empty => isPlain.1.1 (eq_nil_of_ofText empty)
  refine ⟨isWord_flatMap nonempty each, fun bracket => ?_⟩
  obtain ⟨single, noDollar⟩ := of_mem_brackets bracket
  -- A bracket is one character long, so it could come from a single segment only.
  cases segments : ofText word with
  | nil => exact nonempty segments
  | cons segment later =>
    rw [segments] at each bracket single noDollar
    cases later with
    | nil =>
      rw [List.flatMap_singleton] at bracket noDollar
      cases segment with
      | char c =>
        rw [eq_singleton_of_ofText segments] at isPlain
        exact isPlain.2 bracket
      | hole number =>
        rw [fill] at bracket noDollar
        split at bracket
        · next argument found =>
          exact (plain number argument (by rw [segments]; exact List.mem_cons_self) found).2 bracket
        · next missing => simp [missing] at noDollar
    | cons second later =>
      have first := List.length_pos_iff.2 (each segment (by simp)).1
      have next := List.length_pos_iff.2 (each second (by simp)).1
      simp only [List.flatMap_cons, List.length_append] at single
      omega

theorem isDigit_of_read? {digits : Text} {number : Nat} (read : Decimal.read? digits = some number) :
    ∀ c ∈ digits, c.isDigit = true := by
  unfold Decimal.read? at read
  split at read
  · next numeral => exact List.all_eq_true.1 (Bool.and_eq_true_iff.1 numeral).2
  · cases read

theorem substitute_placeholder {digits : Text} {number : Nat} (index : index? digits = some number)
    (arguments : List Text) :
    substitute arguments ('$' :: digits) = fill arguments (.hole number) := by
  have all := isDigit_of_read? (index?_eq_some_iff.1 index).1
  have front := takeWhile_isDigit_of_all all
  have back : digits.dropWhile Char.isDigit = [] := by
    rw [← List.append_nil digits, List.dropWhile_append_of_pos all, List.dropWhile_nil]
  rw [substitute, if_pos rfl, front, back, placeholder_of_index index, substitute, List.append_nil]

theorem substitute_word {arguments : List Text} {source word : Text} (fits : Fits arguments source)
    (mem : word ∈ words source) (ordinary : word ∉ Node.brackets) :
    IsPlainWord (substitute arguments word) ∨ IsBlockToken (substitute arguments word) := by
  by_cases block : ∃ number argument, .hole number ∈ ofText word ∧
      arguments[number - 1]? = some argument ∧ ¬IsPlainWord argument
  · obtain ⟨number, argument, hole, found, notPlain⟩ := block
    obtain ⟨before, after, parts, index⟩ := exists_of_hole_mem hole
    obtain ⟨read, positive, bounded⟩ := index?_eq_some_iff.1 index
    obtain ⟨isBlock, alone⟩ := (fits _ argument found).resolve_left notPlain
    rw [Nat.sub_add_cancel positive] at alone
    rw [alone.eq_placeholder mem parts read, substitute_placeholder index, fill, found]
    exact Or.inr isBlock
  · left
    apply isPlainWord_substitute ⟨isWord_of_mem_words mem, ordinary⟩
    intro number argument hole found
    by_cases isPlain : IsPlainWord argument
    · exact isPlain
    · exact absurd ⟨number, argument, hole, found, isPlain⟩ block

theorem isAtom_of_not_mem_brackets {word : Text} (ordinary : word ∉ Node.brackets) :
    Node.IsAtom word := by
  simp only [Node.brackets, List.mem_cons, not_or] at ordinary
  exact ⟨ordinary.2.2.1, ordinary.1, ordinary.2.1⟩

theorem exists_readsAs {token : Text} (isToken : IsPlainWord token ∨ IsBlockToken token) :
    ∃ node : Node, node.render = token ∧ Node.ReadsAs (words token) node := by
  rcases isToken with ⟨isWord, ordinary⟩ | ⟨⟨source, items, mem, rfl⟩, -⟩
  · refine ⟨.atom token, rfl, ?_⟩
    rw [words_of_isWord isWord]
    exact Node.readsAs_atom (isAtom_of_not_mem_brackets ordinary)
  · exact ⟨.block items, rfl, Node.readsAs_words_render (Node.regular_of_mem_read mem)⟩

theorem silent_of_token {token : Text} (isToken : IsPlainWord token ∨ IsBlockToken token)
    {word : Text} (mem : word ∈ words token) :
    word ≠ Node.commentOpening ∧ word ≠ Node.commentClosing := by
  rcases isToken with ⟨isWord, ordinary⟩ | ⟨-, noOpening, noClosing⟩
  · rw [words_of_isWord isWord, List.mem_singleton] at mem
    subst mem
    simp only [Node.brackets, List.mem_cons, not_or] at ordinary
    exact ⟨ordinary.2.2.1, ordinary.2.2.2.1⟩
  · constructor
    · rintro rfl
      exact noOpening mem
    · rintro rfl
      exact noClosing mem

theorem substitute_bracket {word : Text} (bracket : word ∈ Node.brackets) (arguments : List Text) :
    substitute arguments word = word :=
  substitute_of_not_mem (of_mem_brackets bracket).2

theorem words_bracket {word : Text} (bracket : word ∈ Node.brackets) : words word = [word] := by
  have each : ∀ word ∈ Node.brackets, words word = [word] := by decide
  exact each word bracket

theorem rewords_substitute {arguments : List Text} {source : Text} (fits : Fits arguments source) :
    Node.Rewords (fun word => words (substitute arguments word)) (substitute arguments)
      (words source) where
  fixed word bracket := by rw [substitute_bracket bracket, words_bracket bracket]
  silent word mem notOpening notClosing other member := by
    by_cases bracket : word ∈ Node.brackets
    · rw [substitute_bracket bracket, words_bracket bracket, List.mem_singleton] at member
      subst member
      exact ⟨notOpening, notClosing⟩
    · exact silent_of_token (substitute_word fits mem bracket) member
  atoms word mem isAtom := by
    by_cases bracket : word ∈ Node.brackets
    · rw [substitute_bracket bracket, words_bracket bracket]
      exact ⟨.atom word, rfl, Node.readsAs_atom isAtom⟩
    · exact exists_readsAs (substitute_word fits mem bracket)
  lists := substitute_render arguments

theorem parse_substitute {arguments : List Text} {source : Text} (fits : Fits arguments source) :
    parse (substitute arguments source) = (parse source).map (substitute arguments) := by
  rw [parse, Node.read, words_substitute]
  exact (rewords_substitute fits).read.1

theorem instantiate_ofSource {arguments : List Text} {source : Text}
    (enough : arguments.length ≤ (ofSource source).arity) :
    (ofSource source).instantiate arguments = (parse source).map (substitute arguments) := by
  rw [instantiate, List.take_of_length_le enough, ofSource, List.map_map]
  apply List.map_congr_left
  intro token _
  exact (substitute_eq_fill arguments token).symm

def bodyText (body : Text) : Text := if isList body then inner body else body

end Template

/-- Calling a definition is putting its arguments, topmost first, into its text and
running that in their place. The template filled is the filled text parsed. -/
theorem Machine.dispatch_eq_execute_substitute (environment : Environment) (rounds : Nat)
    (machine : Machine) {name body : Text}
    (bound : machine.lookup environment name = some (.defined body))
    {arguments below : List Text} (stack : machine.main = arguments ++ below)
    (counted : arguments.length = (Template.ofSource (Template.bodyText body)).arity)
    (fits : Template.Fits arguments (Template.bodyText body)) :
    machine.dispatch environment rounds (Machine.run environment rounds) name =
        { machine with main := below }.execute environment rounds
          (Template.substitute arguments (Template.bodyText body)) ∧
      (Template.ofSource (Template.bodyText body)).instantiate arguments =
        parse (Template.substitute arguments (Template.bodyText body)) := by
  have instantiated : (Template.ofSource (Template.bodyText body)).instantiate arguments =
      parse (Template.substitute arguments (Template.bodyText body)) := by
    rw [Template.parse_substitute fits, Template.instantiate_ofSource (Nat.le_of_eq counted)]
  refine ⟨?_, instantiated⟩
  have called : machine.call (Machine.run environment rounds) name (.ofBody body) =
      Machine.run environment rounds
        ((Template.ofSource (Template.bodyText body)).instantiate arguments)
        { machine with main := below } := by
    have arity : (Template.ofBody body).arity = arguments.length := counted.symm
    rw [Machine.call, arity, stack, if_neg (by simp), List.take_left, List.drop_left]
    rfl
  calc
    machine.dispatch environment rounds (Machine.run environment rounds) name =
        machine.call (Machine.run environment rounds) name (.ofBody body) := by
      rw [Machine.dispatch, bound]
      rfl
    _ = _ := by rw [called, instantiated, Machine.execute]

theorem Machine.dispatch_eq_execute_substitute_list :
    ∃ machine : Machine,
      machine.main = ["[ a b ]".toList, "w".toList, "c".toList] ∧
      machine.user.get? "f".toList = some (.defined "[ [ x$2y $1 ] ( $1 ) $007 $0 $$2 ]".toList) ∧
      machine.dispatch { context := {} } 0 (Machine.run { context := {} } 0) "f".toList =
        { machine with main := ["c".toList] }.execute { context := {} } 0
          "[ xwy [ a b ] ] ( [ a b ] ) $7 $0 $w".toList := by
  have text : Template.bodyText "[ [ x$2y $1 ] ( $1 ) $007 $0 $$2 ]".toList =
      "[ x$2y $1 ] ( $1 ) $007 $0 $$2".toList := by
    decide
  have filled : Template.substitute ["[ a b ]".toList, "w".toList]
      "[ x$2y $1 ] ( $1 ) $007 $0 $$2".toList =
        "[ xwy [ a b ] ] ( [ a b ] ) $7 $0 $w".toList := by
    decide +kernel
  have counted : ["[ a b ]".toList, "w".toList].length =
      (Template.ofSource "[ x$2y $1 ] ( $1 ) $007 $0 $$2".toList).arity := by
    decide +kernel
  have read : Node.block [.atom "a".toList, .atom "b".toList] ∈ Node.read "[ a b ]".toList := by
    have split : Text.words "[ a b ]".toList =
        [ListText.opening, "a".toList, "b".toList, ListText.closing] := by decide
    have nodes : Node.nodes ["a".toList, "b".toList, ListText.closing] =
        [.atom "a".toList, .atom "b".toList] := by
      rw [Node.nodes_atom ⟨by decide, by decide, by decide⟩,
        Node.nodes_atom ⟨by decide, by decide, by decide⟩, Node.nodes_closing]
    rw [Node.read, split, Node.nodes_opening, nodes]
    exact List.mem_cons_self
  have fits : Template.Fits ["[ a b ]".toList, "w".toList]
      "[ x$2y $1 ] ( $1 ) $007 $0 $$2".toList := by
    intro place argument found
    rcases place with _ | _ | place
    · cases found
      exact Or.inr ⟨⟨⟨_, _, read, by decide +kernel⟩, by decide, by decide⟩, by decide⟩
    · cases found
      exact Or.inl ⟨by decide, by decide⟩
    · cases found
  refine ⟨{ main := ["[ a b ]".toList, "w".toList, "c".toList],
            user := ({} : Dictionary).define "f".toList
              "[ [ x$2y $1 ] ( $1 ) $007 $0 $$2 ]".toList }, rfl, rfl, ?_⟩
  rw [← text] at counted fits filled
  rw [← filled]
  exact (Machine.dispatch_eq_execute_substitute _ 0 _ rfl rfl counted fits).1

end Concatenative
