import Concatenative.Proofs.Words

/-!
Elements of lists. A list is rendered to text and taken apart again by every
operation, and what survives is exactly a list of elements: single words other
than an opening bracket, and bracket groups joined with single spaces.
-/

namespace Concatenative.ListText

open Text

def bracketWeight (word : Text) : Int :=
  if word = opening then 1 else if word = closing then -1 else 0

def bracketDepth (words : List Text) : Int :=
  words.foldr (fun word depth => bracketWeight word + depth) 0

/-- A group starts with an opening bracket, and its depth returns to zero for the
first time at its last word. -/
def IsGroup (words : List Text) : Prop :=
  words.head? = some opening ∧ bracketDepth words = 0 ∧
    ∀ count < words.length, 0 < count → bracketDepth (words.take count) ≠ 0

instance (words : List Text) : Decidable (IsGroup words) :=
  inferInstanceAs (Decidable (words.head? = some opening ∧ bracketDepth words = 0 ∧
    ∀ count < words.length, 0 < count → bracketDepth (words.take count) ≠ 0))

/-- What a list can hold and give back: a word other than an opening bracket, or
a group whose words are joined with single spaces. -/
def IsElement (text : Text) : Prop :=
  (IsWord text ∧ text ≠ opening) ∨ (IsGroup (words text) ∧ unwords (words text) = text)

instance (text : Text) : Decidable (IsElement text) :=
  inferInstanceAs (Decidable ((IsWord text ∧ text ≠ opening) ∨
    (IsGroup (words text) ∧ unwords (words text) = text)))

/-- Starting at the given depth, the words bring it to zero for the first time at
their end. -/
def ClosesFrom (depth : Int) (words : List Text) : Prop :=
  depth + bracketDepth words = 0 ∧ ∀ count < words.length, depth + bracketDepth (words.take count) ≠ 0

@[simp] theorem bracketDepth_nil : bracketDepth [] = 0 := rfl

@[simp] theorem bracketDepth_cons (word : Text) (rest : List Text) :
    bracketDepth (word :: rest) = bracketWeight word + bracketDepth rest := rfl

@[simp] theorem bracketWeight_opening : bracketWeight opening = 1 := rfl

@[simp] theorem bracketWeight_closing : bracketWeight closing = -1 := rfl

theorem bracketWeight_plain {word : Text} (notOpening : word ≠ opening) (notClosing : word ≠ closing) :
    bracketWeight word = 0 := by
  rw [bracketWeight, if_neg notOpening, if_neg notClosing]

theorem add_bracketWeight_closing (depth : Nat) :
    ((depth + 1 : Nat) : Int) + bracketWeight closing = depth := by
  rw [bracketWeight_closing]
  omega

theorem closesFrom_nil {depth : Int} : ClosesFrom depth [] ↔ depth = 0 := by
  simp [ClosesFrom]

theorem closesFrom_cons {depth : Int} {word : Text} {rest : List Text} :
    ClosesFrom depth (word :: rest) ↔
      depth ≠ 0 ∧ ClosesFrom (depth + bracketWeight word) rest := by
  unfold ClosesFrom
  rw [bracketDepth_cons, ← Int.add_assoc]
  constructor
  · rintro ⟨closed, early⟩
    refine ⟨by simpa using early 0 (by simp), closed, fun count inside => ?_⟩
    have later := early (count + 1) (by simpa using inside)
    simpa [Int.add_assoc] using later
  · rintro ⟨nonzero, closed, early⟩
    refine ⟨closed, fun count inside => ?_⟩
    cases count with
    | zero => simpa using nonzero
    | succ count =>
      have later := early count (by simpa using inside)
      simpa [Int.add_assoc] using later

theorem isGroup_cons {word : Text} {rest : List Text} :
    IsGroup (word :: rest) ↔ word = opening ∧ ClosesFrom 1 rest := by
  unfold IsGroup ClosesFrom
  constructor
  · rintro ⟨first, closed, early⟩
    obtain rfl : word = opening := by simpa using first
    refine ⟨rfl, by simpa using closed, fun count inside => ?_⟩
    simpa using early (count + 1) (by simpa using inside) (Nat.succ_pos count)
  · rintro ⟨rfl, closed, early⟩
    refine ⟨rfl, by simpa using closed, fun count inside positive => ?_⟩
    obtain ⟨count, rfl⟩ : ∃ less, count = less + 1 := ⟨count - 1, by omega⟩
    simpa using early count (by simpa using inside)

theorem closesFrom_replicate_closing (depth : Nat) :
    ClosesFrom depth (List.replicate depth closing) := by
  induction depth with
  | zero => exact closesFrom_nil.2 rfl
  | succ depth ih =>
    rw [List.replicate_succ, closesFrom_cons, add_bracketWeight_closing]
    exact ⟨by omega, ih⟩

theorem gather_opening (depth : Nat) (group rest : List Text) :
    gather depth group (opening :: rest) = gather (depth + 1) (opening :: group) rest := by
  rw [gather, if_pos rfl]

theorem gather_zero_word {word : Text} (plain : word ≠ opening) (group rest : List Text) :
    gather 0 group (word :: rest) = word :: gather 0 [] rest := by
  rw [gather, if_neg plain, if_pos rfl]

theorem gather_closing_last (group rest : List Text) :
    gather 1 group (closing :: rest) =
      unwords (closing :: group).reverse :: gather 0 [] rest := by
  rw [gather, if_neg (by decide), if_neg (by decide), if_pos rfl, if_pos rfl]

theorem gather_closing (depth : Nat) (group rest : List Text) :
    gather (depth + 2) group (closing :: rest) = gather (depth + 1) (closing :: group) rest := by
  rw [gather, if_neg (by decide), if_neg (by omega), if_pos rfl, if_neg (by omega)]
  rfl

theorem gather_word {word : Text} (notOpening : word ≠ opening) (notClosing : word ≠ closing)
    (depth : Nat) (group rest : List Text) :
    gather (depth + 1) group (word :: rest) = gather (depth + 1) (word :: group) rest := by
  rw [gather, if_neg notOpening, if_neg (by omega), if_neg notClosing]

theorem gather_of_closesFrom {depth : Nat} {group words rest : List Text}
    (ends : ClosesFrom (depth + 1 : Nat) words) :
    gather (depth + 1) group (words ++ rest) =
      unwords (group.reverse ++ words) :: gather 0 [] rest := by
  induction words generalizing depth group with
  | nil =>
    have zero := closesFrom_nil.1 ends
    omega
  | cons word words ih =>
    have endsAfter := (closesFrom_cons.1 ends).2
    rw [List.cons_append, List.append_cons, ← List.reverse_cons]
    by_cases opens : word = opening
    · subst opens
      rw [gather_opening]
      exact ih (by simpa using endsAfter)
    · by_cases closes : word = closing
      · subst closes
        cases depth with
        | zero =>
          have last : words = [] := by
            cases words with
            | nil => rfl
            | cons next words => exact absurd rfl (closesFrom_cons.1 endsAfter).1
          subst last
          rw [List.nil_append, List.append_nil]
          exact gather_closing_last group rest
        | succ depth =>
          rw [gather_closing]
          apply ih
          rwa [add_bracketWeight_closing] at endsAfter
      · rw [gather_word opens closes]
        apply ih
        rwa [bracketWeight_plain opens closes, Int.add_zero] at endsAfter

theorem gather_words_element {element : Text} (isElement : IsElement element) (rest : List Text) :
    gather 0 [] (words element ++ rest) = element :: gather 0 [] rest := by
  rcases isElement with ⟨word, plain⟩ | ⟨group, joined⟩
  · rw [words_of_isWord word]
    exact gather_zero_word plain [] rest
  · cases parts : words element with
    | nil => simp [parts, IsGroup] at group
    | cons first later =>
      rw [parts] at group joined
      obtain ⟨rfl, closes⟩ := isGroup_cons.1 group
      rw [List.cons_append, gather_opening, gather_of_closesFrom closes]
      exact congrArg (· :: gather 0 [] rest) joined

theorem items_render {elements : List Text} (all : ∀ element ∈ elements, IsElement element) :
    items (render elements) = elements := by
  rw [items, words_inner_render]
  induction elements with
  | nil => rfl
  | cons element rest ih =>
    rw [List.flatMap_cons, gather_words_element (all element List.mem_cons_self),
      ih fun other mem => all other (List.mem_cons_of_mem element mem)]

def IsOpenGroup (depth : Nat) (group : List Text) : Prop :=
  (∀ word ∈ group, IsWord word) ∧
    ∀ later, ClosesFrom depth later → IsGroup (group.reverse ++ later)

theorem isOpenGroup_opening : IsOpenGroup 1 [opening] := by
  refine ⟨by decide, fun later closes => ?_⟩
  exact isGroup_cons.2 ⟨rfl, closes⟩

theorem IsOpenGroup.cons {depth after : Nat} {group : List Text} {word : Text}
    (isOpen : IsOpenGroup depth group) (positive : 0 < depth) (isWord : IsWord word)
    (weight : (after : Int) = depth + bracketWeight word) : IsOpenGroup after (word :: group) := by
  refine ⟨fun other mem => ?_, fun later closes => ?_⟩
  · rcases List.mem_cons.1 mem with rfl | mem
    · exact isWord
    · exact isOpen.1 other mem
  · rw [List.reverse_cons, List.append_assoc, List.singleton_append]
    apply isOpen.2
    rw [closesFrom_cons, ← weight]
    exact ⟨by omega, closes⟩

theorem IsOpenGroup.isElement {depth : Nat} {group later : List Text}
    (isOpen : IsOpenGroup depth group) (all : ∀ word ∈ later, IsWord word)
    (closes : ClosesFrom depth later) : IsElement (unwords (group.reverse ++ later)) := by
  have parts : words (unwords (group.reverse ++ later)) = group.reverse ++ later := by
    apply words_unwords
    intro word mem
    rcases List.mem_append.1 mem with mem | mem
    · exact isOpen.1 word (List.mem_reverse.1 mem)
    · exact all word mem
  right
  rw [parts]
  exact ⟨isOpen.2 later closes, rfl⟩

/-- Everything that is read is an element. Outside all groups nothing is held back,
and inside one the words held back are an open group. -/
theorem isElement_of_mem_gather {depth : Nat} {group list : List Text} {item : Text}
    (outside : depth = 0 → group = []) (inside : 0 < depth → IsOpenGroup depth group)
    (all : ∀ word ∈ list, IsWord word) (mem : item ∈ gather depth group list) :
    IsElement item := by
  induction list generalizing depth group with
  | nil =>
    rw [gather] at mem
    split at mem
    · simp at mem
    · next nonzero =>
      rw [List.mem_singleton.1 mem]
      apply (inside (by omega)).isElement _ (closesFrom_replicate_closing depth)
      intro word member
      rw [List.eq_of_mem_replicate member]
      decide
  | cons word rest ih =>
    have isWord := all word List.mem_cons_self
    have later := fun other member => all other (List.mem_cons_of_mem word member)
    have fresh : item ∈ gather 0 [] rest → IsElement item := ih (fun _ => rfl) (by omega) later
    by_cases opens : word = opening
    · subst opens
      rw [gather_opening] at mem
      refine ih (by omega) (fun _ => ?_) later mem
      cases depth with
      | zero => rw [outside rfl]; exact isOpenGroup_opening
      | succ depth => exact (inside (by omega)).cons (by omega) isWord (by simp)
    · cases depth with
      | zero =>
        rw [gather_zero_word opens] at mem
        rcases List.mem_cons.1 mem with rfl | mem
        · exact Or.inl ⟨isWord, opens⟩
        · exact fresh mem
      | succ depth =>
        have isOpen := inside (by omega)
        by_cases closes : word = closing
        · subst closes
          cases depth with
          | zero =>
            rw [gather_closing_last, List.reverse_cons] at mem
            rcases List.mem_cons.1 mem with rfl | mem
            · exact isOpen.isElement (by simpa using isWord) (closesFrom_replicate_closing 1)
            · exact fresh mem
          | succ depth =>
            rw [gather_closing] at mem
            refine ih (by omega) (fun _ => isOpen.cons (by omega) isWord ?_) later mem
            rw [add_bracketWeight_closing]
        · rw [gather_word opens closes] at mem
          refine ih (by omega) (fun _ => isOpen.cons (by omega) isWord ?_) later mem
          rw [bracketWeight_plain opens closes, Int.add_zero]

theorem isElement_of_mem_items {list item : Text} (mem : item ∈ items list) : IsElement item :=
  isElement_of_mem_gather (fun _ => rfl) (by omega) (fun _ => isWord_of_mem_words) mem

theorem items_render_iff {texts : List Text} :
    items (render texts) = texts ↔ ∀ text ∈ texts, IsElement text := by
  refine ⟨fun same text mem => ?_, items_render⟩
  rw [← same] at mem
  exact isElement_of_mem_items mem

/-- Taking a list apart inverts putting one together. Whatever text is taken apart gives
elements, and exactly the lists of elements come back from their canonical form, so they are
all that a text can be taken apart into. -/
theorem splitting_inverts_rendering :
    (∀ text, ∀ item ∈ items text, IsElement item) ∧
      (∀ texts, items (render texts) = texts ↔ ∀ text ∈ texts, IsElement text) ∧
      (∀ text, items (render (items text)) = items text) ∧
      ∀ texts, (∃ text, items text = texts) ↔ ∀ text ∈ texts, IsElement text := by
  refine ⟨fun text item => isElement_of_mem_items, fun texts => items_render_iff,
    fun text => items_render fun _ => isElement_of_mem_items, fun texts => ⟨?_, fun all => ?_⟩⟩
  · rintro ⟨text, rfl⟩ item mem
    exact isElement_of_mem_items mem
  · exact ⟨render texts, items_render all⟩

theorem splitting_inverts_rendering_brackets :
    items (render ["]".toList, "[ a [ ] ]".toList, "[b".toList]) =
        ["]".toList, "[ a [ ] ]".toList, "[b".toList] ∧
      items (render ["a b".toList]) ≠ ["a b".toList] ∧
      items "x [ a [".toList = ["x".toList, "[ a [ ] ]".toList] ∧
      items (render (items "x [ a [".toList)) = items "x [ a [".toList := by
  obtain ⟨-, survives, again, -⟩ := splitting_inverts_rendering
  exact ⟨(survives _).2 (by decide), fun same => absurd ((survives _).1 same) (by decide),
    by decide, again _⟩

end Concatenative.ListText
