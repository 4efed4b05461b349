import Concatenative.Block
import Concatenative.Proofs.Words

/-!
Reading words into nodes, and reading back what a node was rendered to. The main
statement is that the words of a rendered node are read as that node, whatever
words follow.
-/

namespace Concatenative.Node

open Text ListText

/-- One case for each way in which reading goes on: at the end, past a comment,
into a block and then past it, out of a block, and past a word. -/
theorem reading_induction {motive : List Text → Prop} (nil : motive [])
    (comment : ∀ words, motive (skipComment words) → motive (commentOpening :: words))
    (block : ∀ words, motive words → motive (rest words) → motive (opening :: words))
    (closed : ∀ words, motive (closing :: words))
    (atom : ∀ word words, IsAtom word → motive words → motive (word :: words))
    (words : List Text) : motive words := by
  generalize bound : words.length = length
  induction length using Nat.strongRecOn generalizing words with
  | ind length ih =>
    cases words with
    | nil => exact nil
    | cons word words =>
      have shorter : ∀ later : List Text, later.length ≤ words.length → motive later := by
        intro later le
        refine ih later.length ?_ later rfl
        rw [← bound, List.length_cons]
        omega
      by_cases comments : word = commentOpening
      · rw [comments]
        exact comment words (shorter _ (length_skipComment_le words))
      · by_cases opens : word = opening
        · rw [opens]
          exact block words (shorter words (Nat.le_refl _)) (shorter _ (length_rest_le words))
        · by_cases closes : word = closing
          · rw [closes]
            exact closed words
          · exact atom word words ⟨comments, opens, closes⟩ (shorter words (Nat.le_refl _))

/-- Words that make up exactly one node, whatever words follow. -/
def ReadsAs (words : List Text) (node : Node) : Prop :=
  ∀ later, nodes (words ++ later) = node :: nodes later ∧ rest (words ++ later) = rest later

inductive AllAtoms (holds : Text → Prop) : Node → Prop where
  | atom {text : Text} (one : holds text) : AllAtoms holds (.atom text)
  | block {items : List Node} (all : ∀ item ∈ items, AllAtoms holds item) :
      AllAtoms holds (.block items)

inductive Regular : Node → Prop where
  | atom {word : Text} (isWord : IsWord word) (isAtom : IsAtom word) : Regular (.atom word)
  | block {items : List Node} (all : ∀ item ∈ items, Regular item) : Regular (.block items)

/-- The words behind so many comments, each but the last of them in the next. -/
def leaveComments : Nat → List Text → List Text
  | 0, words => words
  | comments + 1, words => leaveComments comments (skipComment words)

theorem leaveComments_nil (comments : Nat) : leaveComments comments [] = [] := by
  induction comments with
  | zero => rfl
  | succ comments ih => rw [leaveComments, skipComment_nil, ih]

theorem leaveComments_opening (comments : Nat) (words : List Text) :
    leaveComments (comments + 1) (commentOpening :: words) = leaveComments (comments + 2) words := by
  rw [leaveComments, skipComment_opening, leaveComments, leaveComments]

theorem leaveComments_closing (comments : Nat) (words : List Text) :
    leaveComments (comments + 1) (commentClosing :: words) = leaveComments comments words := by
  rw [leaveComments, skipComment_closing]

theorem leaveComments_word {word : Text} (notOpening : word ≠ commentOpening)
    (notClosing : word ≠ commentClosing) (comments : Nat) (words : List Text) :
    leaveComments (comments + 1) (word :: words) = leaveComments (comments + 1) words := by
  rw [leaveComments, skipComment_word notOpening notClosing, leaveComments]

/-- One case for each way in which comments are left: with none open any more, at the end,
and past a word that opens a comment, closes the innermost one, or does neither. -/
theorem comments_induction {motive : Nat → List Text → Prop} (left : ∀ words, motive 0 words)
    (nil : ∀ comments, motive (comments + 1) [])
    (opened : ∀ comments words, motive (comments + 2) words →
      motive (comments + 1) (commentOpening :: words))
    (closed : ∀ comments words, motive comments words →
      motive (comments + 1) (commentClosing :: words))
    (passed : ∀ comments word words, word ≠ commentOpening → word ≠ commentClosing →
      motive (comments + 1) words → motive (comments + 1) (word :: words))
    (comments : Nat) (words : List Text) : motive comments words := by
  induction words generalizing comments with
  | nil =>
    cases comments with
    | zero => exact left []
    | succ comments => exact nil comments
  | cons word words ih =>
    cases comments with
    | zero => exact left (word :: words)
    | succ comments =>
      by_cases opens : word = commentOpening
      · rw [opens]
        exact opened comments words (ih (comments + 2))
      · by_cases closes : word = commentClosing
        · rw [closes]
          exact closed comments words (ih comments)
        · exact passed comments word words opens closes (ih (comments + 1))

theorem mem_of_mem_leaveComments {comments : Nat} {words : List Text} {word : Text}
    (mem : word ∈ leaveComments comments words) : word ∈ words := by
  induction comments, words using comments_induction with
  | left words => exact mem
  | nil comments => rwa [leaveComments_nil] at mem
  | opened comments words ih =>
    rw [leaveComments_opening] at mem
    exact List.mem_cons_of_mem _ (ih mem)
  | closed comments words ih =>
    rw [leaveComments_closing] at mem
    exact List.mem_cons_of_mem _ (ih mem)
  | passed comments first words opens closes ih =>
    rw [leaveComments_word opens closes] at mem
    exact List.mem_cons_of_mem _ (ih mem)

theorem mem_of_mem_skipComment {words : List Text} {word : Text} (mem : word ∈ skipComment words) :
    word ∈ words := by
  have left : word ∈ leaveComments 1 words := mem
  exact mem_of_mem_leaveComments left

theorem mem_of_mem_rest {words : List Text} {word : Text} (mem : word ∈ rest words) :
    word ∈ words := by
  induction words using reading_induction with
  | nil => simp at mem
  | comment words ih =>
    rw [rest_comment] at mem
    exact List.mem_cons_of_mem _ (mem_of_mem_skipComment (ih mem))
  | block words inside after =>
    rw [rest_opening] at mem
    exact List.mem_cons_of_mem _ (inside (after mem))
  | closed words =>
    rw [rest_closing] at mem
    exact List.mem_cons_of_mem _ mem
  | atom first words isAtom ih =>
    rw [rest_atom isAtom] at mem
    exact List.mem_cons_of_mem _ (ih mem)

theorem allAtoms_of_mem_nodes {holds : Text → Prop} {words : List Text}
    (all : ∀ word ∈ words, IsAtom word → holds word) {node : Node} (mem : node ∈ nodes words) :
    node.AllAtoms holds := by
  induction words using reading_induction generalizing node with
  | nil => simp at mem
  | comment words ih =>
    rw [nodes_comment] at mem
    exact ih (fun word member => all word
      (List.mem_cons_of_mem _ (mem_of_mem_skipComment member))) mem
  | block words inside after =>
    rw [nodes_opening] at mem
    have later : ∀ word ∈ words, IsAtom word → holds word := fun word member =>
      all word (List.mem_cons_of_mem _ member)
    rcases List.mem_cons.1 mem with rfl | mem
    · exact .block fun item member => inside later member
    · exact after (fun word member => later word (mem_of_mem_rest member)) mem
  | closed words => simp [nodes_closing] at mem
  | atom first words isAtom ih =>
    rw [nodes_atom isAtom] at mem
    rcases List.mem_cons.1 mem with rfl | mem
    · exact .atom (all first List.mem_cons_self isAtom)
    · exact ih (fun word member => all word (List.mem_cons_of_mem _ member)) mem

theorem AllAtoms.regular {node : Node}
    (atoms : node.AllAtoms fun text => IsWord text ∧ IsAtom text) : node.Regular := by
  induction atoms with
  | atom one => exact .atom one.1 one.2
  | block all ih => exact .block ih

theorem regular_of_mem_read {source : Text} {node : Node} (mem : node ∈ read source) :
    node.Regular :=
  (allAtoms_of_mem_nodes (fun _ member isAtom => ⟨isWord_of_mem_words member, isAtom⟩) mem).regular

theorem renderAll_eq_map (items : List Node) : renderAll items = items.map render := by
  induction items with
  | nil => rfl
  | cons item items ih => rw [renderAll, ih, List.map_cons]

theorem readsAs_atom {word : Text} (isAtom : IsAtom word) : ReadsAs [word] (.atom word) :=
  fun later => ⟨nodes_atom isAtom later, rest_atom isAtom later⟩

theorem nodes_flatMap_append {items : List Node}
    (each : ∀ item ∈ items, ReadsAs (words item.render) item) (later : List Text) :
    nodes ((renderAll items).flatMap words ++ later) = items ++ nodes later ∧
      rest ((renderAll items).flatMap words ++ later) = rest later := by
  induction items with
  | nil => exact ⟨rfl, rfl⟩
  | cons item items ih =>
    have first := each item List.mem_cons_self
      ((renderAll items).flatMap words ++ later)
    have next := ih fun other member => each other (List.mem_cons_of_mem _ member)
    rw [renderAll, List.flatMap_cons, List.append_assoc, first.1, first.2, next.1, next.2]
    exact ⟨rfl, rfl⟩

theorem readsAs_words_render {node : Node} (regular : node.Regular) :
    ReadsAs (words node.render) node := by
  induction regular with
  | atom isWord isAtom =>
    rw [render, words_of_isWord isWord]
    exact readsAs_atom isAtom
  | @block items all ih =>
    intro later
    obtain ⟨inside, after⟩ := nodes_flatMap_append ih (closing :: later)
    rw [nodes_closing, List.append_nil] at inside
    rw [rest_closing] at after
    rw [render, words_render, List.cons_append, List.cons_append, List.append_assoc,
      List.singleton_append, nodes_opening, rest_opening, inside, after]
    exact ⟨rfl, rfl⟩

def brackets : List Text := [opening, closing, commentOpening, commentClosing]

theorem leaveComments_append_of_silent {first : List Text}
    (silent : ∀ word ∈ first, word ≠ commentOpening ∧ word ≠ commentClosing) (comments : Nat)
    (second : List Text) :
    leaveComments (comments + 1) (first ++ second) = leaveComments (comments + 1) second := by
  induction first with
  | nil => rfl
  | cons word first ih =>
    have plain := silent word List.mem_cons_self
    rw [List.cons_append, leaveComments_word plain.1 plain.2]
    exact ih fun other mem => silent other (List.mem_cons_of_mem word mem)

/-- A way to put several words in the place of one that reading cannot tell from a
change of the tokens: brackets stay, no comment starts or ends anew, and what takes
the place of an atom is read as one node, whose token is the changed one. -/
structure Rewords (reword : Text → List Text) (change : Text → Text) (list : List Text) : Prop where
  fixed : ∀ word ∈ brackets, reword word = [word]
  silent : ∀ word ∈ list, word ≠ commentOpening → word ≠ commentClosing →
    ∀ other ∈ reword word, other ≠ commentOpening ∧ other ≠ commentClosing
  atoms : ∀ word ∈ list, IsAtom word →
    ∃ node, node.render = change word ∧ ReadsAs (reword word) node
  lists : ∀ elements, change (ListText.render elements) = ListText.render (elements.map change)

section Rewords

variable {reword : Text → List Text} {change : Text → Text} {list : List Text}

theorem Rewords.mono {fewer : List Text} (rewords : Rewords reword change list)
    (included : ∀ word ∈ fewer, word ∈ list) : Rewords reword change fewer where
  fixed := rewords.fixed
  silent word mem := rewords.silent word (included word mem)
  atoms word mem := rewords.atoms word (included word mem)
  lists := rewords.lists

theorem Rewords.tail {word : Text} (rewords : Rewords reword change (word :: list)) :
    Rewords reword change list :=
  rewords.mono fun _ => List.mem_cons_of_mem word

theorem Rewords.leaveComments_flatMap (rewords : Rewords reword change list) (comments : Nat) :
    leaveComments comments (list.flatMap reword) = (leaveComments comments list).flatMap reword := by
  induction comments, list using comments_induction with
  | left words => rfl
  | nil comments => rw [List.flatMap_nil, leaveComments_nil, List.flatMap_nil]
  | opened comments words ih =>
    rw [List.flatMap_cons, rewords.fixed _ (by simp [brackets]), List.singleton_append,
      leaveComments_opening, leaveComments_opening, ih rewords.tail]
  | closed comments words ih =>
    rw [List.flatMap_cons, rewords.fixed _ (by simp [brackets]), List.singleton_append,
      leaveComments_closing, leaveComments_closing, ih rewords.tail]
  | passed comments word words opens closes ih =>
    have silent := rewords.silent word List.mem_cons_self opens closes
    rw [List.flatMap_cons, leaveComments_append_of_silent silent, leaveComments_word opens closes,
      ih rewords.tail]

theorem Rewords.read (rewords : Rewords reword change list) :
    renderAll (nodes (list.flatMap reword)) = (renderAll (nodes list)).map change ∧
      rest (list.flatMap reword) = (rest list).flatMap reword := by
  induction list using reading_induction with
  | nil => simp [renderAll]
  | comment words ih =>
    have skipped : skipComment (words.flatMap reword) = (skipComment words).flatMap reword :=
      rewords.tail.leaveComments_flatMap 1
    have later := ih (rewords.tail.mono fun _ => mem_of_mem_skipComment)
    rw [List.flatMap_cons, rewords.fixed _ (by simp [brackets]), List.singleton_append, nodes_comment,
      rest_comment, nodes_comment, rest_comment, skipped]
    exact later
  | block words inside after =>
    obtain ⟨items, restItems⟩ := inside rewords.tail
    obtain ⟨later, restLater⟩ := after (rewords.tail.mono fun _ => mem_of_mem_rest)
    rw [List.flatMap_cons, rewords.fixed _ (by simp [brackets]), List.singleton_append, nodes_opening,
      rest_opening, nodes_opening, rest_opening, restItems, renderAll, renderAll, render, render,
      items, later, List.map_cons, rewords.lists]
    exact ⟨rfl, restLater⟩
  | closed words =>
    rw [List.flatMap_cons, rewords.fixed _ (by simp [brackets]), List.singleton_append, nodes_closing,
      rest_closing, nodes_closing, rest_closing]
    exact ⟨rfl, rfl⟩
  | atom word words isAtom ih =>
    obtain ⟨node, rendered, reads⟩ := rewords.atoms word List.mem_cons_self isAtom
    obtain ⟨later, restLater⟩ := ih rewords.tail
    obtain ⟨first, restFirst⟩ := reads (words.flatMap reword)
    rw [List.flatMap_cons, first, restFirst, nodes_atom isAtom, rest_atom isAtom, renderAll,
      renderAll, rendered, later]
    exact ⟨rfl, restLater⟩

end Rewords

end Concatenative.Node
