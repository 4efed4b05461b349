import Concatenative.Proofs.Expansion
import Concatenative.Proofs.ListOperations
import Concatenative.Proofs.Reachability
import Concatenative.Proofs.Reading

/-!
Minting the blocks of a source and keeping them inline say the same. Minting appends one
slot for each block, inner blocks first, so that a new slot refers only to new slots
before it. Expanding the tokens then goes down through ever smaller handles, and ends
with the text that keeping the blocks inline gives, whatever else the arena holds.
-/

namespace Concatenative

open Text ListText

namespace Arena

def Extends (before after : Arena) : Prop :=
  ∃ fresh, after.slots.toList = before.slots.toList ++ fresh

namespace Extends

theorem refl (arena : Arena) : arena.Extends arena :=
  ⟨[], (List.append_nil _).symm⟩

theorem trans {first second third : Arena} (left : first.Extends second)
    (right : second.Extends third) : first.Extends third := by
  obtain ⟨fresh, front⟩ := left
  obtain ⟨more, back⟩ := right
  exact ⟨fresh ++ more, by rw [back, front, List.append_assoc]⟩

theorem mint (arena : Arena) (body : Text) : arena.Extends (arena.mint body).2 :=
  ⟨[body], by rw [slots_mint, Array.toList_push]⟩

theorem size_le {before after : Arena} (kept : before.Extends after) :
    before.slots.size ≤ after.slots.size := by
  obtain ⟨fresh, slots⟩ := kept
  have length := congrArg List.length slots
  rw [List.length_append, Array.length_toList, Array.length_toList] at length
  omega

theorem slot_eq {before after : Arena} (kept : before.Extends after) {place : Nat}
    (old : place < before.slots.size) : after.slots[place]? = before.slots[place]? := by
  obtain ⟨fresh, slots⟩ := kept
  rw [← Array.getElem?_toList, ← Array.getElem?_toList, slots]
  exact List.getElem?_append_left (by rwa [Array.length_toList])

end Extends

end Arena

/-- Every handle among the words of a text is of a slot from `low` on and before `high`. -/
def NamesWithin (low high : Nat) (text : Text) : Prop :=
  ∀ word ∈ words text, ∀ handle, Handle.read? word = some handle →
    low ≤ handle.index ∧ handle.index < high

theorem NamesWithin.mono {low high below above : Nat} {text : Text}
    (within : NamesWithin low high text) (lower : below ≤ low) (higher : high ≤ above) :
    NamesWithin below above text := by
  intro word mem handle named
  have range := within word mem handle named
  omega

theorem namesWithin_unnamed {word : Text} (isWord : IsWord word)
    (unnamed : Handle.read? word = none) (low high : Nat) : NamesWithin low high word := by
  intro other mem handle named
  rw [words_of_isWord isWord, List.mem_singleton] at mem
  rw [mem, unnamed] at named
  cases named

theorem namesWithin_render {low high : Nat} {elements : List Text}
    (all : ∀ element ∈ elements, NamesWithin low high element) :
    NamesWithin low high (render elements) := by
  intro word mem handle named
  rw [words_render, List.cons_append, List.mem_cons, List.mem_append, List.mem_singleton] at mem
  rcases mem with rfl | mem | rfl
  · cases named
  · obtain ⟨element, member, inside⟩ := List.mem_flatMap.1 mem
    exact all element member word inside handle named
  · cases named

/-- Tokens that were minted into an arena, with the texts that they stand for. -/
structure Minted (before : Arena) (tokens : List Text) (after : Arena) (texts : List Text) :
    Prop where
  kept : before.Extends after
  isWord : ∀ token ∈ tokens, IsWord token
  names : ∀ token ∈ tokens, NamesWithin before.slots.size after.slots.size token
  descends : ∀ place body, before.slots.size ≤ place → after.slots[place]? = some body →
    NamesWithin before.slots.size place body
  /-- In every arena that goes on from here, with as many levels as there are slots and
  only later slots being expanded. -/
  expands : ∀ later : Arena, after.Extends later → ∀ levels visiting,
    after.slots.size ≤ levels → (∀ handle ∈ visiting, after.slots.size ≤ handle.index) →
    tokens.map (later.expandWithin levels visiting) = texts

namespace Minted

theorem nil (arena : Arena) : Minted arena [] arena [] where
  kept := .refl arena
  isWord _ mem := by cases mem
  names _ mem := by cases mem
  descends place body new found := by
    rw [Array.getElem?_eq_none new] at found
    cases found
  expands _ _ _ _ _ _ := rfl

theorem atom {word : Text} (isWord : IsWord word) (unnamed : Handle.read? word = none)
    (arena : Arena) : Minted arena [word] arena [word] where
  kept := .refl arena
  isWord token mem := by rwa [List.mem_singleton.1 mem]
  names token mem := by
    rw [List.mem_singleton.1 mem]
    exact namesWithin_unnamed isWord unnamed _ _
  descends := (nil arena).descends
  expands later _ levels visiting _ _ := by
    rw [List.map_singleton, Arena.expandWithin_unnamed isWord unnamed]

theorem append {before between after : Arena} {tokens others texts further : List Text}
    (first : Minted before tokens between texts) (second : Minted between others after further) :
    Minted before (tokens ++ others) after (texts ++ further) where
  kept := first.kept.trans second.kept
  isWord token mem := (List.mem_append.1 mem).elim (first.isWord token) (second.isWord token)
  names token mem := by
    rcases List.mem_append.1 mem with mem | mem
    · exact (first.names token mem).mono (Nat.le_refl _) second.kept.size_le
    · exact (second.names token mem).mono first.kept.size_le (Nat.le_refl _)
  descends place body new found := by
    by_cases old : place < between.slots.size
    · rw [second.kept.slot_eq old] at found
      exact first.descends place body new found
    · have within := second.descends place body (by omega) found
      exact within.mono first.kept.size_le (Nat.le_refl _)
  expands later extended levels visiting enough idle := by
    have grown := second.kept.size_le
    rw [List.map_append, second.expands later extended levels visiting enough idle,
      first.expands later (second.kept.trans extended) levels visiting (by omega)
        fun handle mem => Nat.le_trans grown (idle handle mem)]

theorem block {before after : Arena} {tokens texts : List Text}
    (inside : Minted before tokens after texts) (room : after.HasRoom) :
    Minted before [after.nextHandle.toText] (after.mint (render tokens)).2 [render texts] where
  kept := inside.kept.trans (.mint after _)
  isWord token mem := by
    rw [List.mem_singleton.1 mem]
    exact Handle.isWord_toText _
  names token mem word member handle named := by
    rw [List.mem_singleton.1 mem, words_of_isWord (Handle.isWord_toText _),
      List.mem_singleton] at member
    rw [member, Handle.read?_toText, Option.some.injEq] at named
    have grown := inside.kept.size_le
    rw [← named, room.nextHandle_index, Arena.slots_mint, Array.size_push]
    omega
  descends place body new found := by
    rw [Arena.slots_mint, Array.getElem?_push] at found
    split at found
    · next last =>
      rw [← Option.some.inj found, last]
      exact namesWithin_render inside.names
    · exact inside.descends place body new found
  expands later extended levels visiting enough idle := by
    rw [Arena.slots_mint, Array.size_push] at enough idle
    have index := room.nextHandle_index
    have live : later.get? after.nextHandle = some (render tokens) := by
      rw [Arena.get?, index, extended.slot_eq (by simp), Arena.slots_mint,
        Array.getElem?_push_size]
    have absent : after.nextHandle ∉ visiting := by
      intro mem
      have newer := idle _ mem
      omega
    have filled : ∀ token ∈ tokens, words token ≠ [] := by
      intro token mem
      rw [words_of_isWord (inside.isWord token mem)]
      exact List.cons_ne_nil _ _
    obtain ⟨fewer, rfl⟩ : ∃ fewer, levels = fewer + 1 := ⟨levels - 1, by omega⟩
    have earlier : ∀ handle ∈ after.nextHandle :: visiting, after.slots.size ≤ handle.index := by
      intro handle mem
      rcases List.mem_cons.1 mem with rfl | mem
      · exact Nat.le_of_eq index.symm
      · exact Nat.le_of_succ_le (idle handle mem)
    -- Inside the slot only handles of earlier slots are met, with one level less.
    have elements := inside.expands later ((Arena.Extends.mint after _).trans extended) fewer
      (after.nextHandle :: visiting) (Nat.le_of_succ_le_succ enough) earlier
    rw [List.map_singleton, Arena.expandWithin_named (Handle.isWord_toText _)
      (Handle.read?_toText _) live absent, Arena.expandWithin_render _ _ _ filled, elements]

end Minted

namespace Node

def Unnamed : Node → Prop := AllAtoms fun text => IsWord text ∧ Handle.read? text = none

theorem mint_block (arena : Arena) (items : List Node) :
    mint arena (.block items) =
      ((mintAll arena items).2.nextHandle.toText,
        ((mintAll arena items).2.mint (ListText.render (mintAll arena items).1)).2) := by
  rw [mint]
  rfl

theorem mintAll_cons (arena : Arena) (node : Node) (nodes : List Node) :
    mintAll arena (node :: nodes) =
      ((mint arena node).1 :: (mintAll (mint arena node).2 nodes).1,
        (mintAll (mint arena node).2 nodes).2) := by
  rw [mintAll]

theorem size_le_mintAll (arena : Arena) (nodes : List Node) :
    arena.slots.size ≤ (mintAll arena nodes).2.slots.size := by
  have fresh : ∀ (later : Arena) (elements : List Text), arena.slots.size ≤ later.slots.size →
      arena.slots.size ≤ (later.mint (ListText.render elements)).2.slots.size := by
    intro later elements le
    rw [Arena.slots_mint, Array.size_push]
    omega
  exact mintAll_keeps fresh arena (Nat.le_refl _) nodes

theorem minted_mintAll {nodes : List Node}
    (each : ∀ node ∈ nodes, ∀ arena, (mint arena node).2.slots.size < Decimal.wordBound →
      Minted arena [(mint arena node).1] (mint arena node).2 [node.render])
    (arena : Arena) (countable : (mintAll arena nodes).2.slots.size < Decimal.wordBound) :
    Minted arena (mintAll arena nodes).1 (mintAll arena nodes).2 (renderAll nodes) := by
  induction nodes generalizing arena with
  | nil => exact .nil arena
  | cons node nodes ih =>
    rw [mintAll_cons] at countable
    have grown := size_le_mintAll (mint arena node).2 nodes
    have first := each node List.mem_cons_self arena (Nat.lt_of_le_of_lt grown countable)
    have later := ih (fun other mem => each other (List.mem_cons_of_mem node mem)) _ countable
    rw [mintAll_cons]
    exact first.append later

theorem minted_mint {node : Node} (unnamed : node.Unnamed) (arena : Arena)
    (countable : (mint arena node).2.slots.size < Decimal.wordBound) :
    Minted arena [(mint arena node).1] (mint arena node).2 [node.render] := by
  induction unnamed generalizing arena with
  | atom one => exact .atom one.1 one.2 arena
  | @block items all ih =>
    rw [mint_block, Arena.slots_mint, Array.size_push] at countable
    have inside := minted_mintAll ih arena (Nat.lt_of_succ_lt countable)
    rw [mint_block]
    exact inside.block countable

/-- The number of opening brackets that open a block, read with comments and blocks open:
not in a comment, and before a closing bracket outside all blocks. -/
def openings : Nat → Nat → List Text → Nat
  | _, _, [] => 0
  | 0, blocks, word :: rest =>
    if word = commentOpening then openings 1 blocks rest
    else if word = opening then openings 0 (blocks + 1) rest + 1
    else if word = closing then if blocks = 0 then 0 else openings 0 (blocks - 1) rest
    else openings 0 blocks rest
  | comments + 1, blocks, word :: rest =>
    if word = commentOpening then openings (comments + 2) blocks rest
    else if word = commentClosing then openings comments blocks rest
    else openings (comments + 1) blocks rest

theorem openings_leaveComments (comments blocks : Nat) (words : List Text) :
    openings comments blocks words = openings 0 blocks (leaveComments comments words) := by
  have other : commentClosing ≠ commentOpening := by decide
  induction comments, words using comments_induction with
  | left words => rfl
  | nil comments => simp only [leaveComments_nil, openings]
  | opened comments words ih => rw [openings, if_pos rfl, ih, leaveComments_opening]
  | closed comments words ih =>
    rw [openings, if_neg other, if_pos rfl, ih, leaveComments_closing]
  | passed comments word words opens closes ih =>
    rw [openings, if_neg opens, if_neg closes, ih, leaveComments_word opens closes]

theorem size_mintAll_nodes (words : List Text) (arena : Arena) :
    (mintAll arena (nodes words)).2.slots.size = arena.slots.size + openings 0 0 words ∧
      ∀ blocks, (mintAll arena (nodes words)).2.slots.size + openings 0 blocks (rest words) =
        arena.slots.size + openings 0 (blocks + 1) words := by
  induction words using reading_induction generalizing arena with
  | nil => simp [mintAll, openings]
  | comment words ih =>
    simp only [nodes_comment, rest_comment, openings, if_true, openings_leaveComments 1]
    exact ih arena
  | block words inside after =>
    have other : opening ≠ commentOpening := by decide
    -- What stands in the block is counted up to its closing bracket, the rest from there on.
    have within := (inside arena).2
    have around := after (mint arena (.block (nodes words))).2
    simp only [mint_block, Arena.slots_mint, Array.size_push] at around
    simp only [nodes_opening, rest_opening, mintAll_cons, mint_block, openings, if_neg other,
      if_true]
    refine ⟨?_, fun blocks => ?_⟩
    · have first := within 0
      have second := around.1
      omega
    · have first := within (blocks + 1)
      have second := around.2 blocks
      omega
  | closed words =>
    have other : closing ≠ commentOpening ∧ closing ≠ opening := by decide
    simp [nodes_closing, rest_closing, mintAll, openings, other.1, other.2]
  | atom word words isAtom ih =>
    simp only [nodes_atom isAtom, rest_atom isAtom, mintAll_cons, mint, openings,
      if_neg isAtom.1, if_neg isAtom.2.1, if_neg isAtom.2.2]
    exact ih arena

end Node

/-- Minting a source without handles keeps the slots there were, adds one for each block that
is opened, lets a new slot name only new slots before it, and expands to the tokens with
their blocks inline. -/
theorem parseMinting_agrees {arena after : Arena} {source : Text} {tokens : List Text}
    (minted : parseMinting arena source = (tokens, after))
    (unnamed : ∀ word ∈ words source, Handle.read? word = none)
    (countable : after.slots.size < Decimal.wordBound) :
    (∃ fresh, after.slots.toList = arena.slots.toList ++ fresh ∧
      fresh.length = Node.openings 0 0 (words source)) ∧
    (∀ own body, arena.isLive own = false → after.get? own = some body →
      ∀ word ∈ words body, ∀ handle, Handle.read? word = some handle →
        arena.isLive handle = false ∧ after.isLive handle = true ∧
          handle.number < own.number) ∧
    tokens.map after.expand = parse source := by
  have nodes : ∀ node ∈ Node.read source, node.Unnamed := fun _ =>
    Node.allAtoms_of_mem_nodes fun word mem _ => ⟨isWord_of_mem_words mem, unnamed word mem⟩
  have result : Node.mintAll arena (Node.read source) = (tokens, after) := minted
  have all := Node.minted_mintAll (fun node mem => Node.minted_mint (nodes node mem)) arena
    (by rwa [result])
  have count := (Node.size_mintAll_nodes (words source) arena).1
  rw [result] at all
  rw [← Node.read, result] at count
  refine ⟨?_, fun own body new found word mem handle named => ?_, ?_⟩
  · obtain ⟨fresh, slots⟩ := all.kept
    have length := congrArg List.length slots
    rw [List.length_append, Array.length_toList, Array.length_toList] at length
    exact ⟨fresh, slots, by omega⟩
  · have live : own.index < after.slots.size := (Array.getElem?_eq_some_iff.1 found).1
    simp only [Arena.isLive, decide_eq_false_iff_not, decide_eq_true_eq, Nat.not_lt] at new ⊢
    have range := all.descends own.index body new found word mem handle named
    have smaller : handle.number - 1 < own.number - 1 := range.2
    exact ⟨range.1, by omega, by omega⟩
  · exact all.expands after (.refl after) _ [] (Nat.le_refl _) (by simp)

theorem parseMinting_agrees_cyclic :
    ∃ after : Arena,
      parseMinting ⟨#["[ &1 x ]".toList]⟩ "[ 1 [ 2 ( [ ) ] ] ) [ ] ] [ y".toList =
        (["&3".toList, ")".toList, "&4".toList], after) ∧
      after.slots.size = 4 ∧
      Node.openings 0 0 (words "[ 1 [ 2 ( [ ) ] ] ) [ ] ] [ y".toList) = 3 ∧
      ["&3".toList, ")".toList, "&4".toList].map after.expand =
        parse "[ 1 [ 2 ( [ ) ] ] ) [ ] ] [ y".toList := by
  have minted : parseMinting ⟨#["[ &1 x ]".toList]⟩ "[ 1 [ 2 ( [ ) ] ] ) [ ] ] [ y".toList =
      (["&3".toList, ")".toList, "&4".toList],
        ⟨#["[ &1 x ]".toList, "[ 2 ]".toList, "[ 1 &2 ]".toList, "[ ]".toList]⟩) := by
    decide +kernel
  have unnamed : ∀ word ∈ words "[ 1 [ 2 ( [ ) ] ] ) [ ] ] [ y".toList,
      Handle.read? word = none := by
    decide
  exact ⟨_, minted, rfl, by decide, (parseMinting_agrees minted unnamed (by decide)).2.2⟩

end Concatenative
