import Concatenative.Proofs.Minting
import Concatenative.Proofs.NormalForm
import Concatenative.Proofs.References

/-!
What is shown is what is stored, and it reads back. In an arena of canonical lists
expansion puts canonical text in the place of every handle, so that brackets keep the
elements apart at every level: the shown text is one token, its elements are the shown
elements, and minting it anew gives a handle that is shown in the same way.
-/

namespace Concatenative

open Text ListText Relation

namespace Node

theorem words_subset_words_block {items : List Node} {element word : Text}
    (mem : element ∈ renderAll items) (inside : word ∈ words element) :
    word ∈ words (block items).render := by
  rw [render, words_render, List.cons_append]
  apply List.mem_cons_of_mem
  apply List.mem_append_left
  exact List.mem_flatMap.2 ⟨element, mem, inside⟩

theorem words_ne_nil_of_mem_renderAll {items : List Node} (all : ∀ item ∈ items, item.Regular) :
    ∀ element ∈ renderAll items, words element ≠ [] := by
  rw [renderAll_eq_map, List.forall_mem_map]
  exact fun item mem => words_render_ne_nil (all item mem)

theorem items_block {items : List Node} (all : ∀ item ∈ items, item.Regular) :
    ListText.items (block items).render = renderAll items := by
  apply items_render
  rw [renderAll_eq_map, List.forall_mem_map]
  exact fun item mem => isElement_render (all item mem)

theorem read_render {node : Node} (regular : node.Regular) : read node.render = [node] := by
  have alone := (readsAs_words_render regular []).1
  rwa [List.append_nil, nodes_nil] at alone

end Node

theorem parseMinting_block {items : List Node} (all : ∀ item ∈ items, item.Regular)
    (unnamed : ∀ word ∈ words (Node.block items).render, Handle.read? word = none)
    {before after : Arena} {tokens : List Text}
    (minted : parseMinting before (Node.block items).render = (tokens, after))
    (countable : after.slots.size < Decimal.wordBound) :
    ∃ fresh : Handle, tokens = [fresh.toText] ∧ before.isLive fresh = false ∧
      after.isLive fresh = true ∧ after.expand fresh.toText = (Node.block items).render := by
  have read := Node.read_render (.block all)
  have isUnnamed : (Node.block items).Unnamed := by
    apply Node.allAtoms_of_mem_nodes fun word mem _ => ⟨isWord_of_mem_words mem, unnamed word mem⟩
    rw [← Node.read, read]
    exact List.mem_cons_self
  rw [parseMinting, read, Node.mintAll_cons] at minted
  obtain ⟨rfl, rfl⟩ := Prod.mk.inj minted
  have single := Node.minted_mint isUnnamed before countable
  -- The handle of the outermost block is the last one that is minted.
  obtain ⟨fresh, token⟩ : ∃ fresh : Handle, (Node.mint before (.block items)).1 = fresh.toText :=
    ⟨_, congrArg Prod.fst (Node.mint_block before items)⟩
  rw [token] at single
  have range := single.names fresh.toText List.mem_cons_self fresh.toText
    (by rw [words_of_isWord fresh.isWord_toText]; exact List.mem_cons_self) fresh fresh.read?_toText
  have shown := single.expands _ (.refl _) _ [] (Nat.le_refl _) (by simp)
  refine ⟨fresh, by rw [token]; rfl, ?_, ?_, List.singleton_inj.1 shown⟩
  · rw [Arena.isLive, decide_eq_false_iff_not, Nat.not_lt]
    exact range.1
  · rw [Arena.isLive, decide_eq_true_eq]
    exact range.2

namespace Arena

/-- Every slot is a list in canonical form, with canonical lists and words in it. -/
def IsCanonical (arena : Arena) : Prop :=
  ∀ slot ∈ arena.slots, ∃ items : List Node,
    (∀ item ∈ items, item.Regular) ∧ slot = (Node.block items).render

variable {arena : Arena}

theorem IsCanonical.get? (canonical : arena.IsCanonical) {handle : Handle} {body : Text}
    (live : arena.get? handle = some body) :
    ∃ items : List Node, (∀ item ∈ items, item.Regular) ∧ body = (Node.block items).render :=
  canonical body (Array.mem_of_getElem? live)

section Levels

variable (levels : Nat) (visiting : List Handle)

theorem exists_shown_all {items : List Node}
    (each : ∀ item ∈ items, ∃ shown : Node, shown.Regular ∧
      arena.expandWithin levels visiting item.render = shown.render) :
    ∃ shown : List Node, (∀ node ∈ shown, node.Regular) ∧
      (Node.renderAll items).map (arena.expandWithin levels visiting) = Node.renderAll shown := by
  induction items with
  | nil => exact ⟨[], by simp, rfl⟩
  | cons item items ih =>
    obtain ⟨first, regular, same⟩ := each item List.mem_cons_self
    obtain ⟨later, regulars, sames⟩ :=
      ih fun other mem => each other (List.mem_cons_of_mem item mem)
    refine ⟨first :: later, List.forall_mem_cons.2 ⟨regular, regulars⟩, ?_⟩
    rw [Node.renderAll, List.map_cons, same, sames, Node.renderAll]

theorem IsCanonical.exists_shown (canonical : arena.IsCanonical) {node : Node}
    (regular : node.Regular) :
    ∃ shown : Node, shown.Regular ∧
      arena.expandWithin levels visiting node.render = shown.render := by
  induction levels generalizing visiting node with
  | zero => exact ⟨node, regular, Node.unwords_words_render regular⟩
  | succ levels deeper =>
    induction regular with
    | @atom word isWord isAtom =>
      cases found : arena.liveBody? visiting word with
      | none =>
        refine ⟨.atom word, .atom isWord isAtom, ?_⟩
        rw [Node.render, expandWithin_kept isWord found]
      | some entry =>
        obtain ⟨handle, body⟩ := entry
        obtain ⟨-, -, live⟩ := liveBody?_eq_some_iff.1 found
        obtain ⟨items, all, rfl⟩ := canonical.get? live
        rw [Node.render, expandWithin_entered isWord found]
        exact deeper (handle :: visiting) (.block all)
    | @block items all each =>
      obtain ⟨shown, regulars, sames⟩ := exists_shown_all (levels + 1) visiting each
      refine ⟨.block shown, .block regulars, ?_⟩
      rw [Node.render, expandWithin_render _ _ _ (Node.words_ne_nil_of_mem_renderAll all),
        sames, Node.render]

end Levels

theorem expand_toText {handle : Handle} {items : List Node} (all : ∀ item ∈ items, item.Regular)
    (live : arena.get? handle = some (Node.block items).render)
    (acyclic : ¬ arena.IsCyclic handle) :
    arena.expand handle.toText = ListText.render ((Node.renderAll items).map arena.expand) := by
  have found : arena.liveBody? [] handle.toText = some (handle, (Node.block items).render) :=
    liveBody?_eq_some_iff.2 ⟨handle.read?_toText, List.not_mem_nil, live⟩
  have entered := (IsEntered.nil arena).cons found
  obtain ⟨levels, size⟩ : ∃ levels, arena.slots.size = levels + 1 := by
    have positive := entered.length_le_size
    rw [List.length_singleton] at positive
    exact ⟨arena.slots.size - 1, by omega⟩
  have inside : ∀ element ∈ Node.renderAll items,
      arena.expandWithin levels [handle] element = arena.expand element := by
    intro element mem
    apply expandWithin_eq_expand entered (Nat.le_of_eq size)
    intro own busy reached
    obtain rfl := List.mem_singleton.1 busy
    obtain ⟨first, mentioned, path⟩ := reached.mono fun _ => Node.words_subset_words_block mem
    exact acyclic (.head' ⟨_, live, mentioned⟩ path)
  rw [expand, size, expandWithin_entered handle.isWord_toText found, Node.render,
    expandWithin_render _ _ _ (Node.words_ne_nil_of_mem_renderAll all),
    List.map_congr_left inside]

/-- A live handle that leads to no cycle is shown as one token, a list of what its elements
are shown as. If no handle is left in it, reading the text anew mints one fresh handle
that is shown in the same way. -/
theorem expand_reads_back (canonical : arena.IsCanonical) {handle : Handle} {body : Text}
    (live : arena.get? handle = some body)
    (acyclic : ∀ other, ReflTransGen arena.RefersTo handle other → ¬ arena.IsCyclic other) :
    items (arena.expand handle.toText) = (items body).map arena.expand ∧
    parse (arena.expand handle.toText) = [arena.expand handle.toText] ∧
    ((∀ word ∈ words (arena.expand handle.toText), ∀ other, Handle.read? word = some other →
        arena.isLive other = true) →
      ∀ before after tokens,
        parseMinting before (arena.expand handle.toText) = (tokens, after) →
        after.slots.size < Decimal.wordBound →
        ∃ fresh : Handle, tokens = [fresh.toText] ∧ before.isLive fresh = false ∧
          after.isLive fresh = true ∧
          after.expand fresh.toText = arena.expand handle.toText) := by
  obtain ⟨nodes, all, rfl⟩ := canonical.get? live
  obtain ⟨shown, regulars, sames⟩ : ∃ shown : List Node, (∀ node ∈ shown, node.Regular) ∧
      (Node.renderAll nodes).map arena.expand = Node.renderAll shown :=
    exists_shown_all arena.slots.size [] fun node mem => canonical.exists_shown _ [] (all node mem)
  have text : arena.expand handle.toText = (Node.block shown).render := by
    rw [expand_toText all live (acyclic handle .refl), sames, Node.render]
  refine ⟨?_, ?_, fun alive before after tokens minted countable => ?_⟩
  · rw [text, Node.items_block regulars, Node.items_block all, sames]
  · rw [text, parse, Node.read_render (.block regulars)]
    rfl
  · have unnamed : ∀ word ∈ words (arena.expand handle.toText), Handle.read? word = none := by
      intro word left
      by_contra named
      obtain ⟨other, named⟩ := Option.ne_none_iff_exists'.1 named
      obtain ⟨⟨first, ⟨own, mem, names⟩, path⟩, ends⟩ := leftover_expand left named
      rw [words_of_isWord handle.isWord_toText, List.mem_singleton] at mem
      rw [mem, Handle.read?_toText, Option.some.injEq] at names
      rw [← names] at path
      have dangling := ends.resolve_right (acyclic other path)
      rw [alive word left other named] at dangling
      cases dangling
    rw [text] at minted unnamed ⊢
    exact parseMinting_block regulars unnamed minted countable

theorem expand_reads_back_shared :
    ∃ arena : Arena, ∃ handle : Handle, ∃ body : Text,
      arena.IsCanonical ∧ arena.get? handle = some body ∧
      arena.expand handle.toText = "[ [ x ] [ a [ x ] ] ]".toList ∧
      items (arena.expand handle.toText) = (items body).map arena.expand ∧
      ∃ after fresh, parseMinting ⟨#["[ &1 ]".toList]⟩ "[ [ x ] [ a [ x ] ] ]".toList =
          ([Handle.toText fresh], after) ∧
        after.expand fresh.toText = "[ [ x ] [ a [ x ] ] ]".toList := by
  let arena : Arena := ⟨#["[ &2 [ a &02 ] ]".toList, "[ x ]".toList]⟩
  let handle : Handle := ⟨1, by decide, by decide⟩
  let before : Arena := ⟨#["[ &1 ]".toList]⟩
  have live : arena.get? handle = some "[ &2 [ a &02 ] ]".toList := rfl
  have shown : arena.expand handle.toText = "[ [ x ] [ a [ x ] ] ]".toList := by decide
  have canonical : arena.IsCanonical := by
    intro slot mem
    obtain rfl | rfl : slot = "[ &2 [ a &02 ] ]".toList ∨ slot = "[ x ]".toList := by
      simpa [arena] using mem
    · exact ⟨Node.read "&2 [ a &02 ]".toList, fun _ => Node.regular_of_mem_read,
        by decide +kernel⟩
    · exact ⟨Node.read "x".toList, fun _ => Node.regular_of_mem_read, by decide +kernel⟩
  have ascending : ∀ place body, 0 ≤ place → arena.slots[place]? = some body →
      ∀ other, Mentions (words body) other → place < other.index := by
    have later : ∀ place : Fin 2, ∀ word ∈ words arena.slots[place], ∀ other ∈ Handle.read? word,
        place < other.index := by
      decide
    rintro place body - found other ⟨word, mem, named⟩
    obtain ⟨inside, rfl⟩ := Array.getElem?_eq_some_iff.1 found
    exact later ⟨place, inside⟩ word mem other named
  have acyclic : ∀ other, ReflTransGen arena.RefersTo handle other → ¬ arena.IsCyclic other :=
    fun other path => not_isCyclic_of_ascending ascending (Nat.zero_le _) path
  have alive : ∀ word ∈ words (arena.expand handle.toText), ∀ other,
      Handle.read? word = some other → arena.isLive other = true := by
    rw [shown]
    have unnamed : ∀ word ∈ words "[ [ x ] [ a [ x ] ] ]".toList, Handle.read? word = none := by
      decide
    intro word mem other named
    rw [unnamed word mem] at named
    cases named
  obtain ⟨elements, -, minting⟩ := expand_reads_back canonical live acyclic
  have minted : parseMinting before (arena.expand handle.toText) = (["&5".toList],
      ⟨#["[ &1 ]".toList, "[ x ]".toList, "[ x ]".toList, "[ a &3 ]".toList,
        "[ &2 &4 ]".toList]⟩) := by
    decide +kernel
  obtain ⟨fresh, tokens, -, -, same⟩ := minting alive before _ _ minted (by decide)
  rw [shown] at minted same
  rw [tokens] at minted
  exact ⟨arena, handle, _, canonical, live, shown, elements, _, fresh, minted, same⟩

end Arena

end Concatenative
