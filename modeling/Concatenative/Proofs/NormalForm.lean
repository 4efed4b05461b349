import Concatenative.Template
import Concatenative.Proofs.Elements
import Concatenative.Proofs.Reading

/-!
Tokens are a normal form. A source is read into tokens, a list is taken apart into
elements by counting brackets, and a body is stripped of its brackets and read again.
The tokens of a source come back unchanged on each of these ways.
-/

namespace Concatenative

open Text ListText

namespace Node

theorem closesFrom_flatMap {items : List Node} {depth : Int} {later : List Text}
    (each : ∀ item ∈ items, ∀ rest, ClosesFrom depth rest →
      ClosesFrom depth (words item.render ++ rest))
    (closes : ClosesFrom depth later) :
    ClosesFrom depth ((renderAll items).flatMap words ++ later) := by
  induction items with
  | nil => exact closes
  | cons item items ih =>
    rw [renderAll, List.flatMap_cons, List.append_assoc]
    apply each item List.mem_cons_self
    exact ih fun other mem => each other (List.mem_cons_of_mem item mem)

theorem closesFrom_words_append {node : Node} (regular : node.Regular) {depth : Int}
    (inside : 0 < depth) {later : List Text} (closes : ClosesFrom depth later) :
    ClosesFrom depth (words node.render ++ later) := by
  induction regular generalizing depth later with
  | @atom word isWord isAtom =>
    rw [render, words_of_isWord isWord, List.singleton_append, closesFrom_cons,
      bracketWeight_plain isAtom.2.1 isAtom.2.2, Int.add_zero]
    exact ⟨by omega, closes⟩
  | @block items all ih =>
    have closed : ClosesFrom (depth + 1) (closing :: later) := by
      rw [closesFrom_cons, bracketWeight_closing, Int.add_neg_cancel_right]
      exact ⟨by omega, closes⟩
    rw [render, words_render, List.cons_append, List.cons_append, List.append_assoc,
      List.singleton_append, closesFrom_cons, bracketWeight_opening]
    refine ⟨by omega, closesFrom_flatMap (fun item mem rest => ?_) closed⟩
    exact ih item mem (by omega)

theorem words_render_ne_nil {node : Node} (regular : node.Regular) : words node.render ≠ [] := by
  cases regular with
  | atom isWord isAtom =>
    rw [render, words_of_isWord isWord]
    exact List.cons_ne_nil _ _
  | block all =>
    rw [render, words_render]
    exact List.cons_ne_nil _ _

theorem unwords_words_render {node : Node} (regular : node.Regular) :
    unwords (words node.render) = node.render := by
  induction regular with
  | atom isWord isAtom =>
    rw [render, words_of_isWord isWord]
    rfl
  | @block items all ih =>
    have filled : ∀ text ∈ renderAll items, words text ≠ [] := by
      intro text mem
      rw [renderAll_eq_map] at mem
      obtain ⟨item, member, rfl⟩ := List.mem_map.1 mem
      exact words_render_ne_nil (all item member)
    have joined : unwords ((words (ListText.render (renderAll items))).map id) =
        ListText.render ((renderAll items).map fun text => unwords ((words text).map id)) :=
      unwords_map_words_render rfl rfl filled
    have kept : (renderAll items).map (fun text => unwords (words text)) = renderAll items := by
      rw [renderAll_eq_map, List.map_map]
      exact List.map_congr_left ih
    simp only [List.map_id] at joined
    rw [render, joined, kept]

theorem isElement_render {node : Node} (regular : node.Regular) : IsElement node.render := by
  have joined := unwords_words_render regular
  cases regular with
  | atom isWord isAtom => exact Or.inl ⟨isWord, isAtom.2.1⟩
  | @block items all =>
    refine Or.inr ⟨?_, joined⟩
    have last : ClosesFrom 1 [closing] := closesFrom_replicate_closing 1
    rw [render, words_render, List.cons_append, isGroup_cons]
    refine ⟨rfl, closesFrom_flatMap (fun item mem rest => ?_) last⟩
    exact closesFrom_words_append (all item mem) (by decide)

theorem read_of_words_eq {items : List Node} (all : ∀ item ∈ items, item.Regular) {text : Text}
    (same : words text = (renderAll items).flatMap words) : Node.read text = items := by
  have read := (nodes_flatMap_append (fun item mem => readsAs_words_render (all item mem)) []).1
  rw [List.append_nil, nodes_nil, List.append_nil] at read
  rw [Node.read, same, read]

theorem parse_of_words_eq {items : List Node} (all : ∀ item ∈ items, item.Regular) {text : Text}
    (same : words text = (renderAll items).flatMap words) : parse text = renderAll items := by
  rw [parse, read_of_words_eq all same]

end Node

open Node

theorem isElement_of_mem_parse {source token : Text} (mem : token ∈ parse source) :
    IsElement token := by
  rw [parse, renderAll_eq_map] at mem
  obtain ⟨node, member, rfl⟩ := List.mem_map.1 mem
  exact isElement_render (regular_of_mem_read member)

theorem parse_inner_render (source : Text) :
    parse (inner (ListText.render (parse source))) = parse source :=
  parse_of_words_eq (fun _ => regular_of_mem_read) (words_inner_render _)

theorem ofBody_render (source : Text) :
    Template.ofBody (ListText.render (parse source)) = Template.ofSource source := by
  rw [Template.ofBody, if_pos (isList_render _), Template.ofSource, Template.ofSource,
    parse_inner_render]

/-- The tokens of a source are read back from their joined text, taken apart from their list
one by one, and read again from between its brackets, where they make the template of the
source. -/
theorem parse_reads_back (source : Text) :
    parse (unwords (parse source)) = parse source ∧
      items (ListText.render (parse source)) = parse source ∧
      parse (inner (ListText.render (parse source))) = parse source ∧
      Template.ofBody (ListText.render (parse source)) = Template.ofSource source := by
  refine ⟨?_, items_render fun _ => isElement_of_mem_parse, parse_inner_render source,
    ofBody_render source⟩
  exact parse_of_words_eq (fun _ => regular_of_mem_read) (words_unwords_eq_flatMap _)

end Concatenative
