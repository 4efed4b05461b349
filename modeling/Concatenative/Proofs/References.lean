import Mathlib.Data.List.Nodup
import Mathlib.Data.List.Perm.Subperm
import Mathlib.Logic.Relation
import Concatenative.Proofs.Expansion

/-!
References between slots. A slot refers to the handles among its words, so the slots
are a graph, and nothing keeps it free of cycles. Expansion walks that graph along
paths of distinct live handles: it ends, nested no deeper than there are slots, and
what it leaves of the handles are those without a slot and those that a path leads
back to. Where no cycle can be reached, nothing is left to be expanded again.
-/

namespace Concatenative

open Text Relation

/-- One of the words is read as the handle. -/
def Mentions (list : List Text) (handle : Handle) : Prop :=
  ∃ word ∈ list, Handle.read? word = some handle

theorem Handle.index_injective : Function.Injective Handle.index := by
  intro first second same
  obtain ⟨number, positive, bounded⟩ := first
  obtain ⟨other, otherPositive, otherBounded⟩ := second
  simp only [Handle.index] at same
  obtain rfl : number = other := by omega
  rfl

theorem Text.words_ne_nil {text : Text} {c : Char} (mem : c ∈ text)
    (solid : isBlank c = false) : words text ≠ [] := by
  induction text with
  | nil => cases mem
  | cons d text ih =>
    cases blank : isBlank d with
    | false =>
      rw [words_cons_of_not_blank blank]
      exact List.cons_ne_nil _ _
    | true =>
      rw [words_cons_blank blank]
      rcases List.mem_cons.1 mem with rfl | mem
      · rw [blank] at solid
        cases solid
      · exact ih mem

def Text.IsJoined (text : Text) : Prop := words text ≠ [] ∧ unwords (words text) = text

theorem Text.isJoined_of_isWord {word : Text} (isWord : IsWord word) : IsJoined word := by
  rw [IsJoined, words_of_isWord isWord]
  exact ⟨List.cons_ne_nil _ _, rfl⟩

theorem Text.unwords_words_unwords {texts : List Text} (joined : ∀ text ∈ texts, IsJoined text) :
    unwords (words (unwords texts)) = unwords texts := by
  have same : ∀ text ∈ texts, unwords (words text) = text := fun text mem => (joined text mem).2
  rw [words_unwords_eq_flatMap, unwords_flatMap fun text mem => (joined text mem).1,
    List.map_congr_left same, List.map_id']

theorem Text.isJoined_unwords {texts : List Text} (some : texts ≠ [])
    (joined : ∀ text ∈ texts, IsJoined text) : IsJoined (unwords texts) := by
  refine ⟨?_, unwords_words_unwords joined⟩
  cases texts with
  | nil => exact absurd rfl some
  | cons text rest =>
    rw [words_unwords_eq_flatMap, List.flatMap_cons]
    exact List.append_ne_nil_of_left_ne_nil (joined text List.mem_cons_self).1 _

namespace Arena

theorem isLive_eq_true_iff {arena : Arena} {handle : Handle} :
    arena.isLive handle = true ↔ ∃ body, arena.get? handle = some body := by
  rw [isLive, decide_eq_true_eq, get?]
  constructor
  · intro inside
    exact ⟨_, Array.getElem?_eq_getElem inside⟩
  · rintro ⟨body, found⟩
    exact (Array.getElem?_eq_some_iff.1 found).1

theorem isLive_eq_false_iff {arena : Arena} {handle : Handle} :
    arena.isLive handle = false ↔ arena.get? handle = none := by
  simp [isLive, get?]

def RefersTo (arena : Arena) (handle other : Handle) : Prop :=
  ∃ body, arena.get? handle = some body ∧ Mentions (words body) other

def IsCyclic (arena : Arena) (handle : Handle) : Prop :=
  TransGen arena.RefersTo handle handle

/-- The handle is among the words, or slots lead to it from one that is. -/
def Reaches (arena : Arena) (list : List Text) (handle : Handle) : Prop :=
  ∃ first, Mentions list first ∧ ReflTransGen arena.RefersTo first handle

def IsFilled (arena : Arena) : Prop :=
  ∀ slot ∈ arena.slots, ∃ c ∈ slot, isBlank c = false

/-- The handles whose slots are being expanded: live ones, each entered once. -/
structure IsEntered (arena : Arena) (visiting : List Handle) : Prop where
  distinct : visiting.Nodup
  live : ∀ handle ∈ visiting, arena.isLive handle = true

/-- Expansion as it calls itself, with no bound: what becomes of each word, and how deep
the slots that are entered on the way are nested. -/
inductive Expands (arena : Arena) : List Handle → List Text → List Text → Nat → Prop where
  | nil {visiting : List Handle} : Expands arena visiting [] [] 0
  | keep {visiting : List Handle} {word : Text} {rest pieces : List Text} {depth : Nat}
      (kept : arena.liveBody? visiting word = none)
      (later : Expands arena visiting rest pieces depth) :
      Expands arena visiting (word :: rest) (word :: pieces) depth
  | enter {visiting : List Handle} {word body : Text} {handle : Handle}
      {rest inner pieces : List Text} {below depth : Nat}
      (found : arena.liveBody? visiting word = some (handle, body))
      (inside : Expands arena (handle :: visiting) (words body) inner below)
      (later : Expands arena visiting rest pieces depth) :
      Expands arena visiting (word :: rest) (unwords inner :: pieces) (max (below + 1) depth)

variable {arena : Arena} {visiting : List Handle}

theorem IsCyclic.isLive {handle : Handle} (cyclic : arena.IsCyclic handle) :
    arena.isLive handle = true := by
  obtain ⟨other, ⟨body, found, -⟩, -⟩ := TransGen.head'_iff.1 cyclic
  exact isLive_eq_true_iff.2 ⟨body, found⟩

theorem Reaches.mono {list more : List Text} {handle : Handle} (reached : arena.Reaches list handle)
    (included : ∀ word ∈ list, word ∈ more) : arena.Reaches more handle := by
  obtain ⟨first, ⟨word, mem, named⟩, path⟩ := reached
  exact ⟨first, ⟨word, included word mem, named⟩, path⟩

theorem reaches_of_mem {list : List Text} {word : Text} {handle : Handle} (mem : word ∈ list)
    (named : Handle.read? word = some handle) : arena.Reaches list handle :=
  ⟨handle, ⟨word, mem, named⟩, .refl⟩

theorem Reaches.through {list : List Text} {handle other : Handle} {body : Text}
    (mentioned : Mentions list handle) (found : arena.get? handle = some body)
    (reached : arena.Reaches (words body) other) : arena.Reaches list other := by
  obtain ⟨first, inside, path⟩ := reached
  exact ⟨handle, mentioned, .head ⟨body, found, inside⟩ path⟩

section Ascending

variable {start : Nat}
  (ascending : ∀ place body, start ≤ place → arena.slots[place]? = some body →
    ∀ other, Mentions (words body) other → place < other.index)

include ascending

theorem index_lt_of_transGen {handle other : Handle} (within : start ≤ handle.index)
    (path : TransGen arena.RefersTo handle other) : handle.index < other.index := by
  induction path with
  | single step =>
    obtain ⟨body, found, mentioned⟩ := step
    exact ascending _ body within found _ mentioned
  | tail _ step further =>
    obtain ⟨body, found, mentioned⟩ := step
    have onward := ascending _ body (by omega) found _ mentioned
    omega

/-- Slots that refer only onwards, from some place on, lead to no cycle. -/
theorem not_isCyclic_of_ascending {handle other : Handle} (within : start ≤ handle.index)
    (path : ReflTransGen arena.RefersTo handle other) : ¬ arena.IsCyclic other := by
  intro cyclic
  have reached : start ≤ other.index := by
    rcases reflTransGen_iff_eq_or_transGen.1 path with rfl | path
    · exact within
    · exact Nat.le_trans within (Nat.le_of_lt (index_lt_of_transGen ascending within path))
  exact Nat.lt_irrefl _ (index_lt_of_transGen ascending reached cyclic)

end Ascending

namespace IsEntered

theorem nil (arena : Arena) : arena.IsEntered [] :=
  ⟨List.nodup_nil, by simp⟩

theorem cons {word body : Text} {handle : Handle} (entered : arena.IsEntered visiting)
    (found : arena.liveBody? visiting word = some (handle, body)) :
    arena.IsEntered (handle :: visiting) := by
  obtain ⟨-, idle, live⟩ := liveBody?_eq_some_iff.1 found
  refine ⟨List.nodup_cons.2 ⟨idle, entered.distinct⟩, fun other mem => ?_⟩
  rcases List.mem_cons.1 mem with rfl | mem
  · exact isLive_eq_true_iff.2 ⟨body, live⟩
  · exact entered.live other mem

theorem length_le_size (entered : arena.IsEntered visiting) :
    visiting.length ≤ arena.slots.size := by
  have distinct : (visiting.map Handle.index).Nodup :=
    List.Nodup.map Handle.index_injective entered.distinct
  have inside : visiting.map Handle.index ⊆ List.range arena.slots.size := by
    intro index mem
    obtain ⟨handle, member, rfl⟩ := List.mem_map.1 mem
    have live := entered.live handle member
    rw [isLive, decide_eq_true_eq] at live
    exact List.mem_range.2 live
  have bound := (distinct.subperm inside).length_le
  rwa [List.length_map, List.length_range] at bound

end IsEntered

/-- With as many levels as there are slots left to enter, the bound is never met. -/
theorem expands_expandWithin {levels : Nat} (entered : arena.IsEntered visiting)
    (enough : arena.slots.size ≤ levels + visiting.length) {list : List Text}
    (all : ∀ word ∈ list, IsWord word) :
    ∃ depth ≤ levels,
      arena.Expands visiting list (list.map (arena.expandWithin levels visiting)) depth := by
  induction levels generalizing visiting list with
  | zero =>
    refine ⟨0, Nat.le_refl 0, ?_⟩
    induction list with
    | nil => exact .nil
    | cons word rest ih =>
      have isWord := all word List.mem_cons_self
      have later := ih fun other mem => all other (List.mem_cons_of_mem word mem)
      -- All slots are being expanded, so no word can enter another one.
      have kept : arena.liveBody? visiting word = none := by
        by_contra found
        obtain ⟨⟨handle, body⟩, found⟩ := Option.ne_none_iff_exists'.1 found
        have bound := (entered.cons found).length_le_size
        rw [List.length_cons] at bound
        omega
      rw [List.map_cons, expandWithin_kept isWord kept]
      exact .keep kept later
  | succ levels deeper =>
    induction list with
    | nil => exact ⟨0, Nat.zero_le _, .nil⟩
    | cons word rest ih =>
      have isWord := all word List.mem_cons_self
      obtain ⟨depth, bound, later⟩ := ih fun other mem => all other (List.mem_cons_of_mem word mem)
      cases found : arena.liveBody? visiting word with
      | none =>
        rw [List.map_cons, expandWithin_kept isWord found]
        exact ⟨depth, bound, .keep found later⟩
      | some entry =>
        obtain ⟨handle, body⟩ := entry
        have room : arena.slots.size ≤ levels + (handle :: visiting).length := by
          rw [List.length_cons]
          omega
        obtain ⟨below, nested, inside⟩ :=
          deeper (entered.cons found) room fun _ => @isWord_of_mem_words body _
        rw [List.map_cons, expandWithin_entered isWord found, expandWithin_eq_unwords]
        exact ⟨_, by omega, .enter found inside later⟩

theorem expand_eq_unwords (arena : Arena) (text : Text) :
    ∃ pieces, ∃ depth ≤ arena.slots.size, arena.Expands [] (words text) pieces depth ∧
      arena.expand text = unwords pieces := by
  obtain ⟨depth, bound, expands⟩ := expands_expandWithin (IsEntered.nil arena)
    (Nat.le_refl arena.slots.size) fun _ => @isWord_of_mem_words text _
  exact ⟨_, depth, bound, expands, expandWithin_eq_unwords arena _ [] text⟩

namespace Expands

variable {list pieces : List Text} {depth : Nat}

theorem unique (expands : arena.Expands visiting list pieces depth) {others : List Text}
    {other : Nat} (again : arena.Expands visiting list others other) :
    others = pieces ∧ other = depth := by
  induction expands generalizing others other with
  | nil =>
    cases again
    exact ⟨rfl, rfl⟩
  | keep kept _ ih =>
    cases again with
    | keep _ later =>
      obtain ⟨rfl, rfl⟩ := ih later
      exact ⟨rfl, rfl⟩
    | enter found =>
      rw [kept] at found
      cases found
  | enter found _ _ inner outer =>
    cases again with
    | keep kept =>
      rw [kept] at found
      cases found
    | enter refound inside later =>
      rw [found] at refound
      cases refound
      obtain ⟨rfl, rfl⟩ := inner inside
      obtain ⟨rfl, rfl⟩ := outer later
      exact ⟨rfl, rfl⟩

theorem transport (expands : arena.Expands visiting list pieces depth) {others : List Handle}
    (same : ∀ handle, arena.Reaches list handle → (handle ∈ others ↔ handle ∈ visiting)) :
    arena.Expands others list pieces depth := by
  induction expands generalizing others with
  | nil => exact .nil
  | @keep visiting word rest pieces depth kept _ ih =>
    have later := fun handle reached =>
      same handle (Reaches.mono reached fun _ => List.mem_cons_of_mem word)
    refine .keep (liveBody?_eq_none_iff.2 fun handle named => ?_) (ih later)
    rw [same handle (reaches_of_mem List.mem_cons_self named)]
    exact liveBody?_eq_none_iff.1 kept handle named
  | @enter visiting word body handle rest inner pieces below depth found _ _ inside ih =>
    obtain ⟨named, idle, live⟩ := liveBody?_eq_some_iff.1 found
    have later := fun other reached =>
      same other (Reaches.mono reached fun _ => List.mem_cons_of_mem word)
    have refound : arena.liveBody? others word = some (handle, body) := by
      rw [← same handle (reaches_of_mem List.mem_cons_self named)] at idle
      exact liveBody?_eq_some_iff.2 ⟨named, idle, live⟩
    refine .enter refound (inside fun other reached => ?_) (ih later)
    rw [List.mem_cons, List.mem_cons,
      same other (reached.through ⟨word, List.mem_cons_self, named⟩ live)]

theorem of_mem (expands : arena.Expands visiting list pieces depth) {piece : Text}
    (mem : piece ∈ pieces) :
    ∃ word ∈ list, (piece = word ∧ arena.liveBody? visiting word = none) ∨
      ∃ handle body inner below, arena.liveBody? visiting word = some (handle, body) ∧
        below < depth ∧ arena.Expands (handle :: visiting) (words body) inner below ∧
        piece = unwords inner := by
  induction expands with
  | nil => cases mem
  | @keep visiting word rest pieces depth kept _ ih =>
    rcases List.mem_cons.1 mem with rfl | mem
    · exact ⟨piece, List.mem_cons_self, .inl ⟨rfl, kept⟩⟩
    · obtain ⟨other, member, source⟩ := ih mem
      exact ⟨other, List.mem_cons_of_mem word member, source⟩
  | @enter visiting word body handle rest inner pieces below depth found inside _ _ ih =>
    rcases List.mem_cons.1 mem with rfl | mem
    · exact ⟨word, List.mem_cons_self,
        .inr ⟨handle, body, inner, below, found, by omega, inside, rfl⟩⟩
    · obtain ⟨other, member, source⟩ := ih mem
      obtain ⟨same, kept⟩ | ⟨own, text, parts, level, entry, lower, nested, joined⟩ := source
      · exact ⟨other, List.mem_cons_of_mem word member, .inl ⟨same, kept⟩⟩
      · exact ⟨other, List.mem_cons_of_mem word member,
          .inr ⟨own, text, parts, level, entry, by omega, nested, joined⟩⟩

theorem eq_nil (expands : arena.Expands visiting list [] depth) : list = [] := by
  cases expands
  rfl

/-- The handles that are left are reached from the words. Each of them has no slot, or is
named within its own expansion: `behind` says that the slots being expanded lead to
all that the words name. -/
theorem leftover (expands : arena.Expands visiting list pieces depth)
    (all : ∀ word ∈ list, IsWord word)
    (behind : ∀ handle ∈ visiting, ∀ other, Mentions list other →
      TransGen arena.RefersTo handle other)
    {piece word : Text} {handle : Handle} (mem : piece ∈ pieces) (left : word ∈ words piece)
    (named : Handle.read? word = some handle) :
    arena.Reaches list handle ∧ (arena.isLive handle = false ∨ arena.IsCyclic handle) := by
  induction depth using Nat.strongRecOn generalizing visiting list pieces piece with
  | ind depth ih =>
    obtain ⟨first, member, ⟨rfl, kept⟩ | ⟨own, body, inner, below, found, lower, inside, rfl⟩⟩ :=
      expands.of_mem mem
    · rw [words_of_isWord (all piece member), List.mem_singleton] at left
      rw [left] at named
      have mentioned : Mentions list handle := ⟨piece, member, named⟩
      refine ⟨reaches_of_mem member named, ?_⟩
      rcases liveBody?_eq_none_iff.1 kept handle named with busy | dangling
      · exact .inr (behind handle busy handle mentioned)
      · exact .inl (isLive_eq_false_iff.2 dangling)
    · obtain ⟨names, -, live⟩ := liveBody?_eq_some_iff.1 found
      have mentioned : Mentions list own := ⟨first, member, names⟩
      -- The slot just entered leads to all that its body names, and so do those around it.
      have onward : ∀ entered ∈ own :: visiting, ∀ other, Mentions (words body) other →
          TransGen arena.RefersTo entered other := by
        intro entered busy other inBody
        have step : arena.RefersTo own other := ⟨body, live, inBody⟩
        rcases List.mem_cons.1 busy with rfl | busy
        · exact .single step
        · exact (behind entered busy own mentioned).tail step
      rw [words_unwords_eq_flatMap] at left
      obtain ⟨part, within, left⟩ := List.mem_flatMap.1 left
      obtain ⟨reached, ends⟩ :=
        ih below lower inside (fun _ => isWord_of_mem_words) onward within left
      exact ⟨reached.through mentioned live, ends⟩

theorem isJoined (expands : arena.Expands visiting list pieces depth) (filled : arena.IsFilled)
    (all : ∀ word ∈ list, IsWord word) {piece : Text} (mem : piece ∈ pieces) :
    IsJoined piece := by
  induction depth using Nat.strongRecOn generalizing visiting list pieces piece with
  | ind depth ih =>
    obtain ⟨first, member, ⟨rfl, -⟩ | ⟨own, body, inner, below, found, lower, inside, rfl⟩⟩ :=
      expands.of_mem mem
    · exact isJoined_of_isWord (all piece member)
    · obtain ⟨-, -, live⟩ := liveBody?_eq_some_iff.1 found
      obtain ⟨c, inBody, solid⟩ := filled body (Array.mem_of_getElem? live)
      have some : inner ≠ [] := by
        rintro rfl
        exact words_ne_nil inBody solid inside.eq_nil
      exact isJoined_unwords some fun part => ih below lower inside fun _ => isWord_of_mem_words

end Expands

/-- Slots being expanded that the text does not lead to make no difference. -/
theorem expandWithin_eq_expand {levels : Nat} (entered : arena.IsEntered visiting)
    (enough : arena.slots.size ≤ levels + visiting.length) {text : Text}
    (away : ∀ handle ∈ visiting, ¬ arena.Reaches (words text) handle) :
    arena.expandWithin levels visiting text = arena.expand text := by
  obtain ⟨depth, -, inside⟩ := expands_expandWithin entered enough
    fun _ => @isWord_of_mem_words text _
  obtain ⟨pieces, other, -, outside, same⟩ := expand_eq_unwords arena text
  have moved : arena.Expands [] (words text) _ depth := inside.transport fun handle reached =>
    ⟨fun mem => absurd mem List.not_mem_nil, fun mem => absurd reached (away handle mem)⟩
  rw [same, expandWithin_eq_unwords, (outside.unique moved).1]

theorem leftover_expand {text word : Text} {handle : Handle}
    (left : word ∈ words (arena.expand text)) (named : Handle.read? word = some handle) :
    arena.Reaches (words text) handle ∧
      (arena.isLive handle = false ∨ arena.IsCyclic handle) := by
  obtain ⟨pieces, depth, -, expands, same⟩ := expand_eq_unwords arena text
  rw [same, words_unwords_eq_flatMap] at left
  obtain ⟨piece, mem, left⟩ := List.mem_flatMap.1 left
  exact expands.leftover (fun _ => isWord_of_mem_words) (by simp) mem left named

theorem unwords_words_expand (filled : arena.IsFilled) (text : Text) :
    unwords (words (arena.expand text)) = arena.expand text := by
  obtain ⟨pieces, depth, -, expands, same⟩ := expand_eq_unwords arena text
  rw [same]
  exact unwords_words_unwords fun piece => expands.isJoined filled fun _ => isWord_of_mem_words

theorem expand_of_dangling {text : Text}
    (dangling : ∀ handle, Mentions (words text) handle → arena.isLive handle = false) :
    arena.expand text = unwords (words text) := by
  have same : ∀ word ∈ words text, arena.expandWithin arena.slots.size [] word = word := by
    intro word mem
    apply expandWithin_kept (isWord_of_mem_words mem)
    rw [liveBody?_eq_none_iff]
    intro handle named
    exact .inr (isLive_eq_false_iff.1 (dangling handle ⟨word, mem, named⟩))
  rw [expand, expandWithin_eq_unwords, List.map_congr_left same, List.map_id']

/-- Expansion ends, with the slots nested no deeper than there are slots. The handles it
leaves have no slot or lead back to themselves; and if no such cycle is reached and no
slot is blank, it leaves nothing to expand. -/
theorem expand_resolves_references (arena : Arena) (text : Text) :
    (∃ pieces, ∃ depth ≤ arena.slots.size, arena.Expands [] (words text) pieces depth ∧
      arena.expand text = unwords pieces ∧
      ∀ others other, arena.Expands [] (words text) others other →
        others = pieces ∧ other = depth) ∧
    (∀ word ∈ words (arena.expand text), ∀ handle, Handle.read? word = some handle →
      arena.isLive handle = false ∨ arena.isLive handle = true ∧ arena.IsCyclic handle) ∧
    (arena.IsFilled →
      (∀ handle, arena.Reaches (words text) handle → ¬ arena.IsCyclic handle) →
      arena.expand (arena.expand text) = arena.expand text) := by
  refine ⟨?_, fun word left handle named => ?_, fun filled acyclic => ?_⟩
  · obtain ⟨pieces, depth, bound, expands, same⟩ := expand_eq_unwords arena text
    exact ⟨pieces, depth, bound, expands, same, fun _ _ again => expands.unique again⟩
  · exact (leftover_expand left named).2.imp_right fun cyclic => ⟨cyclic.isLive, cyclic⟩
  · rw [expand_of_dangling, unwords_words_expand filled]
    rintro handle ⟨word, left, named⟩
    obtain ⟨reached, ends⟩ := leftover_expand left named
    exact ends.resolve_right (acyclic handle reached)

theorem expand_resolves_references_spelled :
    ∃ arena : Arena, arena.expand "&1".toList = "[ &01 [ x &9 ] ]".toList ∧
      (∃ handle, arena.IsCyclic handle) ∧ arena.IsFilled ∧
      (∀ handle, arena.Reaches (words "&02  y".toList) handle → ¬ arena.IsCyclic handle) ∧
      arena.expand "&02  y".toList = "[ x &9 ] y".toList ∧
      arena.expand (arena.expand "&02  y".toList) = arena.expand "&02  y".toList := by
  let arena : Arena := ⟨#["[ &01 &2 ]".toList, "[ x &9 ]".toList]⟩
  let first : Handle := ⟨1, by decide, by decide⟩
  have cyclic : arena.IsCyclic first :=
    .single ⟨"[ &01 &2 ]".toList, rfl, "&01".toList, by decide, by decide⟩
  have filled : arena.IsFilled := by
    intro slot mem
    have bracket : '[' ∈ slot := by
      revert slot
      decide
    exact ⟨'[', bracket, by decide⟩
  have ascending : ∀ place body, 1 ≤ place → arena.slots[place]? = some body →
      ∀ other, Mentions (words body) other → place < other.index := by
    have later : ∀ place : Fin 2, 1 ≤ place.val → ∀ word ∈ words arena.slots[place],
        ∀ other ∈ Handle.read? word, place < other.index := by
      decide
    rintro place body past found other ⟨word, mem, named⟩
    obtain ⟨inside, rfl⟩ := Array.getElem?_eq_some_iff.1 found
    exact later ⟨place, inside⟩ past word mem other named
  have acyclic : ∀ handle, arena.Reaches (words "&02  y".toList) handle →
      ¬ arena.IsCyclic handle := by
    rintro handle ⟨start, ⟨word, mem, named⟩, path⟩
    have second : ∀ word ∈ words "&02  y".toList, ∀ handle ∈ Handle.read? word,
        1 ≤ handle.index := by
      decide
    exact not_isCyclic_of_ascending ascending (second word mem start named) path
  exact ⟨arena, by decide, ⟨first, cyclic⟩, filled, acyclic, by decide,
    (expand_resolves_references arena _).2.2 filled acyclic⟩

end Arena

end Concatenative
