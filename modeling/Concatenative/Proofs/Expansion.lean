import Concatenative.Arena
import Concatenative.Proofs.Words

/-!
Expanding references. A text is expanded word by word, and a list in canonical form
element by element: what an element expands to does not depend on where it stands.
-/

namespace Concatenative

open Text ListText

theorem Handle.isWord_toText (handle : Handle) : IsWord handle.toText := by
  refine ⟨List.cons_ne_nil _ _, fun c mem => ?_⟩
  rcases List.mem_cons.1 mem with rfl | mem
  · decide
  · exact not_isBlank_of_isDigit (Decimal.isDigit_of_mem_write mem)

namespace Arena

theorem liveBody?_eq_none_iff {arena : Arena} {visiting : List Handle} {word : Text} :
    arena.liveBody? visiting word = none ↔
      ∀ handle, Handle.read? word = some handle →
        handle ∈ visiting ∨ arena.get? handle = none := by
  unfold liveBody?
  cases Handle.read? word with
  | none => simp
  | some handle =>
    by_cases busy : handle ∈ visiting
    · simp [busy]
    · simp [busy]

theorem liveBody?_eq_some_iff {arena : Arena} {visiting : List Handle} {word body : Text}
    {handle : Handle} :
    arena.liveBody? visiting word = some (handle, body) ↔
      Handle.read? word = some handle ∧ handle ∉ visiting ∧ arena.get? handle = some body := by
  unfold liveBody?
  cases Handle.read? word with
  | none => simp
  | some other =>
    by_cases busy : other ∈ visiting
    · simp only [busy, if_true, Option.some.injEq, reduceCtorEq, false_iff]
      rintro ⟨rfl, idle, -⟩
      exact idle busy
    · simp only [busy, if_false, Option.map_eq_some_iff, Prod.mk.injEq, Option.some.injEq]
      constructor
      · rintro ⟨_, live, rfl, rfl⟩
        exact ⟨rfl, busy, live⟩
      · rintro ⟨rfl, -, live⟩
        exact ⟨body, live, rfl, rfl⟩

theorem expandWithin_kept {arena : Arena} {visiting : List Handle} {word : Text}
    (isWord : IsWord word) (kept : arena.liveBody? visiting word = none) (levels : Nat) :
    arena.expandWithin levels visiting word = word := by
  cases levels with
  | zero =>
    rw [expandWithin, words_of_isWord isWord]
    rfl
  | succ levels =>
    rw [expandWithin, words_of_isWord isWord, List.map_singleton, kept]
    rfl

theorem expandWithin_entered {arena : Arena} {visiting : List Handle} {word body : Text}
    {handle : Handle} (isWord : IsWord word)
    (found : arena.liveBody? visiting word = some (handle, body)) (levels : Nat) :
    arena.expandWithin (levels + 1) visiting word =
      arena.expandWithin levels (handle :: visiting) body := by
  rw [expandWithin, words_of_isWord isWord, List.map_singleton, found]
  rfl

theorem expandWithin_unnamed {word : Text} (isWord : IsWord word)
    (unnamed : Handle.read? word = none) (arena : Arena) (levels : Nat)
    (visiting : List Handle) : arena.expandWithin levels visiting word = word := by
  apply expandWithin_kept isWord
  rw [liveBody?_eq_none_iff, unnamed]
  simp

theorem expandWithin_named {arena : Arena} {word body : Text} {handle : Handle}
    (isWord : IsWord word) (named : Handle.read? word = some handle)
    (live : arena.get? handle = some body) {visiting : List Handle}
    (idle : handle ∉ visiting) (levels : Nat) :
    arena.expandWithin (levels + 1) visiting word =
      arena.expandWithin levels (handle :: visiting) body :=
  expandWithin_entered isWord (liveBody?_eq_some_iff.2 ⟨named, idle, live⟩) levels

section

variable (arena : Arena) (levels : Nat) (visiting : List Handle)

theorem expandWithin_eq_unwords (text : Text) :
    arena.expandWithin levels visiting text =
      unwords ((words text).map (arena.expandWithin levels visiting)) := by
  cases levels with
  | zero =>
    have same : ∀ word ∈ words text, arena.expandWithin 0 visiting word = word := by
      intro word mem
      rw [expandWithin, words_of_isWord (isWord_of_mem_words mem)]
      rfl
    rw [expandWithin, List.map_congr_left same, List.map_id']
  | succ levels =>
    rw [expandWithin]
    congr 1
    apply List.map_congr_left
    intro word mem
    rw [expandWithin, words_of_isWord (isWord_of_mem_words mem)]
    rfl

theorem expandWithin_render {elements : List Text}
    (filled : ∀ element ∈ elements, words element ≠ []) :
    arena.expandWithin levels visiting (render elements) =
      render (elements.map (arena.expandWithin levels visiting)) := by
  have keepsOpening : arena.expandWithin levels visiting opening = opening :=
    expandWithin_unnamed (by decide) rfl arena levels visiting
  have keepsClosing : arena.expandWithin levels visiting closing = closing :=
    expandWithin_unnamed (by decide) rfl arena levels visiting
  rw [expandWithin_eq_unwords, unwords_map_words_render keepsOpening keepsClosing filled]
  simp only [← expandWithin_eq_unwords]

end

end Arena

end Concatenative
