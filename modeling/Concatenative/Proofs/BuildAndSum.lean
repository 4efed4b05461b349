import Concatenative.Programs
import Concatenative.Proofs.Concatenation
import Concatenative.Proofs.ListLoops
import Concatenative.Proofs.Minting

/-!
Building a list and adding it up, from the source to what is shown. A source is read as the nodes
that its words spell, its blocks go into new slots, and its tokens run with the loops over the list
in its slot. The programs are right for every size for which their numbers stay in range.
-/

namespace Concatenative

open Text ListText Library

theorem Machine.RunsTo.append {environment : Environment} {rounds levels : Nat}
    {first second last : Machine} {front back : List Text}
    (one : RunsTo environment rounds levels front first second)
    (rest : RunsTo environment rounds levels back second last) :
    RunsTo environment rounds levels (front ++ back) first last := by
  intro depth room
  rw [steps_append, one depth room]
  exact rest depth room

theorem Arena.expand_of_empty {arena : Arena} {handle : Handle}
    (live : arena.get? handle = some (render [])) :
    arena.expand handle.toText = render [] := by
  have found : arena.liveBody? [] handle.toText = some (handle, render []) :=
    liveBody?_eq_some_iff.2 ⟨handle.read?_toText, List.not_mem_nil, live⟩
  obtain ⟨levels, size⟩ : ∃ levels, arena.slots.size = levels + 1 := by
    obtain ⟨inBounds, -⟩ := Array.getElem?_eq_some_iff.1 live
    exact ⟨arena.slots.size - 1, by omega⟩
  rw [expand, size, expandWithin_entered handle.isWord_toText found,
    expandWithin_render _ _ _ (List.forall_mem_nil _), List.map_nil]

namespace Node

/-- The words of the text are those of the nodes. -/
def Spells (text : Text) (items : List Node) : Prop :=
  (∀ item ∈ items, item.Regular) ∧ words text = (renderAll items).flatMap words

namespace Spells

variable {first second : Text} {front back : List Node}

theorem read (spells : Spells first front) : Node.read first = front :=
  read_of_words_eq spells.1 spells.2

theorem append (spellsFirst : Spells first front) (spellsSecond : Spells second back) :
    Spells (first ++ ' ' :: second) (front ++ back) := by
  refine ⟨List.forall_mem_append.2 ⟨spellsFirst.1, spellsSecond.1⟩, ?_⟩
  rw [words_append_space, spellsFirst.2, spellsSecond.2, renderAll_eq_map, renderAll_eq_map,
    renderAll_eq_map, List.map_append, List.flatMap_append]

end Spells

section

variable {list : List Text} (plain : ∀ word ∈ list, IsWord word ∧ IsAtom word)

include plain

theorem regular_of_mem_atoms : ∀ item ∈ list.map atom, item.Regular := by
  rw [List.forall_mem_map]
  exact fun word mem => .atom (plain word mem).1 (plain word mem).2

theorem spells_atoms : Spells (unwords list) (list.map atom) := by
  refine ⟨regular_of_mem_atoms plain, ?_⟩
  rw [words_unwords_eq_flatMap, renderAll_atoms]

end

theorem spells_block {items : List Node} (all : ∀ item ∈ items, item.Regular) :
    Spells (ListText.render (renderAll items)) [block items] := by
  refine ⟨List.forall_mem_singleton.2 (.block all), ?_⟩
  rw [renderAll, renderAll, List.flatMap_singleton, render]

theorem mintAll_append (arena : Arena) (front back : List Node) :
    mintAll arena (front ++ back) =
      ((mintAll arena front).1 ++ (mintAll (mintAll arena front).2 back).1,
        (mintAll (mintAll arena front).2 back).2) := by
  induction front generalizing arena with
  | nil => rfl
  | cons node front ih =>
    rw [List.cons_append, mintAll_cons, ih, mintAll_cons, List.cons_append]

end Node

namespace Programs

def sumBody : Node :=
  .block ((["dup", "size", "0", ">"].map String.toList).map .atom ++
    [.block (takeTokens.map .atom), .block (["f".toList].map .atom), .atom "if".toList])

def loopText : Text :=
  "[ dup size 0 > [ 0 swap remove r> + >r t ] [ f ] if ] loop r>".toList

def sumOf (elements : List Text) : Text :=
  "0 >r ".toList ++ render elements ++ ' ' :: loopText

/-- The bodies of the loop go into three new slots, apart from all that were there before. -/
theorem exists_mint_sumBody {arena : Arena} (room : arena.slots.size + 3 < Decimal.wordBound) :
    ∃ test take stop after, Node.mint arena sumBody = (test.toText, after) ∧
      ∀ handle old, arena.get? handle = some old →
        after.get? handle = some old ∧ Machine.HoldsLoop after handle test take stop := by
  -- The two branches are minted before the test that names them.
  let one := (arena.mint (render takeTokens)).2
  let two := (one.mint (render ["f".toList])).2
  let body := render (testTokens arena.nextHandle.toText one.nextHandle.toText)
  have roomTake : arena.HasRoom := by
    unfold Arena.HasRoom
    omega
  have roomStop : one.HasRoom := by
    simp only [Arena.HasRoom, one, Arena.slots_mint, Array.size_push]
    omega
  have roomTest : two.HasRoom := by
    simp only [Arena.HasRoom, two, one, Arena.slots_mint, Array.size_push]
    omega
  refine ⟨two.nextHandle, arena.nextHandle, one.nextHandle, (two.mint body).2, rfl, ?_⟩
  intro handle old live
  have liveOne : one.get? handle = some old := Arena.get?_mint_of_get? live _
  have liveTwo : two.get? handle = some old := Arena.get?_mint_of_get? liveOne _
  have take : two.get? arena.nextHandle = some (render takeTokens) :=
    Arena.get?_mint_of_get? (roomTake.get?_mint_nextHandle _) _
  have stop : two.get? one.nextHandle = some (render ["f".toList]) :=
    roomStop.get?_mint_nextHandle _
  refine ⟨Arena.get?_mint_of_get? liveTwo _, ?_, roomTest.get?_mint_nextHandle _,
    Arena.get?_mint_of_get? take _, Arena.get?_mint_of_get? stop _⟩
  simp only [List.forall_mem_cons]
  exact ⟨roomTest.ne_nextHandle liveTwo, roomTake.ne_nextHandle live,
    roomStop.ne_nextHandle liveOne, List.forall_mem_nil _⟩

def startNodes : List Node := (["0", ">r"].map String.toList).map .atom

def loopNodes : List Node := [sumBody] ++ (["loop", "r>"].map String.toList).map .atom

def buildNodes (size : Nat) : List Node :=
  [.block []] ++ ([.block (growTokens.map .atom)] ++
    [Decimal.write size, "rep".toList].map .atom)

theorem spells_start : Node.Spells "0 >r".toList startNodes :=
  Node.spells_atoms (by decide)

theorem spells_loop : Node.Spells loopText loopNodes := by
  have bodies : ∀ item ∈ [Node.block (takeTokens.map .atom), .block (["f".toList].map .atom),
      .atom "if".toList], item.Regular := by
    simp only [List.forall_mem_cons]
    exact ⟨.block (Node.regular_of_mem_atoms (by decide)),
      .block (Node.regular_of_mem_atoms (by decide)), .atom (by decide) (by decide),
      List.forall_mem_nil _⟩
  have body : Node.Spells sumBody.render [sumBody] := Node.spells_block (List.forall_mem_append.2
    ⟨Node.regular_of_mem_atoms (by decide), bodies⟩)
  have parts : loopText =
      sumBody.render ++ ' ' :: unwords (["loop", "r>"].map String.toList) := by
    decide +kernel
  rw [parts]
  exact body.append (Node.spells_atoms (by decide))

theorem spells_sumList : Node.Spells sumList (startNodes ++ loopNodes) := by
  have parts : sumList = "0 >r".toList ++ ' ' :: loopText := by decide +kernel
  rw [parts]
  exact spells_start.append spells_loop

theorem spells_sumOf {elements : List Text}
    (plain : ∀ element ∈ elements, IsWord element ∧ Node.IsAtom element) :
    Node.Spells (sumOf elements) (startNodes ++ ([.block (elements.map .atom)] ++ loopNodes)) := by
  have list : Node.Spells (render elements) [.block (elements.map .atom)] := by
    have spells := Node.spells_block (Node.regular_of_mem_atoms plain)
    rwa [Node.renderAll_atoms] at spells
  have parts : sumOf elements = "0 >r".toList ++ ' ' :: (render elements ++ ' ' :: loopText) :=
    List.append_assoc _ _ _
  rw [parts]
  exact spells_start.append (list.append spells_loop)

theorem spells_buildList {size : Nat} (countable : Integer.InRange size) :
    Node.Spells (buildList size) (buildNodes size) := by
  have read : Integer.read? (Decimal.write size) = some (size : Int) :=
    Integer.read?_write countable
  have plain : ∀ word ∈ [Decimal.write size, "rep".toList], IsWord word ∧ Node.IsAtom word := by
    simp only [List.forall_mem_cons]
    exact ⟨⟨Integer.isWord_of_read? read, Integer.isAtom_of_read? read⟩, by decide,
      List.forall_mem_nil _⟩
  have parts : buildList size = render [] ++ ' ' :: (render growTokens ++ ' ' ::
      unwords [Decimal.write size, "rep".toList]) := by
    unfold buildList
    generalize Decimal.write size = count
    exact List.append_assoc _ _ _
  rw [parts]
  exact (Node.spells_block (List.forall_mem_nil _)).append
    ((Node.spells_block (Node.regular_of_mem_atoms (by decide))).append (Node.spells_atoms plain))

open Machine

section

variable (loader : Loader) (arena : Arena)

theorem keepsWords_fresh :
    ({ arena } : Machine).KeepsWords { context := dictionary, loader } vocabulary :=
  keepsWords_of_entries rfl (List.forall_mem_nil _)

theorem isLiteral_fresh (handle : Handle) :
    ({ arena } : Machine).IsLiteral { context := dictionary, loader } handle.toText :=
  isLiteral_toText rfl handle rfl

end

theorem evaluate_fresh {loader : Loader} {rounds levels : Nat} {source : Text}
    {tokens : List Text} {after : Arena} {last : Machine}
    (minted : parseMinting {} source = (tokens, after))
    (runs : RunsTo { context := dictionary, loader } rounds levels tokens { arena := after } last)
    (level : last.depth = 0) (room : levels < 256) :
    ({} : Machine).evaluate { context := dictionary, loader } rounds source = .ok last := by
  have inside : ({ arena := after } : Machine).depth + levels < 256 := by
    rw [Nat.zero_add]
    exact room
  rw [evaluate, runSource, minted]
  exact runs.run_eq level inside

theorem hasRoom_empty : ({} : Arena).HasRoom := by
  unfold Arena.HasRoom
  decide

theorem mintAll_start (arena : Arena) (later : List Node) :
    Node.mintAll arena (startNodes ++ later) =
      (["0".toList, ">r".toList] ++ (Node.mintAll arena later).1,
        (Node.mintAll arena later).2) := by
  rw [startNodes, Node.mintAll_append, Node.mintAll_atoms]
  rfl

theorem mintAll_loop {arena after : Arena} {test : Text}
    (minted : Node.mint arena sumBody = (test, after)) :
    Node.mintAll arena loopNodes = ([test, "loop".toList, "r>".toList], after) := by
  rw [loopNodes, List.singleton_append, Node.mintAll_cons, minted, Node.mintAll_atoms]
  rfl

def listHandle : Handle := ({} : Arena).nextHandle

def growHandle : Handle := (({} : Arena).mint (render [])).2.nextHandle

def built : Arena := ((({} : Arena).mint (render [])).2.mint (render growTokens)).2

theorem mintAll_build (size : Nat) :
    Node.mintAll {} (buildNodes size) =
      ([listHandle.toText, growHandle.toText, Decimal.write size, "rep".toList], built) := rfl

theorem get?_built : built.get? listHandle = some (render []) ∧
    built.get? growHandle = some (render growTokens) ∧ listHandle ≠ growHandle := by
  have room : (({} : Arena).mint (render [])).2.HasRoom := by
    unfold Arena.HasRoom
    decide
  have list : (({} : Arena).mint (render [])).2.get? listHandle = some (render []) :=
    hasRoom_empty.get?_mint_nextHandle _
  exact ⟨Arena.get?_mint_of_get? list _, room.get?_mint_nextHandle _, room.ne_nextHandle list⟩

theorem evaluate_buildList (loader : Loader) (rounds : Nat) {size : Nat}
    (countable : Integer.InRange size) :
    ∃ machine : Machine, ∃ handle : Handle,
      ({} : Machine).evaluate { context := dictionary, loader } rounds (buildList size) =
        .ok machine ∧
      machine.main = [handle.toText] ∧
      ListOp.Resolves machine.arena handle.toText (.slot handle) (numerals size) := by
  obtain ⟨empty, live, apart⟩ := get?_built
  have read : Integer.read? (Decimal.write size) = some (size : Int) :=
    Integer.read?_write countable
  have minted : parseMinting {} (buildList size) =
      ([listHandle.toText, growHandle.toText, Decimal.write size, "rep".toList], built) := by
    rw [parseMinting, (spells_buildList countable).read, mintAll_build]
  have runs : RunsTo { context := dictionary, loader } rounds 2 _ { arena := built } _ :=
    runsTo_build (keepsWords_fresh loader built) (isLiteral_fresh loader built) apart empty live
      read []
  exact ⟨_, listHandle, evaluate_fresh minted runs rfl (by decide), rfl,
    ListOp.resolves_set empty (isElement_numerals countable)⟩

theorem evaluate_sumOf (loader : Loader) {elements : List Text} {numbers : List Int}
    (reads : elements.map Integer.read? = numbers.map some)
    (sums : ∀ count, Integer.InRange (numbers.take count).sum)
    (countable : Integer.InRange elements.length) {rounds : Nat}
    (within : elements.length < rounds) :
    ∃ machine : Machine, ∃ handle : Handle,
      ({} : Machine).evaluate { context := dictionary, loader } rounds (sumOf elements) =
        .ok machine ∧
      machine.main = [Integer.write numbers.sum, handle.toText] ∧ machine.retain = [] ∧
      (parseMinting {} (sumOf elements)).2.get? handle = some (render elements) ∧
      machine.arena.get? handle = some (render []) := by
  let listed := (({} : Arena).mint (render elements)).2
  have adds : AddsUp 0 elements numbers.sum := by
    have running := AddsUp.of_running_sums reads fun count => by
      rw [Int.zero_add]
      exact sums count
    rwa [Int.zero_add] at running
  have plain : ∀ element ∈ elements, IsWord element ∧ Node.IsAtom element := by
    intro element mem
    obtain ⟨number, read⟩ := adds.exists_read? element mem
    exact ⟨Integer.isWord_of_read? read, Integer.isAtom_of_read? read⟩
  have room : listed.slots.size + 3 < Decimal.wordBound := by
    simp [listed, Decimal.wordBound]
  obtain ⟨test, take, stop, after, mintedBody, apart⟩ := exists_mint_sumBody room
  obtain ⟨live, holds⟩ := apart listHandle _ (hasRoom_empty.get?_mint_nextHandle _)
  have minted : parseMinting {} (sumOf elements) =
      (["0".toList, ">r".toList] ++
        listHandle.toText :: [test.toText, "loop".toList, "r>".toList], after) := by
    have list : Node.mint {} (.block (elements.map .atom)) = (listHandle.toText, listed) := by
      rw [Node.mint_block, Node.mintAll_atoms]
      rfl
    rw [parseMinting, (spells_sumOf plain).read, mintAll_start, List.singleton_append,
      Node.mintAll_cons, list, mintAll_loop mintedBody]
  have keeps := keepsWords_fresh loader after
  have literals := isLiteral_fresh loader after
  let started : Machine := { arena := after, retain := ["0".toList] }
  have pushed : started.IsLiteral { context := dictionary, loader } listHandle.toText :=
    literals listHandle
  have adding : RunsTo { context := dictionary, loader } rounds 3 _ _ _ :=
    runsTo_total keeps literals holds live adds countable within []
  rw [Arena.set_of_get? live] at adding
  have runs := (runsTo_zero keeps []).append (RunsTo.cons (runsTo_literal pushed []) adding)
  refine ⟨_, listHandle, evaluate_fresh minted runs rfl (by decide), rfl, rfl, ?_, ?_⟩
  · rw [minted]
    exact live
  · exact Arena.get?_set_self live _

theorem inRange_of_half_product {size : Nat}
    (fits : Integer.InRange (size * (size - 1) / 2 : Nat)) : Integer.InRange size := by
  have grows : 3 ≤ size → size ≤ size * (size - 1) / 2 := by
    intro large
    rw [Nat.le_div_iff_mul_le (by decide)]
    exact Nat.mul_le_mul_left size (by omega)
  unfold Integer.InRange at fits ⊢
  omega

theorem evaluate_listSum (loader : Loader) {size rounds : Nat}
    (fits : Integer.InRange (size * (size - 1) / 2 : Nat)) (within : size < rounds) :
    ∃ arena : Arena, arena.get? listHandle = some (render []) ∧
      ({} : Machine).evaluate { context := dictionary, loader } rounds
          (buildList size ++ ' ' :: sumList) =
        .ok { main := [Decimal.write (size * (size - 1) / 2), listHandle.toText], arena } := by
  have countable : Integer.InRange size := inRange_of_half_product fits
  have read : Integer.read? (Decimal.write size) = some (size : Int) :=
    Integer.read?_write countable
  obtain ⟨emptyBuilt, growBuilt, apart⟩ := get?_built
  have room : built.slots.size + 3 < Decimal.wordBound := by decide
  obtain ⟨test, take, stop, after, mintedBody, kept⟩ := exists_mint_sumBody room
  obtain ⟨empty, holds⟩ := kept listHandle _ emptyBuilt
  obtain ⟨grow, -⟩ := kept growHandle _ growBuilt
  have minted : parseMinting {} (buildList size ++ ' ' :: sumList) =
      ([listHandle.toText, growHandle.toText, Decimal.write size, "rep".toList] ++
        (["0".toList, ">r".toList] ++ [test.toText, "loop".toList, "r>".toList]), after) := by
    rw [parseMinting, ((spells_buildList countable).append spells_sumList).read,
      Node.mintAll_append, mintAll_build, mintAll_start, mintAll_loop mintedBody]
  have keeps := keepsWords_fresh loader after
  have literals := isLiteral_fresh loader after
  let full : Machine := { arena := after.set listHandle (render (numerals size)) }
  have keepsFull : full.KeepsWords { context := dictionary, loader } vocabulary :=
    keeps.of_user_eq rfl
  have building : RunsTo { context := dictionary, loader } rounds 3 _ { arena := after } _ :=
    runsTo_build keeps literals apart empty grow read []
  have adding : RunsTo { context := dictionary, loader } rounds 3 _ _ _ :=
    runsTo_total keeps literals holds empty (AddsUp.numerals fits) (by rwa [length_numerals])
      (by rwa [length_numerals]) []
  have runs := building.append ((runsTo_zero keepsFull [listHandle.toText]).append adding)
  exact ⟨_, Arena.get?_set_self empty _, evaluate_fresh minted runs rfl (by decide)⟩

theorem run_listSum {size rounds : Nat} (fits : Integer.InRange (size * (size - 1) / 2 : Nat))
    (within : size < rounds) :
    run rounds (buildList size ++ ' ' :: sumList) =
      "[ [ ] ".toList ++ Decimal.write (size * (size - 1) / 2) ++ " ]".toList := by
  let total := Decimal.write (size * (size - 1) / 2)
  obtain ⟨arena, empty, evaluated⟩ := evaluate_listSum Loader.empty fits within
  have list : arena.expand listHandle.toText = render [] := Arena.expand_of_empty empty
  have sum : arena.expand total = total := by
    have number := Integer.read?_write fits
    exact Arena.expandWithin_unnamed (Integer.isWord_of_read? number)
      (Integer.handle_of_read? number) _ _ _
  calc run rounds (buildList size ++ ' ' :: sumList)
    _ = ({ main := [total, listHandle.toText], arena } : Machine).renderMain := by
      rw [run, evaluated]
    _ = render [arena.expand listHandle.toText, arena.expand total] := rfl
    _ = render [render [], total] := by rw [list, sum]
    _ = "[ [ ] ".toList ++ total ++ " ]".toList := by
      generalize total = cell
      simp [render_eq]

/-- Building a list and adding it up is right for every size: on a fresh machine with the library
words the first program leaves one reference, to the list of the numbers below the size; the second
ends with the list empty and its sum on top, as long as the running sums stay in range and the list
is no longer than a list can be; and both in a row show the empty list and the sum. -/
theorem build_and_sum_exact (loader : Loader) :
    (∀ size : Nat, Integer.InRange size → ∀ rounds, ∃ machine : Machine, ∃ handle : Handle,
      ({} : Machine).evaluate { context := dictionary, loader } rounds (buildList size) =
        .ok machine ∧
      machine.main = [handle.toText] ∧
      ListOp.Resolves machine.arena handle.toText (.slot handle) (numerals size)) ∧
    (∀ (elements : List Text) (numbers : List Int),
      elements.map Integer.read? = numbers.map some →
      (∀ count, Integer.InRange (numbers.take count).sum) → Integer.InRange elements.length →
      ∀ rounds > elements.length, ∃ machine : Machine, ∃ handle : Handle,
        ({} : Machine).evaluate { context := dictionary, loader } rounds (sumOf elements) =
          .ok machine ∧
        machine.main = [Integer.write numbers.sum, handle.toText] ∧ machine.retain = [] ∧
        (parseMinting {} (sumOf elements)).2.get? handle = some (render elements) ∧
        machine.arena.get? handle = some (render [])) ∧
    ∀ size : Nat, Integer.InRange (size * (size - 1) / 2 : Nat) → ∀ rounds > size,
      run rounds (buildList size ++ ' ' :: sumList) =
        "[ [ ] ".toList ++ Decimal.write (size * (size - 1) / 2) ++ " ]".toList := by
  refine ⟨?_, ?_, ?_⟩
  · exact fun size countable rounds => evaluate_buildList loader rounds countable
  · exact fun elements numbers reads sums countable rounds within =>
      evaluate_sumOf loader reads sums countable within
  · exact fun size fits rounds within => run_listSum fits within

theorem build_and_sum_exact_three :
    (∃ machine : Machine, ∃ handle : Handle,
      ({} : Machine).evaluate { context := dictionary } 0
        "[ ] [ dup >r size dup r> insert ] 3 rep".toList = .ok machine ∧
      machine.main = [handle.toText] ∧
      ListOp.Resolves machine.arena handle.toText (.slot handle)
        ["0".toList, "1".toList, "2".toList]) ∧
    (∃ machine : Machine, ∃ handle : Handle,
      ({} : Machine).evaluate { context := dictionary } 4
        "0 >r [ +3 -07 4 ] [ dup size 0 > [ 0 swap remove r> + >r t ] [ f ] if ] loop r>".toList =
          .ok machine ∧
      machine.main = ["0".toList, handle.toText] ∧ machine.retain = [] ∧
      machine.arena.get? handle = some "[ ]".toList) ∧
    run 501 listSum = "[ [ ] 124750 ]".toList := by
  obtain ⟨builds, adds, shows⟩ := build_and_sum_exact Loader.empty
  let elements : List Text := ["+3", "-07", "4"].map String.toList
  have source : sumOf elements =
      "0 >r [ +3 -07 4 ] [ dup size 0 > [ 0 swap remove r> + >r t ] [ f ] if ] loop r>".toList := by
    decide +kernel
  have running : ∀ count, Integer.InRange (([3, -7, 4] : List Int).take count).sum := by
    intro count
    match count with
    | 0 | 1 | 2 => decide
    | count + 3 =>
      rw [List.take_of_length_le (Nat.le_add_left 3 count)]
      decide
  obtain ⟨machine, handle, ends, main, retain, -, empty⟩ :=
    adds elements [3, -7, 4] (by decide) running (by decide) 4 (by decide)
  rw [source] at ends
  exact ⟨builds 3 (by decide) 0, ⟨machine, handle, ends, main, retain, empty⟩,
    shows 500 (by decide) 501 (by decide)⟩

end Programs

end Concatenative
