import Concatenative.Library
import Concatenative.Proofs.Arithmetic

/-!
Programs made of library words. A program is followed token by token: a literal is pushed, a
primitive is performed, and a library word puts its arguments into its body, whose tokens run
one level further down. What a word does is therefore said once, for every depth that leaves
it enough levels.
-/

namespace Concatenative

open Text ListText

namespace Segment

def plain (text : String) : List Segment := text.toList.map .char

@[simp] theorem flatMap_fill_plain (arguments : List Text) (text : String) :
    (plain text).flatMap (fill arguments) = text.toList := by
  rw [plain, List.flatMap_map]
  exact List.flatMap_singleton' text.toList

end Segment

namespace Node

instance (word : Text) : Decidable (IsAtom word) :=
  inferInstanceAs (Decidable (_ ∧ _ ∧ _))

theorem nodes_atoms {list : List Text} (atoms : ∀ word ∈ list, IsAtom word) :
    nodes list = list.map .atom := by
  induction list with
  | nil => exact nodes_nil
  | cons word rest ih =>
    obtain ⟨first, later⟩ := List.forall_mem_cons.1 atoms
    rw [nodes_atom first, ih later, List.map_cons]

theorem renderAll_atoms (list : List Text) : renderAll (list.map .atom) = list := by
  induction list with
  | nil => rfl
  | cons word rest ih => rw [List.map_cons, renderAll, ih, render]

theorem mintAll_atoms (arena : Arena) (list : List Text) :
    mintAll arena (list.map .atom) = (list, arena) := by
  induction list with
  | nil => rfl
  | cons word rest ih => simp [mintAll, mint, ih]

end Node

theorem parse_of_atoms {text : Text} {list : List Text} (split : words text = list)
    (atoms : ∀ word ∈ list, Node.IsAtom word) : parse text = list := by
  rw [parse, Node.read, split, Node.nodes_atoms atoms, Node.renderAll_atoms]

theorem parseMinting_of_atoms {text : Text} {list : List Text} (split : words text = list)
    (atoms : ∀ word ∈ list, Node.IsAtom word) (arena : Arena) :
    parseMinting arena text = (list, arena) := by
  rw [parseMinting, Node.read, split, Node.nodes_atoms atoms, Node.mintAll_atoms]

namespace Integer

variable {text : Text} {number : Int}

theorem handle_of_read? (read : read? text = some number) : Handle.read? text = none := by
  unfold Handle.read?
  split
  · exact absurd List.mem_cons_self (not_mem_of_read? read (by decide))
  · rfl

theorem isList_of_read? (read : read? text = some number) : isList text = false := by
  have absent : '[' ∉ text := not_mem_of_read? read (by decide)
  simpa [isList] using fun head => absent (List.mem_of_head? head)

end Integer

theorem Arena.derefOrKeep_of_unnamed {arena : Arena} {text : Text}
    (unnamed : Handle.read? text = none) : arena.derefOrKeep text = text := by
  rw [derefOrKeep, deref?, unnamed]
  rfl

namespace Dictionary

theorem get?_define (dictionary : Dictionary) (name body other : Text) :
    (dictionary.define name body).get? other =
      if other = name then some (.defined body) else dictionary.get? other :=
  get?_insert dictionary name other (.defined body)

theorem get?_defineAll_of_not_mem {definitions : List (Text × Text)} {name : Text}
    (absent : name ∉ definitions.map Prod.fst) (dictionary : Dictionary) :
    (dictionary.defineAll definitions).get? name = dictionary.get? name := by
  induction definitions generalizing dictionary with
  | nil => rfl
  | cons entry rest ih =>
    rw [List.map_cons, List.mem_cons, not_or] at absent
    have later := ih absent.2 (dictionary.define entry.1 entry.2)
    rw [get?_define, if_neg absent.1] at later
    exact later

theorem get?_defineAll_of_mem {definitions : List (Text × Text)}
    (distinct : (definitions.map Prod.fst).Nodup) {name body : Text}
    (mem : (name, body) ∈ definitions) (dictionary : Dictionary) :
    (dictionary.defineAll definitions).get? name = some (.defined body) := by
  induction definitions generalizing dictionary with
  | nil => cases mem
  | cons entry rest ih =>
    rw [List.map_cons, List.nodup_cons] at distinct
    rcases List.mem_cons.1 mem with rfl | later
    · -- No later definition takes the name again.
      have kept := get?_defineAll_of_not_mem distinct.1 (dictionary.define name body)
      rw [get?_define, if_pos rfl] at kept
      exact kept
    · exact ih distinct.2 later (dictionary.define entry.1 entry.2)

end Dictionary

namespace Library

open Segment

theorem get?_dictionary_defined {name body : Text} (mem : (name, body) ∈ definitions) :
    dictionary.get? name = some (.defined body) :=
  Dictionary.get?_defineAll_of_mem (by decide +kernel) mem _

theorem get?_dictionary_native {primitive : Primitive} (mem : primitive ∈ Primitive.all) :
    dictionary.get? primitive.name = some (.native primitive) := by
  have unshadowed : ∀ primitive ∈ Primitive.all,
      primitive.name ∉ definitions.map Prod.fst := by
    decide +kernel
  have named : ∀ primitive ∈ Primitive.all,
      Dictionary.natives.get? primitive.name = some (.native primitive) := by
    decide +kernel
  rw [dictionary, Dictionary.get?_defineAll_of_not_mem (unshadowed primitive mem)]
  exact named primitive mem

def names : List Text := definitions.map Prod.fst ++ Primitive.all.map Primitive.name

theorem mem_names_of_get? {name : Text} {binding : Binding}
    (bound : dictionary.get? name = some binding) : name ∈ names := by
  by_cases mem : name ∈ definitions.map Prod.fst
  · exact List.mem_append_left _ mem
  · rw [dictionary, Dictionary.get?_defineAll_of_not_mem mem] at bound
    obtain ⟨primitive, native, same⟩ := List.mem_map.1 (Dictionary.mem_entries_of_get? bound)
    cases same
    exact List.mem_append_right _ (List.mem_map_of_mem native)

theorem isWord_of_get? {name : Text} {binding : Binding}
    (bound : dictionary.get? name = some binding) :
    IsWord name ∧ Integer.read? name = none := by
  have all : ∀ name ∈ names, IsWord name ∧ Integer.read? name = none := by
    decide +kernel
  exact all name (mem_names_of_get? bound)

/-- The word stands for a body that takes so many arguments, the topmost first, and becomes
the tokens when they are put into it. -/
def Unfolds (name : Text) (arguments tokens : List Text) : Prop :=
  ∃ body, (name, body) ∈ definitions ∧ (Template.ofBody body).arity = arguments.length ∧
    (Template.ofBody body).instantiate arguments = tokens

/-- The words of the library with the numbers of their arguments and with their bodies, cut
where the arguments go. -/
def cuts : List (Text × Nat × List (List Segment)) :=
  [("!".toList, 0, [plain "def"]),
    ("dup".toList, 1, [[.hole 1], [.hole 1]]),
    ("over".toList, 2, [[.hole 2], [.hole 1], [.hole 2]]),
    ("swap".toList, 2, [[.hole 1], [.hole 2]]),
    ("drop".toList, 1, [plain "[ @ ]", [.hole 1], plain "def"]),
    ("debug.clear".toList, 0, [plain "main", plain "debug.size", plain "debug.remove"]),
    ("t".toList, 0, [plain "-1"]),
    ("f".toList, 0, [plain "0"]),
    ("<".toList, 2, [[.hole 1], [.hole 2], plain ">"]),
    (">=".toList, 2, [[.hole 2], [.hole 1], plain ">", plain "t",
      plain "[ " ++ [.hole 2] ++ plain " " ++ [.hole 1] ++ plain " = ]", plain "if"]),
    ("<=".toList, 2, [[.hole 1], [.hole 2], plain ">", plain "t",
      plain "[ " ++ [.hole 2] ++ plain " " ++ [.hole 1] ++ plain " = ]", plain "if"]),
    ("=".toList, 2, [[.hole 2], [.hole 1], plain ">", plain "not", [.hole 1], [.hole 2],
      plain ">", plain "not", plain "and"]),
    ("!=".toList, 0, [plain "=", plain "not"]),
    ("not".toList, 1, [[.hole 1], plain "f", plain "t", plain "if"]),
    ("and".toList, 2, [[.hole 1], [.hole 2], plain "f", plain "if"]),
    ("or".toList, 2, [[.hole 1], plain "t", [.hole 2], plain "if"]),
    ("xor".toList, 2, [[.hole 1], [.hole 2], plain "or", [.hole 1], [.hole 2], plain "nand",
      plain "and"]),
    ("nand".toList, 0, [plain "and", plain "not"]),
    ("nor".toList, 0, [plain "or", plain "not"]),
    ("xnor".toList, 0, [plain "xor", plain "not"]),
    ("%".toList, 0, [plain "mod"]),
    ("math.mod".toList, 0, [plain "mod"]),
    ("math.pow".toList, 2, [[.hole 2], [.hole 2], plain "[ over * ]", [.hole 1], plain "1",
      plain "-", plain "rep", plain "swap", plain "drop"]),
    ("^".toList, 0, [plain "math.pow"]),
    ("pow".toList, 0, [plain "math.pow"]),
    ("math.max".toList, 2, [[.hole 2], [.hole 1], plain ">", [.hole 2], [.hole 1], plain "if"]),
    ("math.min".toList, 2, [[.hole 2], [.hole 1], plain ">", [.hole 1], [.hole 2], plain "if"]),
    ("max".toList, 0, [plain "math.max"]),
    ("min".toList, 0, [plain "math.min"])]

theorem cuts_eq : (definitions.map fun (name, body) =>
    (name, (Template.ofBody body).arity, (Template.ofBody body).tokens)) = cuts := by
  decide +kernel

theorem unfolds_of_cut {name : Text} {segments : List (List Segment)}
    {arguments tokens : List Text} (cut : cuts.lookup name = some (arguments.length, segments))
    (filled : segments.map (·.flatMap (fill arguments)) = tokens) :
    Unfolds name arguments tokens := by
  obtain ⟨before, after, whole, _⟩ := List.lookup_eq_some_iff.1 cut
  have mem : (name, arguments.length, segments) ∈ cuts := by
    rw [whole]
    exact List.mem_append_right before List.mem_cons_self
  rw [← cuts_eq, List.mem_map] at mem
  obtain ⟨⟨_, body⟩, defined, same⟩ := mem
  simp only [Prod.mk.injEq] at same
  obtain ⟨rfl, arity, rfl⟩ := same
  refine ⟨body, defined, arity, ?_⟩
  rw [Template.instantiate, arity, List.take_length, filled]

theorem Unfolds.unquoted {name : Text} {arguments tokens : List Text}
    (unfolds : Unfolds name arguments tokens) : name.head? ≠ some '$' := by
  have all : ∀ entry ∈ definitions, entry.1.head? ≠ some '$' := by
    decide +kernel
  obtain ⟨body, mem, _⟩ := unfolds
  exact all _ mem

end Library

namespace Machine

/-- The word means to the machine what it means in the library. -/
def Knows (environment : Environment) (machine : Machine) (word : Text) : Prop :=
  machine.lookup environment word = Library.dictionary.get? word

theorem knows_of_unbound {environment : Environment} {machine : Machine} {word : Text}
    (library : environment.context = Library.dictionary)
    (unbound : machine.user.get? word = none) : machine.Knows environment word := by
  rw [Knows, lookup, unbound, library, Option.none_or]

/-- The context is the library, and the user's definitions leave the given words alone, and
with them all integers and all texts with a blank. -/
structure KeepsWords (environment : Environment) (words : List Text) (machine : Machine) :
    Prop where
  library : environment.context = Library.dictionary
  words : ∀ word ∈ words, machine.user.get? word = none
  integers : ∀ text number, Integer.read? text = some number → machine.user.get? text = none
  spaced : ∀ text, IsSpaced text → machine.user.get? text = none

namespace KeepsWords

variable {environment : Environment} {words : List Text} {machine : Machine}

theorem knows (keeps : machine.KeepsWords environment words) {word : Text} (used : word ∈ words) :
    machine.Knows environment word :=
  knows_of_unbound keeps.library (keeps.words word used)

theorem isLiteral_integer (keeps : machine.KeepsWords environment words) {text : Text}
    {number : Int} (read : Integer.read? text = some number) :
    machine.IsLiteral environment text := by
  apply Machine.isLiteral_integer read
  rw [Machine.lookup, keeps.integers text number read, keeps.library, Option.none_or]
  cases bound : Library.dictionary.get? text with
  | none => rfl
  | some binding =>
    rw [(Library.isWord_of_get? bound).2] at read
    cases read

theorem isLiteral_spaced (keeps : machine.KeepsWords environment words) {text : Text}
    (unquoted : text.head? ≠ some '$') (spaced : IsSpaced text) :
    machine.IsLiteral environment text := by
  refine ⟨unquoted, ?_⟩
  rw [Machine.lookup, keeps.spaced text spaced, keeps.library, Option.none_or]
  cases bound : Library.dictionary.get? text with
  | none => rfl
  | some binding =>
    obtain ⟨c, mem, blank⟩ := spaced
    rw [(Library.isWord_of_get? bound).1.2 c mem] at blank
    cases blank

end KeepsWords

theorem keepsWords_of_entries {environment : Environment} {words : List Text} {machine : Machine}
    (library : environment.context = Library.dictionary)
    (others : ∀ entry ∈ machine.user.entries,
      IsWord entry.1 ∧ Integer.read? entry.1 = none ∧ entry.1 ∉ words) :
    machine.KeepsWords environment words := by
  have absent : ∀ text, (IsWord text → Integer.read? text = none → text ∈ words) →
      machine.user.get? text = none := by
    intro text excluded
    by_contra bound
    obtain ⟨binding, found⟩ := Option.ne_none_iff_exists'.1 bound
    obtain ⟨word, unread, unused⟩ := others _ (Dictionary.mem_entries_of_get? found)
    exact unused (excluded word unread)
  refine ⟨library, fun word used => absent word fun _ _ => used, ?_, ?_⟩
  · intro text number read
    refine absent text fun _ unread => ?_
    rw [read] at unread
    cases unread
  · intro text spaced
    refine absent text fun word _ => ?_
    obtain ⟨c, mem, blank⟩ := spaced
    rw [word.2 c mem] at blank
    cases blank

/-- With so many levels left, the tokens lead from one machine to another, at any depth. -/
def RunsTo (environment : Environment) (rounds levels : Nat) (tokens : List Text)
    (first last : Machine) : Prop :=
  ∀ depth, depth + levels ≤ environment.maxDepth →
    steps (step environment rounds (run environment rounds)) tokens (first.withDepth depth) =
      .ok (last.withDepth depth)

def EvaluatesTo (environment : Environment) (rounds levels : Nat) (body : Text)
    (first last : Machine) : Prop :=
  ∀ depth, depth + levels ≤ environment.maxDepth →
    (first.withDepth depth).evalBody (run environment rounds) body = .ok (last.withDepth depth)

theorem read?_truth (flag : Bool) :
    Integer.read? (truth flag) = some (if flag then -1 else 0) := by
  cases flag <;> decide

section

variable {environment : Environment} {rounds levels : Nat} {first second last : Machine}

namespace RunsTo

theorem cons {token : Text} {tokens : List Text}
    (one : RunsTo environment rounds levels [token] first second)
    (rest : RunsTo environment rounds levels tokens second last) :
    RunsTo environment rounds levels (token :: tokens) first last := by
  intro depth room
  have stepped := one depth room
  rw [steps_singleton] at stepped
  rw [steps_cons, stepped]
  exact rest depth room

theorem run {tokens : List Text} (runs : RunsTo environment rounds levels tokens first last)
    {depth : Nat} (room : depth + levels < environment.maxDepth) :
    (first.withDepth depth).run environment rounds tokens = .ok (last.withDepth depth) := by
  have below : (first.withDepth depth).depth < environment.maxDepth := by
    rw [depth_withDepth]
    omega
  have inner := runs (depth + 1) (by omega)
  rw [run_below_limit environment rounds below]
  exact congrArg (Outcome.map (withDepth depth)) inner

end RunsTo

theorem runsTo_literal {machine : Machine} {token : Text}
    (literal : machine.IsLiteral environment token) (below : List Text) :
    RunsTo environment rounds levels [token] { machine with main := below }
      { machine with main := token :: below } := by
  intro depth room
  have pushed : ({ machine with main := below }.withDepth depth).IsLiteral environment token :=
    literal
  rw [steps_singleton, step_literal environment rounds pushed]
  rfl

theorem runsTo_word {machine : Machine} {name : Text} {arguments tokens below : List Text}
    (known : machine.Knows environment name) (unfolds : Library.Unfolds name arguments tokens)
    (runs : RunsTo environment rounds levels tokens { machine with main := below } last) :
    RunsTo environment rounds (levels + 1) [name] { machine with main := arguments ++ below }
      last := by
  intro depth room
  have unquoted := unfolds.unquoted
  obtain ⟨body, mem, arity, filled⟩ := unfolds
  let ready := { machine with main := arguments ++ below }.withDepth depth
  have bound : ready.lookup environment name = some (.defined body) :=
    known.trans (Library.get?_dictionary_defined mem)
  have ran : ({ machine with main := below }.withDepth depth).run environment rounds tokens =
      .ok (last.withDepth depth) := runs.run (by omega)
  have stack : ready.main = arguments ++ below := rfl
  have called : ready.call (Machine.run environment rounds) name (.ofBody body) =
      .ok (last.withDepth depth) := by
    rw [call, arity, stack, List.take_left, List.drop_left, filled, List.length_append,
      if_neg (by omega)]
    exact ran
  rw [steps_singleton, step_defined environment rounds unquoted bound]
  exact congrArg Outcome.contain called

theorem runsTo_native {machine : Machine} {primitive : Primitive} {cells : List Text}
    (known : machine.Knows environment primitive.name) (mem : primitive ∈ Primitive.all)
    (performs : ∀ depth, depth + levels ≤ environment.maxDepth →
      ({ machine with main := cells }.withDepth depth).perform environment rounds
        (run environment rounds) primitive = .ok (last.withDepth depth)) :
    RunsTo environment rounds levels [primitive.name] { machine with main := cells } last := by
  intro depth room
  let ready := { machine with main := cells }.withDepth depth
  have unquoted : ∀ primitive ∈ Primitive.all, primitive.name.head? ≠ some '$' := by
    decide
  have bound : ready.lookup environment primitive.name = some (.native primitive) :=
    known.trans (Library.get?_dictionary_native mem)
  rw [steps_singleton, step_native environment rounds (unquoted primitive mem) bound]
  exact congrArg Outcome.contain (performs depth room)

theorem KeepsWords.runsTo_word {machine : Machine} {words : List Text}
    (keeps : machine.KeepsWords environment words) {name : Text}
    {arguments tokens below : List Text} (used : name ∈ words)
    (unfolds : Library.Unfolds name arguments tokens)
    (runs : RunsTo environment rounds levels tokens { machine with main := below } last) :
    RunsTo environment rounds (levels + 1) [name] { machine with main := arguments ++ below }
      last :=
  Machine.runsTo_word (keeps.knows used) unfolds runs

theorem evaluatesTo_body {body : Text} {tokens : List Text} (unnamed : Handle.read? body = none)
    (parsed : parse (Template.bodyText body) = tokens) (plain : ∀ token ∈ tokens, '$' ∉ token)
    (runs : RunsTo environment rounds levels tokens first last) :
    EvaluatesTo environment rounds (levels + 1) body first last := by
  intro depth room
  have filled : ∀ token ∈ parse (Template.bodyText body), NoPlaceholder token := by
    rw [parsed]
    exact fun token mem => noPlaceholder_of_not_mem (plain token mem)
  rw [evalBody_eq_execute environment rounds unnamed filled, execute, parsed]
  exact runs.run (by omega)

theorem evaluatesTo_block {tokens : List Text} (words : ∀ token ∈ tokens, IsWord token)
    (atoms : ∀ token ∈ tokens, Node.IsAtom token) (plain : ∀ token ∈ tokens, '$' ∉ token)
    (runs : RunsTo environment rounds levels tokens first last) :
    EvaluatesTo environment rounds (levels + 1) (render tokens) first last := by
  have body : Template.bodyText (render tokens) = inner (render tokens) :=
    if_pos (isList_render tokens)
  have parsed : parse (Template.bodyText (render tokens)) = tokens := by
    apply parse_of_atoms _ atoms
    rw [body, words_inner_render, flatMap_words words]
  exact evaluatesTo_body rfl parsed plain runs

theorem KeepsWords.runsTo_integer {machine : Machine} {words : List Text}
    (keeps : machine.KeepsWords environment words) {text : Text} {number : Int}
    (read : Integer.read? text = some number) (below : List Text) :
    RunsTo environment rounds levels [text] { machine with main := below }
      { machine with main := text :: below } :=
  runsTo_literal (keeps.isLiteral_integer read) below

theorem KeepsWords.evaluatesTo_integer {machine : Machine} {words : List Text}
    (keeps : machine.KeepsWords environment words) {text : Text} {number : Int}
    (read : Integer.read? text = some number) (below : List Text) :
    EvaluatesTo environment rounds (levels + 1) text { machine with main := below }
      { machine with main := text :: below } := by
  have body : Template.bodyText text = text := if_neg (by simp [Integer.isList_of_read? read])
  have parsed : parse (Template.bodyText text) = [text] := by
    apply parse_of_atoms
    · rw [body, words_of_isWord (Integer.isWord_of_read? read)]
    · simpa using Integer.isAtom_of_read? read
  apply evaluatesTo_body (Integer.handle_of_read? read) parsed
  · simpa using Integer.not_mem_of_read? read (c := '$') (by decide)
  · exact keeps.runsTo_integer read below

theorem KeepsWords.runsTo_choice {machine : Machine} {words : List Text}
    (keeps : machine.KeepsWords environment words) (used : "if".toList ∈ words) {flag : Bool}
    {onTrue onFalse : Text} {below : List Text}
    (runs : EvaluatesTo environment rounds (levels + 1)
      (machine.arena.derefOrKeep (if flag then onTrue else onFalse))
      { machine with main := below } last) :
    RunsTo environment rounds (levels + 1) ["if".toList]
      { machine with main := onFalse :: onTrue :: truth flag :: below } last := by
  have known : machine.Knows environment Primitive.choose.name := keeps.knows used
  refine runsTo_native known (by decide) fun depth room => ?_
  let ready := { machine with main := onFalse :: onTrue :: truth flag :: below }.withDepth depth
  have condition : EvaluatesTo environment rounds (levels + 1) (truth flag)
      { machine with main := below } { machine with main := truth flag :: below } :=
    keeps.evaluatesTo_integer (read?_truth flag) below
  have chosen := runs depth room
  have performed : ready.perform environment rounds (run environment rounds) .choose =
      ready.choose (run environment rounds) := rfl
  have popped : ({ ready with main := below } : Machine) =
      { machine with main := below }.withDepth depth := rfl
  rw [performed, choose_eq rfl, popped, condition depth room]
  cases flag with
  | true => exact chosen
  | false => exact chosen

theorem KeepsWords.runsTo_if {machine : Machine} {words : List Text}
    (keeps : machine.KeepsWords environment words) (used : "if".toList ∈ words) {flag : Bool}
    {onTrue onFalse : Text} {below : List Text}
    (unnamed : Handle.read? onTrue = none ∧ Handle.read? onFalse = none)
    (runs : EvaluatesTo environment rounds (levels + 1) (if flag then onTrue else onFalse)
      { machine with main := below } last) :
    RunsTo environment rounds (levels + 1) ["if".toList]
      { machine with main := onFalse :: onTrue :: truth flag :: below } last := by
  have chosen : Handle.read? (if flag then onTrue else onFalse) = none := by
    cases flag with
    | true => exact unnamed.1
    | false => exact unnamed.2
  apply keeps.runsTo_choice used
  rwa [Arena.derefOrKeep_of_unnamed chosen]

theorem KeepsWords.runsTo_if_integer {machine : Machine} {words : List Text}
    (keeps : machine.KeepsWords environment words) (used : "if".toList ∈ words) {flag : Bool}
    {onTrue onFalse : Text} {yes no : Int} (readTrue : Integer.read? onTrue = some yes)
    (readFalse : Integer.read? onFalse = some no) (below : List Text) :
    RunsTo environment rounds (levels + 1) ["if".toList]
      { machine with main := onFalse :: onTrue :: truth flag :: below }
      { machine with main := (if flag then onTrue else onFalse) :: below } := by
  apply keeps.runsTo_if used
    ⟨Integer.handle_of_read? readTrue, Integer.handle_of_read? readFalse⟩
  cases flag with
  | true => exact keeps.evaluatesTo_integer readTrue below
  | false => exact keeps.evaluatesTo_integer readFalse below

theorem KeepsWords.runsTo_math {machine : Machine} {words : List Text}
    (keeps : machine.KeepsWords environment words) (op : MathOp)
    (used : (Primitive.math op).name ∈ words) (left right : Text) (below : List Text) :
    RunsTo environment rounds levels [(Primitive.math op).name]
      { machine with main := right :: left :: below }
      { machine with main := op.answer left right :: below } := by
  have listed : Primitive.math op ∈ Primitive.all := by
    cases op <;> decide
  refine runsTo_native (keeps.knows used) listed fun depth room => ?_
  exact performMath_eq (machine.withDepth depth) op left right below

/-- Rounds that carry an invariant on carry it through a whole repetition. -/
theorem repeatBody_of_invariant {body : Text} {invariant : Nat → Machine → Prop} {total : Nat}
    (round : ∀ index < total, ∀ machine, invariant index machine →
      ∃ next, EvaluatesTo environment rounds levels body machine next ∧
        invariant (index + 1) next)
    (count : Nat) : ∀ {index : Nat} {machine : Machine}, index + count ≤ total →
      invariant index machine →
        ∃ last, invariant (index + count) last ∧
          ∀ depth, depth + levels ≤ environment.maxDepth →
            (machine.withDepth depth).repeatBody (run environment rounds) body count =
              .ok (last.withDepth depth) := by
  induction count with
  | zero => exact fun _ holds => ⟨_, holds, fun _ _ => rfl⟩
  | succ count ih =>
    intro index machine within holds
    obtain ⟨next, evaluates, holdsNext⟩ := round index (by omega) machine holds
    obtain ⟨last, holdsLast, repeats⟩ := ih (by omega) holdsNext
    refine ⟨last, by rwa [Nat.add_right_comm] at holdsLast, fun depth room => ?_⟩
    rw [repeatBody, evaluates depth room]
    exact repeats depth room

theorem KeepsWords.runsTo_rep {machine : Machine} {words : List Text}
    (keeps : machine.KeepsWords environment words) (used : "rep".toList ∈ words)
    {count body : Text} {number : Nat} (read : Integer.read? count = some (number : Int))
    {invariant : Nat → Machine → Prop}
    (round : ∀ index < number, ∀ machine, invariant index machine →
      ∃ next, EvaluatesTo environment rounds levels body machine next ∧
        invariant (index + 1) next)
    {below : List Text} (start : invariant 0 { machine with main := below }) :
    ∃ last, invariant number last ∧
      RunsTo environment rounds levels ["rep".toList]
        { machine with main := count :: body :: below } last := by
  obtain ⟨last, holds, repeats⟩ :=
    repeatBody_of_invariant round number (Nat.le_of_eq (Nat.zero_add number)) start
  rw [Nat.zero_add] at holds
  have known : machine.Knows environment Primitive.times.name := keeps.knows used
  refine ⟨last, holds, runsTo_native known (by decide) fun depth room => ?_⟩
  have ran := repeats depth room
  simp only [perform, times, main_withDepth, read, Int.toNat_natCast]
  exact ran

/-- The source leads from one machine to another, with its blocks kept inline and with a
fresh reference for every block alike. -/
def Gives (environment : Environment) (rounds : Nat) (source : Text) (first last : Machine) :
    Prop :=
  first.execute environment rounds source = .ok last ∧
    first.evaluate environment rounds source = .ok last

theorem RunsTo.run_eq {machine : Machine} {tokens : List Text}
    (runs : RunsTo environment rounds levels tokens machine last)
    (level : last.depth = machine.depth) (room : machine.depth + levels < environment.maxDepth) :
    machine.run environment rounds tokens = .ok last := by
  have same : last.withDepth machine.depth = last := by
    rw [← level]
    rfl
  exact (runs.run room).trans (congrArg Outcome.ok same)

theorem RunsTo.gives {machine : Machine} {tokens : List Text}
    (runs : RunsTo environment rounds levels tokens machine last)
    (plain : ∀ token ∈ tokens, IsWord token ∧ Node.IsAtom token)
    (level : last.depth = machine.depth) (room : machine.depth + levels < environment.maxDepth) :
    machine.Gives environment rounds (unwords tokens) last := by
  have split : words (unwords tokens) = tokens :=
    words_unwords fun token mem => (plain token mem).1
  have atoms : ∀ token ∈ tokens, Node.IsAtom token := fun token mem => (plain token mem).2
  have ran : machine.run environment rounds tokens = .ok last := runs.run_eq level room
  constructor
  · rw [execute, parse_of_atoms split atoms, ran]
  · rw [evaluate, runSource, parseMinting_of_atoms split atoms]
    exact ran

theorem KeepsWords.gives_binary {machine : Machine} {words : List Text}
    (keeps : machine.KeepsWords environment words) {left right name : Text} {a b : Int}
    (readLeft : Integer.read? left = some a) (readRight : Integer.read? right = some b)
    (plain : IsWord name ∧ Node.IsAtom name)
    (runs : RunsTo environment rounds levels [name]
      { machine with main := right :: left :: machine.main } last)
    (level : last.depth = machine.depth) (room : machine.depth + levels < environment.maxDepth) :
    machine.Gives environment rounds (unwords [left, right, name]) last := by
  have operands : RunsTo environment rounds levels [left, right, name] machine last := by
    apply RunsTo.cons (keeps.runsTo_integer readLeft machine.main)
    exact RunsTo.cons (keeps.runsTo_integer readRight _) runs
  apply operands.gives _ level room
  simp only [List.forall_mem_cons]
  exact ⟨⟨Integer.isWord_of_read? readLeft, Integer.isAtom_of_read? readLeft⟩,
    ⟨Integer.isWord_of_read? readRight, Integer.isAtom_of_read? readRight⟩, plain,
    List.forall_mem_nil _⟩

end

end Machine

end Concatenative
