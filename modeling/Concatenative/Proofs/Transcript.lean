import Concatenative.Proofs.ErrorContainment
import Concatenative.Proofs.Expansion
import Concatenative.Proofs.Lines
import Concatenative.Proofs.SessionHistory

/-!
What a session writes. Every line is answered by one line of output, up to the first
that asks to exit. A stack is written word by word with single spaces, so no blank of a
cell, or of a slot that a cell refers to, breaks the line, and an error that ends a line
of input is text without a break as well.
-/

namespace Concatenative

open Text ListText

namespace Text

/-- The space is the only blank of the text. -/
def IsPlain (text : Text) : Prop := ∀ c ∈ text, isBlank c = true → c = ' '

instance (text : Text) : Decidable (IsPlain text) :=
  List.decidableBAll (fun c => isBlank c = true → c = ' ') text

theorem isPlain_of_solid {text : Text} (solid : ∀ c ∈ text, isBlank c = false) :
    IsPlain text := by
  intro c mem blank
  rw [solid c mem] at blank
  cases blank

namespace IsPlain

theorem append {first second : Text} (front : IsPlain first) (back : IsPlain second) :
    IsPlain (first ++ second) := by
  intro c mem
  rcases List.mem_append.1 mem with mem | mem
  · exact front c mem
  · exact back c mem

theorem newline_not_mem {text : Text} (plain : IsPlain text) : '\n' ∉ text :=
  fun mem => absurd (plain '\n' mem (by decide)) (by decide)

end IsPlain

theorem isPlain_unwords {texts : List Text} (all : ∀ text ∈ texts, IsPlain text) :
    IsPlain (unwords texts) := by
  induction texts with
  | nil => decide
  | cons text rest ih =>
    obtain ⟨first, later⟩ := List.forall_mem_cons.1 all
    cases rest with
    | nil => exact first
    | cons next rest =>
      have space : IsPlain [' '] := by decide
      rw [unwords_cons_cons]
      exact first.append (space.append (ih later))

end Text

theorem Arena.isPlain_expandWithin (arena : Arena) (levels : Nat) (visiting : List Handle)
    (text : Text) : IsPlain (arena.expandWithin levels visiting text) := by
  induction levels generalizing visiting text with
  | zero =>
    rw [expandWithin]
    exact isPlain_unwords fun word mem => isPlain_of_solid (isWord_of_mem_words mem).2
  | succ levels ih =>
    rw [expandWithin]
    apply isPlain_unwords
    rw [List.forall_mem_map]
    intro word mem
    split
    · exact isPlain_of_solid (isWord_of_mem_words mem).2
    · exact ih _ _

theorem Machine.isPlain_renderMain (machine : Machine) : IsPlain machine.renderMain := by
  rw [renderMain, render_eq_unwords]
  apply isPlain_unwords
  rw [List.forall_mem_cons, List.forall_mem_append, List.forall_mem_map, List.forall_mem_singleton]
  refine ⟨by decide, fun cell mem => ?_, by decide⟩
  exact machine.arena.isPlain_expandWithin _ [] cell

theorem Error.isPlain_message {error : Error} {machine : Machine}
    (recovered : (Outcome.raised error machine).IsRecovered) : IsPlain error.message := by
  cases error with
  | underflow op needs has => exact recovered.elim
  | negativeDiscard count =>
    change IsPlain "You can't remove what's not there!".toList
    decide +kernel
  | recursionLimit limit =>
    have opens : IsPlain "recursion limit of ".toList := by decide +kernel
    have digits : IsPlain (Decimal.write limit) := isPlain_of_solid fun c mem =>
      not_isBlank_of_isDigit (Decimal.isDigit_of_mem_write mem)
    have closes : IsPlain " nested executions exceeded".toList := by decide +kernel
    exact (opens.append digits).append closes

def Reply.exits : Reply → Bool
  | .shown _ exit => exit
  | _ => false

theorem Reply.ends_eq_exits {reply : Reply} (finished : reply ≠ .unfinished) :
    reply.ends = reply.exits := by
  cases reply with
  | unfinished => exact absurd rfl finished
  | _ => rfl

namespace Session

/-- The answers up to and including the first that asks to exit. -/
def untilExit (answers : List (Reply × Machine)) : List (Reply × Machine) :=
  answers.take (answers.findIdx (·.1.exits) + 1)

theorem untilExit_cons (answered : Reply × Machine) (rest : List (Reply × Machine)) :
    untilExit (answered :: rest) =
      answered :: if answered.1.exits then [] else untilExit rest := by
  rw [untilExit, List.findIdx_cons]
  cases answered.1.exits <;> rfl

theorem isPlain_answer (environment : Environment) (rounds : Nat) (line : Text)
    (machine : Machine) : IsPlain (answer environment rounds line machine).1.text := by
  have recovered : (machine.clear.evaluate environment rounds line).IsRecovered :=
    Machine.isRecovered_runWithin environment rounds _ _ _
  rw [answer]
  cases outcome : machine.clear.evaluate environment rounds line with
  | ok machine => exact IsPlain.append (by decide) machine.isPlain_renderMain
  | raised error machine =>
    rw [outcome] at recovered
    exact IsPlain.append (by decide) (Error.isPlain_message recovered)
  | unfinished machine => exact isPlain_of_solid fun c mem => nomatch mem

theorem text_answer {environment : Environment} {rounds : Nat} {line : Text} {machine : Machine}
    (finished : (answer environment rounds line machine).1 ≠ .unfinished) :
    (answer environment rounds line machine).1.text =
        "main: ".toList ++ (answer environment rounds line machine).2.renderMain ∨
      ∃ error, (answer environment rounds line machine).1 = .failed error ∧
        (answer environment rounds line machine).1.text = "error: ".toList ++ error.message := by
  rw [answer] at finished ⊢
  cases outcome : machine.clear.evaluate environment rounds line with
  | ok machine => exact .inl rfl
  | raised error machine => exact .inr ⟨error, rfl, rfl⟩
  | unfinished machine =>
    rw [outcome] at finished
    exact absurd rfl finished

theorem exists_answer_of_mem {environment : Environment} {rounds : Nat} {lines : List Text}
    {machine : Machine} {answered : Reply × Machine}
    (mem : answered ∈ answers environment rounds lines machine) :
    ∃ line before, answered = answer environment rounds line before := by
  induction lines generalizing machine with
  | nil => cases mem
  | cons line rest ih =>
    rw [answers] at mem
    rcases List.mem_cons.1 mem with here | later
    · exact ⟨line, machine, here⟩
    · exact ih later

theorem converse_eq_untilExit {environment : Environment} {rounds : Nat} {lines : List Text}
    {machine : Machine}
    (finished : ∀ answered ∈ untilExit (answers environment rounds lines machine),
      answered.1 ≠ .unfinished) :
    (converse environment rounds (lines.map some) machine).broken = false ∧
      (converse environment rounds (lines.map some) machine).output =
        (untilExit (answers environment rounds lines machine)).flatMap
          fun answered => answered.1.text ++ ['\n'] := by
  induction lines generalizing machine with
  | nil => exact ⟨rfl, rfl⟩
  | cons line rest ih =>
    rw [answers, untilExit_cons] at finished ⊢
    obtain ⟨first, later⟩ := List.forall_mem_cons.1 finished
    rw [List.map_cons, converse, List.flatMap_cons]
    simp only [Reply.ends_eq_exits first]
    by_cases exits : (answer environment rounds line machine).1.exits
    · simp [exits]
    · rw [if_neg exits] at later
      obtain ⟨unbroken, output⟩ := ih later
      simp [exits, unbroken, output]

/-- Input that is text is answered line by line, up to and including the first line that
asks to exit or else to the last. Each answer is one line: the stack that its line of input
leaves, or the error it raised. A stack is written without a blank other than the space. -/
theorem converse_answers_each_line {bytes : List UInt8} {text : Text}
    (decoded : Encoding.decode? bytes = some text) {environment : Environment} {rounds : Nat}
    {machine : Machine}
    (finished : ∀ answered ∈ untilExit (answers environment rounds text.lines machine),
      answered.1 ≠ .unfinished) :
    (converse environment rounds (Encoding.decodedLines bytes) machine).broken = false ∧
    (converse environment rounds (Encoding.decodedLines bytes) machine).output =
      (untilExit (answers environment rounds text.lines machine)).flatMap
        (fun answered => answered.1.text ++ ['\n']) ∧
    (∀ answered ∈ untilExit (answers environment rounds text.lines machine),
      '\n' ∉ answered.1.text ∧
      (answered.1.text = "main: ".toList ++ answered.2.renderMain ∨
        ∃ error, answered.1 = .failed error ∧
          answered.1.text = "error: ".toList ++ error.message)) ∧
    ∀ machine : Machine, ∀ c ∈ machine.renderMain, isBlank c = true → c = ' ' := by
  rw [Encoding.decodedLines_eq decoded]
  obtain ⟨unbroken, output⟩ := converse_eq_untilExit finished
  refine ⟨unbroken, output, fun answered mem => ?_, Machine.isPlain_renderMain⟩
  have ended := finished answered mem
  obtain ⟨line, before, rfl⟩ := exists_answer_of_mem (List.mem_of_mem_take mem)
  exact ⟨(isPlain_answer environment rounds line before).newline_not_mem, text_answer ended⟩

theorem converse_answers_each_line_until_exit :
    ∃ environment : Environment, ∃ machine : Machine, ∃ bytes : List UInt8, ∃ text : Text,
      Encoding.decode? bytes = some text ∧
      text = "&1 é\r\n-1 debug.remove\nexit\nlater".toList ∧
      machine.arena.slots = #["[ a\tb\n&1 ]".toList] ∧
      (∀ answered ∈ untilExit (answers environment 0 text.lines machine),
        answered.1 ≠ .unfinished) ∧
      (converse environment 0 (Encoding.decodedLines bytes) machine).output =
        ["main: [ [ a b &1 ] é ]", "error: You can't remove what's not there!",
          "main: [ exit ]"].flatMap fun line => line.toList ++ ['\n'] := by
  let environment : Environment := { context := Dictionary.natives }
  let machine : Machine := { arena := ⟨#["[ a\tb\n&1 ]".toList]⟩ }
  let text : Text := "&1 é\r\n-1 debug.remove\nexit\nlater".toList
  have decoded : Encoding.decode? (Encoding.encode text) = some text :=
    Encoding.decode?_eq_some_iff.2 rfl
  have finished : ∀ answered ∈ untilExit (answers environment 0 text.lines machine),
      answered.1 ≠ .unfinished := by
    decide +kernel
  have written : (untilExit (answers environment 0 text.lines machine)).flatMap
      (fun answered => answered.1.text ++ ['\n']) =
        ["main: [ [ a b &1 ] é ]", "error: You can't remove what's not there!",
          "main: [ exit ]"].flatMap fun line => line.toList ++ ['\n'] := by
    decide +kernel
  have output := (converse_answers_each_line decoded finished).2.1
  exact ⟨environment, machine, Encoding.encode text, text, decoded, rfl, rfl, finished,
    output.trans written⟩

end Session

end Concatenative
