import LineLang.Command
import Mathlib.Data.List.Infix

/-!
# What a script writes

A script can be asked for the texts it prints, and it can be run from the command line. Both take
the lines one after another, but the first gives up after a line with a failure, and the second goes
on. They are compared with the events of a script, one for each instruction in the order of the
source: what the instruction printed and, if it failed, its diagnostic.

- `Event`                  : what came of one instruction
- `Script.events`          : the events of lines, each from the storage that those before it left
- `Report.Shows`           : a report has the texts and failures of events
- `Script.printedFrom_eq`, `Command.runLines_eq`  : both ways of taking a script show its events
- `Command.Conventional`   : what is relied on in a reader of arguments
- `Script.printed_agrees_main`   : so both ways agree
-/

namespace LineLang

/-! ## Events -/

structure Event where
  printed : List String
  failure : Option Diagnostic

/-- The line of a diagnostic: the place of the instruction, if it has one, and the cause. -/
def Diagnostic.line (d : Diagnostic) : String :=
  match d.position with
  | none => d.cause.message
  | some ⟨index, total⟩ =>
      "Instruction " ++ toString index ++ " of " ++ toString total ++ ": " ++ d.cause.message

def Event.texts (e : Event) : List String :=
  e.printed ++ e.failure.toList.map Diagnostic.line

namespace Script

def memoryAfter (m : Memory) (groups : List (List Token)) : Memory :=
  groups.foldl (fun m ts => if ts = [] then m else (Session.execute m ts).memory) m

/-- The failure of an instruction names its place if there are several places on the line. -/
def failureAt (place : Position) : Except Cause Value → Option Diagnostic
  | .ok _ => none
  | .error cause => some ⟨cause, if 1 < place.total then some place else none⟩

def eventAt (place : Position) (m : Memory) (ts : List Token) : Event :=
  { printed := (Session.execute m ts).printed
    failure := failureAt place (Session.execute m ts).result }

def event? (total first : Nat) (m : Memory) (p : List (List Token) × List Token) : Option Event :=
  if p.2 = [] then none else some (eventAt ⟨first + p.1.length, total⟩ (memoryAfter m p.1) p.2)

/-- The events of instructions. The empty ones have none, but they are counted like the others, from
`first` on. -/
def eventsFrom (total first : Nat) (m : Memory) (groups : List (List Token)) : List Event :=
  (groups.inits.zip groups).filterMap (event? total first m)

/-- The events of a line. If its tokens cannot be recognized or cut into instructions, that is its
only event. -/
def lineEvents (m : Memory) (line : String) : List Event :=
  match Token.ofSource line >>= splitInstructions with
  | .error rejection => [⟨[], some { cause := .rejected rejection }⟩]
  | .ok groups => eventsFrom groups.length 1 m groups

def memoryAfterLine (m : Memory) (line : String) : Memory :=
  match Token.ofSource line >>= splitInstructions with
  | .error _ => m
  | .ok groups => memoryAfter m groups

def events (m : Memory) (lines : List String) : List Event :=
  (lines.inits.zip lines).flatMap fun p => lineEvents (p.1.foldl memoryAfterLine m) p.2

theorem zip_inits_cons {α : Type} (x : α) (xs : List α) :
    (x :: xs).inits.zip (x :: xs) = ([], x) :: (xs.inits.zip xs).map (Prod.map (x :: ·) id) := by
  rw [List.inits_cons, List.zip_cons_cons, List.zip_map_left]

/-- After the first instruction of a line, the others are counted from the next place on. -/
theorem event?_cons (total first : Nat) (m : Memory) (ts : List Token)
    (p : List (List Token) × List Token) :
    event? total first m (ts :: p.1, p.2) = event? total (first + 1) (memoryAfter m [ts]) p := by
  have hplace : first + (ts :: p.1).length = first + 1 + p.1.length := by
    rw [List.length_cons]
    omega
  unfold event?
  rw [hplace]
  rfl

/-- The first instruction has the first event, unless it is empty. -/
theorem eventsFrom_cons (total first : Nat) (m : Memory) (ts : List Token)
    (groups : List (List Token)) :
    eventsFrom total first m (ts :: groups) =
      (if ts = [] then [] else [eventAt ⟨first, total⟩ m ts]) ++
        eventsFrom total (first + 1) (memoryAfter m [ts]) groups := by
  have hrest : event? total first m ∘ Prod.map (ts :: ·) id =
      event? total (first + 1) (memoryAfter m [ts]) :=
    funext (event?_cons total first m ts)
  unfold eventsFrom
  rw [zip_inits_cons, List.filterMap_cons, List.filterMap_map, hrest]
  by_cases hts : ts = []
  · simp [event?, hts]
  · simp [event?, hts, memoryAfter]

theorem events_cons (m : Memory) (line : String) (lines : List String) :
    events m (line :: lines) = lineEvents m line ++ events (memoryAfterLine m line) lines := by
  unfold events
  rw [zip_inits_cons, List.flatMap_cons, List.flatMap_map]
  rfl

end Script

/-! ## Reports -/

/-- The report has the storage, the texts and the first failure of events. -/
structure Report.Shows (r : Report) (n : Memory) (es : List Event) : Prop where
  memory : r.session.memory = n
  printed : r.printed = es.flatMap Event.texts
  failure : Script.firstFailure? r.results = es.findSome? Event.failure

theorem Diagnostic.line_eq (d : Diagnostic) : d.line = d.message := by
  unfold line message
  cases d.position <;> rfl

namespace Session

open Script

theorem locate_eq_failureAt (first total : Nat) (cause : Cause) :
    some (locate first total cause) = failureAt ⟨first, total⟩ (.error cause) := by
  unfold locate failureAt
  split <;> rfl

/-- An event has the texts of the instruction and then those of its failure. -/
theorem texts_eventAt (first total : Nat) (m : Memory) (ts : List Token) :
    (eventAt ⟨first, total⟩ m ts).texts =
      (execute m ts).printed ++ diagnosed
        ((execute m ts).result.mapError (locate first total)) := by
  unfold Event.texts eventAt
  cases (execute m ts).result with
  | ok v => rfl
  | error cause =>
      rw [← locate_eq_failureAt]
      exact congrArg ((execute m ts).printed ++ [·]) (Diagnostic.line_eq _)

/-- The first failure of a line is that of its first instruction, if that one fails. -/
theorem firstFailure?_cons (first total : Nat) (r : Except Cause Value) (rs : List Result) :
    firstFailure? (r.mapError (locate first total) :: rs) =
      (failureAt ⟨first, total⟩ r).or (firstFailure? rs) := by
  cases r with
  | ok v => rfl
  | error cause =>
      rw [← locate_eq_failureAt]
      rfl

/-- The instructions of a line show their events. -/
theorem executeAll_shows (total first : Nat) (m : Memory) (groups : List (List Token)) :
    (executeAll total first m groups).Shows (memoryAfter m groups)
      (eventsFrom total first m groups) := by
  induction groups generalizing first m with
  | nil => exact ⟨rfl, rfl, rfl⟩
  | cons ts groups ih =>
      rw [eventsFrom_cons]
      cases ts with
      | nil =>
          -- An empty instruction is counted, and that is all that comes of it.
          exact ih (first + 1) m
      | cons t ts =>
          have hrest := ih (first + 1) (execute m (t :: ts)).memory
          refine ⟨hrest.memory, ?_, ?_⟩
          · calc (executeAll total first m ((t :: ts) :: groups)).printed
              _ = (execute m (t :: ts)).printed ++
                    diagnosed ((execute m (t :: ts)).result.mapError (locate first total)) ++
                    (executeAll total (first + 1) (execute m (t :: ts)).memory groups).printed :=
                    rfl
              _ = _ := by
                    rw [← texts_eventAt, hrest.printed]
                    rfl
          · calc firstFailure? (executeAll total first m ((t :: ts) :: groups)).results
              _ = (failureAt ⟨first, total⟩ (execute m (t :: ts)).result).or (firstFailure?
                    (executeAll total (first + 1) (execute m (t :: ts)).memory groups).results) :=
                  firstFailure?_cons first total _ _
              _ = _ := by
                    rw [hrest.failure, List.findSome?_append, if_neg (List.cons_ne_nil t ts),
                      List.findSome?_singleton]
                    rfl

/-- A line shows its events. -/
theorem submit_shows (s : Session) (line : String) :
    (s.submit line).Shows (memoryAfterLine s.memory line) (lineEvents s.memory line) := by
  unfold submit memoryAfterLine lineEvents instructionsOf
  cases Token.ofSource line >>= splitInstructions with
  | error rejection => exact ⟨rfl, rfl, rfl⟩
  | ok groups => exact executeAll_shows groups.length 1 s.memory groups

end Session

/-! ## Scripts -/

/-- A script gives its texts, or the first of its failures. -/
theorem Script.printedFrom_eq (s : Session) (lines : List String) :
    printedFrom s lines = ((events s.memory lines).findSome? Event.failure).elim
      (.ok ((events s.memory lines).flatMap Event.texts)) .error := by
  induction lines generalizing s with
  | nil => rfl
  | cons line lines ih =>
      have hline := s.submit_shows line
      rw [events_cons, List.findSome?_append, List.flatMap_append, ← hline.memory, ← hline.printed,
        ← hline.failure]
      unfold printedFrom
      -- The line has been carried out to its end before its first failure is looked for.
      cases hfailure : firstFailure? (s.submit line).results with
      | some d => simp [hfailure]
      | none =>
          simp only [hfailure, ih, Option.none_or]
          cases (events (s.submit line).session.memory lines).findSome? Event.failure <;> rfl

namespace Command

/-- A line has failed if there is a first failure among its results. -/
theorem any_failed (results : List Result) :
    results.any failed = (Script.firstFailure? results).isSome := by
  induction results with
  | nil => rfl
  | cons r rs ih =>
      cases r with
      | ok v => exact ih
      | error d => rfl

/-- A script that is run without flags writes the texts of all of its events, and it fails if one of
them is a failure. -/
theorem runLines_eq (s : Session) (lines : List String) :
    (runLines false s lines).1 = (Script.events s.memory lines).flatMap Event.texts ∧
      (runLines false s lines).2.1 =
        ((Script.events s.memory lines).findSome? Event.failure).isSome := by
  induction lines generalizing s with
  | nil => exact ⟨rfl, rfl⟩
  | cons line lines ih =>
      have hline := s.submit_shows line
      obtain ⟨htexts, hfailed⟩ := ih (s.submit line).session
      rw [Script.events_cons, List.findSome?_append, List.flatMap_append, ← hline.memory,
        ← hline.printed, ← hline.failure, ← htexts, Option.isSome_or, ← hfailed, ← any_failed]
      exact ⟨by simp [runLines], rfl⟩

/-- A run without flags writes the texts of all events, and its exit code tells whether one
failed. -/
theorem run_plain (text : String) :
    run { contents := text } text =
      { stdout := unlines ((Script.events {} (Script.lines text)).flatMap Event.texts)
        code := if ((Script.events {} (Script.lines text)).findSome? Event.failure).isSome
          then 1 else 0 } := by
  obtain ⟨htexts, hfailed⟩ := runLines_eq {} (Script.lines text)
  simp [run, htexts, hfailed]

/-! ## Arguments -/

/-- An argument that is taken for options: it begins with a dash and goes on after it. -/
def isOption (argument : String) : Bool :=
  match argument.toList with
  | '-' :: _ :: _ => true
  | _ => false

/-- What is relied on in reading a command line that has one text and no flags. -/
structure Conventional (read : List String → Except Output Invocation) : Prop where
  /-- Whatever follows two dashes is a text. -/
  separated : ∀ text, read ["--", text] = .ok { contents := text }
  plain : ∀ text, isOption text = false → read [text] = .ok { contents := text }
  /-- The text may not be left out. -/
  options : ∀ text, isOption text = true → ∃ output, read [text] = .error output

/-- The command line has the script and no flags. A script that would be taken for options comes
after two dashes. -/
def Asks (text : String) (arguments : List String) : Prop :=
  arguments = ["--", text] ∨ isOption text = false ∧ arguments = [text]

variable {m : Type → Type} [Monad m] {read : List String → Except Output Invocation}

/-- A conventional reader takes such a command line for the script and no flags. -/
theorem main_of_asks (hread : Conventional read) (load : String → m (Option String)) {text : String}
    {arguments : List String} (h : Asks text arguments) :
    main read load arguments = pure (run { contents := text } text) := by
  have hok : read arguments = .ok { contents := text } := by
    rcases h with rfl | ⟨hplain, rfl⟩
    · exact hread.separated text
    · exact hread.plain text hplain
  simp [main, hok]

end Command

/-- A text is its lines with their ends. Asking it as a script for its texts and running it from the
command line without flags agree. The script has texts exactly when the run ends with code zero, and
then the run writes them. Otherwise it has the first failure among its events, and the code is one.
In both cases the run writes the texts of the events in order. A script that begins with a dash is
only run after two dashes: by itself it is left to the reader of arguments, and nothing of it is
run. -/
theorem Script.printed_agrees_main {m : Type → Type} [Monad m]
    {read : List String → Except Output Invocation} (hread : Command.Conventional read)
    (load : String → m (Option String)) (text : String) :
    (∀ ls, Divides text.toList (ls.map String.toList) ↔ ls = lines text) ∧
    (∃ output : Output,
      (∀ arguments, Command.Asks text arguments →
        Command.main read load arguments = pure output) ∧
      ((∃ texts, printed text = .ok texts) ↔ output.code = 0) ∧
      (∀ texts, printed text = .ok texts →
        output.stdout = String.join (texts.map (· ++ "\n"))) ∧
      (∀ d, printed text = .error d ↔
        (events {} (lines text)).findSome? Event.failure = some d) ∧
      (∀ d, printed text = .error d → output.code = 1) ∧
      output.stdout =
        String.join (((events {} (lines text)).flatMap Event.texts).map (· ++ "\n")) ∧
      output.stderr = "") ∧
    (Command.isOption text = true → ∃ output, read [text] = .error output ∧
      Command.main read load [text] = pure output) := by
  refine ⟨fun ls => divides_iff, ?_, fun hoption => ?_⟩
  · refine ⟨_, fun arguments h => Command.main_of_asks hread load h, ?_⟩
    -- Both outcomes are functions of the same events, and they differ in what they do at the first
    -- failure.
    have hprinted : printed text = _ := printedFrom_eq {} (lines text)
    rw [Command.run_plain, hprinted]
    cases (events {} (lines text)).findSome? Event.failure with
    | none =>
        refine ⟨by simp, ?_, by simp, by simp, rfl, rfl⟩
        intro texts htexts
        rw [← Except.ok.inj htexts]
        rfl
    | some d => exact ⟨by simp, by simp, by simp, by simp, rfl, rfl⟩
  · obtain ⟨output, houtput⟩ := hread.options text hoption
    exact ⟨output, houtput, by simp [Command.main, houtput]⟩

def contentsOnly : List String → Except Output Invocation
  | ["--", text] => .ok { contents := text }
  | [text] => if Command.isOption text then .error { code := 2 } else .ok { contents := text }
  | _ => .error { code := 2 }

theorem conventional_contentsOnly : Command.Conventional contentsOnly where
  separated _ := rfl
  plain _ h := by simp [contentsOnly, h]
  options _ h := ⟨{ code := 2 }, by simp [contentsOnly, h]⟩

/-- The script begins with a dash. Its first line has three instructions: one fails, one is empty
and one prints. Its second line has no tokens, and its third line prints. -/
def dashedScript : String :=
  "-true;;print(\"a\")\r\n:\nprint(false)"

def dashedLines : List String :=
  ["Instruction 1 of 3: Semantic error: operator '-' expected number but received boolean.", "a",
    "Lexical error: unrecognized token ':'.", "false"]

def dashedFailure : Diagnostic :=
  ⟨.failed (.kindMismatch (.unary .minus) .number .boolean), some ⟨1, 3⟩⟩

theorem dashedScript_events :
    (Script.events {} (Script.lines dashedScript)).flatMap Event.texts = dashedLines ∧
      (Script.events {} (Script.lines dashedScript)).findSome? Event.failure =
        some dashedFailure := by
  decide +kernel

/-- The script comes after two dashes. Asking it for its texts gives the first failure, and the run
goes on after that. -/
theorem Script.printed_agrees_main_dashed :
    Command.Conventional contentsOnly ∧ Command.isOption dashedScript = true ∧
      Divides dashedScript.toList
        (["-true;;print(\"a\")", ":", "print(false)"].map String.toList) ∧
      printed dashedScript = .error dashedFailure ∧
      Command.main (m := Id) contentsOnly (fun _ => none) ["--", dashedScript] =
        { stdout := String.join (dashedLines.map (· ++ "\n")), code := 1 } := by
  obtain ⟨hlines, ⟨output, hmain, -, -, hfirst, hcode, hstdout, hstderr⟩, -⟩ :=
    printed_agrees_main (m := Id) conventional_contentsOnly (fun _ => none) dashedScript
  obtain ⟨htexts, hfailure⟩ := dashedScript_events
  have herror := (hfirst dashedFailure).2 hfailure
  refine ⟨conventional_contentsOnly, by decide, (hlines _).2 (by decide +kernel), herror, ?_⟩
  refine (hmain _ (.inl rfl)).trans ?_
  rcases output with ⟨stdout, stderr, code⟩
  cases hstderr
  cases hcode _ herror
  rw [htexts] at hstdout
  cases hstdout
  rfl

end LineLang
