import LineLang.Resolution
import LineLang.Token.Instructions

/-!
# Sessions

A session takes source lines one after another. What an instruction adds to the storage is released
when it is done, unless it registered a function.

- `Session.execute`  : one instruction
- `Session.submit`   : one line of instructions
- `Session.clear`    : a fresh start
- `Report`           : what came of a line
-/

namespace LineLang

structure Executed where
  result : Except Cause Value
  memory : Memory
  printed : List String := []

/-- What came of one instruction of a line, for the one who asked for it. -/
abbrev Result := Except Diagnostic Value

structure Session where
  memory : Memory := {}
  deriving Repr

/-- What came of a line: the session after it, one result for each instruction that is not empty,
and the texts printed on the way, diagnostics included. -/
structure Report where
  session : Session
  results : List Result := []
  printed : List String := []

namespace Session

/-- Computes the kind of an expression, then carries it out. -/
def run (e : Expr) (m : Memory) : Executed :=
  match Typing.kindOf e m with
  | .error fault m₁ => { result := .error (.failed fault), memory := m₁ }
  | .ok _ m₁ =>
      match Evaluation.evaluate .run e { memory := m₁ } with
      | .error fault s =>
          { result := .error (.failed fault), memory := s.memory, printed := s.printed.toList }
      | .ok v s => { result := .ok v, memory := s.memory, printed := s.printed.toList }

/-- Carries out one instruction and releases what it added, unless it registered a function. -/
def execute (m : Memory) (ts : List Token) : Executed :=
  let released (x : Executed) : Executed := { x with memory := x.memory.restore m.checkpoint }
  match parse ts m with
  | .error rejection m₁ => released { result := .error (.rejected rejection), memory := m₁ }
  | .ok (.declaration _ id) m₁ =>
      match m₁.register id with
      | .ok m₂ => { result := .ok .void, memory := m₂ }
      | .error fault => released { result := .error (.failed fault), memory := m₁ }
  | .ok e m₁ => released (run e m₁)

/-- The place of an instruction is reported when its line holds several. -/
def locate (index total : Nat) (cause : Cause) : Diagnostic :=
  if 1 < total then { cause, position := some ⟨index, total⟩ } else { cause }

/-- The texts of one result, after what was printed on the way to it. -/
def diagnosed : Result → List String
  | .ok _ => []
  | .error diagnostic => [diagnostic.message]

/-- Carries out the instructions of a line from the one counted `index` on. -/
def executeAll (total : Nat) : Nat → Memory → List (List Token) → Report
  | _, m, [] => { session := { memory := m } }
  | index, m, [] :: rest => executeAll total (index + 1) m rest
  | index, m, ts :: rest =>
      let done := execute m ts
      let result : Result := done.result.mapError (locate index total)
      let report := executeAll total (index + 1) done.memory rest
      { report with
        results := result :: report.results
        printed := done.printed ++ diagnosed result ++ report.printed }

/-- Takes one line. A line that cannot be cut into instructions has one result. -/
def submit (s : Session) (source : String) : Report :=
  match instructionsOf source with
  | .error rejection =>
      let result : Result := .error { cause := .rejected rejection }
      { session := s, results := [result], printed := diagnosed result }
  | .ok groups => executeAll groups.length 1 s.memory groups

def clear (s : Session) : Session :=
  { s with memory := {} }

def functions (s : Session) : List (String × List String) :=
  s.memory.signatures

end Session
end LineLang
