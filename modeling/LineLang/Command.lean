import LineLang.Script

/-!
# Command line

A script is run line by line; a failure does not stop it. How the arguments of a command line are
read is left open: a reader gives what they ask for, or the output that it ends the program with.

- `Invocation`     : what the command line asks for
- `Command.run`    : what a script writes, and the exit code
- `Command.main`   : the program, given a reader of arguments and of files
-/

namespace LineLang

/-- What the command line asks for. -/
structure Invocation where
  /-- The script, or the path of a file that holds it. -/
  contents : String
  fromFile : Bool := false
  /-- Write the value of every instruction that has one. -/
  echo : Bool := false
  /-- List the functions at the end. -/
  functions : Bool := false
  deriving DecidableEq, Repr

/-- What is written to the two outputs, and the exit code. -/
structure Output where
  stdout : String := ""
  stderr : String := ""
  code : Nat := 0
  deriving DecidableEq, Repr

namespace Command

def unlines (texts : List String) : String :=
  String.join (texts.map (· ++ "\n"))

def echoed? : Result → Option String
  | .ok v => if v.kind = .void then none else some v.display
  | .error _ => none

def failed : Result → Bool
  | .ok _ => false
  | .error _ => true

/-- What the lines of a script write, whether one failed, and the session after them. The values of
a line are shown after all that the line printed. -/
def runLines (echo : Bool) (s : Session) : List String → List String × Bool × Session
  | [] => ([], false, s)
  | line :: rest =>
      let report := s.submit line
      let values := if echo then report.results.filterMap echoed? else []
      let (texts, failure, last) := runLines echo report.session rest
      (report.printed ++ values ++ texts, report.results.any failed || failure, last)

def signature (name : String) (parameters : List String) : String :=
  name ++ "(" ++ ", ".intercalate parameters ++ ")"

def run (i : Invocation) (script : String) : Output :=
  let (texts, failure, last) := runLines i.echo {} (Script.lines script)
  let listing := if i.functions then last.functions.map fun (n, ps) => signature n ps else []
  { stdout := unlines (texts ++ listing), code := if failure then 1 else 0 }

def unreadable (path : String) : Output :=
  { stderr := "Failed to read the input file '" ++ path ++ "'. Perhaps this file does not exist?\n"
    code := 1 }

/-- The program. A file is looked at only if the command line asks for one. -/
def main {m : Type → Type} [Monad m] (read : List String → Except Output Invocation)
    (load : String → m (Option String)) (arguments : List String) : m Output :=
  match read arguments with
  | .error output => pure output
  | .ok i =>
      if i.fromFile then do
        match ← load i.contents with
        | none => return unreadable i.contents
        | some script => return run i script
      else pure (run i i.contents)

end Command
end LineLang
