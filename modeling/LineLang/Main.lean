import LineLang.Command

/-!
# Entry point

Runs the program on real files and writes its output. The reader of arguments is still to be given.
-/

namespace LineLang
namespace Command

def readFile? (path : String) : IO (Option String) :=
  try
    let text ← IO.FS.readFile path
    return some text
  catch _ => return none

/-- Runs the program, writes its output and gives the exit code. -/
def start (read : List String → Except Output Invocation) (arguments : List String) :
    IO UInt32 := do
  let output ← main read readFile? arguments
  IO.print output.stdout
  IO.eprint output.stderr
  return output.code.toUInt32

end Command
end LineLang
