import LineLang.Diagnostic
import LineLang.Number.Binary
import LineLang.Text.Alphabetic
import LineLang.Text.Numeric

/-!
# Names

Which words are names, and which names are taken by the language itself.

- `isIdentifier`   : is a word a name
- `constant?`      : the number that a name stands for everywhere
- `Builtin`        : functions of the language
- `checkDeclared`  : may a name be declared
-/

namespace LineLang

/-- Whether a word is a name: letters, numerals and underscores, not beginning with a numeral. -/
def isIdentifier (word : String) : Bool :=
  match word.toList with
  | [] => false
  | c :: cs =>
      (Text.isAlphabetic c || c = '_') &&
        cs.all fun c => Text.isAlphabetic c || Text.isNumeric c || c = '_'

def checkIdentifier (word : String) : Except Rejection Unit :=
  if isIdentifier word then .ok () else .error (.invalidIdentifier word)

def constant? : String → Option Float
  | "PI" | "π" => some 3.141592653589793
  | "E" | "e" => some 2.718281828459045
  | "Infinity" | "∞" => some Number.infinity
  | _ => none

inductive Builtin
  | unary (op : UnaryOperator)
  /-- The logarithm of the second argument to the base of the first. -/
  | log
  | print
  deriving DecidableEq, Repr

namespace Builtin

def ofName? : String → Option Builtin
  | "sqrt" => some (.unary .sqrt)
  | "sin" => some (.unary .sin)
  | "cos" => some (.unary .cos)
  | "exp" => some (.unary .exp)
  | "log" => some .log
  | "print" => some .print
  | _ => none

def arity : Builtin → Nat
  | .unary _ | .print => 1
  | .log => 2

end Builtin

def isReserved (word : String) : Bool :=
  (constant? word).isSome || (Builtin.ofName? word).isSome

/-- Checks that a word may name a variable, a parameter or a function. -/
def checkDeclared (word : String) : Except Rejection Unit := do
  checkIdentifier word
  if isReserved word then throw (.reservedIdentifier word)

end LineLang
