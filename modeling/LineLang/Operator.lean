import LineLang.Kind

/-!
# Operators

Operators of one and of two operands, with their spelling and the kinds they ask for and give. The
functions `sqrt`, `sin`, `cos`, `exp` and `log` are operators written as calls.

- `UnaryOperator`, `BinaryOperator`  : the operators
- `OperatorClass`                    : what a binary operator asks of its operands
-/

namespace LineLang

inductive UnaryOperator
  | not
  | plus
  | minus
  | sqrt
  | sin
  | cos
  | exp
  deriving DecidableEq, Repr

namespace UnaryOperator

def spelling : UnaryOperator → String
  | .not => "!"
  | .plus => "+"
  | .minus => "-"
  | .sqrt => "sqrt"
  | .sin => "sin"
  | .cos => "cos"
  | .exp => "exp"

def inputKind : UnaryOperator → Kind
  | .not => .boolean
  | _ => .number

def outputKind : UnaryOperator → Kind
  | .not => .boolean
  | _ => .number

end UnaryOperator

inductive OperatorClass
  | arithmetic
  | logical
  | relational
  | equality
  | concatenation
  deriving DecidableEq, Repr

inductive BinaryOperator
  | add
  | sub
  | mul
  | div
  | mod
  | pow
  | log
  /-- Conjunction that leaves the right operand alone when the left one is false. -/
  | andThen
  /-- Disjunction that leaves the right operand alone when the left one is true. -/
  | orElse
  | and
  | or
  | equal
  | notEqual
  | less
  | greater
  | lessEqual
  | greaterEqual
  | concat
  /-- Concatenation with a space between the two texts. -/
  | concatSpaced
  deriving DecidableEq, Repr

namespace BinaryOperator

def spelling : BinaryOperator → String
  | .add => "+"
  | .sub => "-"
  | .mul => "*"
  | .div => "/"
  | .mod => "%"
  | .pow => "^"
  | .log => "log"
  | .andThen => "&&"
  | .orElse => "||"
  | .and => "&"
  | .or => "|"
  | .equal => "=="
  | .notEqual => "!="
  | .less => "<"
  | .greater => ">"
  | .lessEqual => "<="
  | .greaterEqual => ">="
  | .concat => "@"
  | .concatSpaced => "@@"

def family : BinaryOperator → OperatorClass
  | .add | .sub | .mul | .div | .mod | .pow | .log => .arithmetic
  | .andThen | .orElse | .and | .or => .logical
  | .less | .greater | .lessEqual | .greaterEqual => .relational
  | .equal | .notEqual => .equality
  | .concat | .concatSpaced => .concatenation

def outputKind (op : BinaryOperator) : Kind :=
  match op.family with
  | .arithmetic => .number
  | .logical | .relational | .equality => .boolean
  | .concatenation => .text

end BinaryOperator
end LineLang
