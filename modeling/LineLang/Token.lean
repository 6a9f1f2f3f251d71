import LineLang.Operator

/-!
# Tokens

The words and signs of a source line.

- `Symbol`, `Keyword`   : the signs and the reserved words
- `Token`               : a token with what it stands for
- `Token.display`       : the source text of a token
- `Token.endsOperand`   : may an operand end here
-/

namespace LineLang

inductive Symbol
  | openParen
  | closeParen
  | comma
  | semicolon
  | arrow
  | assign
  | equalEqual
  | bangEqual
  | lessEqual
  | greaterEqual
  | doubleAmpersand
  | doublePipe
  | doubleAt
  | equals
  | less
  | greater
  | bang
  | ampersand
  | pipe
  | atSign
  | plus
  | minus
  | star
  | slash
  | percent
  | caret
  deriving DecidableEq, Repr

namespace Symbol

def spelling : Symbol → String
  | .openParen => "("
  | .closeParen => ")"
  | .comma => ","
  | .semicolon => ";"
  | .arrow => "=>"
  | .assign => ":="
  | .equalEqual => "=="
  | .bangEqual => "!="
  | .lessEqual => "<="
  | .greaterEqual => ">="
  | .doubleAmpersand => "&&"
  | .doublePipe => "||"
  | .doubleAt => "@@"
  | .equals => "="
  | .less => "<"
  | .greater => ">"
  | .bang => "!"
  | .ampersand => "&"
  | .pipe => "|"
  | .atSign => "@"
  | .plus => "+"
  | .minus => "-"
  | .star => "*"
  | .slash => "/"
  | .percent => "%"
  | .caret => "^"

def binary? : Symbol → Option BinaryOperator
  | .doublePipe => some .orElse
  | .pipe => some .or
  | .doubleAmpersand => some .andThen
  | .ampersand => some .and
  | .equalEqual => some .equal
  | .bangEqual => some .notEqual
  | .less => some .less
  | .greater => some .greater
  | .lessEqual => some .lessEqual
  | .greaterEqual => some .greaterEqual
  | .atSign => some .concat
  | .doubleAt => some .concatSpaced
  | .plus => some .add
  | .minus => some .sub
  | .star => some .mul
  | .slash => some .div
  | .percent => some .mod
  | .caret => some .pow
  | _ => none

def unary? : Symbol → Option UnaryOperator
  | .bang => some .not
  | .plus => some .plus
  | .minus => some .minus
  | _ => none

end Symbol

inductive Keyword
  | functionWord
  | letWord
  | inWord
  | ifWord
  | elseWord
  deriving DecidableEq, Repr

def Keyword.spelling : Keyword → String
  | .functionWord => "function"
  | .letWord => "let"
  | .inWord => "in"
  | .ifWord => "if"
  | .elseWord => "else"

inductive Token
  /-- The text between two quotes. -/
  | text (contents : String)
  | boolean (value : Bool)
  | typeName (kind : Kind)
  | keyword (name : Keyword)
  | symbol (sign : Symbol)
  /-- Any other word: a number, a name, or neither. -/
  | word (spelling : String)
  deriving DecidableEq, Repr

namespace Token

def display : Token → String
  | .text contents => "\"" ++ contents ++ "\""
  | .boolean b => if b then "true" else "false"
  | .typeName kind => kind.name
  | .keyword k => k.spelling
  | .symbol sign => sign.spelling
  | .word w => w

/-- Whether an operand may end with this token, so that a sign after it is a binary operator. -/
def endsOperand : Token → Bool
  | .text _ | .boolean _ | .word _ | .symbol .closeParen => true
  | _ => false

def binary? : Token → Option BinaryOperator
  | .symbol sign => sign.binary?
  | _ => none

def ofWord (w : String) : Token :=
  match w with
  | "true" => .boolean true
  | "false" => .boolean false
  | "number" => .typeName .number
  | "boolean" => .typeName .boolean
  | "string" => .typeName .text
  | "function" => .keyword .functionWord
  | "let" => .keyword .letWord
  | "in" => .keyword .inWord
  | "if" => .keyword .ifWord
  | "else" => .keyword .elseWord
  | _ => .word w

/-- How many parentheses are open after a token. One that closes nothing is passed over. -/
def depthAfter (depth : Nat) : Token → Nat
  | .symbol .openParen => depth + 1
  | .symbol .closeParen => depth - 1
  | _ => depth

end Token
end LineLang
