import LineLang.Name
import LineLang.Number.Text
import LineLang.Value
import LineLang.Window

/-!
# Layout of a window

The outermost form of a window of tokens, with the windows of its parts. Forms are tried in a fixed
order: statements, assignment, binary operators from the loosest to the tightest, powers, prefix
operators and parentheses, and at last literals, names and calls. A window that has no form, or
whose form lacks a part, is malformed; its fault is reported when a reader comes to it.

- `Target`, `Clause`    : what is assigned to, and the bindings of a `let`
- `Layout`              : the forms
- `Layout.ofWindow`     : the form of a window
- `Layout.windows`      : the windows of the parts
-/

namespace LineLang

inductive Target
  | variable (name : String)
  | malformed (rejection : Rejection)
  deriving DecidableEq, Repr

/-- A binding of a `let`, over a type of initializers. -/
inductive Clause (α : Type)
  | binding (declared : Option Kind) (name : String) (initializer : α)
  | malformed (rejection : Rejection)
  deriving DecidableEq, Repr

namespace Clause

def map {α β : Type} (f : α → β) : Clause α → Clause β
  | .binding declared name initializer => .binding declared name (f initializer)
  | .malformed rejection => .malformed rejection

def initializer? {α : Type} : Clause α → Option α
  | .binding _ _ initializer => some initializer
  | .malformed _ => none

end Clause

inductive Layout
  | malformed (rejection : Rejection)
  | literal (value : Value)
  | name (word : String)
  | prefixed (op : UnaryOperator) (operand : Window)
  | infixed (op : BinaryOperator) (left right : Window)
  | parenthesized (inside : Window)
  | assignment (targets : List Target) (value : Window)
  | call (function : String) (arguments : List Window)
  | conditional (condition consequent alternative : Window)
  | letIn (clauses : List (Clause Window)) (body : Window)
  deriving DecidableEq, Repr

namespace Layout

def windows : Layout → List Window
  | .malformed _ | .literal _ | .name _ => []
  | .prefixed _ operand => [operand]
  | .infixed _ left right => [left, right]
  | .parenthesized inside => [inside]
  | .assignment _ value => [value]
  | .call _ arguments => arguments
  | .conditional condition consequent alternative => [condition, consequent, alternative]
  | .letIn clauses body => clauses.filterMap Clause.initializer? ++ [body]

def missing (part : Part) (form : Form) : Layout :=
  .malformed (.missing part form)

/-! ## Statements -/

/-- A binding: an optional kind, a name, an equals sign and an initializer. -/
def clause (w : Window) : Clause Window :=
  let (declared, rest) := match w with
    | .typeName kind :: rest => (some kind, rest)
    | _ => (none, w)
  match rest with
  | .word word :: rest =>
      match checkDeclared word, rest with
      | .error rejection, _ => .malformed rejection
      | .ok _, [.symbol .equals] => .malformed (.missing .initializer .letDeclaration)
      | .ok _, .symbol .equals :: initializer => .binding declared word initializer
      | .ok _, _ => .malformed (.missing .equals .letDeclaration)
  | _ => .malformed (.missing .variableName .letDeclaration)

/-- What follows `let`: bindings up to the `in` that belongs to it, then a body. -/
def letForm (w : Window) : Layout :=
  match Window.matching? .letWord .inWord 0 w with
  | none => missing .inKeyword .letExpression
  | some ([], _) => missing .declarations .letExpression
  | some (_, []) => missing .body .letExpression
  | some (declarations, body) =>
      match Window.items .letExpression declarations with
      | .error rejection => .malformed rejection
      | .ok clauses => .letIn (clauses.map clause) body

/-- What follows the condition of an `if`: two branches around the `else` that belongs to it. -/
def branches (condition w : Window) : Layout :=
  match Window.matching? .ifWord .elseWord 0 w with
  | none => missing .elseKeyword .ifExpression
  | some ([], _) => missing .thenBranch .ifExpression
  | some (_, []) => missing .elseBranch .ifExpression
  | some (consequent, alternative) => .conditional condition consequent alternative

def ifForm : Window → Layout
  | .symbol .openParen :: ts =>
      match Window.enclosed? .openParen .closeParen 0 ts with
      | none => .malformed (.unmatchedParenthesis .closing)
      | some ([], _) => missing .condition .ifExpression
      | some (condition, rest) => branches condition rest
  | _ => missing .openParenthesis .ifExpression

/-- Forms that begin with a keyword. -/
def statement? : Window → Option Layout
  | .keyword .letWord :: ts => some (letForm ts)
  | .keyword .ifWord :: ts => some (ifForm ts)
  | .keyword .functionWord :: _ => some (.malformed .nestedFunctionDeclaration)
  | .typeName _ :: _ => some (.malformed .freeVariableDeclaration)
  | _ => none

/-! ## Assignment -/

/-- Only a name that is not a constant can be assigned to. -/
def target (w : Window) : Target :=
  match w with
  | [.word word] =>
      match constant? word with
      | some _ => .malformed (.notAssignable word)
      | none => .variable word
  | _ => .malformed (.notAssignable (Window.render w))

/-- Targets, the assignment sign and a value. The sign stands in `head`, the part of the window
before a statement, and the value may reach over the rest of it, `tail`. -/
def assignment? (head tail : Window) : Option Layout :=
  (Window.firstTop? (· = .symbol .assign) head).map fun c =>
    match c.before, c.after ++ tail with
    | [], _ => missing .assignmentTarget .assignment
    | _, [] => missing .assignedValue .assignment
    | targets, value =>
        match Window.items .assignmentTargets targets with
        | .error rejection => .malformed rejection
        | .ok targets => .assignment (targets.map target) value

/-! ## Operators -/

/-- Operators between two operands, from the loosest to the tightest. Powers are tighter still. -/
def levels : List (List BinaryOperator) :=
  [[.orElse, .or], [.andThen, .and], [.equal, .notEqual],
   [.less, .greater, .lessEqual, .greaterEqual], [.concat, .concatSpaced], [.add, .sub],
   [.mul, .div, .mod]]

/-- Whether a token is an operator of a level between two operands. A plus or minus sign is one if
an operand ends just before it. -/
def isInfix (level : List BinaryOperator) (t : Token) (previous : Option Token) : Bool :=
  match t.binary? with
  | none => false
  | some op =>
      level.contains op &&
        match op with
        | .add | .sub => previous.any Token.endsOperand
        | _ => true

def infixedAt (op : BinaryOperator) (left right : Window) : Layout :=
  match left, right with
  | [], _ => missing .leftOperand (.binary op)
  | _, [] => missing .rightOperand (.binary op)
  | left, right => .infixed op left right

def atLevel? (head tail : Window) (level : List BinaryOperator) : Option Layout :=
  (Window.lastTop? (isInfix level) head).bind fun c =>
    c.token.binary?.map fun op => infixedAt op c.before (c.after ++ tail)

/-- The last operator of the loosest level that has one. -/
def infixed? (head tail : Window) : Option Layout :=
  levels.findSome? (atLevel? head tail)

def power? (head tail : Window) : Option Layout :=
  (Window.firstTop? (· = .symbol .caret) head).map fun c =>
    infixedAt .pow c.before (c.after ++ tail)

/-- A prefix operator, or parentheses around the whole window. -/
def prefixed? : Window → Option Layout
  | .symbol .openParen :: ts =>
      match Window.enclosed? .openParen .closeParen 0 ts with
      | some ([], []) => some (missing .expression .parentheses)
      | some (inside, []) => some (.parenthesized inside)
      | _ => none
  | .symbol sign :: ts =>
      sign.unary?.map fun op =>
        match ts with
        | [] => missing .operand (.unary op)
        | operand => .prefixed op operand
  | _ => none

/-! ## Literals, names and calls -/

/-- A word that begins like a number has to be one; any other is a constant or a name. -/
def ofWord (word : String) : Layout :=
  if word.toList.head?.any fun c => c.isDigit || c = '.' then
    match Number.read? word with
    | some x => .literal (.number x)
    | none => .malformed (.invalidNumber word)
  else
    match constant? word with
    | some x => .literal (.number x)
    | none => if isIdentifier word then .name word else .malformed (.invalidIdentifier word)

/-- A literal, a name, or a call that takes up the whole window. -/
def primary? : Window → Option Layout
  | [.boolean b] => some (.literal (.boolean b))
  | [.text s] => some (.literal (.text s))
  | [.word word] => some (ofWord word)
  | .word function :: .symbol .openParen :: ts =>
      match Window.enclosed? .openParen .closeParen 0 ts with
      | some (inside, []) =>
          match Window.items (.arguments function) inside with
          | .error rejection => some (.malformed rejection)
          | .ok arguments => some (.call function arguments)
      | _ => none
  | _ => none

def form? (w : Window) : Option Layout :=
  let (head, tail) := Window.beforeStatement w
  statement? w <|> assignment? head tail <|> infixed? head tail <|> power? head tail <|>
    prefixed? w <|> primary? w

def ofWindow (w : Window) : Layout :=
  (form? w).getD (.malformed (.invalidExpression (Window.render w)))

end Layout
end LineLang
