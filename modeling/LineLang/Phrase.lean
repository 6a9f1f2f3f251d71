import LineLang.Layout

/-!
# Phrases

The tree of forms of an instruction, in which names are still words. It is built from the layout of
a window and of the windows of its parts, which are always shorter.

- `Phrase`              : the tree
- `Phrase.ofWindow`     : the tree of a window
- `Instruction`         : an expression or the declaration of a function
- `Instruction.ofTokens`  : the instruction written by the tokens
-/

namespace LineLang

inductive Phrase
  | malformed (rejection : Rejection)
  | literal (value : Value)
  | name (word : String)
  | prefixed (op : UnaryOperator) (operand : Phrase)
  | infixed (op : BinaryOperator) (left right : Phrase)
  | assignment (targets : List Target) (value : Phrase)
  | call (function : String) (arguments : List Phrase)
  | conditional (condition consequent alternative : Phrase)
  | letIn (clauses : List (Clause Phrase)) (body : Phrase)
  deriving Repr

/-- The tree of a layout, given the trees of its windows. -/
def Layout.build (part : Window → Phrase) : Layout → Phrase
  | .malformed rejection => .malformed rejection
  | .literal value => .literal value
  | .name word => .name word
  | .prefixed op operand => .prefixed op (part operand)
  | .infixed op left right => .infixed op (part left) (part right)
  | .parenthesized inside => part inside
  | .assignment targets value => .assignment targets (part value)
  | .call function arguments => .call function (arguments.map part)
  | .conditional condition consequent alternative =>
      .conditional (part condition) (part consequent) (part alternative)
  | .letIn clauses body => .letIn (clauses.map (·.map part)) (part body)

namespace Phrase

/-- The tree of a window when forms are taken apart at most `depth` deep. -/
def ofWindowWithin : Nat → Window → Phrase
  | 0 => fun w => .malformed (.invalidExpression w.render)
  | depth + 1 => fun w => (Layout.ofWindow w).build (ofWindowWithin depth)

/-- The tree of a window. Forms are not nested deeper than there are tokens. -/
def ofWindow (w : Window) : Phrase :=
  ofWindowWithin (w.length + 1) w

end Phrase

/-! ## Instructions -/

inductive Instruction
  | rejected (rejection : Rejection)
  | expression (phrase : Phrase)
  /-- The declaration of a function with its parameters and body. The name is checked against the
  registered functions before faults of what follows it are reported. -/
  | declaration (name : String) (definition : Except Rejection (List String × Phrase))

namespace Instruction

def parameter (w : Window) : Except Rejection String :=
  match w with
  | [.word name] => do
      checkDeclared name
      return name
  | _ => .error (.missing .parameterName .functionDeclaration)

/-- What follows the name of a function: parameters, an arrow and a body. -/
def definition : Window → Except Rejection (List String × Phrase)
  | .symbol .openParen :: ts =>
      match Window.enclosed? .openParen .closeParen 0 ts with
      | none => .error (.unmatchedParenthesis .closing)
      | some (inside, rest) => do
          let parameters ← (← Window.items .functionDeclaration inside).mapM parameter
          match rest with
          | [.symbol .arrow] => .error (.missing .body .functionDeclaration)
          | .symbol .arrow :: body => .ok (parameters, Phrase.ofWindow body)
          | _ => .error (.missing .arrow .functionDeclaration)
  | _ => .error (.missing .parameterList .functionDeclaration)

/-- What follows `function`: a name and a definition. -/
def declarationOf : Window → Instruction
  | .word name :: ts =>
      match checkDeclared name with
      | .error rejection => .rejected rejection
      | .ok _ => .declaration name (definition ts)
  | _ => .rejected (.missing .functionName .functionDeclaration)

def ofTokens (ts : List Token) : Instruction :=
  match Window.checkBalance ts with
  | .error rejection => .rejected rejection
  | .ok _ =>
      match ts with
      | .keyword .functionWord :: rest => declarationOf rest
      | _ => .expression (Phrase.ofWindow ts)

end Instruction
end LineLang
