import LineLang.Operator

/-!
# Diagnostics

What can go wrong, as causes, and the one place where each cause gets its words.

- `Fault`       : found while computing a kind or evaluating
- `Rejection`   : found while reading an instruction
- `Diagnostic`  : what a session reports
-/

namespace LineLang

/-- How many calls of one function may be active at once. -/
def callLimit : Nat := 128

inductive Category
  | lexical
  | syntactic
  | semantic
  | arithmetic
  | overflow
  | reference
  deriving DecidableEq, Repr

def Category.name : Category → String
  | .lexical => "Lexical"
  | .syntactic => "Syntax"
  | .semantic => "Semantic"
  | .arithmetic => "Arithmetic"
  | .overflow => "Overflow"
  | .reference => "Reference"

/-! ## Faults -/

inductive Site
  | unary (operator : UnaryOperator)
  | binary (operator : BinaryOperator)
  | variable (name : String)
  | assignment (name : String)
  | condition
  /-- A place in the program around the interpreter, in its own words. -/
  | external (description : String)
  deriving DecidableEq, Repr

def Site.describe : Site → String
  | .unary op => "operator '" ++ op.spelling ++ "'"
  | .binary op => "operator '" ++ op.spelling ++ "'"
  | .variable name => "variable '" ++ name ++ "'"
  | .assignment name => "assignment to '" ++ name ++ "'"
  | .condition => "if condition"
  | .external description => description

inductive Fault
  | kindMismatch (site : Site) (expected received : Kind)
  | argumentCount (function : String) (expected found : Nat)
  | divisionByZero (operator : BinaryOperator)
  | stackOverflow (function : String)
  | uninitialized (name : String)
  | incomplete (function : String)
  | alreadyDefined (function : String)
  /-- Evaluation jumps from one stored expression to the next without an end. -/
  | endless
  deriving DecidableEq, Repr

namespace Fault

def category : Fault → Category
  | .kindMismatch .. | .argumentCount .. => .semantic
  | .divisionByZero _ => .arithmetic
  | .stackOverflow _ | .endless => .overflow
  | .uninitialized _ | .incomplete _ | .alreadyDefined _ => .reference

def message : Fault → String
  | .kindMismatch site expected received =>
      site.describe ++ " expected " ++ expected.name ++ " but received " ++ received.name ++ "."
  | .argumentCount function expected found =>
      "function '" ++ function ++ "' takes " ++ toString expected ++ " argument(s) but " ++
        toString found ++ " were given."
  | .divisionByZero op => "division by zero in operator '" ++ op.spelling ++ "'."
  | .stackOverflow function =>
      "function '" ++ function ++ "' exceeded the call-stack limit of " ++ toString callLimit ++ "."
  | .uninitialized name => "variable '" ++ name ++ "' is used before it is initialized."
  | .incomplete function =>
      "function '" ++ function ++ "' is called before its body is defined."
  | .alreadyDefined function => "function '" ++ function ++ "' is already defined."
  | .endless => "evaluation does not end."

end Fault

/-! ## Rejections -/

inductive Form
  | unary (operator : UnaryOperator)
  | binary (operator : BinaryOperator)
  | assignment
  | assignmentTargets
  | arguments (function : String)
  | parentheses
  | functionDeclaration
  | letExpression
  | letDeclaration
  | ifExpression
  deriving DecidableEq, Repr

def Form.describe : Form → String
  | .unary op => "'" ++ op.spelling ++ "' expression"
  | .binary op => "'" ++ op.spelling ++ "' expression"
  | .assignment => "':=' expression"
  | .assignmentTargets => "assignment targets"
  | .arguments function => "arguments of '" ++ function ++ "'"
  | .parentheses => "parentheses"
  | .functionDeclaration => "function declaration"
  | .letExpression => "'let' expression"
  | .letDeclaration => "'let' declaration"
  | .ifExpression => "'if' expression"

/-- The parts of a form that may be missing. -/
inductive Part
  | operand
  | leftOperand
  | rightOperand
  | assignmentTarget
  | assignedValue
  | expression
  | functionName
  | parameterList
  | parameterName
  | arrow
  | body
  | inKeyword
  | declarations
  | variableName
  | equals
  | initializer
  | openParenthesis
  | condition
  | elseKeyword
  | thenBranch
  | elseBranch
  deriving DecidableEq, Repr

def Part.describe : Part → String
  | .operand => "operand"
  | .leftOperand => "left operand"
  | .rightOperand => "right operand"
  | .assignmentTarget => "assignment target"
  | .assignedValue => "value"
  | .expression => "expression"
  | .functionName => "function name"
  | .parameterList => "parameter list"
  | .parameterName => "parameter name"
  | .arrow => "'=>'"
  | .body => "body"
  | .inKeyword => "'in'"
  | .declarations => "declarations"
  | .variableName => "variable name"
  | .equals => "'='"
  | .initializer => "initializer"
  | .openParenthesis => "'('"
  | .condition => "condition"
  | .elseKeyword => "'else'"
  | .thenBranch => "then branch"
  | .elseBranch => "else branch"

inductive Side
  | opening
  | closing
  deriving DecidableEq, Repr

def Side.spelling : Side → String
  | .opening => "("
  | .closing => ")"

inductive Rejection
  | unrecognizedToken (fragment : String)
  | invalidIdentifier (name : String)
  | invalidNumber (literal : String)
  | reservedIdentifier (name : String)
  | missing (part : Part) (form : Form)
  | malformedList (form : Form)
  | unmatchedParenthesis (missing : Side)
  | invalidExpression (text : String)
  | freeVariableDeclaration
  | nestedFunctionDeclaration
  | duplicateParameter (function name : String)
  | unknownVariable (name : String)
  | unknownFunction (name : String)
  | notAssignable (name : String)
  | mayExceedCallStack (function : String)
  /-- A fault found before the instruction runs. -/
  | static (fault : Fault)
  deriving DecidableEq, Repr

namespace Rejection

def category : Rejection → Category
  | .unrecognizedToken _ | .invalidIdentifier _ | .invalidNumber _ | .reservedIdentifier _ =>
      .lexical
  | .missing .. | .malformedList _ | .unmatchedParenthesis _ | .invalidExpression _
  | .freeVariableDeclaration | .nestedFunctionDeclaration => .syntactic
  | .duplicateParameter .. | .unknownVariable _ | .unknownFunction _ => .reference
  | .notAssignable _ => .semantic
  | .mayExceedCallStack _ => .overflow
  | .static fault => fault.category

def message : Rejection → String
  | .unrecognizedToken fragment => "unrecognized token '" ++ fragment ++ "'."
  | .invalidIdentifier name => "'" ++ name ++ "' is not a valid identifier."
  | .invalidNumber literal => "'" ++ literal ++ "' is not a valid number."
  | .reservedIdentifier name => "identifier '" ++ name ++ "' is reserved."
  | .missing part form => "missing " ++ part.describe ++ " in " ++ form.describe ++ "."
  | .malformedList form => "misplaced ',' in " ++ form.describe ++ "."
  | .unmatchedParenthesis side => "missing '" ++ side.spelling ++ "'."
  | .invalidExpression text => "'" ++ text ++ "' is not a valid expression."
  | .freeVariableDeclaration => "variables can only be declared inside a 'let' expression."
  | .nestedFunctionDeclaration => "functions can only be declared as a whole instruction."
  | .duplicateParameter function name =>
      "function '" ++ function ++ "' declares parameter '" ++ name ++ "' more than once."
  | .unknownVariable name => "variable '" ++ name ++ "' is not defined."
  | .unknownFunction name => "function '" ++ name ++ "' is not defined."
  | .notAssignable name => "cannot assign to '" ++ name ++ "'."
  | .mayExceedCallStack function =>
      "function '" ++ function ++ "' may exceed the call-stack limit of " ++ toString callLimit ++
        "."
  | .static fault => fault.message

end Rejection

/-! ## Reported diagnostics -/

inductive Cause
  | rejected (rejection : Rejection)
  | failed (fault : Fault)
  deriving DecidableEq, Repr

namespace Cause

def category : Cause → Category
  | .rejected rejection => rejection.category
  | .failed fault => fault.category

def detail : Cause → String
  | .rejected rejection => rejection.message
  | .failed fault => fault.message

def message (c : Cause) : String :=
  c.category.name ++ " error: " ++ c.detail

end Cause

/-- The place of an instruction on its line, counted from one. -/
structure Position where
  index : Nat
  total : Nat
  deriving DecidableEq, Repr

/-- A cause, with the place of the instruction when its line holds several. -/
structure Diagnostic where
  cause : Cause
  position : Option Position := none
  deriving DecidableEq, Repr

namespace Diagnostic

def category (d : Diagnostic) : Category :=
  d.cause.category

def message (d : Diagnostic) : String :=
  match d.position with
  | none => d.cause.message
  | some p =>
      "Instruction " ++ toString p.index ++ " of " ++ toString p.total ++ ": " ++ d.cause.message

/-- The texts of what a diagnostic wraps, outermost first. -/
def sources (d : Diagnostic) : List String :=
  match d.position with
  | none => [d.cause.detail]
  | some _ => [d.cause.message, d.cause.detail]

end Diagnostic
end LineLang
