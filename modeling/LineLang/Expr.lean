import LineLang.Value

/-!
# Expressions

Instructions after their names have been resolved: a variable is a handle of a storage slot and a
called function is a handle of a declaration.

- `Reference`         : a variable with its slot
- `Declaration`       : one binding of a `let`
- `Expr`              : expressions
- `Expr.isDependent`  : may a value change from one evaluation to the next
-/

namespace LineLang

abbrev SlotId := Nat

abbrev FunctionId := Nat

/-- A variable with its slot. It is dependent if its value has to be read anew each time. -/
structure Reference where
  name : String
  slot : SlotId
  dependent : Bool
  deriving DecidableEq, Repr

/-- One binding of a `let`, over a type of initializers. -/
structure Declaration (α : Type) where
  name : String
  slot : SlotId
  kind : Kind
  initializer : α
  dependent : Bool
  deriving Repr

inductive Expr
  | literal (value : Value)
  | variable (reference : Reference)
  | unary (op : UnaryOperator) (operand : Expr)
  | binary (op : BinaryOperator) (left right : Expr)
  | assign (targets : List Reference) (value : Expr)
  | call (name : String) (function : FunctionId) (arguments : List Expr) (dependent : Bool)
  | print (argument : Expr)
  | declaration (name : String) (function : FunctionId)
  | letIn (declarations : List (Declaration Expr)) (body : Expr)
  | conditional (condition consequent alternative : Expr)
  deriving Repr

namespace Expr

/-- Whether the value may change from one evaluation to the next: the expression reads a dependent
variable or calls a function that is still being declared. -/
def isDependent : Expr → Bool
  | .literal _ => false
  | .variable r => r.dependent
  | .unary _ e => e.isDependent
  | .binary _ l r => l.isDependent || r.isDependent
  | .assign targets e => e.isDependent || targets.any (·.dependent)
  | .call _ _ _ dependent => dependent
  | .print e => e.isDependent
  | .declaration _ _ => false
  | .letIn declarations body => declarations.any (·.dependent) || body.isDependent
  | .conditional c t e => c.isDependent || t.isDependent || e.isDependent

end Expr
end LineLang
