/-!
# Kinds

The static kind of an expression, a storage slot or a value. `dynamic` is the kind of whatever is
not known before evaluation, such as a parameter, and goes together with every kind.

- `Kind.accepts`  : may one kind stand where another is expected
- `Kind.unify`    : the kind of two alternatives
-/

namespace LineLang

inductive Kind
  | void
  | number
  | boolean
  | text
  | dynamic
  deriving DecidableEq, Repr

namespace Kind

def name : Kind → String
  | .void => "void"
  | .number => "number"
  | .boolean => "boolean"
  | .text => "string"
  | .dynamic => "dynamic"

/-- Whether something of kind `received` may be used where `expected` is asked for. -/
def accepts (expected received : Kind) : Bool :=
  expected = .dynamic ∨ received = .dynamic ∨ expected = received

/-- The kind of an expression that is one of two alternatives. -/
def unify (a b : Kind) : Kind :=
  if a = b then a else .dynamic

end Kind
end LineLang
