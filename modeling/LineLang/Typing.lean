import LineLang.Memory

/-!
# Kinds of expressions

The kind of an expression is computed before it is evaluated. The kind of a call is the kind of the
body, which is remembered with the function. A body that calls itself is followed into the call; the
limit on active calls ends this, and a conditional forgives the overflow of one branch if the other
has a kind.

- `kindWith`         : the kind of an expression, given how to enter a body
- `kindWithin`       : the same with a bound on how deep bodies are entered
- `kindOf`           : the kind of an expression
- `declarationKind`  : the kind of a function that has just been declared
-/

namespace LineLang

/-- Computations of kinds, which remember the kinds of functions. -/
abbrev Typing (α : Type) := EStateM Fault Memory α

namespace Typing

def expect (site : Site) (expected received : Kind) : Except Fault Unit :=
  if expected.accepts received then .ok () else .error (.kindMismatch site expected received)

/-- The kind of an operator between operands of two kinds. -/
def binaryKind (op : BinaryOperator) (left right : Kind) : Except Fault Kind := do
  match op.family with
  | .arithmetic | .relational =>
      expect (.binary op) .number left
      expect (.binary op) .number right
  | .logical =>
      expect (.binary op) .boolean left
      expect (.binary op) .boolean right
  | .equality => expect (.binary op) left right
  | .concatenation =>
      if left = .void ∨ right = .void then throw (.kindMismatch (.binary op) .text .void)
  return op.outputKind

/-- Checks that targets may receive a value of kind `common`. The first target that is not dynamic
fixes the kind for the ones after it. -/
def checkTargets (m : Memory) (common : Kind) : List Reference → Except Fault Unit
  | [] => .ok ()
  | target :: targets => do
      let kind := (m.slot target.slot).kind
      expect (.assignment target.name) kind common
      checkTargets m (if common = .dynamic then kind else common) targets

def assignmentKind (m : Memory) (targets : List Reference) (kind : Kind) : Except Fault Kind := do
  checkTargets m kind targets
  return kind

/-- The kind of a conditional from what its two branches came to. -/
def branchKind : Except Fault Kind → Except Fault Kind → Except Fault Kind
  | .ok a, .ok b => .ok (a.unify b)
  | _, .error .endless => .error .endless
  | .error (.stackOverflow _), .ok kind => .ok kind
  | .ok kind, .error (.stackOverflow _) => .ok kind
  | .error fault, _ => .error fault
  | _, .error fault => .error fault

/-- The kind of a body that was just entered, to be remembered with its function. -/
def remember (id : FunctionId) (body : Typing Kind) : Typing Kind := do
  match ← Effect.attempt body with
  | .ok kind =>
      modify (Memory.setReturnKind id kind)
      return kind
  | .error fault =>
      if let .stackOverflow _ := fault then modify (Memory.markOverflowed id)
      throw fault

/-- The kind that calls of a function have. A kind that is not remembered is found by entering the
body. A function that is still being declared has no body, and its calls are dynamic. -/
def answerWith (enter : Expr → Typing Kind) (id : FunctionId) : Typing Kind := do
  let f := (← get).function id
  match f.returnKind, f.body with
  | some kind, _ => return kind
  | none, none => return .dynamic
  | none, some body =>
      if f.overflowed then throw (.stackOverflow f.name)
      else do
        Effect.update (·.enter id)
        Effect.ensuring (Memory.leave id) (remember id (enter body))

/-- The kind of a call with `count` arguments, whose kinds are computed by `arguments`. -/
def callKindWith (enter : Expr → Typing Kind) (id : FunctionId) (count : Nat)
    (arguments : Typing Unit) : Typing Kind := do
  Effect.ofExcept (((← get).function id).checkArity count)
  arguments
  answerWith enter id

mutual

/-- The kind of an expression, given how the body of a called function is entered. -/
def kindWith (enter : Expr → Typing Kind) : Expr → Typing Kind
  | .literal value => pure value.kind
  | .variable reference => do return ((← get).slot reference.slot).kind
  | .unary op operand => do
      let kind ← kindWith enter operand
      Effect.ofExcept (expect (.unary op) op.inputKind kind)
      return op.outputKind
  | .binary op left right => do
      let l ← kindWith enter left
      let r ← kindWith enter right
      Effect.ofExcept (binaryKind op l r)
  | .assign targets value => do
      let kind ← kindWith enter value
      Effect.ofExcept (assignmentKind (← get) targets kind)
  | .call _ function arguments _ =>
      callKindWith enter function arguments.length (argumentsWith enter arguments)
  | .print argument => kindWith enter argument
  | .declaration _ _ => pure .void
  | .letIn declarations body => do
      declarationsWith enter declarations
      kindWith enter body
  | .conditional condition consequent alternative => do
      let kind ← kindWith enter condition
      Effect.ofExcept (expect .condition .boolean kind)
      let a ← Effect.attempt (kindWith enter consequent)
      let b ← Effect.attempt (kindWith enter alternative)
      Effect.ofExcept (branchKind a b)

def argumentsWith (enter : Expr → Typing Kind) : List Expr → Typing Unit
  | [] => pure ()
  | argument :: arguments => do
      let _ ← kindWith enter argument
      argumentsWith enter arguments

/-- Checks the initializers that are evaluated where they stand; the others are checked when
read. -/
def declarationsWith (enter : Expr → Typing Kind) : List (Declaration Expr) → Typing Unit
  | [] => pure ()
  | ⟨name, _, declared, initializer, dependent⟩ :: declarations => do
      if dependent then declarationsWith enter declarations
      else do
        let kind ← kindWith enter initializer
        Effect.ofExcept (expect (.variable name) declared kind)
        declarationsWith enter declarations

end

/-- The kind of an expression when bodies are entered at most `depth` deep. -/
def kindWithin : Nat → Expr → Typing Kind
  | 0 => fun _ => throw .endless
  | depth + 1 => kindWith (kindWithin depth)

/-- How deep bodies can be entered before the limit on calls of one of the functions is reached. -/
def depthBound (m : Memory) : Nat :=
  callLimit * m.functions.size + 1

def kindOf (e : Expr) : Typing Kind := do
  kindWithin (depthBound (← get)) e

/-- The kind of a function that has just been declared, computed inside one call of it. -/
def declarationKind (id : FunctionId) : Typing Kind := do
  let f := (← get).function id
  match f.body with
  | none => throw (.incomplete f.name)
  | some body => do
      Effect.update (·.enter id)
      let kind ← Effect.ensuring (Memory.leave id) (kindOf body)
      modify (Memory.setReturnKind id kind)
      return kind

end Typing
end LineLang
