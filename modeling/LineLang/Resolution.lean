import LineLang.Evaluation
import LineLang.Phrase
import LineLang.Typing

/-!
# Resolution of names

A phrase becomes an expression when its names are replaced by handles. Slots for variables are added
on the way: a binding gets its slot after its initializer has been resolved and has a kind, and an
initializer that is not dependent is evaluated at once, so that the kind and the value of what
follows can be computed.

- `Scope`                    : the variables in force and the function being declared
- `Resolution.fill`          : what the slot of a variable holds before anything is evaluated
- `Resolution.resolveWith`   : the expression of a phrase
- `Resolution.draftWith`     : a function and its body
- `Resolution.ofInstructionWith`  : the expression of an instruction
- `parse`                    : the expression written by the tokens
-/

namespace LineLang

/-- The variables in force, the innermost first, and the function being declared. -/
structure Scope where
  bindings : List (String × SlotId) := []
  declaring : Option (String × FunctionId) := none
  deriving DecidableEq, Repr

def Scope.bind (s : Scope) (name : String) (slot : SlotId) : Scope :=
  { s with bindings := (name, slot) :: s.bindings }

abbrev Resolution (α : Type) := EStateM Rejection Memory α

namespace Resolution

/-- A fault found before the instruction runs. -/
def static {α : Type} (action : EStateM Fault Memory α) : Resolution α :=
  Effect.mapError .static action

/-- The innermost variable of a name. -/
def reference (scope : Scope) (name : String) : Resolution Reference := do
  match scope.bindings.lookup name with
  | some slot => return ⟨name, slot, ((← get).slot slot).dependent⟩
  | none => throw (.unknownVariable name)

def targets (scope : Scope) : List Target → Resolution (List Reference)
  | [] => pure []
  | .malformed rejection :: _ => throw rejection
  | .variable name :: rest => do
      let r ← reference scope name
      let rs ← targets scope rest
      return r :: rs

/-! ## Calls -/

def builtinCall : Builtin → List Expr → Option Expr
  | .unary op, [e] => some (.unary op e)
  | .log, [base, e] => some (.binary .log base e)
  | .print, [e] => some (.print e)
  | _, _ => none

/-- A call by name: of a function of the language, a registered function, or the function being
declared, whose calls are dependent. -/
def callee (scope : Scope) (name : String) (arguments : List Expr) : Resolution Expr := do
  match Builtin.ofName? name with
  | some builtin =>
      match builtinCall builtin arguments with
      | some e => return e
      | none => throw (.static (.argumentCount name builtin.arity arguments.length))
  | none =>
      Effect.ofExcept (checkIdentifier name)
      match (← get).lookup? name, scope.declaring with
      | some id, _ => return .call name id arguments (arguments.any Expr.isDependent)
      | none, some (declaring, id) =>
          if declaring = name then return .call name id arguments true
          else throw (.unknownFunction name)
      | none, none => throw (.unknownFunction name)

/-! ## Bindings -/

/-- The kind of a variable from the declared kind, if any, and the kind of its initializer. -/
def settleKind (name : String) (declared : Option Kind) (inferred : Kind) : Except Fault Kind :=
  match declared with
  | none => .ok inferred
  | some kind =>
      if kind.accepts inferred then .ok kind
      else .error (.kindMismatch (.variable name) kind inferred)

/-- Fills the slot of a variable: with the initializer itself if that is dependent, and otherwise
with its value. -/
def fill (d : Declaration Expr) : Resolution Unit :=
  if d.dependent then modify (·.replace d.slot (.dependent d.initializer))
  else do
    let v ← static (Evaluation.probe d.initializer)
    static (Effect.update (·.write d.slot v))

/-- Adds the slot of a variable, given how it is filled. -/
def declareWith (fill : Declaration Expr → Resolution Unit) (declared : Option Kind) (name : String)
    (initializer : Expr) : Resolution (Declaration Expr) := do
  let inferred ← static (Typing.kindOf initializer)
  let kind ← static (Effect.ofExcept (settleKind name declared inferred))
  let slot := (← get).slots.size
  let d : Declaration Expr := ⟨name, slot, kind, initializer, initializer.isDependent⟩
  modify (·.allocate { name, kind, dependent := d.dependent })
  fill d
  return d

/-! ## Phrases -/

section

variable (fill : Declaration Expr → Resolution Unit)

mutual

/-- The expression of a phrase, given how the slots of variables are filled. -/
def resolveWith (scope : Scope) : Phrase → Resolution Expr
  | .malformed rejection => throw rejection
  | .literal value => pure (.literal value)
  | .name word => do return .variable (← reference scope word)
  | .prefixed op operand => do return .unary op (← resolveWith scope operand)
  | .infixed op left right => do
      let l ← resolveWith scope left
      let r ← resolveWith scope right
      return .binary op l r
  | .assignment names value => do
      let rs ← targets scope names
      let e ← resolveWith scope value
      return .assign rs e
  | .call function arguments => do callee scope function (← resolveAllWith scope arguments)
  | .conditional condition consequent alternative => do
      let c ← resolveWith scope condition
      let t ← resolveWith scope consequent
      let e ← resolveWith scope alternative
      return .conditional c t e
  | .letIn clauses body => do
      let (declarations, inner) ← resolveClausesWith scope clauses
      let e ← resolveWith inner body
      return .letIn declarations e

def resolveAllWith (scope : Scope) : List Phrase → Resolution (List Expr)
  | [] => pure []
  | p :: ps => do
      let e ← resolveWith scope p
      let es ← resolveAllWith scope ps
      return e :: es

/-- The bindings of a `let`, each in force after its own initializer, and the scope of the body. -/
def resolveClausesWith (scope : Scope) :
    List (Clause Phrase) → Resolution (List (Declaration Expr) × Scope)
  | [] => pure ([], scope)
  | .malformed rejection :: _ => throw rejection
  | .binding declared name initializer :: clauses => do
      let e ← resolveWith scope initializer
      let d ← declareWith fill declared name e
      let (ds, inner) ← resolveClausesWith (scope.bind name d.slot) clauses
      return (d :: ds, inner)

end

/-! ## Instructions -/

/-- A function that can only overflow is refused as such. -/
def declarationRejection (name : String) : Fault → Rejection
  | .stackOverflow _ => .mayExceedCallStack name
  | fault => .static fault

/-- Adds a function and resolves its body, where the parameters and the function itself are in
force. -/
def draftWith (name : String) (parameters : List String) (body : Phrase) :
    Resolution (FunctionId × Expr) := do
  let id ← Memory.declare name parameters
  let slots := ((← get).function id).parameterSlots
  let e ← resolveWith fill ⟨parameters.zip slots, some (name, id)⟩ body
  return (id, e)

/-- Declares a function and gives it its body. The function is not registered. -/
def declareFunctionWith (name : String) (parameters : List String) (body : Phrase) :
    Resolution Expr := do
  let (id, e) ← draftWith fill name parameters body
  modify (·.attach id e)
  let _ ← Effect.mapError (declarationRejection name) (Typing.declarationKind id)
  return .declaration name id

def ofInstructionWith : Instruction → Resolution Expr
  | .rejected rejection => throw rejection
  | .expression phrase => resolveWith fill {} phrase
  | .declaration name definition => do
      if ((← get).lookup? name).isSome then throw (.static (.alreadyDefined name))
      else do
        let (parameters, body) ← Effect.ofExcept definition
        declareFunctionWith fill name parameters body

end

end Resolution

/-- The expression written by the tokens, given how the slots of variables are filled. -/
def parseWith (fill : Declaration Expr → Resolution Unit) (ts : List Token) : Resolution Expr :=
  Resolution.ofInstructionWith fill (Instruction.ofTokens ts)

def parse (ts : List Token) : Resolution Expr :=
  parseWith Resolution.fill ts

end LineLang
