import LineLang.Memory
import LineLang.Operator.Apply

/-!
# Evaluation

Expressions are evaluated over the one storage of the session. A call saves the frame of the
function, fills the parameters, evaluates the body and puts the frame back.

- `Mode`             : whether printing and assigning take effect
- `Machine`          : storage and printed texts
- `evaluateWith`     : the value of an expression, given how stored expressions are evaluated
- `evaluateWithin`   : the same with a bound on how deep stored expressions are followed
- `evaluate`, `call` : the value of an expression and of a call
-/

namespace LineLang

/-- Whether an expression is carried out or only asked for its value. -/
inductive Mode
  | run
  | probe
  deriving DecidableEq, Repr

structure Machine where
  memory : Memory
  printed : Array String := #[]
  deriving Repr

abbrev Evaluation (α : Type) := EStateM Fault Machine α

namespace Evaluation

def write (slot : SlotId) (v : Value) : Evaluation Unit :=
  Effect.update fun s => do return { s with memory := ← s.memory.write slot v }

/-- Leaves the initializer of a dependent variable in its slot. -/
def defer (slot : SlotId) (initializer : Expr) : Evaluation Unit :=
  modify fun s => { s with memory := s.memory.replace slot (.dependent initializer) }

def emit (text : String) : Evaluation Unit :=
  modify fun s => { s with printed := s.printed.push text }

def writeTargets (v : Value) : List Reference → Evaluation Unit
  | [] => pure ()
  | target :: targets => do
      write target.slot v
      writeTargets v targets

def writeAll : List (SlotId × Value) → Evaluation Unit
  | [] => pure ()
  | (slot, v) :: rest => do
      write slot v
      writeAll rest

def onMemory (f : Memory → Memory) (s : Machine) : Machine :=
  { s with memory := f s.memory }

/-- Runs `body` with the parameters of `f` bound to `values`. The whole frame is put back
afterwards, however the body ends. -/
def inFrame (f : Function) (values : List Value) (body : Evaluation Value) : Evaluation Value := do
  let saved := (← get).memory.save f.frame
  Effect.ensuring (onMemory (Memory.putBack saved)) do
    writeAll (f.parameterSlots.zip values)
    body

def asCall (id : FunctionId) (body : Evaluation Value) : Evaluation Value := do
  Effect.update fun s => do return { s with memory := ← s.memory.enter id }
  Effect.ensuring (onMemory (Memory.leave id)) body

/-- How stored expressions are evaluated: bodies of functions and initializers left in slots. -/
abbrev Follow := Mode → Expr → Evaluation Value

def readWith (follow : Follow) (mode : Mode) (r : Reference) : Evaluation Value := do
  match (← get).memory.content r.slot with
  | .uninitialized => throw (.uninitialized r.name)
  | .value v => return v
  | .dependent initializer => follow mode initializer

/-- The value of a call with `count` arguments, whose values are computed by `arguments`. -/
def callWith (follow : Follow) (mode : Mode) (id : FunctionId) (count : Nat)
    (arguments : Evaluation (List Value)) : Evaluation Value := do
  let f := (← get).memory.function id
  Effect.ofExcept (f.checkArity count)
  let values ← arguments
  match f.body with
  | none => throw (.incomplete f.name)
  | some body => asCall id (inFrame f values (follow mode body))

mutual

/-- The value of an expression, given how stored expressions are evaluated. -/
def evaluateWith (follow : Follow) (mode : Mode) : Expr → Evaluation Value
  | .literal value => pure value
  | .variable reference => readWith follow mode reference
  | .unary op operand => do
      let v ← evaluateWith follow mode operand
      Effect.ofExcept (op.apply v)
  | .binary op left right => do
      let l ← evaluateWith follow mode left
      match ← Effect.ofExcept (op.decided? l) with
      | some v => return v
      | none => do
          let r ← evaluateWith follow mode right
          Effect.ofExcept (op.apply l r)
  | .assign targets value => do
      let v ← evaluateWith follow mode value
      match mode with
      | .run => writeTargets v targets
      | .probe => pure ()
      return v
  | .call _ function arguments _ =>
      callWith follow mode function arguments.length (argumentsWith follow arguments)
  | .print argument => do
      let v ← evaluateWith follow mode argument
      match mode with
      | .run => emit v.display
      | .probe => pure ()
      return v
  | .declaration _ _ => pure .void
  | .letIn declarations body => do
      bindWith follow mode declarations
      evaluateWith follow mode body
  | .conditional condition consequent alternative => do
      let v ← evaluateWith follow mode condition
      match ← Effect.ofExcept (v.asBoolean .condition) with
      | true => evaluateWith follow mode consequent
      | false => evaluateWith follow mode alternative

/-- The values of arguments from left to right. They are only asked for their values. -/
def argumentsWith (follow : Follow) : List Expr → Evaluation (List Value)
  | [] => pure []
  | argument :: arguments => do
      let v ← evaluateWith follow .probe argument
      let vs ← argumentsWith follow arguments
      return v :: vs

def bindWith (follow : Follow) (mode : Mode) : List (Declaration Expr) → Evaluation Unit
  | [] => pure ()
  | ⟨_, slot, _, initializer, dependent⟩ :: declarations => do
      match dependent with
      | true => defer slot initializer
      | false => do
          let v ← evaluateWith follow mode initializer
          write slot v
      bindWith follow mode declarations

end

/-- The value of an expression when stored expressions are followed at most `depth` deep. -/
def evaluateWithin : Nat → Follow
  | 0 => fun _ _ => throw .endless
  | depth + 1 => evaluateWith (evaluateWithin depth)

/-- How deep stored expressions can be followed before the limit on calls of one of the functions is
reached, if an initializer only reads slots before its own. -/
def depthBound (m : Memory) : Nat :=
  callLimit * (m.functions.size + 1) * (m.slots.size + 1)

def evaluate (mode : Mode) (e : Expr) : Evaluation Value := do
  evaluateWithin (depthBound (← get).memory) mode e

/-- The value of an expression that is only asked for it. Nothing is printed. -/
def probe (e : Expr) : EStateM Fault Memory Value := fun m =>
  match evaluate .probe e { memory := m } with
  | .ok v s => .ok v s.memory
  | .error fault s => .error fault s.memory

def call (mode : Mode) (id : FunctionId) (arguments : List Expr) : Evaluation Value := do
  let follow := evaluateWithin (depthBound (← get).memory)
  callWith follow mode id arguments.length (argumentsWith follow arguments)

end Evaluation
end LineLang
