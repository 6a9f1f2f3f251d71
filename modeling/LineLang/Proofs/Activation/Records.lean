import LineLang.Evaluation

/-!
# Evaluation with activation records

A second evaluator, in which every call runs in a record of its own. A record starts with the
parameters set to the values of the arguments and nothing else, and it is thrown away when the call
returns. Slots are no more than names in it: their kinds and the declared functions come from a
storage that is never changed.

- `Record`                     : what the slots hold in one call
- `Activation`                 : the record of the current call and the printed texts
- `Activation.evaluateWith`    : the value of an expression, given how stored expressions are
  evaluated
- `Activation.evaluateWithin`  : the same with a bound on how deep stored expressions are followed
-/

namespace LineLang

/-! ## Records -/

abbrev Record := SlotId → Content

namespace Record

def empty : Record := fun _ => .uninitialized

def put (r : Record) (slot : SlotId) (c : Content) : Record :=
  fun t => if t = slot then c else r t

theorem put_self {r : Record} {slot : SlotId} {c : Content} : r.put slot c slot = c :=
  if_pos rfl

theorem put_of_ne {r : Record} {slot t : SlotId} {c : Content} (h : t ≠ slot) :
    r.put slot c t = r t :=
  if_neg h

def bind (r : Record) : List (SlotId × Value) → Record
  | [] => r
  | (slot, v) :: rest => (r.put slot (.value v)).bind rest

end Record

/-- The record of the current call and the texts printed so far. -/
structure Activation where
  record : Record := .empty
  printed : Array String := #[]

namespace Activation

abbrev Action (α : Type) := EStateM Fault Activation α

/-! ## One record -/

def write (m : Memory) (slot : SlotId) (v : Value) : Action Unit :=
  Effect.update fun a => do
    v.expectKind (.variable (m.slot slot).name) (m.slot slot).kind
    return { a with record := a.record.put slot (.value v) }

def writeTargets (m : Memory) (v : Value) : List Reference → Action Unit
  | [] => pure ()
  | target :: targets => do
      write m target.slot v
      writeTargets m v targets

def defer (slot : SlotId) (initializer : Expr) : Action Unit :=
  modify fun a => { a with record := a.record.put slot (.dependent initializer) }

def emit (text : String) : Action Unit :=
  modify fun a => { a with printed := a.printed.push text }

def inRecord (r : Record) (body : Action Value) : Action Value := fun a =>
  match body { a with record := r } with
  | .ok v b => .ok v { b with record := a.record }
  | .error fault b => .error fault { b with record := a.record }

abbrev Follow := List FunctionId → Mode → Expr → Action Value

def readWith (follow : Follow) (live : List FunctionId) (mode : Mode) (r : Reference) :
    Action Value := do
  match (← get).record r.slot with
  | .uninitialized => throw (.uninitialized r.name)
  | .value v => return v
  | .dependent initializer => follow live mode initializer

/-- The value of a call. It fails if the limit of live calls of the same function is reached. -/
def callWith (m : Memory) (follow : Follow) (live : List FunctionId) (mode : Mode) (id : FunctionId)
    (count : Nat) (arguments : Action (List Value)) : Action Value := do
  let f := m.function id
  Effect.ofExcept (f.checkArity count)
  let values ← arguments
  match f.body with
  | none => throw (.incomplete f.name)
  | some body =>
      if callLimit ≤ live.count id then throw (.stackOverflow f.name)
      else
        inRecord (Record.empty.bind (f.parameterSlots.zip values)) (follow (id :: live) mode body)

/-! ## Expressions -/

mutual

/-- The value of an expression when calls of the functions in `live` are active. -/
def evaluateWith (m : Memory) (follow : Follow) (live : List FunctionId) (mode : Mode) :
    Expr → Action Value
  | .literal value => pure value
  | .variable reference => readWith follow live mode reference
  | .unary op operand => do
      let v ← evaluateWith m follow live mode operand
      Effect.ofExcept (op.apply v)
  | .binary op left right => do
      let l ← evaluateWith m follow live mode left
      match ← Effect.ofExcept (op.decided? l) with
      | some v => return v
      | none => do
          let r ← evaluateWith m follow live mode right
          Effect.ofExcept (op.apply l r)
  | .assign targets value => do
      let v ← evaluateWith m follow live mode value
      match mode with
      | .run => writeTargets m v targets
      | .probe => pure ()
      return v
  | .call _ function arguments _ =>
      callWith m follow live mode function arguments.length (argumentsWith m follow live arguments)
  | .print argument => do
      let v ← evaluateWith m follow live mode argument
      match mode with
      | .run => emit v.display
      | .probe => pure ()
      return v
  | .declaration _ _ => pure .void
  | .letIn declarations body => do
      bindWith m follow live mode declarations
      evaluateWith m follow live mode body
  | .conditional condition consequent alternative => do
      let v ← evaluateWith m follow live mode condition
      match ← Effect.ofExcept (v.asBoolean .condition) with
      | true => evaluateWith m follow live mode consequent
      | false => evaluateWith m follow live mode alternative

def argumentsWith (m : Memory) (follow : Follow) (live : List FunctionId) :
    List Expr → Action (List Value)
  | [] => pure []
  | argument :: arguments => do
      let v ← evaluateWith m follow live .probe argument
      let vs ← argumentsWith m follow live arguments
      return v :: vs

def bindWith (m : Memory) (follow : Follow) (live : List FunctionId) (mode : Mode) :
    List (Declaration Expr) → Action Unit
  | [] => pure ()
  | ⟨_, slot, _, initializer, dependent⟩ :: declarations => do
      match dependent with
      | true => defer slot initializer
      | false => do
          let v ← evaluateWith m follow live mode initializer
          write m slot v
      bindWith m follow live mode declarations

end

def evaluateWithin (m : Memory) : Nat → Follow
  | 0 => fun _ _ _ => throw .endless
  | depth + 1 => evaluateWith m (evaluateWithin m depth)

end Activation
end LineLang
