import LineLang.Effect
import LineLang.Expr

/-!
# Storage of a session

Slots hold the values of variables, and functions hold declared bodies. Both are referred to by
handles, which are places in the two arrays. A function is known by name once it is registered.

- `Slot`, `Content`   : storage for one variable
- `Function`          : a declared function with its frame of slots
- `Memory`            : all slots, all functions and the registered names
- `Checkpoint`        : how much storage there was at some time
-/

namespace LineLang

/-! ## Slots -/

inductive Content
  | uninitialized
  | value (v : Value)
  /-- An initializer that is evaluated on every read. -/
  | dependent (initializer : Expr)
  deriving Repr

structure Slot where
  name : String
  /-- Values written to the slot are checked against this kind. -/
  kind : Kind
  dependent : Bool
  content : Content := .uninitialized
  deriving Repr

namespace Slot

/-- The slot of a parameter, which may hold anything. -/
def parameter (name : String) : Slot :=
  { name, kind := .dynamic, dependent := true }

def absent : Slot :=
  { name := "", kind := .dynamic, dependent := false }

end Slot

/-! ## Functions -/

structure Function where
  name : String
  parameters : List String
  /-- The first slot of the frame; the parameters come first. -/
  frameStart : Nat
  /-- The slot after the frame. -/
  frameEnd : Nat
  body : Option Expr := none
  /-- The kind of the body, once computed. -/
  returnKind : Option Kind := none
  /-- Whether computing the kind of the body ran into the limit on calls. -/
  overflowed : Bool := false
  /-- The number of calls that are active. -/
  depth : Nat := 0
  deriving Repr

namespace Function

def absent : Function :=
  { name := "", parameters := [], frameStart := 0, frameEnd := 0 }

def parameterSlots (f : Function) : List SlotId :=
  List.range' f.frameStart f.parameters.length

def frame (f : Function) : List SlotId :=
  List.range' f.frameStart (f.frameEnd - f.frameStart)

def checkArity (f : Function) (count : Nat) : Except Fault Unit :=
  if f.parameters.length = count then .ok ()
  else .error (.argumentCount f.name f.parameters.length count)

end Function

/-! ## Memory -/

structure Memory where
  slots : Array Slot := #[]
  functions : Array Function := #[]
  /-- Registered functions by name, in the order of registration. -/
  registry : List (String × FunctionId) := []
  deriving Repr

structure Checkpoint where
  slots : Nat
  functions : Nat
  deriving DecidableEq, Repr

namespace Memory

def slot (m : Memory) (id : SlotId) : Slot :=
  m.slots[id]?.getD .absent

def function (m : Memory) (id : FunctionId) : Function :=
  m.functions[id]?.getD .absent

def content (m : Memory) (id : SlotId) : Content :=
  (m.slot id).content

def allocate (m : Memory) (s : Slot) : Memory :=
  { m with slots := m.slots.push s }

def replace (m : Memory) (id : SlotId) (c : Content) : Memory :=
  { m with slots := m.slots.modify id fun s => { s with content := c } }

/-- Stores a value in a slot of a kind that accepts it. -/
def write (m : Memory) (id : SlotId) (v : Value) : Except Fault Memory := do
  v.expectKind (.variable (m.slot id).name) (m.slot id).kind
  return m.replace id (.value v)

/-- What the slots hold now, to be put back by `putBack`. -/
def save (m : Memory) (ids : List SlotId) : List (SlotId × Content) :=
  ids.map fun id => (id, m.content id)

/-- Puts back what the slots held, the last one first. -/
def putBack (saved : List (SlotId × Content)) (m : Memory) : Memory :=
  saved.foldr (fun (id, c) m => m.replace id c) m

/-! ### Functions -/

def modifyFunction (m : Memory) (id : FunctionId) (f : Function → Function) : Memory :=
  { m with functions := m.functions.modify id f }

/-- Slots for parameters, up to the first name that was `seen` before. -/
def allocateParameters (function : String) (seen : List String) :
    List String → EStateM Rejection Memory Unit
  | [] => pure ()
  | p :: ps =>
      if p ∈ seen then throw (.duplicateParameter function p)
      else do
        modify (·.allocate (.parameter p))
        allocateParameters function (p :: seen) ps

/-- Adds a function without a body and slots for its parameters. It is not yet known by name. -/
def declare (name : String) (parameters : List String) : EStateM Rejection Memory FunctionId := do
  let start := (← get).slots.size
  allocateParameters name [] parameters
  let m ← get
  set { m with functions :=
    m.functions.push { name, parameters, frameStart := start, frameEnd := m.slots.size } }
  return m.functions.size

/-- Gives a function its body. The frame grows over all slots added since it was declared. -/
def attach (m : Memory) (id : FunctionId) (body : Expr) : Memory :=
  m.modifyFunction id fun f => { f with body := some body, frameEnd := m.slots.size }

/-- Counts one more active call, up to the limit. -/
def enter (m : Memory) (id : FunctionId) : Except Fault Memory :=
  if callLimit ≤ (m.function id).depth then .error (.stackOverflow (m.function id).name)
  else .ok (m.modifyFunction id fun f => { f with depth := f.depth + 1 })

def leave (id : FunctionId) (m : Memory) : Memory :=
  m.modifyFunction id fun f => { f with depth := f.depth - 1 }

def setReturnKind (id : FunctionId) (kind : Kind) (m : Memory) : Memory :=
  m.modifyFunction id fun f => { f with returnKind := some kind }

def markOverflowed (id : FunctionId) (m : Memory) : Memory :=
  m.modifyFunction id fun f => { f with overflowed := true }

/-! ### Names -/

def lookup? (m : Memory) (name : String) : Option FunctionId :=
  m.registry.lookup name

/-- Makes a function known by its name, which has to be new. -/
def register (m : Memory) (id : FunctionId) : Except Fault Memory :=
  let name := (m.function id).name
  match m.lookup? name with
  | some _ => .error (.alreadyDefined name)
  | none => .ok { m with registry := m.registry ++ [(name, id)] }

def signatures (m : Memory) : List (String × List String) :=
  m.registry.map fun (_, id) => ((m.function id).name, (m.function id).parameters)

/-! ### Release -/

def checkpoint (m : Memory) : Checkpoint :=
  ⟨m.slots.size, m.functions.size⟩

/-- Releases what was added after a checkpoint. -/
def restore (m : Memory) (c : Checkpoint) : Memory :=
  { m with slots := m.slots.take c.slots, functions := m.functions.take c.functions }

end Memory
end LineLang
