/-!
# Actions on a state that may fail

Reading, typing and evaluating all change a state and may fail, and what they changed before a
failure stays. `EStateM` is that kind of action; this module adds the few combinators used
throughout.

- `Effect.ofExcept`   : a result as an action that leaves the state alone
- `Effect.ensuring`   : a change of the state made after an action, however it ends
- `Effect.attempt`    : the outcome of an action as a value
- `Effect.mapError`   : another wording of the failures of an action
- `Effect.update`     : a change of the state that may fail
-/

namespace LineLang
namespace Effect

variable {ε ε₁ σ α : Type}

def ofExcept : Except ε α → EStateM ε σ α
  | .ok a => fun s => .ok a s
  | .error e => fun s => .error e s

/-- Runs `action`, then changes the state by `after`, on success and on failure. -/
def ensuring (after : σ → σ) (action : EStateM ε σ α) : EStateM ε σ α := fun s =>
  match action s with
  | .ok a s₁ => .ok a (after s₁)
  | .error e s₁ => .error e (after s₁)

def attempt (action : EStateM ε σ α) : EStateM ε₁ σ (Except ε α) := fun s =>
  match action s with
  | .ok a s₁ => .ok (.ok a) s₁
  | .error e s₁ => .ok (.error e) s₁

def mapError (f : ε → ε₁) (action : EStateM ε σ α) : EStateM ε₁ σ α := fun s =>
  match action s with
  | .ok a s₁ => .ok a s₁
  | .error e s₁ => .error (f e) s₁

/-- Changes the state by a function that may fail; a failure changes nothing. -/
def update (f : σ → Except ε σ) : EStateM ε σ Unit := fun s =>
  match f s with
  | .ok s₁ => .ok () s₁
  | .error e => .error e s

end Effect
end LineLang
