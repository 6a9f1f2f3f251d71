import LineLang.Proofs.Expr
import Mathlib.Data.Set.Lattice
import Mathlib.Order.CompletePartialOrder

/-!
# Places in an expression

A place is the way from an expression to one of its parts. Binders stand at places, and so do the
uses of variables; the scope of a binder is a set of places.

- `Expr.children`, `Expr.at?`  : the parts of an expression and the part at a place
- `Expr.Uses`                  : a variable is read or assigned at a place
- `Binder`, `Binder.scope`     : parameters and bindings, and where they are in force
- `Introduces`                 : the name and the slot of a binder
- `Innermost`                  : of the binders of a name, the one with the least scope
-/

namespace LineLang

abbrev Place := List Nat

namespace Expr

/-- The parts of an expression from left to right. Those of a `let` are its initializers and then
its body. -/
def children : Expr → List Expr
  | .literal _ | .variable _ | .declaration _ _ => []
  | .unary _ e | .assign _ e | .print e => [e]
  | .binary _ l r => [l, r]
  | .call _ _ arguments _ => arguments
  | .letIn declarations body => declarations.map (·.initializer) ++ [body]
  | .conditional c t e => [c, t, e]

def at? : Place → Expr → Option Expr
  | [], e => some e
  | j :: π, e => e.children[j]?.bind (at? π)

inductive Uses (e : Expr) : Place → Reference → Prop
  | read {π : Place} {r : Reference} (h : e.at? π = some (.variable r)) : Uses e π r
  | assign {π : Place} {rs : List Reference} {v : Expr} {r : Reference}
      (h : e.at? π = some (.assign rs v)) (hr : r ∈ rs) : Uses e π r

theorem at?_cons {j : Nat} {π : Place} {e p : Expr} (h : e.at? (j :: π) = some p) :
    ∃ c, e.children[j]? = some c ∧ c.at? π = some p :=
  Option.bind_eq_some_iff.1 h

/-- Children are parts, whatever form they belong to. -/
theorem mem_parts_of_mem_children {c e : Expr} (h : c ∈ e.children) : c ∈ e.parts := by
  cases e with
  | literal v | «variable» r | declaration name f => cases h
  | unary op e | assign ts e | print e =>
      cases List.mem_singleton.1 h
      exact List.mem_cons_of_mem _ (mem_parts_self _)
  | binary op l r =>
      simp only [children, List.mem_cons, List.not_mem_nil, or_false] at h
      rcases h with rfl | rfl <;> simp [parts, mem_parts_self]
  | call name f es dependent =>
      exact List.mem_cons_of_mem _ (mem_partsOfAll.2 ⟨c, h, mem_parts_self c⟩)
  | letIn ds b =>
      rcases List.mem_append.1 h with hmem | hb
      · rcases List.mem_map.1 hmem with ⟨d, hd, rfl⟩
        exact initializer_mem_parts (p := .letIn ds b) hd
      · cases List.mem_singleton.1 hb
        simp [parts, mem_parts_self]
  | conditional c t e =>
      simp only [children, List.mem_cons, List.not_mem_nil, or_false] at h
      rcases h with rfl | rfl | rfl <;> simp [parts, mem_parts_self]

/-- What stands at a place is a part. -/
theorem mem_parts_of_at? {π : Place} {e p : Expr} (h : e.at? π = some p) : p ∈ e.parts := by
  induction π generalizing e with
  | nil =>
      cases h
      exact mem_parts_self p
  | cons j π ih =>
      rcases at?_cons h with ⟨c, hc, hp⟩
      exact mem_parts_trans (ih hp) (mem_parts_of_mem_children (List.mem_of_getElem? hc))

/-- A use further down is a use in a child. -/
theorem uses_cons {j : Nat} {π : Place} {e : Expr} {r : Reference} (h : e.Uses (j :: π) r) :
    ∃ c, e.children[j]? = some c ∧ c.Uses π r := by
  cases h with
  | read hp =>
      rcases at?_cons hp with ⟨c, hc, hp⟩
      exact ⟨c, hc, .read hp⟩
  | assign hp hr =>
      rcases at?_cons hp with ⟨c, hc, hp⟩
      exact ⟨c, hc, .assign hp hr⟩

end Expr

/-! ## Binders -/

/-- A parameter of the function whose body the expression is, or a binding of the `let` at a
place. -/
inductive Binder
  | parameter (i : Nat)
  | declaration (place : Place) (i : Nat)
  deriving DecidableEq

/-- Where a binder is in force. A parameter is everywhere in the body. A binding is in the
initializers after its own and in the body of its `let`, which are the later parts of the `let`. -/
def Binder.scope : Binder → Set Place
  | .parameter _ => Set.univ
  | .declaration π i => {ρ | ∃ j σ, i < j ∧ ρ = π ++ j :: σ}

/-- The binders of an expression with their names and slots. -/
inductive Introduces (parameters : List (String × SlotId)) (e : Expr) :
    Binder → String → SlotId → Prop
  | parameter {i : Nat} {x : String} {t : SlotId} (h : parameters[i]? = some (x, t)) :
      Introduces parameters e (.parameter i) x t
  | declaration {π : Place} {ds : List (Declaration Expr)} {body : Expr} {i : Nat}
      {d : Declaration Expr} (hπ : e.at? π = some (.letIn ds body)) (hd : ds[i]? = some d) :
      Introduces parameters e (.declaration π i) d.name d.slot

/-- Of the binders of a name that are in force at a place, the one whose scope lies in the scopes of
all others. -/
structure Innermost (parameters : List (String × SlotId)) (e : Expr) (x : String) (π : Place)
    (t : SlotId) (b : Binder) : Prop where
  introduces : Introduces parameters e b x t
  inForce : π ∈ b.scope
  least : ∀ b' t', Introduces parameters e b' x t' → π ∈ b'.scope → b' = b ∨ b.scope ⊂ b'.scope

section Scope

variable {e : Expr} {x : String} {t : SlotId} {i k j : Nat} {π ρ : Place}

theorem Binder.cons_mem_scope :
    j :: ρ ∈ (Binder.declaration (k :: π) i).scope ↔ j = k ∧
      ρ ∈ (Binder.declaration π i).scope := by
  simp only [Binder.scope, Set.mem_ofPred_eq, List.cons_append, List.cons.injEq]
  constructor
  · rintro ⟨l, σ, hl, rfl, rfl⟩
    exact ⟨rfl, l, σ, hl, rfl⟩
  · rintro ⟨rfl, l, σ, hl, rfl⟩
    exact ⟨l, σ, hl, rfl, rfl⟩

theorem Binder.mem_scope_here : j :: ρ ∈ (Binder.declaration [] i).scope ↔ i < j := by
  constructor
  · rintro ⟨l, σ, hl, h⟩
    cases h
    exact hl
  · intro h
    exact ⟨j, ρ, h, rfl⟩

theorem Binder.nil_notMem_scope : [] ∉ (Binder.declaration π i).scope := by
  rintro ⟨j, σ, -, h⟩
  exact List.append_ne_nil_of_right_ne_nil π (List.cons_ne_nil j σ) h.symm

/-- The scope of a binding inside lies in the scope of a binding around it. -/
theorem Binder.scope_inside (h : k < j) :
    (Binder.declaration (j :: π) i).scope ⊂ (Binder.declaration [] k).scope := by
  refine ⟨fun ρ hρ => ?_, fun hsubset => ?_⟩
  · rcases hρ with ⟨l, σ, -, rfl⟩
    exact mem_scope_here.2 h
  · -- The whole part is in the outer scope only.
    have hpart : [j] ∈ (Binder.declaration (j :: π) i).scope := hsubset (mem_scope_here.2 h)
    exact nil_notMem_scope (cons_mem_scope.1 hpart).2

/-- The scope of a later binding lies in the scope of an earlier one. -/
theorem Binder.scope_later (h : k < i) :
    (Binder.declaration [] i).scope ⊂ (Binder.declaration [] k).scope := by
  refine ⟨fun ρ hρ => ?_, fun hsubset => ?_⟩
  · rcases hρ with ⟨l, σ, hl, rfl⟩
    exact mem_scope_here.2 (Nat.lt_trans h hl)
  · -- The initializer of the later one is in the earlier scope only.
    have hinitializer : [i] ∈ (Binder.declaration [] i).scope := hsubset (mem_scope_here.2 h)
    exact Nat.lt_irrefl i (mem_scope_here.1 hinitializer)

theorem Binder.scope_cons {i' : Nat} {π' : Place}
    (h : (Binder.declaration π i).scope ⊂ (Binder.declaration π' i').scope) (j : Nat) :
    (Binder.declaration (j :: π) i).scope ⊂ (Binder.declaration (j :: π') i').scope := by
  refine ⟨fun ρ hρ => ?_, fun hsubset => h.2 fun ρ hρ => ?_⟩
  · rcases hρ with ⟨l, σ, hl, rfl⟩
    exact cons_mem_scope.2 ⟨rfl, h.1 ⟨l, σ, hl, rfl⟩⟩
  · exact (cons_mem_scope.1 (hsubset (cons_mem_scope.2 ⟨rfl, hρ⟩))).2

/-- The scope of a binding lies in the scope of a parameter. -/
theorem Binder.scope_parameter : (Binder.declaration π i).scope ⊂ (Binder.parameter k).scope :=
  ⟨Set.subset_univ _, fun hsubset => nil_notMem_scope (hsubset (Set.mem_univ []))⟩

/-- The bindings of the expression itself are introduced at the empty place. -/
theorem introduces_here : Introduces [] e (.declaration [] i) x t ↔
    ∃ d, e.ownDeclarations[i]? = some d ∧ d.name = x ∧ d.slot = t := by
  constructor
  · intro h
    cases h with
    | declaration hπ hd =>
        cases hπ
        exact ⟨_, hd, rfl, rfl⟩
  · rintro ⟨d, hd, rfl, rfl⟩
    cases e with
    | letIn ds body => exact .declaration rfl hd
    | _ => cases hd

/-- A binder further down is one of a child. -/
theorem introduces_cons : Introduces [] e (.declaration (j :: π) i) x t ↔
    ∃ c, e.children[j]? = some c ∧ Introduces [] c (.declaration π i) x t := by
  constructor
  · intro h
    cases h with
    | declaration hπ hd =>
        rcases Expr.at?_cons hπ with ⟨c, hc, hπ⟩
        exact ⟨c, hc, .declaration hπ hd⟩
  · rintro ⟨c, hc, h⟩
    cases h with
    | declaration hπ hd => exact .declaration (Option.bind_eq_some_iff.2 ⟨c, hc, hπ⟩) hd

/-- Without parameters, all binders are bindings. -/
theorem introduces_nil {b : Binder} (h : Introduces [] e b x t) : ∃ π i, b = .declaration π i := by
  cases h with
  | parameter hi => cases hi
  | declaration _ _ => exact ⟨_, _, rfl⟩

end Scope

end LineLang
