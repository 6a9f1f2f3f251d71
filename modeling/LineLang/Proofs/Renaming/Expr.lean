import LineLang.Memory
import LineLang.Proofs.Expr
import Mathlib.Logic.Function.Basic

/-!
# Other handles

Handles of slots and functions are places in a storage. The same names stand for other handles in a
storage with another history, so expressions are compared up to a renaming of their handles.

- `Renaming`              : other handles, different ones for different ones
- `Expr.rename`           : the expression with the other handles
- `Expr.rename_congr`     : only the handles in an expression matter
- `Expr.rename_rename`    : one renaming after another
-/

namespace LineLang

/-- Other handles for slots and functions, which remain apart. -/
structure Renaming where
  slot : SlotId → SlotId
  function : FunctionId → FunctionId
  slot_injective : Function.Injective slot
  function_injective : Function.Injective function

namespace Renaming

def comp (ρ' ρ : Renaming) : Renaming where
  slot := ρ'.slot ∘ ρ.slot
  function := ρ'.function ∘ ρ.function
  slot_injective := ρ'.slot_injective.comp ρ.slot_injective
  function_injective := ρ'.function_injective.comp ρ.function_injective

protected def id : Renaming where
  slot := id
  function := id
  slot_injective := Function.injective_id
  function_injective := Function.injective_id

end Renaming

def Reference.rename (ρ : Renaming) (r : Reference) : Reference :=
  { r with slot := ρ.slot r.slot }

namespace Expr

mutual

/-- The expression with other handles. A declaration is no part of an expression, and keeps its
handle. -/
def rename (ρ : Renaming) : Expr → Expr
  | .literal value => .literal value
  | .variable reference => .variable (reference.rename ρ)
  | .unary op operand => .unary op (rename ρ operand)
  | .binary op left right => .binary op (rename ρ left) (rename ρ right)
  | .assign targets value => .assign (targets.map (·.rename ρ)) (rename ρ value)
  | .call name function arguments dependent =>
      .call name (ρ.function function) (renameAll ρ arguments) dependent
  | .print argument => .print (rename ρ argument)
  | .declaration name function => .declaration name function
  | .letIn declarations body => .letIn (renameBindings ρ declarations) (rename ρ body)
  | .conditional condition consequent alternative =>
      .conditional (rename ρ condition) (rename ρ consequent) (rename ρ alternative)

def renameAll (ρ : Renaming) : List Expr → List Expr
  | [] => []
  | e :: es => rename ρ e :: renameAll ρ es

def renameBindings (ρ : Renaming) : List (Declaration Expr) → List (Declaration Expr)
  | [] => []
  | ⟨name, slot, kind, initializer, dependent⟩ :: declarations =>
      ⟨name, ρ.slot slot, kind, rename ρ initializer, dependent⟩ :: renameBindings ρ declarations

end

end Expr

def Declaration.rename (ρ : Renaming) (d : Declaration Expr) : Declaration Expr :=
  { d with slot := ρ.slot d.slot, initializer := d.initializer.rename ρ }

def Content.rename (ρ : Renaming) : Content → Content
  | .uninitialized => .uninitialized
  | .value v => .value v
  | .dependent initializer => .dependent (initializer.rename ρ)

namespace Expr

variable {ρ ρ' : Renaming}

theorem renameAll_eq (es : List Expr) : renameAll ρ es = es.map (rename ρ) := by
  induction es with
  | nil => rfl
  | cons e es ih => rw [renameAll, ih, List.map_cons]

theorem renameBindings_eq (ds : List (Declaration Expr)) :
    renameBindings ρ ds = ds.map (Declaration.rename ρ) := by
  induction ds with
  | nil => rfl
  | cons d ds ih => rw [renameBindings, ih, List.map_cons, Declaration.rename]

/-- Whether a value may change does not hang on handles. -/
@[simp] theorem isDependent_rename (e : Expr) : (e.rename ρ).isDependent = e.isDependent := by
  induction e using Expr.induction with
  | literal v | declaration name f | read r => rfl
  | unary op e ih | print e ih => exact ih
  | binary op l r ihl ihr => simp only [rename, isDependent, ihl, ihr]
  | conditional c t e ihc iht ihe => simp only [rename, isDependent, ihc, iht, ihe]
  | assign ts e ih =>
      have hts : (ts.map (·.rename ρ)).any (·.dependent) = ts.any (·.dependent) := by
        rw [List.any_map]
        rfl
      simp only [rename, isDependent, ih, hts]
  | call name f es dependent ih => rfl
  | letIn ds b ihd ihb =>
      have hds : (ds.map (Declaration.rename ρ)).any (·.dependent) = ds.any (·.dependent) := by
        rw [List.any_map]
        rfl
      simp only [rename, isDependent, ihb, renameBindings_eq, hds]

/-- Only the handles in an expression matter. -/
theorem rename_congr {e : Expr} (hs : e.SlotsIn fun t => ρ'.slot t = ρ.slot t)
    (hc : e.Calls fun f => ρ'.function f = ρ.function f) : e.rename ρ' = e.rename ρ := by
  unfold SlotsIn at hs
  unfold Calls at hc
  induction e using Expr.induction with
  | literal v | declaration name f => rfl
  | read r =>
      have hr : ρ'.slot r.slot = ρ.slot r.slot := hs.self r.slot (List.mem_singleton.2 rfl)
      simp only [rename, Reference.rename, hr]
  | unary op e ih =>
      rw [every_unary] at hs hc
      simp only [rename, ih hs.2 hc.2]
  | print e ih =>
      rw [every_print] at hs hc
      simp only [rename, ih hs.2 hc.2]
  | binary op l r ihl ihr =>
      rw [every_binary] at hs hc
      simp only [rename, ihl hs.2.1 hc.2.1, ihr hs.2.2 hc.2.2]
  | conditional c t e ihc iht ihe =>
      rw [every_conditional] at hs hc
      simp only [rename, ihc hs.2.1 hc.2.1, iht hs.2.2.1 hc.2.2.1, ihe hs.2.2.2 hc.2.2.2]
  | assign ts e ih =>
      rw [every_assign] at hs hc
      have hts : ts.map (·.rename ρ') = ts.map (·.rename ρ) := by
        apply List.map_congr_left
        intro r hr
        simp only [Reference.rename, hs.1 r.slot (List.mem_map_of_mem hr)]
      simp only [rename, hts, ih hs.2 hc.2]
  | call name f es dependent ih =>
      rw [every_call] at hs hc
      have hf : ρ'.function f = ρ.function f := hc.1 f (List.mem_singleton.2 rfl)
      have hes : es.map (rename ρ') = es.map (rename ρ) :=
        List.map_congr_left fun e he => ih e he (hs.2 e he) (hc.2 e he)
      simp only [rename, renameAll_eq, hf, hes]
  | letIn ds b ihd ihb =>
      rw [every_letIn] at hs hc
      have hds : ds.map (Declaration.rename ρ') = ds.map (Declaration.rename ρ) := by
        apply List.map_congr_left
        intro d hd
        simp only [Declaration.rename, hs.1 d.slot (List.mem_map_of_mem hd),
          ihd d hd (hs.2.1 d hd) (hc.2.1 d hd)]
      simp only [rename, renameBindings_eq, hds, ihb hs.2.2 hc.2.2]

/-- Renaming twice is renaming once. -/
theorem rename_rename (e : Expr) : (e.rename ρ).rename ρ' = e.rename (ρ'.comp ρ) := by
  induction e using Expr.induction with
  | literal v | declaration name f | read r => rfl
  | unary op e ih | print e ih => simp only [rename, ih]
  | binary op l r ihl ihr => simp only [rename, ihl, ihr]
  | conditional c t e ihc iht ihe => simp only [rename, ihc, iht, ihe]
  | assign ts e ih =>
      simp only [rename, List.map_map, ih]
      rfl
  | call name f es dependent ih =>
      simp only [rename, renameAll_eq, List.map_map]
      congr 1
      exact List.map_congr_left ih
  | letIn ds b ihd ihb =>
      simp only [rename, renameBindings_eq, List.map_map, ihb]
      congr 1
      apply List.map_congr_left
      intro d hd
      simp only [Function.comp_apply, Declaration.rename, ihd d hd]
      rfl

/-- Keeping all handles changes nothing. -/
theorem rename_id (e : Expr) : e.rename .id = e := by
  induction e using Expr.induction with
  | literal v | declaration name f | read r => rfl
  | unary op e ih | print e ih => simp only [rename, ih]
  | binary op l r ihl ihr => simp only [rename, ihl, ihr]
  | conditional c t e ihc iht ihe => simp only [rename, ihc, iht, ihe]
  | assign ts e ih =>
      simp only [rename, ih]
      congr 1
      exact List.map_id ts
  | call name f es dependent ih =>
      simp only [rename, renameAll_eq, List.map_congr_left ih, List.map_id']
      rfl
  | letIn ds b ihd ihb =>
      have hds : ds.map (Declaration.rename .id) = ds := by
        refine (List.map_congr_left fun d hd => ?_).trans (List.map_id ds)
        rw [Declaration.rename, ihd d hd]
        rfl
      simp only [rename, renameBindings_eq, hds, ihb]

/-- An expression is as it was if its handles are. -/
theorem rename_eq_self {e : Expr} (hs : e.SlotsIn fun t => ρ.slot t = t)
    (hc : e.Calls fun f => ρ.function f = f) : e.rename ρ = e :=
  (rename_congr hs hc).trans e.rename_id

end Expr
end LineLang
