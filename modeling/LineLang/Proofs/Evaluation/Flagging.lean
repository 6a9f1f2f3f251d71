import LineLang.Proofs.Evaluation.Calls
import LineLang.Proofs.Evaluation.Flags

/-!
# Flags at every moment

An initializer is left in a slot when its binding is dependent, and then the slot is flagged. So at
every moment of an evaluation a slot that is not flagged holds a value or nothing.

- `Moment.Owned.flagged_part`, `Moment.Owned.flagged_arguments`, `Moment.Owned.flagged_bindings`  :
  after parts of an expression
- `Moment.Leads.flagged`  : at the next moment
-/

namespace LineLang

open Effect Evaluation

namespace Moment

variable {owner : SlotId → FunctionId} {o : FunctionId} {p q : Moment} {n n' : Nat}
variable {mode mode' : Mode} {s t : Machine}

/-- After a part of the expression was evaluated, initializers are still only left in flagged
slots. -/
theorem Owned.flagged_part {e e' : Expr} (h : Owned owner o ⟨n, mode, e, s⟩)
    (hbinds : e.Binds s.memory.Flags) (hs : s.memory.Flagged) (he' : e' ∈ e.parts) {v : Value}
    (hv : evaluateWithin n' mode' e' s = .ok v t) : t.memory.Flagged := by
  have hkeeps : Keeps (fun _ => True) (fun u => Confined owner o s.memory u ∧ u.memory.Flagged)
      (evaluateWithin n' mode' e') :=
    evaluateWithin_flagged n' (h.here.part he') (Expr.Every.part h.slots he')
      (Expr.Every.part hbinds he')
  exact (hkeeps.of_ok ⟨.refl h.coherent, hs⟩ hv).2

/-- The same after some arguments. -/
theorem Owned.flagged_arguments {name : String} {f : FunctionId} {es es₁ : List Expr}
    {dependent : Bool} {vs : List Value} (h : Owned owner o ⟨n, mode, .call name f es dependent, s⟩)
    (hbinds : (Expr.call name f es dependent).Binds s.memory.Flags) (hs : s.memory.Flagged)
    (hsub : ∀ e ∈ es₁, e ∈ es) (hvs : argumentsWith (evaluateWithin n') es₁ s = .ok vs t) :
    t.memory.Flagged := by
  have hpart : ∀ e ∈ es₁, e ∈ (Expr.call name f es dependent).parts := fun e he =>
    List.mem_cons_of_mem _ (Expr.mem_partsOfAll.2 ⟨e, hsub e he, Expr.mem_parts_self e⟩)
  have hkeeps : Keeps (fun _ => True) (fun u => Confined owner o s.memory u ∧ u.memory.Flagged)
      (argumentsWith (evaluateWithin n') es₁) := by
    refine argumentsWith_keeps fun e he mode => ?_
    have hp := hpart e he
    exact evaluateWithin_flagged (n' + 1) (h.here.part hp) (Expr.Every.part h.slots hp)
      (Expr.Every.part hbinds hp)
  exact (hkeeps.of_ok ⟨.refl h.coherent, hs⟩ hvs).2

/-- The same after some bindings. -/
theorem Owned.flagged_bindings {ds ds' : List (Declaration Expr)} {b : Expr}
    (h : Owned owner o ⟨n, mode, .letIn (ds ++ ds') b, s⟩)
    (hbinds : (Expr.letIn (ds ++ ds') b).Binds s.memory.Flags) (hs : s.memory.Flagged)
    (hds : bindWith (evaluateWithin n') mode' ds s = .ok () t) : t.memory.Flagged := by
  have hkeeps : Keeps (fun _ => True) (fun u => Confined owner o s.memory u ∧ u.memory.Flagged)
      (bindWith (evaluateWithin n') mode' ds) := by
    refine bindWith_flagged n' mode' fun d hd => ?_
    have hself := Expr.mem_parts_self (Expr.letIn (ds ++ ds') b)
    have hmem : d ∈ ds ++ ds' := List.mem_append_left _ hd
    have hslot : d.slot ∈ (Expr.letIn (ds ++ ds') b).ownSlots := List.mem_map_of_mem hmem
    have hpart : d.initializer ∈ (Expr.letIn (ds ++ ds') b).parts :=
      Expr.initializer_mem_parts (p := .letIn (ds ++ ds') b) hmem
    exact ⟨⟨h.here.slots _ hself _ hslot, h.slots _ hself _ hslot⟩, h.here.binds _ hself d hmem,
      hbinds _ hself d hmem, Expr.Every.part hbinds hpart⟩
  exact (hkeeps.of_ok ⟨.refl h.coherent, hs⟩ hds).2

/-- Evaluation turns to another expression. On the way initializers were only left in flagged
slots. -/
theorem Leads.flagged (hq : p.Leads q) (h : Owned owner o p)
    (hbinds : p.expr.Binds p.machine.memory.Flags) (hp : p.machine.memory.Flagged) :
    q.machine.memory.Flagged := by
  cases hq with
  | operand | printed | assigned | left | condition | deferred => exact hp
  | right hl => exact h.flagged_part hbinds hp (by simp [Expr.parts, Expr.mem_parts_self]) hl
  | consequent hc | alternative hc =>
      exact h.flagged_part hbinds hp (by simp [Expr.parts, Expr.mem_parts_self]) hc
  | argument _ hes =>
      exact h.flagged_arguments hbinds hp (fun _ he => List.mem_append_left _ he) hes
  | @body n mode name f es dependent s vs t k u b harity hes hb hk hu =>
      have hargs := h.flagged_arguments hbinds hp (fun _ he => he) hes
      have hentered : k.Flagged := by
        rw [(Memory.enter_ok hk).2]
        exact hargs
      -- Parameters are set to values.
      have hwrite : Keeps (fun _ => True) (fun u : Machine => u.memory.Flagged)
          (writeAll ((s.memory.function f).parameterSlots.zip vs)) := by
        refine writeAll_keeps fun p _ =>
          triple_write (fun u hu _ => hu.replace ?_) fun _ _ _ _ hu => ⟨trivial, hu⟩
        intro e he
        cases he
      exact hwrite.of_ok (s := { t with memory := k }) hentered hu
  | initializer hds => exact h.flagged_bindings hbinds hp hds
  | @inside n mode ds b s t hds =>
      rw [← List.append_nil ds] at h hbinds
      exact h.flagged_bindings hbinds hp hds

end Moment
end LineLang
