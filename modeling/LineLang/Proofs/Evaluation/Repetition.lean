import LineLang.Proofs.Evaluation.Layers

/-!
# Asking again

An expression sees nothing but the variables in force. Asking for its value spares them, so that
asking a second time comes to the same and changes nothing more.

- `Memory.BodiesPlaced`     : bodies of functions stand among their parameters
- `Moment.Orderly`          : everything stands among the variables in force, and the storage
  respects owners
- `Moment.Orderly.reaches`  : this is so at every moment
- `Moment.Orderly.sees`     : only variables in force are seen
- `Machine.Spares`          : the variables in force and what was printed are the same on both
  machines
- `Moment.Orderly.again`    : asking twice is as good as asking once
- `Moment.Orderly.value_moved`  : asking elsewhere comes to the same if the variables in force are
  spared
-/

namespace LineLang

open Effect Evaluation Machine

attribute [ext] Machine

/-- An outcome is a value or a fault, and a state. -/
theorem Effect.result_ext {ε σ α : Type} {r r' : EStateM.Result ε σ α} (h : outcome r = outcome r')
    (hfinal : final r = final r') : r = r' := by
  cases r with
  | ok a s =>
      cases r' with
      | ok b t =>
          cases h
          cases hfinal
          rfl
      | error _ t => cases h
  | error e s =>
      cases r' with
      | ok b t => cases h
      | error _ t =>
          cases h
          cases hfinal
          rfl

/-! ## Bodies of functions -/

namespace Memory

/-- The body of every function that may be called stands among its parameters. -/
def BodiesPlaced (P : Expr → Prop) (m : Memory) : Prop :=
  ∀ name f es dependent b, P (.call name f es dependent) → (m.function f).body = some b →
    ∃ lo hi, b.Placed P {t | t ∈ (m.function f).parameterSlots} lo hi

def Arranged (m : Memory) : Prop :=
  ∀ f b, (m.function f).body = some b →
    ∃ lo hi, b.Placed (fun _ => True) {t | t ∈ (m.function f).parameterSlots} lo hi

theorem Arranged.bodiesPlaced {P : Expr → Prop} {m : Memory} (h : m.Arranged)
    (hP : ∀ name f es dependent b, P (.call name f es dependent) →
      (m.function f).body = some b → b.Every P) : m.BodiesPlaced P := by
  intro name f es dependent b hf hb
  rcases h f b hb with ⟨lo, hi, hplaced⟩
  exact ⟨lo, hi, { hplaced with every := hP name f es dependent b hf hb }⟩

namespace BodiesPlaced

variable {P : Expr → Prop} {m n : Memory}

/-- The numbers of active calls do not matter. -/
theorem of_depths (h : m.BodiesPlaced P)
    (hn : ∀ f, ∃ d, n.function f = { m.function f with depth := d }) : n.BodiesPlaced P := by
  intro name f es dependent b hf hb
  rcases hn f with ⟨d, hd⟩
  rw [hd] at hb ⊢
  exact h name f es dependent b hf hb

theorem unchanged {S : SlotId → Prop} (h : m.BodiesPlaced P) (hn : UnchangedOutside S m n) :
    n.BodiesPlaced P :=
  h.of_depths fun f => ⟨(m.function f).depth, hn.function f⟩

/-- Entering a call changes no body. -/
theorem enter {f : FunctionId} (h : m.BodiesPlaced P) (hn : m.enter f = .ok n) :
    n.BodiesPlaced P := by
  apply h.of_depths
  intro i
  rw [(enter_ok hn).2]
  by_cases hi : i = f
  · subst hi
    by_cases hlt : i < m.functions.size
    · exact ⟨_, function_modify_self hlt⟩
    · have hsize := Nat.le_of_not_lt hlt
      refine ⟨(m.function i).depth, ?_⟩
      rw [function_of_size_le (by simpa using hsize), function_of_size_le hsize]
  · exact ⟨(m.function i).depth, function_modify_of_ne hi⟩

end BodiesPlaced
end Memory

theorem Evaluation.write_bodiesPlaced {P : Expr → Prop} {i : SlotId} {v : Value} :
    Keeps (fun _ => True) (fun s : Machine => s.memory.BodiesPlaced P) (write i v) := by
  apply triple_write
  · intro s hs _
    exact hs.unchanged (Memory.UnchangedOutside.replace (S := fun _ => True) trivial _)
  · intro s site expected received hs
    exact ⟨trivial, hs⟩

/-- Parameters that were set hold no expressions. -/
theorem Evaluation.writeAll_settled {pairs : List (SlotId × Value)} {s t : Machine}
    (h : writeAll pairs s = .ok () t) {x : SlotId} (hx : x ∈ pairs.map Prod.fst) (e : Expr) :
    t.memory.content x ≠ .dependent e := by
  -- A slot that holds no expression, or has yet to be set, holds none at the end.
  have hsettled : ∀ {pairs : List (SlotId × Value)} {s : Machine}, writeAll pairs s = .ok () t →
      (x ∈ pairs.map Prod.fst ∨ s.memory.content x ≠ .dependent e) →
      t.memory.content x ≠ .dependent e := by
    intro pairs
    induction pairs with
    | nil =>
        rintro s ⟨⟩ hx
        exact hx.resolve_left List.not_mem_nil
    | cons p pairs ih =>
        intro s h hx
        rcases of_bind_ok h with ⟨_, u, hu, h⟩
        refine ih h ?_
        rcases ok_of_bind (of_update_ok hu) with ⟨m, hm, hend⟩
        rcases Memory.write_ok hm with ⟨rfl, -⟩
        cases hend
        rcases hx with hx | hx
        · rcases List.mem_cons.1 hx with rfl | hx
          · refine .inr fun hc => ?_
            have hlt := Memory.lt_size_of_dependent hc
            rw [Memory.content_replace_self (by simpa using hlt)] at hc
            cases hc
          · exact .inl hx
        · right
          rcases Memory.content_replace s.memory p.1 x (.value p.2) with heq | ⟨-, heq⟩
          · rwa [heq]
          · rw [heq]
            simp
  exact hsettled h (.inl hx)

/-- The second machine agrees with the first on the variables in `Γ`, and with what does not
change. -/
structure Machine.Spares (owner : SlotId → FunctionId) (Γ : Set SlotId) (s t : Machine) : Prop where
  coherent : t.memory.Coherent owner
  memory : s.memory.UnchangedOutside (· ∉ Γ) t.memory
  printed : t.printed = s.printed

namespace Machine.Spares

variable {owner : SlotId → FunctionId} {Γ Δ : Set SlotId} {s t u : Machine}

theorem refl (h : s.memory.Coherent owner) (Γ : Set SlotId) : Spares owner Γ s s :=
  ⟨h, .refl _, rfl⟩

theorem trans (h : Spares owner Γ s t) (h' : Spares owner Γ t u) : Spares owner Γ s u :=
  ⟨h'.coherent, h.memory.trans h'.memory, h'.printed.trans h.printed⟩

theorem mono (h : Spares owner Γ s t) (hΔ : Δ ⊆ Γ) : Spares owner Δ s t :=
  { h with memory := h.memory.mono fun _ hx hmem => hx (hΔ hmem) }

end Machine.Spares

/-! ## Moments -/

/-- Whoever is only asked for values prints nothing. -/
theorem Evaluation.probe_silent (n : Nat) (e : Expr) (s : Machine) :
    (final (evaluateWithin n .probe e s)).printed = s.printed := by
  have hblind : Moment.Blind .free ∅ ⟨n, .probe, e, s⟩ := .of_probe rfl fun _ hx =>
    absurd hx (Set.notMem_empty _)
  have hsame := evaluateWithin_parallel (.refl .free ∅ s) hblind
  exact hsame.final (fun _ _ _ _ hq => hq.2.silent) fun _ _ he => he.silent

namespace Moment

variable {owner : SlotId → FunctionId} {P : Expr → Prop} {Γ : Set SlotId} {n : Nat} {mode : Mode}
variable {e b : Expr} {s t : Machine} {ds ds' : List (Declaration Expr)} {d : Declaration Expr}
variable {p q : Moment}

/-- The expression and all that is stored stand among the variables in force, and the storage
respects the owners of slots. -/
structure Orderly (owner : SlotId → FunctionId) (P : Expr → Prop) (Γ : Set SlotId) (p : Moment) :
    Prop where
  owned : ∃ o, Owned owner o p
  placed : ∃ lo hi, Placed P Γ lo hi p
  bodies : p.machine.memory.BodiesPlaced P

namespace Orderly

/-- All parts of the expression satisfy `P`. -/
theorem every (h : Orderly owner P Γ p) : p.expr.Every P := by
  rcases h.placed with ⟨lo, hi, hplaced⟩
  exact hplaced.here.every

/-- The same expression may be evaluated in another mode and to another depth. -/
theorem asked (h : Orderly owner P Γ p) (n : Nat) (mode : Mode) :
    Orderly owner P Γ ⟨n, mode, p.expr, p.machine⟩ := by
  rcases h.owned with ⟨o, howned⟩
  rcases h.placed with ⟨lo, hi, hplaced⟩
  exact ⟨⟨o, howned.coherent, howned.here, howned.slots, howned.limited⟩,
    ⟨lo, hi, hplaced.here, hplaced.layered⟩, h.bodies⟩

/-- An evaluation changes no variable in force, unless it assigns it. -/
theorem changes (h : Orderly owner P Γ ⟨n, mode, e, s⟩) :
    Changes mode (footprint Γ ⟨n, mode, e, s⟩) s (final (evaluateWithin n mode e s)) := by
  rcases h.owned with ⟨o, howned⟩
  rcases h.placed with ⟨lo, hi, hplaced⟩
  exact evaluateWithin_changes howned hplaced

/-- After an evaluation the variables in force are spared, and the functions are the same. -/
theorem after (h : Orderly owner P Γ ⟨n, mode, e, s⟩) {v : Value}
    (hv : evaluateWithin n mode e s = .ok v t) : Changes mode Γᶜ s t ∧ t.memory.BodiesPlaced P := by
  rcases h.owned with ⟨o, howned⟩
  have hchanges := h.changes
  rw [hv] at hchanges
  exact ⟨hchanges.mono footprint_subset_compl, h.bodies.unchanged (howned.after hv).2⟩

/-- Evaluation turns to an operand, after others. -/
theorem next (h : Orderly owner P Γ ⟨n, mode, e, s⟩) {n' : Nat} {mode' : Mode} {e' : Expr}
    (hq : Leads ⟨n, mode, e, s⟩ ⟨n', mode', e', t⟩) (he : e.IsOperand e')
    (ht : Changes mode Γᶜ s t ∧ t.memory.BodiesPlaced P) :
    Orderly owner P Γ ⟨n', mode', e', t⟩ := by
  rcases h.owned with ⟨o, howned⟩
  rcases h.placed with ⟨lo, hi, hplaced⟩
  exact ⟨howned.leads hq, ⟨lo, hi, hplaced.operand he ht.1⟩, ht.2⟩

/-- Any operand may be evaluated at once. -/
theorem operand (h : Orderly owner P Γ ⟨n, mode, e, s⟩) {n' : Nat} {mode' : Mode} {e' : Expr}
    (he : e.IsOperand e') : Orderly owner P Γ ⟨n', mode', e', s⟩ := by
  rcases h.owned with ⟨o, howned⟩
  rcases h.placed with ⟨lo, hi, hplaced⟩
  exact ⟨⟨o, howned.operand he.part⟩, ⟨lo, hi, hplaced.operand he (.refl mode _ s)⟩, h.bodies⟩

section Call

variable {name : String} {f : FunctionId} {es es₁ es₂ : List Expr} {dependent : Bool}
variable {vs : List Value}

/-- Evaluation turns to an argument, after others. -/
theorem argument (h : Orderly owner P Γ ⟨n + 1, mode, .call name f (es₁ ++ e :: es₂) dependent, s⟩)
    (harity : (s.memory.function f).checkArity (es₁ ++ e :: es₂).length = .ok ())
    (hes : argumentsWith (evaluateWithin n) es₁ s = .ok vs t) (ht : Changes .probe Γᶜ s t) :
    Orderly owner P Γ ⟨n + 1, .probe, e, t⟩ := by
  rcases h.owned with ⟨o, howned⟩
  have hafter :=
    (howned.arguments fun _ he => List.mem_append_left _ he).of_ok (.refl howned.coherent) hes
  exact h.next (.argument harity hes) (.argument (by simp))
    ⟨ht.of_probe mode, h.bodies.unchanged hafter.2⟩

/-- Some arguments have been evaluated. -/
theorem arguments (h : Orderly owner P Γ ⟨n + 1, mode, .call name f (es₁ ++ es₂) dependent, s⟩)
    (harity : (s.memory.function f).checkArity (es₁ ++ es₂).length = .ok ())
    (hes : argumentsWith (evaluateWithin n) es₁ s = .ok vs t) : Changes .probe Γᶜ s t := by
  have hchanges : Changes .probe Γᶜ s (final (argumentsWith (evaluateWithin n) es₁ s)) := by
    apply changes_arguments
    rintro es e es' ws u rfl hws hu
    rw [List.append_assoc, List.cons_append] at h harity
    exact ((h.argument harity hws hu).changes).mono footprint_subset_compl
  rwa [hes] at hchanges

/-- Evaluation turns to the body of a function. Its parameters hold values. -/
theorem body (h : Orderly owner P Γ ⟨n + 1, mode, .call name f es dependent, s⟩) {k : Memory}
    {u : Machine} (harity : (s.memory.function f).checkArity es.length = .ok ())
    (hes : argumentsWith (evaluateWithin n) es s = .ok vs t)
    (hb : (s.memory.function f).body = some b) (hk : t.memory.enter f = .ok k)
    (hu : writeAll ((s.memory.function f).parameterSlots.zip vs)
      { t with memory := k } = .ok () u) :
    Orderly owner P {x | x ∈ (s.memory.function f).parameterSlots} ⟨n, mode, b, u⟩ := by
  rcases h.owned with ⟨o, howned⟩
  rcases h.bodies name f es dependent b h.every.self hb with ⟨lo, hi, hplaced⟩
  have hafter := (howned.arguments fun _ he => he).of_ok (.refl howned.coherent) hes
  have hentered : k.BodiesPlaced P := (h.bodies.unchanged hafter.2).enter hk
  refine ⟨⟨f, howned.body hes hb hk hu⟩, ⟨lo, hi, hplaced, ?_⟩, ?_⟩
  -- Parameters hold values, so that nothing was left in their slots.
  · intro x hx _ e he
    refine absurd he (writeAll_settled hu ?_ e)
    rwa [map_fst_parameters harity hes]
  · exact (writeAll_keeps fun _ _ => write_bodiesPlaced).of_ok
      (s := { t with memory := k }) hentered hu

end Call

section Let

/-- Bindings before others have been filled. -/
theorem bindings (h : Orderly owner P Γ ⟨n + 1, mode, .letIn (ds ++ ds') b, s⟩) {lo hi : Nat}
    (hplaced : Placed P Γ lo hi ⟨n + 1, mode, .letIn (ds ++ ds') b, s⟩)
    (hds : bindWith (evaluateWithin n) mode ds s = .ok () t) :
    t.memory.Layered P (inForce Γ ds) hi := by
  rcases h.owned with ⟨o, howned⟩
  have hall : ds ++ ds' = [] ++ ds ++ ds' := by simp
  have hnone : bindWith (evaluateWithin n) mode [] s = .ok () s := rfl
  refine (Placed.bindings howned hplaced.here hall hnone hplaced.start ?_).2 t hds
  intro ds₁ d ds₂ u heq hu hd hlayered
  rw [heq] at howned hplaced
  rcases hplaced.here.initializer with ⟨k, hk⟩
  have hle : k ≤ hi := Nat.le_trans hk.ascending.le (Nat.le_of_lt hplaced.here.slot.1)
  have hpart : Owned owner o ⟨n + 1, mode, d.initializer, u⟩ := by
    refine howned.part (howned.bindings hu) ?_
    exact Expr.initializer_mem_parts (p := .letIn (ds₁ ++ d :: ds₂) b)
      (by simp [Expr.ownDeclarations])
  exact evaluateWithin_changes hpart ⟨hk, hlayered.of_le hle⟩

/-- An initializer stands among the bindings before it, whether it is evaluated at once or left in a
slot. -/
theorem initializer (h : Orderly owner P Γ ⟨n + 1, mode, .letIn (ds ++ d :: ds') b, s⟩)
    (hds : bindWith (evaluateWithin n) mode ds s = .ok () t) :
    Orderly owner P (inForce Γ ds) ⟨n + 1, mode, d.initializer, t⟩ := by
  rcases h.owned with ⟨o, howned⟩
  rcases h.placed with ⟨lo, hi, hplaced⟩
  rcases hplaced.here.initializer with ⟨k, hk⟩
  have hle : k ≤ hi := Nat.le_trans hk.ascending.le (Nat.le_of_lt hplaced.here.slot.1)
  have hlayered := h.bindings hplaced hds
  have hconfined := howned.bindings hds
  refine ⟨⟨o, howned.part hconfined ?_⟩, ⟨k, d.slot, hk, hlayered.of_le hle⟩,
    h.bodies.unchanged hconfined.2⟩
  exact Expr.initializer_mem_parts (p := .letIn (ds ++ d :: ds') b) (by simp [Expr.ownDeclarations])

/-- After its bindings a `let` goes on with them in force. -/
theorem inside (h : Orderly owner P Γ ⟨n + 1, mode, .letIn ds b, s⟩)
    (hds : bindWith (evaluateWithin n) mode ds s = .ok () t) :
    Orderly owner P (inForce Γ ds) ⟨n + 1, mode, b, t⟩ := by
  rcases h.owned with ⟨o, howned⟩
  rcases h.placed with ⟨lo, hi, hplaced⟩
  rcases hplaced.here.inside with ⟨k, hle, hk⟩
  have hnext := howned.leads (.inside hds)
  rw [← List.append_nil ds] at h howned hplaced
  have hlayered := h.bindings hplaced hds
  exact ⟨hnext, ⟨k, hi, hk, hlayered.of_le hle⟩, h.bodies.unchanged (howned.bindings hds).2⟩

end Let

/-- Evaluation turns to another expression, and the same variables are in force. -/
theorem step (h : Orderly owner P Γ p) (hq : p.Leads q) (hlet : p.expr.ownDeclarations = [])
    (hcall : p.expr.ownCallees = [] ∨ q.depth = p.depth) : Orderly owner P Γ q := by
  cases hq with
  | operand => exact h.operand .unary
  | printed => exact h.operand .printed
  | assigned => exact h.operand .assigned
  | left => exact h.operand .left
  | condition => exact h.operand .condition
  | right hl hundecided => exact h.next (.right hl hundecided) .right ((h.operand .left).after hl)
  | consequent hc hv =>
      exact h.next (.consequent hc hv) .consequent ((h.operand .condition).after hc)
  | alternative hc hv =>
      exact h.next (.alternative hc hv) .alternative ((h.operand .condition).after hc)
  | argument harity hes => exact h.argument harity hes (h.arguments harity hes)
  | deferred he =>
      rcases h.owned with ⟨o, howned⟩
      rcases h.placed with ⟨lo, hi, hplaced⟩
      rcases hplaced.deferred he with ⟨k, hk⟩
      exact ⟨howned.leads (.deferred he), ⟨k, _, hk⟩, h.bodies⟩
  -- The body of a function is no such expression: it is followed to a smaller depth.
  | body =>
      rcases hcall with hnone | hdepth
      · cases hnone
      · exact absurd hdepth (Nat.ne_of_lt (Nat.lt_succ_self _))
  | initializer => exact absurd hlet (by simp [Expr.ownDeclarations])
  | @inside n mode ds b s t hds =>
      have hforce : inForce Γ ds = Γ := by
        have hnil : ds = [] := hlet
        simp [hnil]
      exact hforce ▸ h.inside hds

/-- The next moments are orderly as well, with perhaps other variables in force. -/
theorem leads (h : Orderly owner P Γ p) (hq : p.Leads q) : ∃ Δ, Orderly owner P Δ q := by
  cases hq with
  | body harity hes hb hk hu => exact ⟨_, h.body harity hes hb hk hu⟩
  | initializer hds hd => exact ⟨_, h.initializer hds⟩
  | inside hds => exact ⟨_, h.inside hds⟩
  | argument harity hes => exact ⟨Γ, h.step (.argument harity hes) rfl (.inr rfl)⟩
  | operand => exact ⟨Γ, h.step .operand rfl (.inl rfl)⟩
  | printed => exact ⟨Γ, h.step .printed rfl (.inl rfl)⟩
  | assigned => exact ⟨Γ, h.step .assigned rfl (.inl rfl)⟩
  | left => exact ⟨Γ, h.step .left rfl (.inl rfl)⟩
  | condition => exact ⟨Γ, h.step .condition rfl (.inl rfl)⟩
  | right hl hundecided => exact ⟨Γ, h.step (.right hl hundecided) rfl (.inl rfl)⟩
  | consequent hc hv => exact ⟨Γ, h.step (.consequent hc hv) rfl (.inl rfl)⟩
  | alternative hc hv => exact ⟨Γ, h.step (.alternative hc hv) rfl (.inl rfl)⟩
  | deferred he => exact ⟨Γ, h.step (.deferred he) rfl (.inl rfl)⟩

/-- Every moment of an orderly evaluation is orderly, among the variables that are in force then. -/
theorem reaches (h : Orderly owner P Γ p) (hq : p.Reaches q) : ∃ Δ, Orderly owner P Δ q := by
  induction hq with
  | refl => exact ⟨Γ, h⟩
  | tail _ hleads ih =>
      rcases ih with ⟨Δ, hΔ⟩
      exact hΔ.leads hleads

/-- What an expression sees is in force. -/
theorem sees (h : Orderly owner P Γ p) {x : SlotId} (hx : p.Sees x) : x ∈ Γ := by
  induction hx generalizing Γ with
  | read hread =>
      rcases hread with ⟨r, hexpr, rfl⟩
      rcases h.placed with ⟨lo, hi, hplaced⟩
      have huses := hplaced.here.uses
      rw [hexpr] at huses
      exact huses.1
  | step hleads hlet hcall _ ih => exact ih (h.step hleads hlet hcall)
  -- In the body of a function its parameters are in force and nothing else, and the caller does not
  -- see them.
  | body harity hes hb hk hu hparameter _ ih =>
      exact absurd (ih (h.body harity hes hb hk hu)) hparameter
  | initializer hds hd hunbound _ ih =>
      rcases ih (h.initializer hds) with hx | ⟨d', hd', heq⟩
      · exact hx
      · exact absurd heq (hunbound d' hd')
  | inside hds hunbound _ ih =>
      rcases ih (h.inside hds) with hx | ⟨d', hd', heq⟩
      · exact hx
      · exact absurd heq (hunbound d' hd')

/-- However it ends, asking for a value spares the variables in force. -/
theorem spares (h : Orderly owner P Γ ⟨n, .probe, e, s⟩) :
    Spares owner Γ s (final (evaluateWithin n .probe e s)) := by
  rcases h.owned with ⟨o, howned⟩
  have hconfined : Confined owner o s.memory (final (evaluateWithin n .probe e s)) :=
    (evaluateWithin_confined n howned.here howned.slots).final (.refl howned.coherent)
  refine ⟨hconfined.1, { hconfined.2 with content := fun x hx => ?_ }, probe_silent n e s⟩
  -- Nothing is assigned, and what is bound is not in force.
  rcases h.changes x with heq | ⟨hrun, -⟩ | hmem
  · exact heq
  · cases hrun
  · exact absurd hmem.1 hx

/-- Asking for a value changes no slot but those that are bound on the way. -/
theorem slot_eq (h : Orderly owner P Γ ⟨n, .probe, e, s⟩) {x : SlotId}
    (hx : ¬ Rebinds ⟨n, .probe, e, s⟩ x) :
    (final (evaluateWithin n .probe e s)).memory.slot x = s.memory.slot x := by
  refine Slot.eq_of_shape (h.spares.memory.shape x) ?_
  rcases h.changes x with heq | ⟨hrun, -⟩ | hmem
  · exact heq
  · cases hrun
  · exact absurd hmem.2 hx

/-- Asking for a value comes to the same on two machines that agree on the variables in force. -/
theorem parallel (h : Orderly owner P Γ ⟨n, .probe, e, s⟩) {K : Pairing}
    (ht : s.memory.Paired K (· ∉ Γ) t.memory) (hprinted : t.printed = s.printed) :
    Parallel K Γᶜ Γᶜ s.printed (evaluateWithin n .probe e s) (evaluateWithin n .probe e t) := by
  have hstart : Apart K Γᶜ s.printed s t := ⟨ht, hprinted, List.prefix_rfl⟩
  have hblind : Blind K Γᶜ ⟨n, .probe, e, s⟩ := .of_probe rfl fun x hx hsees => hx (h.sees hsees)
  exact (evaluateWithin_parallel hstart hblind).mono (stale_probe rfl) (stale_probe rfl)

/-- Asking for a value a second time comes to the same, and nothing changes any more. -/
theorem again (h : Orderly owner P Γ ⟨n, .probe, e, s⟩) :
    evaluateWithin n .probe e (final (evaluateWithin n .probe e s)) =
      evaluateWithin n .probe e s := by
  have hspares := h.spares
  -- Where the first evaluation left something else, the second one begins with it and leaves it
  -- there.
  have hparallel := h.parallel (.between hspares.memory) hspares.printed
  have hend : Apart (.between s.memory (final (evaluateWithin n .probe e s)).memory) Γᶜ s.printed
      (final (evaluateWithin n .probe e s))
      (final (evaluateWithin n .probe e (final (evaluateWithin n .probe e s)))) :=
    hparallel.final (fun _ _ _ _ hq => hq.2) fun _ _ he => he
  refine (result_ext (hparallel.outcome_eq fun _ _ _ _ hq => hq.1) (Machine.ext ?_ ?_)).symm
  · refine (hend.memory.eq fun x _ => ?_).symm
    rcases hend.memory.allowed x with heq | ⟨-, heq⟩
    · exact heq
    · exact heq
  · exact hspares.printed.trans hend.silent.symm

/-- The expression may be evaluated on another machine that agrees on the variables in force. -/
theorem moved (h : Orderly owner P Γ ⟨n, mode, e, s⟩) (ht : Spares owner Γ s t) :
    Orderly owner P Γ ⟨n, mode, e, t⟩ := by
  rcases h.owned with ⟨o, howned⟩
  rcases h.placed with ⟨lo, hi, hplaced⟩
  refine ⟨⟨o, ht.coherent, howned.here, ?_, fun f => ?_⟩, ⟨lo, hi, hplaced.here, ?_⟩,
    h.bodies.unchanged ht.memory⟩
  · have hslots := howned.slots
    have hsize : t.memory.slots.size = s.memory.slots.size := ht.memory.size
    rw [← hsize] at hslots
    exact hslots
  · have hfunction : t.memory.function f = s.memory.function f := ht.memory.function f
    rw [hfunction]
    exact howned.limited f
  · intro x hx hlt e he
    have hcontent : t.memory.content x = s.memory.content x := ht.memory.content x (not_not.2 hx)
    exact hplaced.layered x hx hlt e (hcontent.symm.trans he)

/-- There it has the same value. -/
theorem value_moved (h : Orderly owner P Γ ⟨n, .probe, e, s⟩) (ht : Spares owner Γ s t) {v : Value}
    {u : Machine} (hv : evaluateWithin n .probe e s = .ok v u) :
    ∃ w, evaluateWithin n .probe e t = .ok v w := by
  have hparallel : Parallel .free Γᶜ Γᶜ s.printed _ _ :=
    h.parallel ⟨ht.memory, fun _ => trivial⟩ ht.printed
  have hsame := hparallel.outcome_eq fun _ _ _ _ hq => hq.1
  rw [hv] at hsame
  exact ok_of_outcome hsame.symm

end Orderly
end Moment
end LineLang
