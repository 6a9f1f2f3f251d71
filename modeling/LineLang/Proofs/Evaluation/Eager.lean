import LineLang.Proofs.Evaluation.Repetition

/-!
# Initializers evaluated at once

In a reference evaluator variables hold values only, in an environment for each call: every
initializer of a `let` is evaluated when the `let` is entered. Whenever it comes to a value, so does
the evaluation that leaves dependent initializers in slots and follows them each time they are read.
This is because what an initializer sees is still in force, and unchanged, when the variable is
read.

- `Eager.evaluateWithin`        : the reference evaluator
- `Evaluation.Eventually`       : an action succeeds with enough depth
- `Machine.Mirrors`             : slots that stand for the values in an environment
- `Eager.evaluateWithin_found`  : what is evaluated at once is what is found later
-/

namespace LineLang

open Effect Evaluation Machine

abbrev Environment := SlotId → Option Value

/-! ## The reference -/

namespace Eager

def store (m : Memory) (ρ : Environment) (t : SlotId) (v : Value) : Except Fault Environment := do
  let _ ← m.write t v
  return Function.update ρ t (some v)

/-- The variable of a binding has a value. The kind of its slot is checked where it is checked
otherwise: when the initializer is not dependent. -/
def bind (m : Memory) (ρ : Environment) (dependent : Bool) (t : SlotId) (v : Value) :
    Except Fault Environment :=
  if dependent then pure (Function.update ρ t (some v)) else store m ρ t v

def storeAll (m : Memory) (ρ : Environment) : List (SlotId × Value) → Except Fault Environment
  | [] => pure ρ
  | (t, v) :: rest => do storeAll m (← store m ρ t v) rest

mutual

/-- The value of an expression in an environment, given how bodies of functions are evaluated. The
storage is only asked for functions, for the numbers of their active calls and for kinds of slots.
Nothing is assigned, and nothing is printed. -/
def evaluateWith (follow : Memory → Environment → Expr → Except Fault Value) (m : Memory)
    (ρ : Environment) : Expr → Except Fault Value
  | .literal value => pure value
  | .variable reference =>
      match ρ reference.slot with
      | some v => pure v
      | none => throw (.uninitialized reference.name)
  | .unary op operand => do op.apply (← evaluateWith follow m ρ operand)
  | .binary op left right => do
      let l ← evaluateWith follow m ρ left
      match ← op.decided? l with
      | some v => return v
      | none => do op.apply l (← evaluateWith follow m ρ right)
  | .assign _ value => evaluateWith follow m ρ value
  | .call _ id arguments _ => do
      let f := m.function id
      f.checkArity arguments.length
      let values ← argumentsWith follow m ρ arguments
      match f.body with
      | none => throw (.incomplete f.name)
      | some body => do
          let n ← m.enter id
          follow n (← storeAll n (fun _ => none) (f.parameterSlots.zip values)) body
  | .print argument => evaluateWith follow m ρ argument
  | .declaration _ _ => pure .void
  | .letIn declarations body => do evaluateWith follow m (← bindWith follow m ρ declarations) body
  | .conditional condition consequent alternative => do
      let v ← evaluateWith follow m ρ condition
      match ← v.asBoolean .condition with
      | true => evaluateWith follow m ρ consequent
      | false => evaluateWith follow m ρ alternative

def argumentsWith (follow : Memory → Environment → Expr → Except Fault Value) (m : Memory)
    (ρ : Environment) : List Expr → Except Fault (List Value)
  | [] => pure []
  | argument :: arguments => do
      let v ← evaluateWith follow m ρ argument
      let vs ← argumentsWith follow m ρ arguments
      return v :: vs

def bindWith (follow : Memory → Environment → Expr → Except Fault Value) (m : Memory)
    (ρ : Environment) : List (Declaration Expr) → Except Fault Environment
  | [] => pure ρ
  | ⟨_, slot, _, initializer, dependent⟩ :: declarations => do
      let v ← evaluateWith follow m ρ initializer
      bindWith follow m (← bind m ρ dependent slot v) declarations

end

def evaluateWithin : Nat → Memory → Environment → Expr → Except Fault Value
  | 0 => fun _ _ _ => throw .endless
  | depth + 1 => evaluateWith (evaluateWithin depth)

def call (depth : Nat) (m : Memory) (id : FunctionId) (values : List Value) : Except Fault Value :=
  evaluateWithin depth m (fun _ => none) (.call "" id (values.map .literal) false)

end Eager

/-! ## Enough depth -/

namespace Evaluation

variable {α β : Type}

def Eventually (x : Nat → Evaluation α) (s : Machine) (a : α) (t : Machine) : Prop :=
  ∃ k, ∀ n, k ≤ n → x n s = .ok a t

namespace Eventually

variable {x : Nat → Evaluation α} {f : Nat → α → Evaluation β} {s t u : Machine} {a : α} {b : β}

theorem pure (a : α) (s : Machine) : Eventually (fun _ => Pure.pure a) s a s :=
  ⟨0, fun _ _ => rfl⟩

theorem ofExcept {r : Except Fault α} (h : r = .ok a) (s : Machine) :
    Eventually (fun _ => Effect.ofExcept r) s a s :=
  ⟨0, fun _ _ => by rw [h]; rfl⟩

/-- One action after another, each allowed to go deep enough. -/
theorem bind (hx : Eventually x s a t) (hf : Eventually (fun n => f n a) t b u) :
    Eventually (fun n => x n >>= f n) s b u := by
  rcases hx with ⟨k, hk⟩
  rcases hf with ⟨l, hl⟩
  refine ⟨max k l, fun n hn => ?_⟩
  have hfirst := hk n (Nat.le_trans (Nat.le_max_left k l) hn)
  exact (bind_ok hfirst).trans (hl n (Nat.le_trans (Nat.le_max_right k l) hn))

/-- It makes no difference that the bound is one larger. -/
theorem shift {e : Expr} {v : Value}
    (h : Eventually (fun n => evaluateWithin (n + 1) .probe e) s v t) :
    Eventually (fun n => evaluateWithin n .probe e) s v t := by
  rcases h with ⟨k, hk⟩
  refine ⟨k + 1, fun n hn => ?_⟩
  cases n with
  | zero => exact absurd hn (Nat.not_succ_le_zero k)
  | succ n => exact hk n (Nat.le_of_succ_le_succ hn)

theorem exists_ok (h : Eventually x s a t) : ∃ n, x n s = .ok a t := by
  rcases h with ⟨k, hk⟩
  exact ⟨k, hk k (Nat.le_refl k)⟩

/-- A value that was found is found to any greater depth. -/
theorem of_ok {n : Nat} {e : Expr} {v : Value} (h : evaluateWithin n .probe e s = .ok v t) :
    Eventually (fun n => evaluateWithin (n + 1) .probe e) s v t := by
  refine ⟨n, fun k hk => ?_⟩
  rcases evaluateWithin_mono (Nat.le_succ_of_le hk) .probe e s with heq | ⟨u, hu⟩
  · rw [← h, heq]
  · cases h.symm.trans hu

/-- One more binding is filled. -/
theorem snoc {ds : List (Declaration Expr)} {d : Declaration Expr}
    (hds : Eventually (fun n => bindWith (evaluateWithin n) .probe ds) s () t)
    (hd : Eventually (fun n => bindOne (evaluateWithin n) .probe d) t () u) :
    Eventually (fun n => bindWith (evaluateWithin n) .probe (ds ++ [d])) s () u := by
  rcases hds with ⟨k, hk⟩
  rcases hd with ⟨l, hl⟩
  refine ⟨max k l, fun n hn => ?_⟩
  have hbefore := hk n (Nat.le_trans (Nat.le_max_left k l) hn)
  have hone := hl n (Nat.le_trans (Nat.le_max_right k l) hn)
  refine (bindWith_append hbefore).trans ?_
  rw [bindWith_cons]
  exact bind_ok hone

/-- A function is entered, its parameters are set, and its body has a value. -/
theorem call {id : FunctionId} {f : Function} {vs : List Value} {x : Nat → Evaluation Value}
    {k : Memory} {v : Value} {w : Machine} (hk : s.memory.enter id = .ok k)
    (hu : writeAll (f.parameterSlots.zip vs) { s with memory := k } = .ok () u)
    (hx : Eventually x u v w) :
    ∃ t, Eventually (fun n => asCall id (inFrame f vs (x n))) s v t := by
  rcases hx with ⟨l, hl⟩
  refine ⟨onMemory (Memory.leave id) (onMemory (Memory.putBack (k.save f.frame)) w), l,
    fun n hn => ?_⟩
  have hbody : (writeAll (f.parameterSlots.zip vs) >>= fun _ => x n)
      { s with memory := k } = .ok v w :=
    (bind_ok hu).trans (hl n hn)
  have hframe : inFrame f vs (x n) { s with memory := k } =
      .ok v (onMemory (Memory.putBack (k.save f.frame)) w) := by
    show Effect.ensuring _ (writeAll (f.parameterSlots.zip vs) >>= fun _ => x n)
      { s with memory := k } = _
    unfold Effect.ensuring
    rw [hbody]
  have hentered :
      Effect.update (fun s : Machine => do return { s with memory := ← s.memory.enter id }) s =
      .ok () { s with memory := k } := update_ok (by rw [hk]; rfl)
  refine (bind_ok hentered).trans ?_
  unfold Effect.ensuring
  rw [hframe]

end Eventually
end Evaluation

/-! ## Slots that stand for values -/

open Moment

namespace Machine

variable {owner : SlotId → FunctionId} {P : Expr → Prop} {m : Memory} {ρ : Environment}
variable {Γ Δ : Set SlotId} {s t : Machine} {c : Content} {v : Value}

/-- What a slot holds stands for a value: it is the value, or an initializer that comes to it. -/
def StandsFor (owner : SlotId → FunctionId) (P : Expr → Prop) (Γ : Set SlotId) (s : Machine)
    (c : Content) (v : Value) : Prop :=
  match c with
  | .uninitialized => False
  | .value w => w = v
  | .dependent e => ∃ Δ ⊆ Γ, Orderly owner P Δ ⟨0, .probe, e, s⟩ ∧
      ∃ t, Eventually (fun n => evaluateWithin (n + 1) .probe e) s v t

namespace StandsFor

/-- What stands for a value among some variables does so among more of them. -/
theorem mono (h : StandsFor owner P Γ s c v) (hΓ : Γ ⊆ Δ) : StandsFor owner P Δ s c v := by
  cases c with
  | uninitialized => exact h
  | value w => exact h
  | dependent e =>
      rcases h with ⟨Θ, hΘ, hrest⟩
      exact ⟨Θ, hΘ.trans hΓ, hrest⟩

/-- An initializer still comes to the value when variables out of force have changed. -/
theorem moved (h : StandsFor owner P Γ s c v) (ht : Spares owner Γ s t) :
    StandsFor owner P Γ t c v := by
  cases c with
  | uninitialized => exact h
  | value w => exact h
  | dependent e =>
      rcases h with ⟨Θ, hΘ, horderly, u, hu⟩
      rcases hu.exists_ok with ⟨n, hn⟩
      rcases (horderly.asked (n + 1) .probe).value_moved (ht.mono hΘ) hn with ⟨w, hw⟩
      exact ⟨Θ, hΘ, horderly.moved (ht.mono hΘ), w, .of_ok hw⟩

end StandsFor

/-- The machine has the functions and slots of `m`, and what the slots in `Γ` hold stands for the
values in the environment. -/
structure Mirrors (owner : SlotId → FunctionId) (P : Expr → Prop) (m : Memory) (ρ : Environment)
    (Γ : Set SlotId) (s : Machine) : Prop where
  same : m.UnchangedOutside (fun _ => True) s.memory
  values : ∀ t ∈ Γ, t < s.memory.slots.size → ∃ v, ρ t = some v ∧
    StandsFor owner P Γ s (s.memory.content t) v

namespace Mirrors

theorem of_values (hsame : m.UnchangedOutside (fun _ => True) s.memory)
    (h : ∀ t ∈ Γ, t < s.memory.slots.size → ∃ v, ρ t = some v ∧ s.memory.content t = .value v) :
    Mirrors owner P m ρ Γ s := by
  refine ⟨hsame, fun t ht hlt => ?_⟩
  rcases h t ht hlt with ⟨v, hv, hc⟩
  rw [hc]
  exact ⟨v, hv, rfl⟩

/-- The same holds on another machine on which the variables in force are spared. -/
theorem moved (h : Mirrors owner P m ρ Γ s) (ht : Spares owner Γ s t) :
    Mirrors owner P m ρ Γ t := by
  refine ⟨h.same.trans (ht.memory.mono fun _ _ => trivial), fun x hx hlt => ?_⟩
  have hcontent : t.memory.content x = s.memory.content x := ht.memory.content x (not_not.2 hx)
  rcases h.values x hx (ht.memory.size ▸ hlt) with ⟨v, hv, hstands⟩
  rw [hcontent]
  exact ⟨v, hv, hstands.moved ht⟩

/-- One more variable is bound. -/
theorem bind (h : Mirrors owner P m ρ Γ s) {x : SlotId} (hx : x ∉ Γ)
    (hcoherent : (s.memory.replace x c).Coherent owner)
    (hc : StandsFor owner P (insert x Γ) { s with memory := s.memory.replace x c } c v) :
    Mirrors owner P m (Function.update ρ x (some v)) (insert x Γ)
      { s with memory := s.memory.replace x c } := by
  have hspares : Spares owner Γ s { s with memory := s.memory.replace x c } :=
    ⟨hcoherent, .replace (S := (· ∉ Γ)) hx c, rfl⟩
  have hmoved := h.moved hspares
  refine ⟨hmoved.same, ?_⟩
  rintro y (rfl | hy) hlt
  -- The new variable holds what was put there, and the others stand for what they stood for.
  · refine ⟨v, Function.update_self _ _ _, ?_⟩
    rw [Memory.content_replace_self (by simpa using hlt)]
    exact hc
  · have hne : y ≠ x := fun heq => hx (heq ▸ hy)
    rcases hmoved.values y hy hlt with ⟨w, hw, hstands⟩
    exact ⟨w, by rw [Function.update_of_ne hne, hw], hstands.mono (Set.subset_insert x Γ)⟩

end Mirrors
end Machine

/-- A slot takes a value on both sides or on neither. -/
theorem Evaluation.write_agrees {m n : Memory} {s : Machine} {i : SlotId} {v : Value}
    (h : m.UnchangedOutside (fun _ => True) s.memory) (hn : m.write i v = .ok n) :
    write i v s = .ok () { s with memory := s.memory.replace i (.value v) } := by
  have haccepts := (Memory.write_ok hn).2
  have hkind : (s.memory.slot i).kind = (m.slot i).kind := congrArg (·.kind) (h.shape i)
  rw [← hkind] at haccepts
  apply update_ok
  simp only [Memory.write, Value.expectKind, haccepts, if_true]
  rfl

/-- Parameters are set on both sides. -/
theorem Evaluation.writeAll_agrees {m : Memory} {pairs : List (SlotId × Value)} {ρ σ : Environment}
    {s : Machine} (h : m.UnchangedOutside (fun _ => True) s.memory)
    (hσ : Eager.storeAll m ρ pairs = .ok σ) :
    ∃ t, writeAll pairs s = .ok () t ∧ m.UnchangedOutside (fun _ => True) t.memory ∧
      ∀ x < s.memory.slots.size,
        (x ∈ pairs.map Prod.fst ∨ ∃ v, ρ x = some v ∧ s.memory.content x = .value v) →
        ∃ v, σ x = some v ∧ t.memory.content x = .value v := by
  induction pairs generalizing ρ s with
  | nil =>
      cases hσ
      exact ⟨s, rfl, h, fun x _ hx => hx.resolve_left List.not_mem_nil⟩
  | cons p pairs ih =>
      rcases ok_of_bind hσ with ⟨τ, hstore, hσ⟩
      rcases ok_of_bind hstore with ⟨n, hn, hτ⟩
      cases hτ
      have hwrite := write_agrees h hn
      have hnext : m.UnchangedOutside (fun _ => True) (s.memory.replace p.1 (.value p.2)) :=
        h.trans (.replace (S := fun _ => True) trivial _)
      rcases ih (s := { s with memory := s.memory.replace p.1 (.value p.2) }) hnext hσ with
        ⟨t, ht, hsame, hvalues⟩
      refine ⟨t, (bind_ok hwrite).trans ht, hsame, fun x hlt hx =>
        hvalues x (by simpa using hlt) ?_⟩
      -- Of two values for one slot, the later one counts on both sides.
      by_cases hxp : x = p.1
      · subst hxp
        exact .inr ⟨p.2, Function.update_self _ _ _, Memory.content_replace_self hlt⟩
      · rcases hx with hx | ⟨v, hv, hc⟩
        · exact .inl ((List.mem_cons.1 hx).resolve_left hxp)
        · refine .inr ⟨v, ?_, ?_⟩
          · rw [Function.update_of_ne hxp, hv]
          · exact (Memory.content_replace_of_ne hxp).trans hc

/-! ## Agreement -/

/-- After a value was found, the variables in force are spared. -/
theorem Moment.Orderly.spares_eventually {owner : SlotId → FunctionId} {P : Expr → Prop}
    {Γ : Set SlotId} {e : Expr} {s t : Machine} {v : Value}
    (h : Orderly owner P Γ ⟨0, .probe, e, s⟩)
    (hv : Eventually (fun n => Evaluation.evaluateWithin (n + 1) .probe e) s v t) :
    Spares owner Γ s t := by
  rcases hv.exists_ok with ⟨n, hn⟩
  have hspares := (h.asked (n + 1) .probe).spares
  rwa [hn] at hspares

namespace Eager

variable {owner : SlotId → FunctionId} {P : Expr → Prop}
variable {follow : Memory → Environment → Expr → Except Fault Value} {m : Memory}
variable {ρ σ : Environment} {Γ : Set SlotId} {s t : Machine} {v : Value}

/-- Whenever the expression has a value in an environment, it has this value on every machine that
mirrors it. -/
def Found (owner : SlotId → FunctionId) (P : Expr → Prop)
    (follow : Memory → Environment → Expr → Except Fault Value) (e : Expr) : Prop :=
  ∀ {m : Memory} {ρ : Environment} {Γ : Set SlotId} {s : Machine} {v : Value},
    Orderly owner P Γ ⟨0, .probe, e, s⟩ → Mirrors owner P m ρ Γ s → follow m ρ e = .ok v →
      ∃ t, Eventually (fun n => Evaluation.evaluateWithin (n + 1) .probe e) s v t

/-- Arguments one after the other. -/
theorem arguments_found {es : List Expr} {vs : List Value}
    (hes : ∀ e ∈ es, Found owner P (evaluateWith follow) e)
    (h : ∀ e ∈ es, Orderly owner P Γ ⟨0, .probe, e, s⟩) (hm : Mirrors owner P m ρ Γ s)
    (hcoherent : s.memory.Coherent owner) (hvs : argumentsWith follow m ρ es = .ok vs) :
    ∃ t, Eventually (fun n => Evaluation.argumentsWith (Evaluation.evaluateWithin n) es) s vs t ∧
      Spares owner Γ s t := by
  induction es generalizing s vs with
  | nil =>
      cases hvs
      exact ⟨s, .pure [] s, .refl hcoherent Γ⟩
  | cons e es ih =>
      rw [List.forall_mem_cons] at hes h
      rcases ok_of_bind hvs with ⟨v, hv, hvs⟩
      rcases ok_of_bind hvs with ⟨ws, hws, hend⟩
      cases hend
      rcases hes.1 h.1 hm hv with ⟨t, ht⟩
      have hspares := h.1.spares_eventually ht
      -- The other arguments are evaluated on a machine on which the variables in force are spared.
      rcases ih hes.2 (fun e' he' => (h.2 e' he').moved hspares) (hm.moved hspares)
          hspares.coherent hws with
        ⟨u, hu, hspares'⟩
      exact ⟨u, ht.bind (hu.bind (.pure (v :: ws) u)), hspares.trans hspares'⟩

/-- One binding. A dependent initializer is evaluated now on one side and left in its slot on the
other, where it will come to the same. -/
theorem binding_found {d : Declaration Expr} {t' : Machine} {w : Value}
    (h : Orderly owner P Γ ⟨0, .probe, d.initializer, t⟩) (hm : Mirrors owner P m ρ Γ t)
    (hfresh : d.slot ∉ Γ)
    (hw : Eventually (fun n => Evaluation.evaluateWithin (n + 1) .probe d.initializer) t w t')
    (hσ : bind m ρ d.dependent d.slot w = .ok σ) :
    ∃ u, Eventually (fun n => bindOne (Evaluation.evaluateWithin n) .probe d) t () u ∧
      (u.memory.Coherent owner → Mirrors owner P m σ (insert d.slot Γ) u) := by
  cases hd : d.dependent with
  | true =>
      rw [hd] at hσ
      cases hσ
      let u : Machine := { t with memory := t.memory.replace d.slot (.dependent d.initializer) }
      refine ⟨u, ⟨0, fun n _ => ?_⟩, fun hcoherent => hm.bind hfresh hcoherent ?_⟩
      · unfold bindOne
        rw [hd]
        rfl
      -- What the initializer sees is in force already, and filling this slot spares it.
      · have hspares : Spares owner Γ t u := ⟨hcoherent, .replace (S := (· ∉ Γ)) hfresh _, rfl⟩
        have hnow : StandsFor owner P Γ t (.dependent d.initializer) w := ⟨Γ, subset_rfl, h, t', hw⟩
        exact (hnow.moved hspares).mono (Set.subset_insert d.slot Γ)
  | false =>
      rw [hd] at hσ
      rcases ok_of_bind hσ with ⟨n, hn, hend⟩
      cases hend
      have hm' := hm.moved (h.spares_eventually hw)
      have hwrite := write_agrees hm'.same hn
      let u : Machine := { t' with memory := t'.memory.replace d.slot (.value w) }
      have hvalue : StandsFor owner P (insert d.slot Γ) u (.value w) w := rfl
      refine ⟨u, ?_, fun hcoherent => hm'.bind hfresh hcoherent hvalue⟩
      unfold bindOne
      rw [hd]
      exact hw.bind ⟨0, fun _ _ => hwrite⟩

/-- Bindings one after the other. -/
theorem bindings_found {ds ds' : List (Declaration Expr)} {b : Expr}
    (hds' : ∀ d ∈ ds', Found owner P (evaluateWith follow) d.initializer)
    (h : Orderly owner P Γ ⟨1, .probe, .letIn (ds ++ ds') b, s⟩)
    (hds : Eventually (fun n => Evaluation.bindWith (Evaluation.evaluateWithin n) .probe ds) s () t)
    (hm : Mirrors owner P m ρ (inForce Γ ds) t) (hσ : bindWith follow m ρ ds' = .ok σ) :
    ∃ u, Eventually (fun n => Evaluation.bindWith (Evaluation.evaluateWithin n) .probe (ds ++ ds'))
      s () u ∧ Mirrors owner P m σ (inForce Γ (ds ++ ds')) u := by
  induction ds' generalizing ds t ρ with
  | nil =>
      cases hσ
      rw [List.append_nil]
      exact ⟨t, hds, hm⟩
  | cons d ds' ih =>
      rw [List.forall_mem_cons] at hds'
      rcases ok_of_bind hσ with ⟨w, hw, hσ⟩
      rcases ok_of_bind hσ with ⟨τ, hτ, hσ⟩
      rcases h.owned with ⟨o, howned⟩
      rcases h.placed with ⟨lo, hi, hplaced⟩
      -- Slots are handed out in ascending order, so this one is not in force yet.
      have hfresh : d.slot ∉ inForce Γ ds := by
        intro hmem
        exact Nat.lt_irrefl _ (hplaced.here.slot.2 _ hmem hplaced.here.slot.1)
      have hinitializer : Orderly owner P (inForce Γ ds) ⟨0, .probe, d.initializer, t⟩ := by
        rcases hds.exists_ok with ⟨n, hn⟩
        exact ((h.asked (n + 1) .probe).initializer hn).asked 0 .probe
      rcases hds'.1 hinitializer hm hw with ⟨t', ht'⟩
      rw [List.append_cons] at h howned ⊢
      rcases binding_found hinitializer hm hfresh ht' hτ with ⟨u, hu, hmirrors⟩
      have hnext := hds.snoc hu
      -- Some depth suffices for all the bindings so far, and there the storage is known to be
      -- coherent.
      rcases hnext.exists_ok with ⟨n, hn⟩
      have hcoherent : u.memory.Coherent owner := (howned.bindings hn).1
      refine ih hds'.2 h hnext ?_ hσ
      rw [← insert_inForce]
      exact hmirrors hcoherent

theorem evaluateWith_variable {r : Reference} (h : ρ r.slot = some v) :
    evaluateWith follow m ρ (.variable r) = .ok v := by
  simp only [evaluateWith, h]
  rfl

/-- A variable in force stands for its value: it is stored, or the initializer comes to it. -/
theorem read_found (r : Reference) : Found owner P (evaluateWith follow) (.variable r) := by
  intro m ρ Γ s v h hm hv
  rcases h.owned with ⟨o, howned⟩
  rcases h.placed with ⟨lo, hi, hplaced⟩
  have hlt : r.slot < s.memory.slots.size := howned.slots.self r.slot (by simp [Expr.ownSlots])
  rcases hm.values r.slot hplaced.here.uses.1 hlt with ⟨w, hw, hstands⟩
  cases (evaluateWith_variable hw).symm.trans hv
  cases hc : s.memory.content r.slot with
  | uninitialized =>
      rw [hc] at hstands
      exact hstands.elim
  | value x =>
      rw [hc] at hstands
      cases hstands
      refine ⟨s, 0, fun k _ => ?_⟩
      refine (readWith_apply r).trans ?_
      rw [hc]
  | dependent e =>
      rw [hc] at hstands
      rcases hstands with ⟨Δ, -, -, t, ht⟩
      -- The stored expression is followed one level further down.
      rcases ht.shift with ⟨l, hl⟩
      refine ⟨t, l, fun k hk => ?_⟩
      refine (readWith_apply r).trans ?_
      rw [hc]
      exact hl k hk

theorem unary_found (op : UnaryOperator) {e : Expr} (he : Found owner P (evaluateWith follow) e) :
    Found owner P (evaluateWith follow) (.unary op e) := by
  intro m ρ Γ s v h hm hv
  rcases ok_of_bind hv with ⟨w, hw, hv⟩
  rcases he (h.operand .unary) hm hw with ⟨t, ht⟩
  exact ⟨t, ht.bind (.ofExcept hv t)⟩

/-- An operand that is evaluated after another one. The variables in force were spared. -/
theorem next_found {e₁ e₂ : Expr} {w : Value} (he₂ : Found owner P (evaluateWith follow) e₂)
    (hfirst : Orderly owner P Γ ⟨0, .probe, e₁, s⟩) (hsecond : Orderly owner P Γ ⟨0, .probe, e₂, s⟩)
    (hm : Mirrors owner P m ρ Γ s)
    (ht : Eventually (fun n => Evaluation.evaluateWithin (n + 1) .probe e₁) s v t)
    (hw : evaluateWith follow m ρ e₂ = .ok w) :
    ∃ u, Eventually (fun n => Evaluation.evaluateWithin (n + 1) .probe e₂) t w u := by
  have hspares := hfirst.spares_eventually ht
  exact he₂ (hsecond.moved hspares) (hm.moved hspares) hw

theorem binary_found (op : BinaryOperator) {l r : Expr}
    (hl : Found owner P (evaluateWith follow) l) (hr : Found owner P (evaluateWith follow) r) :
    Found owner P (evaluateWith follow) (.binary op l r) := by
  intro m ρ Γ s v h hm hv
  rcases ok_of_bind hv with ⟨w, hw, hv⟩
  rcases ok_of_bind hv with ⟨d, hd, hv⟩
  rcases hl (h.operand .left) hm hw with ⟨t, ht⟩
  cases d with
  | some x =>
      cases hv
      exact ⟨t, ht.bind (.bind (.ofExcept hd t) (.pure v t))⟩
  | none =>
      rcases ok_of_bind hv with ⟨x, hx, hv⟩
      rcases next_found hr (h.operand .left) (h.operand .right) hm ht hx with ⟨u, hu⟩
      exact ⟨u, ht.bind (.bind (.ofExcept hd t) (.bind hu (.ofExcept hv u)))⟩

theorem assign_found (ts : List Reference) {e : Expr}
    (he : Found owner P (evaluateWith follow) e) :
    Found owner P (evaluateWith follow) (.assign ts e) := by
  intro m ρ Γ s v h hm hv
  rcases he (h.operand .assigned) hm hv with ⟨t, ht⟩
  exact ⟨t, ht.bind (.pure v t)⟩

theorem print_found {e : Expr} (he : Found owner P (evaluateWith follow) e) :
    Found owner P (evaluateWith follow) (.print e) := by
  intro m ρ Γ s v h hm hv
  rcases he (h.operand .printed) hm hv with ⟨t, ht⟩
  exact ⟨t, ht.bind (.pure v t)⟩

/-- After its bindings a `let` goes on with more variables in force, mirrored like the others. -/
theorem letIn_found {ds : List (Declaration Expr)} {b : Expr}
    (hds : ∀ d ∈ ds, Found owner P (evaluateWith follow) d.initializer)
    (hb : Found owner P (evaluateWith follow) b) :
    Found owner P (evaluateWith follow) (.letIn ds b) := by
  intro m ρ Γ s v h hm hv
  rcases ok_of_bind hv with ⟨σ, hσ, hv⟩
  have hnone : Eventually
      (fun n => Evaluation.bindWith (Evaluation.evaluateWithin n) .probe []) s () s := .pure () s
  have hstart : Mirrors owner P m ρ (inForce Γ []) s := by
    have hforce : inForce Γ [] = Γ := by simp
    rwa [hforce]
  rcases bindings_found hds (h.asked 1 .probe) hnone hstart hσ with ⟨t, ht, hmt⟩
  rcases ht.exists_ok with ⟨k, hk⟩
  have hinside := ((h.asked (k + 1) .probe).inside hk).asked 0 .probe
  rcases hb hinside hmt hv with ⟨u, hu⟩
  exact ⟨u, ht.bind hu⟩

/-- The condition comes to the same on both sides, and so the same branch is taken. -/
theorem conditional_found {c a e : Expr} (hc : Found owner P (evaluateWith follow) c)
    (ha : Found owner P (evaluateWith follow) a) (he : Found owner P (evaluateWith follow) e) :
    Found owner P (evaluateWith follow) (.conditional c a e) := by
  intro m ρ Γ s v h hm hv
  rcases ok_of_bind hv with ⟨w, hw, hv⟩
  rcases ok_of_bind hv with ⟨d, hd, hv⟩
  rcases hc (h.operand .condition) hm hw with ⟨t, ht⟩
  cases d with
  | true =>
      rcases next_found ha (h.operand .condition) (h.operand .consequent) hm ht hv with ⟨u, hu⟩
      exact ⟨u, ht.bind (.bind (.ofExcept hd t) hu)⟩
  | false =>
      rcases next_found he (h.operand .condition) (h.operand .alternative) hm ht hv with ⟨u, hu⟩
      exact ⟨u, ht.bind (.bind (.ofExcept hd t) hu)⟩

/-- A call of a function. Its parameters have the same values on both sides. -/
theorem call_found {name : String} {f : FunctionId} {es : List Expr} {dependent : Bool} {n : Nat}
    (hes : ∀ e ∈ es, Found owner P (evaluateWith (evaluateWithin n)) e)
    (hbody : ∀ b, Found owner P (evaluateWithin n) b) :
    Found owner P (evaluateWith (evaluateWithin n)) (.call name f es dependent) := by
  intro m ρ Γ s v h hm hv
  rcases ok_of_bind hv with ⟨_, harity, hv⟩
  rcases ok_of_bind hv with ⟨vs, hvs, hv⟩
  rcases h.owned with ⟨o, howned⟩
  rcases arguments_found hes (fun _ he => h.operand (.argument he)) hm howned.coherent hvs with
    ⟨t, ht, hspares⟩
  have hfunction : s.memory.function f = m.function f := hm.same.function f
  cases hb : (m.function f).body with
  | none =>
      rw [hb] at hv
      cases hv
  | some b =>
      rw [hb] at hv
      rcases ok_of_bind hv with ⟨k, hk, hv⟩
      rcases ok_of_bind hv with ⟨σ, hσ, hv⟩
      rw [← hfunction] at harity hb hσ
      have hpaired : m.Paired .free (fun _ => True) t.memory :=
        ⟨(hm.moved hspares).same, fun _ => trivial⟩
      -- Both sides count the same active calls, so that the limit is reached on both or on neither.
      rcases hpaired.enter f with ⟨fault, hfault, -⟩ | ⟨k', l, hk', hl, hkl⟩
      · cases hk.symm.trans hfault
      · cases hk.symm.trans hk'
        rcases writeAll_agrees (s := { t with memory := l }) hkl.toUnchangedOutside hσ with
          ⟨u, hu, hsame, hvalues⟩
        rcases ht.exists_ok with ⟨i, hi⟩
        have hinside := ((h.asked (i + 1) .probe).body harity hi hb hl hu).asked 0 .probe
        -- In the body only the parameters are in force, and they hold values.
        have hmirrors : Mirrors owner P k σ {x | x ∈ (s.memory.function f).parameterSlots} u := by
          refine .of_values hsame fun x hx hlt => ?_
          rw [← map_fst_parameters harity hi] at hx
          rw [hsame.size, ← hkl.size] at hlt
          exact hvalues x hlt (.inl hx)
        rcases hbody b hinside hmirrors hv with ⟨w, hw⟩
        rcases Eventually.call hl hu hw.shift with ⟨t', ht'⟩
        have hcall : Eventually (fun i =>
            Effect.ofExcept ((s.memory.function f).checkArity es.length) >>= fun _ =>
              Evaluation.argumentsWith (Evaluation.evaluateWithin i) es >>= fun vs => asCall f
                (inFrame (s.memory.function f) vs (Evaluation.evaluateWithin i .probe b))) s v t' :=
          .bind (.ofExcept harity s) (.bind ht ht')
        rcases hcall with ⟨j, hj⟩
        refine ⟨t', j, fun i hi => ?_⟩
        show Evaluation.evaluateWithin (i + 1) .probe (.call name f es dependent) s = .ok v t'
        rw [evaluateWithin_call, hb]
        exact hj i hi

/-- Whatever has a value when initializers are evaluated at once has it when they are left in
slots. -/
theorem evaluateWithin_found (n : Nat) (e : Expr) : Found owner P (evaluateWithin n) e := by
  -- The induction is on the depth, for bodies of functions, and then on the expression, for its
  -- operands. An initializer that is read from a slot is neither: what it comes to is part of what
  -- mirroring means.
  induction n generalizing e with
  | zero =>
      intro m ρ Γ s v _ _ hv
      cases hv
  | succ n ihn =>
      induction e using Expr.induction with
      | literal v =>
          rintro m ρ Γ s _ - - ⟨⟩
          exact ⟨s, .pure v s⟩
      | declaration name f =>
          rintro m ρ Γ s _ - - ⟨⟩
          exact ⟨s, .pure Value.void s⟩
      | read r => exact read_found r
      | unary op e ih => exact unary_found op ih
      | binary op l r ihl ihr => exact binary_found op ihl ihr
      | assign ts e ih => exact assign_found ts ih
      | call name f es dependent ih => exact call_found ih ihn
      | print e ih => exact print_found ih
      | letIn ds b ihd ihb => exact letIn_found ihd ihb
      | conditional c a e ihc iha ihe => exact conditional_found ihc iha ihe

end Eager
end LineLang
