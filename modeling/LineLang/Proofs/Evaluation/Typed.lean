import LineLang.Proofs.Activation.Soundness
import LineLang.Proofs.Evaluation.Moments
import LineLang.Proofs.Evaluation.StraightLine

/-!
# Fully typed code

An expression in which every part has a definite kind and nothing is called cannot go wrong: each
check made before it is evaluated makes the check of the same place superfluous that is made on the
way. The variables in force hold values that their kinds accept, and every write keeps that.

- `Memory.StoreTyped`     : variables in force hold values of their kinds
- `Memory.Definite`       : what is required of each part
- `Evaluation.TypeSafe`       : an action keeps the variables typed and stops at nothing but a zero
  divisor
- `Evaluation.evaluateWith_typeSafe`  : a fully typed expression gives a value of its kind
-/

namespace LineLang

open Effect Typing

/-! ## What static checks tell -/

/-- Two branches have a definite kind in common only if it is the kind of both. -/
theorem Kind.unify_eq {a b : Kind} (h : a.unify b ≠ .dynamic) : a.unify b = a ∧ a = b := by
  unfold Kind.unify at h ⊢
  split at h
  · next hab =>
      subst hab
      exact ⟨if_pos rfl, rfl⟩
  · exact absurd rfl h

/-- Where a definite kind is accepted, a value of it is of the kind that was asked for, if that is
definite too. -/
theorem Kind.eq_of_accepts {a b : Kind} (h : a.accepts b = true) (ha : a ≠ .dynamic)
    (hb : b ≠ .dynamic) : b = a := by
  simp only [Kind.accepts, ha, hb, false_or, decide_eq_true_eq] at h
  exact h.symm

/-- A left operand of the right kind can be asked whether it decides. -/
theorem BinaryOperator.decided?_ok (op : BinaryOperator) {v : Value} {right k : Kind}
    (h : binaryKind op v.kind right = .ok k) : ∃ decided, op.decided? v = .ok decided := by
  cases op with
  | andThen | orElse =>
      cases v with
      | boolean b => exact ⟨_, rfl⟩
      | void | number | text => cases h
  | _ => exact ⟨_, rfl⟩

/-! ## The store -/

namespace Memory

variable {m n : Memory} {Γ Δ : Set SlotId} {t : SlotId} {v : Value}

/-- The slots of `n` have the kinds of the slots of `m`, and those in `Γ` hold values accepted by
them. -/
structure StoreTyped (m : Memory) (Γ : Set SlotId) (n : Memory) : Prop where
  size : n.slots.size = m.slots.size
  shape : ∀ t, (n.slot t).shape = (m.slot t).shape
  filled : ∀ t ∈ Γ, ∃ v, n.content t = .value v ∧ (m.slot t).kind.accepts v.kind = true

namespace StoreTyped

theorem mono (h : m.StoreTyped Γ n) (hΔ : Δ ⊆ Γ) : m.StoreTyped Δ n :=
  ⟨h.size, h.shape, fun t ht => h.filled t (hΔ ht)⟩

theorem kind (h : m.StoreTyped Γ n) (t : SlotId) : (n.slot t).kind = (m.slot t).kind :=
  congrArg (·.kind) (h.shape t)

/-- A variable in force has a slot. -/
theorem lt_size (h : m.StoreTyped Γ n) (ht : t ∈ Γ) : t < m.slots.size := by
  obtain ⟨v, hv, -⟩ := h.filled t ht
  by_contra hlt
  have hle : n.slots.size ≤ t := by
    rw [h.size]
    exact Nat.le_of_not_lt hlt
  rw [content, slot_of_size_le hle] at hv
  cases hv

/-- A value that the kind of a slot accepts may be written to it, and the slot is filled then. -/
theorem write (h : m.StoreTyped Γ n) (ht : t < m.slots.size)
    (hv : (m.slot t).kind.accepts v.kind = true) :
    ∃ n', n.write t v = .ok n' ∧ m.StoreTyped (insert t Γ) n' := by
  have hwrite : n.write t v = .ok (n.replace t (.value v)) := by
    unfold Memory.write Value.expectKind
    rw [h.kind, if_pos hv]
    rfl
  refine ⟨_, hwrite, ⟨by rw [size_replace, h.size], fun u => by rw [shape_replace, h.shape], ?_⟩⟩
  intro u hu
  by_cases hut : u = t
  · subst hut
    exact ⟨v, content_replace_self (by rwa [h.size]), hv⟩
  · rw [content_replace_of_ne hut]
    exact h.filled u (hu.resolve_left hut)

end StoreTyped

/-- A part that calls nothing, has no dynamic kind and binds variables that are filled at once. -/
structure Definite (m : Memory) (p : Expr) : Prop where
  plain : p.ownCallees = []
  known : kindGiven m m.answer p ≠ .ok .dynamic
  bindings : ∀ d ∈ p.ownDeclarations,
    d.dependent = false ∧ d.slot < m.slots.size ∧ (m.slot d.slot).kind = d.kind

end Memory

/-! ## Evaluation -/

namespace Evaluation

variable {m : Memory} {Γ Δ : Set SlotId} {α β : Type}

/-- The action keeps the variables in force typed, gives a result with `Q` and leaves those in `Δ`
filled. It fails at nothing but a zero divisor. -/
def TypeSafe (m : Memory) (Γ Δ : Set SlotId) (Q : α → Prop) (action : Evaluation α) : Prop :=
  Triple (fun s => m.StoreTyped Γ s.memory) action (fun a s => Q a ∧ m.StoreTyped Δ s.memory)
    (fun fault _ => ∃ op, fault = .divisionByZero op)

namespace TypeSafe

variable {Q : α → Prop}

theorem pure {a : α} (h : Q a) : TypeSafe m Γ Γ Q (pure a) :=
  Triple.pure fun _ hs => ⟨h, hs⟩

theorem bind {Ω : Set SlotId} {R : β → Prop} {x : Evaluation α} {f : α → Evaluation β}
    (hx : TypeSafe m Γ Δ Q x) (hf : ∀ a, Q a → TypeSafe m Δ Ω R (f a)) :
    TypeSafe m Γ Ω R (x >>= f) :=
  Triple.bind hx fun a s hs => hf a hs.1 s hs.2

theorem mono {Ω : Set SlotId} {x : Evaluation α} (h : TypeSafe m Γ Δ Q x) (hΩ : Ω ⊆ Δ) :
    TypeSafe m Γ Ω Q x :=
  h.weaken (fun _ hs => hs) (fun _ _ hs => ⟨hs.1, hs.2.mono hΩ⟩) fun _ _ hs => hs

/-- An operator on values of known kinds. -/
theorem ofExcept {k : Kind} {r : Except Fault Value} (h : Foretold (.ok k) r) :
    TypeSafe m Γ Γ (·.kind = k) (Effect.ofExcept r) := by
  cases h with
  | value hv => exact pure hv
  | zero _ op => exact fun _ _ => ⟨op, rfl⟩

end TypeSafe

/-- A value that the slot accepts is stored, and then the variable is filled. -/
theorem write_typeSafe {t : SlotId} {v : Value} (ht : t < m.slots.size)
    (hv : (m.slot t).kind.accepts v.kind = true) :
    TypeSafe m Γ (insert t Γ) (fun _ => True) (write t v) := by
  intro s hs
  obtain ⟨n, hwrite, htyped⟩ := hs.write ht hv
  have hok : write t v s = .ok () { s with memory := n } := by
    refine update_ok ?_
    rw [hwrite]
    rfl
  rw [hok]
  exact ⟨trivial, htyped⟩

/-- The check has found that every target accepts the value. -/
theorem writeTargets_typeSafe {v : Value} {targets : List Reference}
    (htargets : ∀ r ∈ targets, r.slot ∈ Γ ∧ (m.slot r.slot).kind.accepts v.kind = true) :
    TypeSafe m Γ Γ (fun _ => True) (writeTargets v targets) := by
  induction targets with
  | nil => exact .pure trivial
  | cons r targets ih =>
      rw [List.forall_mem_cons] at htargets
      intro s hs
      -- The slot was filled before, so that writing it fills no other one.
      have hr : TypeSafe m Γ Γ (fun _ => True) (write r.slot v) :=
        (write_typeSafe (hs.lt_size htargets.1.1) htargets.1.2).mono (Set.subset_insert _ _)
      exact TypeSafe.bind hr (fun _ _ => ih htargets.2) s hs

variable {follow : Follow} {mode : Mode}

/-- The bindings of a `let`, one after the other. -/
theorem bindWith_typeSafe {ds : List (Declaration Expr)}
    (hinitializer : ∀ d ∈ ds, ∀ Γ k, kindGiven m m.answer d.initializer = .ok k →
      d.initializer.Scoped Γ → TypeSafe m Γ Γ (·.kind = k) (evaluateWith follow mode d.initializer))
   
    (hbindings : ∀ d ∈ ds, d.dependent = false ∧ d.slot < m.slots.size ∧
      (m.slot d.slot).kind = d.kind) (hkinds : declarationsGiven m m.answer ds = .ok ())
    (hscope : Expr.ScopedBindings Γ ds) :
    TypeSafe m Γ (Γ ∪ {t | ∃ d ∈ ds, d.slot = t}) (fun _ => True) (bindWith follow mode ds) := by
  induction ds generalizing Γ with
  | nil => exact (TypeSafe.pure trivial).mono (by simp)
  | cons d ds ih =>
      obtain ⟨name, slot, declared, initializer, dependent⟩ := d
      rw [List.forall_mem_cons] at hinitializer hbindings
      obtain ⟨⟨hdependent, hslot, hkind⟩, hrest⟩ := hbindings
      dsimp only at hdependent hslot hkind
      subst hdependent
      obtain ⟨k, hk, hkinds⟩ := ok_of_bind hkinds
      obtain ⟨⟨⟩, hexpect, hkinds⟩ := ok_of_bind hkinds
      refine TypeSafe.bind (hinitializer.1 Γ k hk hscope.1) fun v hv => ?_
      refine TypeSafe.bind (write_typeSafe hslot ?_) fun _ _ => ?_
      · rw [hkind, hv]
        exact expect_ok_iff.1 hexpect
      · refine (ih hinitializer.2 hrest hkinds hscope.2).mono ?_
        rintro t (ht | ⟨d, hd, rfl⟩)
        · exact .inl (.inr ht)
        · rcases List.mem_cons.1 hd with rfl | hd
          · exact .inl (.inl rfl)
          · exact .inr ⟨d, hd, rfl⟩

/-- Both branches of a conditional of a definite kind have that kind. -/
theorem branches_kind {t e : Expr} {k : Kind} (hk : k ≠ .dynamic)
    (h : branchKind (kindGiven m m.answer t) (kindGiven m m.answer e) = .ok k) :
    kindGiven m m.answer t = .ok k ∧ kindGiven m m.answer e = .ok k := by
  have hoverflow : ∀ (p : Expr) g, kindGiven m m.answer p ≠ .error (.stackOverflow g) := fun p g =>
    kindGiven_ne_overflow (fun f => Memory.trusts_answer.ne_overflow f g) p
  obtain ⟨a, b, ha, hb, rfl⟩ := branchKind_ok h (hoverflow t) (hoverflow e)
  obtain ⟨hunify, rfl⟩ := Kind.unify_eq hk
  rw [hunify]
  exact ⟨ha, hb⟩

/-- A fully typed expression gives a value of its kind, unless it meets a zero divisor. -/
theorem evaluateWith_typeSafe {e : Expr} {k : Kind} (he : e.Every m.Definite)
    (hk : kindGiven m m.answer e = .ok k) (hscope : e.Scoped Γ) :
    TypeSafe m Γ Γ (·.kind = k) (evaluateWith follow mode e) := by
  -- On the expression; the kind and the variables in force change from part to part.
  induction e using Expr.induction generalizing Γ k with
  | literal v =>
      cases hk
      exact .pure rfl
  | declaration name f =>
      cases hk
      exact .pure rfl
  | read r =>
      cases hk
      intro s hs
      obtain ⟨v, hv, haccepts⟩ := hs.filled r.slot hscope
      have hread : evaluateWith follow mode (.variable r) s = .ok v s := by
        show readWith follow mode r s = _
        rw [readWith_apply, hv]
      rw [hread]
      -- The slot has a definite kind, because the variable has it.
      have hdefinite : (m.slot r.slot).kind ≠ .dynamic := fun h => he.self.known (congrArg _ h)
      have hvalue : v.kind ≠ .dynamic := by cases v <;> simp [Value.kind]
      exact ⟨Kind.eq_of_accepts haccepts hdefinite hvalue, hs⟩
  | unary op e ih =>
      obtain ⟨-, he⟩ := Expr.every_unary.1 he
      obtain ⟨ke, hke, hchecked⟩ := ok_of_bind hk
      refine TypeSafe.bind (ih he hke hscope) fun v hv => TypeSafe.ofExcept ?_
      have hforetold := op.apply_foretold v
      rw [hv, UnaryOperator.kindOn, hchecked] at hforetold
      exact hforetold
  | binary op l r ihl ihr =>
      obtain ⟨-, hl, hr⟩ := Expr.every_binary.1 he
      obtain ⟨kl, hkl, hk⟩ := ok_of_bind hk
      obtain ⟨kr, hkr, hk⟩ := ok_of_bind hk
      refine TypeSafe.bind (ihl hl hkl hscope.1) fun vl hvl => ?_
      subst hvl
      obtain ⟨decided, hdecided⟩ := op.decided?_ok hk
      rw [hdecided]
      cases decided with
      | some v =>
          have hv : v.kind = k :=
            (BinaryOperator.decided?_some hdecided).trans (binaryKind_ok hk).symm
          exact .pure hv
      | none =>
          show TypeSafe m Γ
            Γ _ (evaluateWith follow mode r >>= fun vr => Effect.ofExcept (op.apply vl vr))
          refine TypeSafe.bind (ihr hr hkr hscope.2) fun vr hvr => TypeSafe.ofExcept ?_
          subst hvr
          have hforetold := op.apply_foretold vl vr
          rwa [hk] at hforetold
  | assign targets e ih =>
      obtain ⟨hself, he⟩ := Expr.every_assign.1 he
      obtain ⟨ke, hke, hk⟩ := ok_of_bind hk
      obtain ⟨⟨⟩, htargets, hk⟩ := ok_of_bind hk
      cases hk
      refine TypeSafe.bind (ih he hke hscope.2) fun v hv => ?_
      cases mode with
      | probe => exact .pure hv
      | run =>
          refine TypeSafe.bind (writeTargets_typeSafe fun r hr => ⟨hscope.1 r hr, ?_⟩)
            fun _ _ => .pure hv
          rw [hv]
          exact checkTargets_accepts htargets r hr
  | call name f es dependent ih => cases he.self.plain
  | print e ih =>
      obtain ⟨-, he⟩ := Expr.every_print.1 he
      refine TypeSafe.bind (ih he hk hscope) fun v hv => ?_
      cases mode with
      | probe => exact .pure hv
      | run => exact fun s hs => ⟨hv, hs⟩
  | letIn ds b ihd ihb =>
      obtain ⟨hself, hds, hb⟩ := Expr.every_letIn.1 he
      obtain ⟨⟨⟩, hkinds, hk⟩ := ok_of_bind hk
      have hbind : TypeSafe m Γ (Γ ∪ {t | ∃ d ∈ ds, d.slot = t}) (fun _ => True)
          (bindWith follow mode ds) :=
        bindWith_typeSafe (fun d hd Δ kd hkd hscoped => ihd d hd (hds d hd) hkd hscoped)
          hself.bindings hkinds hscope.1
      -- What was bound goes out of force, but stays in its slot.
      exact (TypeSafe.bind hbind fun _ _ => ihb hb hk hscope.2).mono Set.subset_union_left
  | conditional c t e ihc iht ihe =>
      obtain ⟨hself, hc, ht, he⟩ := Expr.every_conditional.1 he
      obtain ⟨kc, hkc, hk'⟩ := ok_of_bind hk
      obtain ⟨⟨⟩, hexpect, hbranches⟩ := ok_of_bind hk'
      obtain ⟨hkt, hke⟩ := branches_kind (fun h => hself.known (h ▸ hk)) hbranches
      -- The condition is boolean, so that one of the branches is taken.
      have hboolean : kc = .boolean :=
        Kind.eq_of_accepts (expect_ok_iff.1 hexpect) (by decide) fun h => hc.self.known (h ▸ hkc)
      refine TypeSafe.bind (ihc hc hkc hscope.1) fun v hv => ?_
      cases v with
      | boolean b =>
          cases b with
          | true => exact iht ht hkt hscope.2.1
          | false => exact ihe he hke hscope.2.2
      | void | number | text => cases hv.trans hboolean

end Evaluation
end LineLang
