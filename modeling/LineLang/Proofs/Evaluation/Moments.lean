import Mathlib.Logic.Relation
import LineLang.Proofs.Evaluation.Ownership

/-!
# Moments of an evaluation

While an expression is evaluated, evaluation turns to its operands, to the bodies of the functions
that it calls and to the initializers left in slots. Each time is a moment of its own, with the
state of the machine at that time.

- `Moment`                  : an expression that is about to be evaluated
- `Moment.Leads`            : the next moments inside
- `Moment.Reaches`          : all moments inside
- `Fault.Premature`         : something was used before it was there
- `Moment.Premature`        : something is about to be
- `Moment.rash_of_premature`  : such a fault has such a moment
-/

namespace LineLang

open Effect Evaluation

structure Moment where
  /-- How deep stored expressions may be followed from here. -/
  depth : Nat
  mode : Mode
  expr : Expr
  machine : Machine

namespace Moment

def outcome (p : Moment) : EStateM.Result Fault Machine Value :=
  evaluateWithin p.depth p.mode p.expr p.machine

/-- Evaluation turns from one expression to another: to an operand after the ones before it have
their values, to the body of a function after its parameters are set, and to an initializer that was
left in a slot when the slot is read. -/
inductive Leads : Moment → Moment → Prop
  | operand {n mode op e s} : Leads ⟨n + 1, mode, .unary op e, s⟩ ⟨n + 1, mode, e, s⟩
  | left {n mode op l r s} : Leads ⟨n + 1, mode, .binary op l r, s⟩ ⟨n + 1, mode, l, s⟩
  | right {n mode op l r s v t} (hl : evaluateWithin (n + 1) mode l s = .ok v t)
      (hundecided : op.decided? v = .ok none) :
      Leads ⟨n + 1, mode, .binary op l r, s⟩ ⟨n + 1, mode, r, t⟩
  | assigned {n mode ts e s} : Leads ⟨n + 1, mode, .assign ts e, s⟩ ⟨n + 1, mode, e, s⟩
  | printed {n mode e s} : Leads ⟨n + 1, mode, .print e, s⟩ ⟨n + 1, mode, e, s⟩
  | argument {n mode name f es e es' dependent s vs t}
      (harity : (s.memory.function f).checkArity (es ++ e :: es').length = .ok ())
      (hes : argumentsWith (evaluateWithin n) es s = .ok vs t) :
      Leads ⟨n + 1, mode, .call name f (es ++ e :: es') dependent, s⟩ ⟨n + 1, .probe, e, t⟩
  | body {n mode name f es dependent s vs t k u b}
      (harity : (s.memory.function f).checkArity es.length = .ok ())
      (hes : argumentsWith (evaluateWithin n) es s = .ok vs t)
      (hb : (s.memory.function f).body = some b) (hk : t.memory.enter f = .ok k)
      (hu : writeAll ((s.memory.function f).parameterSlots.zip vs)
        { t with memory := k } = .ok () u) :
      Leads ⟨n + 1, mode, .call name f es dependent, s⟩ ⟨n, mode, b, u⟩
  | initializer {n mode ds d ds' b s t} (hds : bindWith (evaluateWithin n) mode ds s = .ok () t)
      (hd : d.dependent = false) :
      Leads ⟨n + 1, mode, .letIn (ds ++ d :: ds') b, s⟩ ⟨n + 1, mode, d.initializer, t⟩
  | inside {n mode ds b s t} (hds : bindWith (evaluateWithin n) mode ds s = .ok () t) :
      Leads ⟨n + 1, mode, .letIn ds b, s⟩ ⟨n + 1, mode, b, t⟩
  | condition {n mode c a e s} : Leads ⟨n + 1, mode, .conditional c a e, s⟩ ⟨n + 1, mode, c, s⟩
  | consequent {n mode c a e s v t} (hc : evaluateWithin (n + 1) mode c s = .ok v t)
      (hv : v.asBoolean .condition = .ok true) :
      Leads ⟨n + 1, mode, .conditional c a e, s⟩ ⟨n + 1, mode, a, t⟩
  | alternative {n mode c a e s v t} (hc : evaluateWithin (n + 1) mode c s = .ok v t)
      (hv : v.asBoolean .condition = .ok false) :
      Leads ⟨n + 1, mode, .conditional c a e, s⟩ ⟨n + 1, mode, e, t⟩
  | deferred {n mode r e s} (he : s.memory.content r.slot = .dependent e) :
      Leads ⟨n + 1, mode, .variable r, s⟩ ⟨n, mode, e, s⟩

abbrev Reaches : Moment → Moment → Prop :=
  Relation.ReflTransGen Leads

end Moment

/-! ## Things used too early -/

/-- A variable was read that holds nothing, or a function was called that has no body. -/
def Fault.Premature : Fault → Prop
  | .uninitialized _ | .incomplete _ => True
  | _ => False

theorem Fault.OfOperator.not_premature {fault : Fault} (h : fault.OfOperator) :
    ¬ fault.Premature := by
  cases fault with
  | uninitialized name | incomplete name => exact fun _ => h
  | _ => exact id

def Moment.Premature (p : Moment) : Prop :=
  match p.expr with
  | .variable r => p.machine.memory.content r.slot = .uninitialized
  | .call _ f _ _ => (p.machine.memory.function f).body = none
  | _ => False

namespace Evaluation

variable {follow : Follow} {mode : Mode} {s t : Machine} {fault : Fault}

/-! ### Actions that use nothing -/

theorem write_error_not_premature {i : SlotId} {v : Value} (h : write i v s = .error fault t) :
    ¬ fault.Premature := by
  have hwrite : Triple (fun _ => True) (write i v) (fun _ _ => True) fun fault _ =>
      ¬ fault.Premature :=
    triple_write (fun _ _ _ => trivial) fun _ _ _ _ _ => id
  exact hwrite.of_error trivial h

/-- A value is refused because of its kind, and not because something was used too early. -/
theorem writeTargets_error_not_premature {v : Value} {targets : List Reference}
    (h : writeTargets v targets s = .error fault t) : ¬ fault.Premature := by
  induction targets generalizing s with
  | nil => cases h
  | cons r rs ih =>
      rcases of_bind_error h with h | ⟨_, u, -, h⟩
      · exact write_error_not_premature h
      · exact ih h

theorem writeAll_error_not_premature {pairs : List (SlotId × Value)}
    (h : writeAll pairs s = .error fault t) : ¬ fault.Premature := by
  induction pairs generalizing s with
  | nil => cases h
  | cons p pairs ih =>
      rcases of_bind_error h with h | ⟨_, u, -, h⟩
      · exact write_error_not_premature h
      · exact ih h

/-- What reading a variable comes to, by what its slot holds. -/
theorem readWith_apply (r : Reference) :
    readWith follow mode r s = match s.memory.content r.slot with
      | .uninitialized => .error (.uninitialized r.name) s
      | .value v => .ok v s
      | .dependent e => follow mode e s := by
  show (match s.memory.content r.slot with
    | .uninitialized => throw (.uninitialized r.name)
    | .value v => return v
    | .dependent e => follow mode e : Evaluation Value) s = _
  cases s.memory.content r.slot <;> rfl

/-! ### Where a sequence fails -/

/-- Of some arguments, the first that fails. -/
theorem argumentsWith_error {es : List Expr} (h : argumentsWith follow es s = .error fault t) :
    ∃ es₁ e es₂ vs u, es = es₁ ++ e :: es₂ ∧ argumentsWith follow es₁ s = .ok vs u ∧
      evaluateWith follow .probe e u = .error fault t := by
  induction es generalizing s with
  | nil => cases h
  | cons e es ih =>
      rcases of_bind_error h with h | ⟨v, u, hv, h⟩
      · exact ⟨[], e, es, [], s, rfl, rfl, h⟩
      · rcases of_bind_error h with h | ⟨vs, w, -, h⟩
        · rcases ih h with ⟨es₁, e', es₂, vs, w, rfl, hvs, he'⟩
          refine ⟨e :: es₁, e', es₂, v :: vs, w, rfl, ?_, he'⟩
          exact (bind_ok hv).trans (bind_ok hvs)
        · cases h

def bindOne (follow : Follow) (mode : Mode) (d : Declaration Expr) : Evaluation Unit :=
  if d.dependent then defer d.slot d.initializer
  else do
    let v ← evaluateWith follow mode d.initializer
    write d.slot v

theorem bindWith_cons (d : Declaration Expr) (ds : List (Declaration Expr)) :
    bindWith follow mode (d :: ds) = (do
      bindOne follow mode d
      bindWith follow mode ds) := by
  rcases d with ⟨name, slot, kind, initializer, dependent⟩
  cases dependent with
  | true => rfl
  | false => exact (bind_assoc _ _ _).symm

/-- Of some bindings, the first whose initializer fails, unless it is a value that does not fit. -/
theorem bindWith_error {ds : List (Declaration Expr)}
    (h : bindWith follow mode ds s = .error fault t) (hfault : fault.Premature) :
    ∃ ds₁ d ds₂ u, ds = ds₁ ++ d :: ds₂ ∧ bindWith follow mode ds₁ s = .ok () u ∧
      d.dependent = false ∧ evaluateWith follow mode d.initializer u = .error fault t := by
  induction ds generalizing s with
  | nil => cases h
  | cons d ds ih =>
      rw [bindWith_cons] at h
      rcases of_bind_error h with h | ⟨_, u, hu, h⟩
      · unfold bindOne at h
        split at h
        · cases h
        · next hd =>
            rcases of_bind_error h with h | ⟨v, u, -, h⟩
            · exact ⟨[], d, ds, s, rfl, rfl, by simpa using hd, h⟩
            · exact absurd hfault (write_error_not_premature h)
      · rcases ih h with ⟨ds₁, d', ds₂, w, rfl, hds₁, hd', he⟩
        refine ⟨d :: ds₁, d', ds₂, w, rfl, ?_, hd', he⟩
        rw [bindWith_cons]
        exact (bind_ok hu).trans hds₁

/-- The value of a call is the value of its body after the parameters were set. -/
theorem asCall_ok {f : Function} {id : FunctionId} {vs : List Value} {x : Evaluation Value}
    {v : Value} (h : asCall id (inFrame f vs x) s = .ok v t) :
    ∃ k u w, s.memory.enter id = .ok k ∧
      writeAll (f.parameterSlots.zip vs) { s with memory := k } = .ok () u ∧ x u = .ok v w := by
  rcases of_bind_ok h with ⟨_, s', henter, hbody⟩
  rcases ok_of_bind (of_update_ok henter) with ⟨k, hk, hend⟩
  cases hend
  rcases of_ensuring_ok hbody with ⟨w, hframe⟩
  have hframe' : ensuring (onMemory (Memory.putBack (k.save f.frame)))
      (writeAll (f.parameterSlots.zip vs) >>= fun _ => x) { s with memory := k } = .ok v w := hframe
  rcases of_ensuring_ok hframe' with ⟨w', hw'⟩
  rcases of_bind_ok hw' with ⟨_, u, hu, hx⟩
  exact ⟨k, u, w', hk, hu, hx⟩

/-- A call fails before its body is evaluated, or the body fails after the parameters were set. -/
theorem asCall_error {f : Function} {id : FunctionId} {vs : List Value} {x : Evaluation Value}
    (h : asCall id (inFrame f vs x) s = .error fault t) (hfault : fault.Premature) :
    ∃ k u w, s.memory.enter id = .ok k ∧
      writeAll (f.parameterSlots.zip vs) { s with memory := k } = .ok () u ∧
        x u = .error fault w := by
  cases hk : s.memory.enter id with
  | error overflow =>
      have hoverflow : asCall id (inFrame f vs x) s = .error overflow s := by
        refine bind_error (update_error ?_)
        rw [hk]
        rfl
      cases hoverflow.symm.trans h
      rw [(Memory.enter_error hk).2] at hfault
      cases hfault
  | ok k =>
      have hentered :
          update (fun s : Machine => do return { s with memory := ← s.memory.enter id }) s =
          .ok () { s with memory := k } := by
        apply update_ok
        rw [hk]
        rfl
      -- What is restored afterwards, the depth and the frame, does not hide the failure.
      rcases of_ensuring_error ((bind_ok hentered).symm.trans h) with ⟨w, hframe⟩
      have hbody : ∃ w, (writeAll (f.parameterSlots.zip vs) >>= fun _ => x) { s with memory := k } =
          .error fault w :=
        of_ensuring_error (x := writeAll (f.parameterSlots.zip vs) >>= fun _ => x) hframe
      rcases hbody with ⟨w', hw'⟩
      rcases of_bind_error hw' with hwrite | ⟨_, u, hu, hx⟩
      · exact absurd hfault (writeAll_error_not_premature hwrite)
      · exact ⟨k, u, w', rfl, hu, hx⟩

end Evaluation

namespace Moment

theorem evaluateWithin_call {n : Nat} {mode : Mode} {name : String} {f : FunctionId}
    {es : List Expr} {dependent : Bool} {s : Machine} :
    evaluateWithin (n + 1) mode (.call name f es dependent) s =
      (ofExcept ((s.memory.function f).checkArity es.length) >>= fun _ =>
        argumentsWith (evaluateWithin n) es >>= fun vs =>
          match (s.memory.function f).body with
          | none => throw (.incomplete (s.memory.function f).name)
          | some b => asCall f (inFrame (s.memory.function f) vs (evaluateWithin n mode b))) s :=
  rfl

/-- A call that fails too early: it has no body, or one of its arguments or its body fails so. -/
theorem call_premature {n : Nat} {mode : Mode} {name : String} {f : FunctionId} {es : List Expr}
    {dependent : Bool} {s t : Machine} {fault : Fault}
    (h : evaluateWithin (n + 1) mode (.call name f es dependent) s = .error fault t)
    (hfault : fault.Premature) :
    Premature ⟨n + 1, mode, .call name f es dependent, s⟩ ∨
      (∃ e ∈ es, ∃ u w, Leads ⟨n + 1, mode, .call name f es dependent, s⟩ ⟨n + 1, .probe, e, u⟩ ∧
        evaluateWithin (n + 1) .probe e u = .error fault w) ∨
      ∃ b u w, Leads ⟨n + 1, mode, .call name f es dependent, s⟩ ⟨n, mode, b, u⟩ ∧
        evaluateWithin n mode b u = .error fault w := by
  rw [evaluateWithin_call] at h
  rcases of_bind_error h with harity | ⟨_, u, harity, hcall⟩
  · unfold Function.checkArity at harity
    split at harity <;> cases harity
    cases hfault
  · rcases of_ofExcept_ok harity with ⟨harity, rfl⟩
    rcases of_bind_error hcall with hes | ⟨vs, w, hes, hcall⟩
    · rcases argumentsWith_error hes with ⟨es₁, e, es₂, vs, w, rfl, hes₁, he⟩
      exact .inr (.inl ⟨e, by simp, _, _, .argument harity hes₁, he⟩)
    · cases hb : (u.memory.function f).body with
      | none => exact .inl hb
      | some b =>
          rw [hb] at hcall
          rcases asCall_error hcall hfault with ⟨k, v, w', hk, hv, hx⟩
          exact .inr (.inr ⟨b, _, _, .body harity hes hb hk hv, hx⟩)

/-- A call that has a value leads to the body of the function, which has the same value. -/
theorem body_of_ok {n : Nat} {mode : Mode} {name : String} {f : FunctionId} {es : List Expr}
    {dependent : Bool} {s t : Machine} {v : Value}
    (h : evaluateWithin (n + 1) mode (.call name f es dependent) s = .ok v t) :
    ∃ b u w, (s.memory.function f).body = some b ∧
      Leads ⟨n + 1, mode, .call name f es dependent, s⟩ ⟨n, mode, b, u⟩ ∧
        evaluateWithin n mode b u = .ok v w := by
  rw [evaluateWithin_call] at h
  rcases of_bind_ok h with ⟨_, u, harity, hcall⟩
  rcases of_ofExcept_ok harity with ⟨harity, rfl⟩
  rcases of_bind_ok hcall with ⟨vs, w, hes, hcall⟩
  cases hb : (u.memory.function f).body with
  | none =>
      rw [hb] at hcall
      cases hcall
  | some b =>
      rw [hb] at hcall
      rcases asCall_ok hcall with ⟨k, u', w', hk, hu', hx⟩
      exact ⟨b, u', w', rfl, .body harity hes hb hk hu', hx⟩

/-- A `let` that has a value leads to what stands inside, which has the same value. -/
theorem inside_of_ok {n : Nat} {mode : Mode} {ds : List (Declaration Expr)} {b : Expr}
    {s t : Machine} {v : Value} (h : evaluateWithin (n + 1) mode (.letIn ds b) s = .ok v t) :
    ∃ u, Leads ⟨n + 1, mode, .letIn ds b, s⟩ ⟨n + 1, mode, b, u⟩ ∧
      evaluateWithin (n + 1) mode b u = .ok v t := by
  rcases of_bind_ok h with ⟨_, u, hds, hb⟩
  exact ⟨u, .inside hds, hb⟩

def Rash (p : Moment) : Prop :=
  ∃ q, Reaches p q ∧ q.Premature

theorem Leads.rash {p q : Moment} (h : Leads p q) (hq : q.Rash) : p.Rash := by
  rcases hq with ⟨q', hreaches, hpremature⟩
  exact ⟨q', .head h hreaches, hpremature⟩

/-- If evaluation fails because something was used too early, then it was about to be used at some
moment. -/
theorem rash_of_premature {p : Moment} {fault : Fault} {t : Machine}
    (h : p.outcome = .error fault t) (hfault : fault.Premature) : p.Rash := by
  rcases p with ⟨n, mode, e, s⟩
  -- Stored expressions are followed to a smaller depth, and operands are evaluated at the same one.
  induction n generalizing mode e s t with
  | zero =>
      cases h
      cases hfault
  | succ n ihn =>
      induction e using Expr.induction generalizing mode s t with
      | literal v => cases h
      | declaration name f => cases h
      | read r =>
          have hread : readWith (evaluateWithin n) mode r s = .error fault t := h
          rw [readWith_apply] at hread
          cases hc : s.memory.content r.slot with
          | uninitialized => exact ⟨_, .refl, hc⟩
          | value v =>
              rw [hc] at hread
              cases hread
          | dependent e =>
              rw [hc] at hread
              exact (Leads.deferred hc).rash (ihn _ _ _ hread)
      | unary op e ih =>
          rcases of_bind_error h with h | ⟨v, u, -, h⟩
          · exact Leads.operand.rash (ih _ _ h)
          · have hmeets := op.apply_meets v
            rw [of_ofExcept_error h] at hmeets
            exact absurd hfault hmeets.not_premature
      | binary op l r ihl ihr =>
          rcases of_bind_error h with h | ⟨v, u, hl, h⟩
          · exact Leads.left.rash (ihl _ _ h)
          · rcases of_bind_error h with h | ⟨d, w, hd, h⟩
            · exact absurd hfault (op.decided?_error (of_ofExcept_error h)).not_premature
            · rcases of_ofExcept_ok hd with ⟨hdecided, rfl⟩
              cases d with
              | some v => cases h
              | none =>
                  rcases of_bind_error h with h | ⟨v', w', -, h⟩
                  · exact (Leads.right hl hdecided).rash (ihr _ _ h)
                  · have hmeets := op.apply_meets v v'
                    rw [of_ofExcept_error h] at hmeets
                    exact absurd hfault hmeets.not_premature
      | assign ts e ih =>
          rcases of_bind_error h with h | ⟨v, u, -, h⟩
          · exact Leads.assigned.rash (ih _ _ h)
          · cases mode with
            | run =>
                rcases of_bind_error h with h | ⟨_, w, -, h⟩
                · exact absurd hfault (writeTargets_error_not_premature h)
                · cases h
            | probe => cases h
      | call name f es dependent ih =>
          rcases call_premature h hfault with hp | ⟨e, he, u, w, hq, hu⟩ | ⟨b, u, w, hq, hu⟩
          · exact ⟨_, .refl, hp⟩
          · exact hq.rash (ih e he _ _ hu)
          · exact hq.rash (ihn _ _ _ hu)
      | print e ih =>
          rcases of_bind_error h with h | ⟨v, u, -, h⟩
          · exact Leads.printed.rash (ih _ _ h)
          · cases mode <;> cases h
      | letIn ds b ihd ihb =>
          rcases of_bind_error h with h | ⟨_, u, hds, h⟩
          · rcases bindWith_error h hfault with ⟨ds₁, d, ds₂, u, rfl, hds₁, hd, he⟩
            exact (Leads.initializer hds₁ hd).rash (ihd d (by simp) _ _ he)
          · exact (Leads.inside hds).rash (ihb _ _ h)
      | conditional c a e ihc iha ihe =>
          rcases of_bind_error h with h | ⟨v, u, hc, h⟩
          · exact Leads.condition.rash (ihc _ _ h)
          · rcases of_bind_error h with h | ⟨d, w, hd, h⟩
            · exact absurd hfault (Value.asBoolean_error (of_ofExcept_error h)).not_premature
            · rcases of_ofExcept_ok hd with ⟨hv, rfl⟩
              cases d with
              | true => exact (Leads.consequent hc hv).rash (iha _ _ h)
              | false => exact (Leads.alternative hc hv).rash (ihe _ _ h)

end Moment
end LineLang
