import LineLang.Proofs.Evaluation.Bound
import LineLang.Proofs.Evaluation.Moments

/-!
# Calls leave no trace

A call counts itself, sets the parameters and evaluates the body. Whatever the body did to the slots
of the function is undone when the call ends, however it ends, and the call is no longer counted.
What remains is what the arguments did before.

- `Effect.final`           : the state in which an action ends
- `Moment.Owned`           : the storage respects the owners of slots, and calls are within their
  limit
- `Moment.Owned.reaches`   : this is so at every moment
- `Moment.Owned.call_final`, `Moment.Owned.call_function`  : a call ends in the storage of its
  arguments
-/

namespace LineLang

open Effect Evaluation

/-! ## Where an action ends -/

namespace Effect

variable {ε σ α : Type}

/-- The state in which an action ends, whether it succeeds or fails. -/
def final : EStateM.Result ε σ α → σ
  | .ok _ s => s
  | .error _ s => s

/-- What an action keeps holds in the state in which it ends. -/
theorem Keeps.final {G : ε → Prop} {I : σ → Prop} {x : EStateM ε σ α} (h : Keeps G I x) {s : σ}
    (hs : I s) : I (final (x s)) := by
  have hx := h s hs
  cases hr : x s with
  | ok a t =>
      rw [hr] at hx
      exact hx
  | error e t =>
      rw [hr] at hx
      exact hx.2

end Effect

/-! ## Evaluation stays with its owner -/

namespace Evaluation

variable {owner : SlotId → FunctionId} {o : FunctionId} {m : Memory}

theorem Confined.refl {s : Machine} (h : s.memory.Coherent owner) : Confined owner o s.memory s :=
  ⟨h, .refl _⟩

theorem argumentsWith_confined (n : Nat) {es : List Expr}
    (hes : ∀ e ∈ es, e.Local owner o ∧ e.SlotsIn (· < m.slots.size)) :
    Keeps (fun _ => True) (Confined owner o m) (argumentsWith (evaluateWithin n) es) :=
  argumentsWith_keeps fun e he _ => evaluateWithin_confined (n + 1) (hes e he).1 (hes e he).2

/-- Filling the slot of one binding is confined to its owner. -/
theorem bindOne_confined (n : Nat) (mode : Mode) {d : Declaration Expr} (hd : owner d.slot = o)
    (hlocal : d.initializer.Local owner o) (hlt : d.initializer.SlotsIn (· < d.slot))
    (hslots : d.initializer.SlotsIn (· < m.slots.size)) :
    Keeps (fun _ => True) (Confined owner o m) (bindOne (evaluateWithin n) mode d) := by
  unfold bindOne
  split
  · exact defer_confined hd hlocal hlt
  · refine Keeps.bind (evaluateWithin_confined (n + 1) hlocal hslots) fun v => ?_
    exact write_confined (fun _ _ => trivial) hd

/-- So is filling the slots of all bindings. -/
theorem bindWith_confined (n : Nat) (mode : Mode) {ds : List (Declaration Expr)}
    (hds : ∀ d ∈ ds, owner d.slot = o ∧ d.initializer.Local owner o ∧
      d.initializer.SlotsIn (· < d.slot) ∧ d.initializer.SlotsIn (· < m.slots.size)) :
    Keeps (fun _ => True) (Confined owner o m) (bindWith (evaluateWithin n) mode ds) := by
  induction ds with
  | nil => exact Keeps.pure
  | cons d ds ih =>
      rw [List.forall_mem_cons] at hds
      rcases hds.1 with ⟨hd, hlocal, hlt, hslots⟩
      rw [bindWith_cons]
      exact Keeps.bind (bindOne_confined n mode hd hlocal hlt hslots) fun _ => ih hds.2

end Evaluation

/-! ## Moments -/

namespace Moment

/-- The expression keeps to slots of `o`, the storage respects the owners, and no function has more
active calls than allowed. -/
structure Owned (owner : SlotId → FunctionId) (o : FunctionId) (p : Moment) : Prop where
  coherent : p.machine.memory.Coherent owner
  here : p.expr.Local owner o
  slots : p.expr.SlotsIn (· < p.machine.memory.slots.size)
  limited : ∀ f, (p.machine.memory.function f).depth ≤ callLimit

namespace Owned

variable {owner : SlotId → FunctionId} {o : FunctionId} {n n' : Nat} {mode mode' : Mode}
variable {e e' : Expr} {s t : Machine}

/-- Evaluation turns to a part of the expression after others were evaluated. -/
theorem part (h : Owned owner o ⟨n, mode, e, s⟩) (ht : Confined owner o s.memory t)
    (hp : e' ∈ e.parts) : Owned owner o ⟨n', mode', e', t⟩ where
  coherent := ht.1
  here := h.here.part hp
  slots := by
    have hslots := Expr.Every.part h.slots hp
    have hsize : t.memory.slots.size = s.memory.slots.size := ht.2.size
    rw [← hsize] at hslots
    exact hslots
  limited f := by
    have hf : t.memory.function f = s.memory.function f := ht.2.function f
    rw [hf]
    exact h.limited f

/-- Evaluation turns to an operand at once. -/
theorem operand (h : Owned owner o ⟨n, mode, e, s⟩) (hp : e' ∈ e.parts) :
    Owned owner o ⟨n', mode', e', s⟩ :=
  h.part (.refl h.coherent) hp

/-- Evaluation of the expression, at any depth and in any mode, stays with its owner. -/
theorem after (h : Owned owner o ⟨n, mode, e, s⟩) {v : Value}
    (hv : evaluateWithin n' mode' e s = .ok v t) : Confined owner o s.memory t :=
  (evaluateWithin_confined n' h.here h.slots).of_ok (.refl h.coherent) hv

section Call

variable {name : String} {g : FunctionId} {es : List Expr} {dependent : Bool}

/-- Evaluating arguments stays with the owner of the call. -/
theorem arguments (h : Owned owner o ⟨n, mode, .call name g es dependent, s⟩) {es₁ : List Expr}
    (hsub : ∀ e ∈ es₁, e ∈ es) :
    Keeps (fun _ => True) (Confined owner o s.memory) (argumentsWith (evaluateWithin n') es₁) := by
  apply argumentsWith_confined
  intro e he
  have hpart : e ∈ (Expr.call name g es dependent).parts :=
    List.mem_cons_of_mem _ (Expr.mem_partsOfAll.2 ⟨e, hsub e he, Expr.mem_parts_self e⟩)
  exact ⟨h.here.part hpart, Expr.Every.part h.slots hpart⟩

/-- A function is entered, and its parameters are set. -/
theorem body (h : Owned owner o ⟨n + 1, mode, .call name g es dependent, s⟩) {vs : List Value}
    {k : Memory} {u : Machine} {b : Expr} (hes : argumentsWith (evaluateWithin n) es s = .ok vs t)
    (hb : (s.memory.function g).body = some b) (hk : t.memory.enter g = .ok k)
    (hu : writeAll ((s.memory.function g).parameterSlots.zip vs)
      { t with memory := k } = .ok () u) : Owned owner g ⟨n, mode, b, u⟩ := by
  rcases (h.arguments fun _ he => he).of_ok (.refl h.coherent) hes with ⟨hcoherent, hunchanged⟩
  rcases Memory.enter_ok hk with ⟨hlt, hentered⟩
  have hkcoherent : k.Coherent owner := by
    rw [hentered]
    exact hcoherent.modifyDepth
  have hksize : k.slots.size = s.memory.slots.size := by
    rw [hentered]
    exact hunchanged.size
  -- Arguments are written to the slots of the function only, so the writes are confined to it.
  have hwrite : Keeps (fun _ => True) (Confined owner g k)
      (writeAll ((s.memory.function g).parameterSlots.zip vs)) :=
    writeAll_keeps fun p hp => write_confined (fun _ _ => trivial)
      (h.coherent.parameters g b hb p.1 (List.of_mem_zip hp).1)
  rcases hwrite.of_ok (s := { t with memory := k }) (.refl hkcoherent) hu with
    ⟨hucoherent, huunchanged⟩
  rcases h.coherent.body g b hb with ⟨hlocal, hslots⟩
  refine ⟨hucoherent, hlocal, ?_, fun f => ?_⟩
  · have hsize : u.memory.slots.size = s.memory.slots.size := huunchanged.size.trans hksize
    rw [← hsize] at hslots
    exact hslots
  · have hf : u.memory.function f = k.function f := huunchanged.function f
    rw [hf, hentered]
    by_cases hfg : f = g
    · -- This is the only counter that grows, and it was below the limit.
      subst hfg
      have hsize : f < t.memory.functions.size := by
        rw [hunchanged.functions]
        exact Memory.lt_size_of_body hb
      rw [Memory.function_modify_self hsize]
      exact hlt
    · rw [Memory.function_modify_of_ne hfg, hunchanged.function f]
      exact h.limited f

end Call

/-- The bindings of a `let` stay with their owner. -/
theorem bindings {ds ds' : List (Declaration Expr)} {b : Expr}
    (h : Owned owner o ⟨n, mode, .letIn (ds ++ ds') b, s⟩)
    (hds : bindWith (evaluateWithin n') mode' ds s = .ok () t) : Confined owner o s.memory t := by
  refine (bindWith_confined n' mode' fun d hd => ?_).of_ok (.refl h.coherent) hds
  have hself := Expr.mem_parts_self (Expr.letIn (ds ++ ds') b)
  have hmem : d ∈ ds ++ ds' := List.mem_append_left _ hd
  have hpart : d.initializer ∈ (Expr.letIn (ds ++ ds') b).parts :=
    Expr.initializer_mem_parts (p := .letIn (ds ++ ds') b) hmem
  rcases h.here.binds _ hself d hmem with ⟨hlocal, hlt⟩
  exact ⟨h.here.slots _ hself _ (List.mem_map_of_mem hmem), hlocal, hlt,
    Expr.Every.part h.slots hpart⟩

/-- An initializer that was left in a slot has the owner of the slot. -/
theorem deferred {r : Reference} (h : Owned owner o ⟨n, mode, .variable r, s⟩)
    (he : s.memory.content r.slot = .dependent e) :
    Owned owner (owner r.slot) ⟨n', mode', e, s⟩ := by
  rcases h.coherent.deferred r.slot e he with ⟨hlocal, hslots⟩
  have hlt := Memory.lt_size_of_dependent he
  exact ⟨h.coherent, hlocal, Expr.Every.imp hslots fun p hp t ht =>
    Nat.lt_trans (hp t ht) hlt, h.limited⟩

/-- The next moments have owners as well, and calls are still within their limit. -/
theorem leads {p q : Moment} (h : Owned owner o p) (hq : p.Leads q) : ∃ o', Owned owner o' q := by
  cases hq with
  | operand | printed | assigned | left | condition =>
      exact ⟨o, h.operand (by simp [Expr.parts, Expr.mem_parts_self])⟩
  | @right n mode op l r s v t hl hundecided =>
      have hleft : Owned owner o ⟨n + 1, mode, l, s⟩ :=
        h.operand (by simp [Expr.parts, Expr.mem_parts_self])
      exact ⟨o, h.part (hleft.after hl) (by simp [Expr.parts, Expr.mem_parts_self])⟩
  | argument harity hes =>
      have ht := (h.arguments fun _ he => List.mem_append_left _ he).of_ok (.refl h.coherent) hes
      refine ⟨o, h.part ht ?_⟩
      simp [Expr.parts, Expr.mem_partsOfAll, Expr.mem_parts_self, or_and_right, exists_or]
  | body harity hes hb hk hu => exact ⟨_, h.body hes hb hk hu⟩
  | @initializer n mode ds d ds' b s t hds hd =>
      refine ⟨o, h.part (h.bindings hds) ?_⟩
      exact Expr.initializer_mem_parts (p := .letIn (ds ++ d :: ds') b)
        (by simp [Expr.ownDeclarations])
  | @inside n mode ds b s t hds =>
      have hlet : Owned owner o ⟨n + 1, mode, .letIn (ds ++ []) b, s⟩ := by rwa [List.append_nil]
      exact ⟨o, h.part (hlet.bindings hds) (by simp [Expr.parts, Expr.mem_parts_self])⟩
  | @consequent n mode c a e s v t hc hv | @alternative n mode c a e s v t hc hv =>
      have hcondition : Owned owner o ⟨n + 1, mode, c, s⟩ :=
        h.operand (by simp [Expr.parts, Expr.mem_parts_self])
      exact ⟨o, h.part (hcondition.after hc) (by simp [Expr.parts, Expr.mem_parts_self])⟩
  | deferred he => exact ⟨_, h.deferred he⟩

/-- The same for all moments. -/
theorem reaches {p q : Moment} (h : Owned owner o p) (hq : p.Reaches q) :
    ∃ o', Owned owner o' q := by
  induction hq with
  | refl => exact ⟨o, h⟩
  | tail _ hleads ih =>
      rcases ih with ⟨o', howned⟩
      exact howned.leads hleads

/-! ## Calls -/

section Call

variable {name : String} {g : FunctionId} {es : List Expr} {dependent : Bool}

/-- The arguments may be passed to another function. -/
theorem otherCall (h : Owned owner o ⟨n, mode, .call name g es dependent, s⟩) (name' : String)
    (f : FunctionId) (dependent' : Bool) :
    Owned owner o ⟨n', mode', .call name' f es dependent', s⟩ := by
  have hparts : ∀ p ∈ (Expr.call name' f es dependent').parts, p = .call name' f es dependent' ∨
      p ∈ (Expr.call name g es dependent).parts := by
    intro p hp
    rcases List.mem_cons.1 hp with hp | hp
    · exact .inl hp
    · exact .inr (List.mem_cons_of_mem _ hp)
  refine ⟨h.coherent, ⟨fun p hp => ?_, fun p hp => ?_⟩, fun p hp => ?_, h.limited⟩
  all_goals rcases hparts p hp with rfl | hp'
  -- A call uses no slots itself.
  · exact nofun
  · exact h.here.slots p hp'
  · exact nofun
  · exact h.here.ordered p hp'
  · exact nofun
  · exact h.slots p hp'

/-- A call ends in the storage in which its arguments ended. If it has the wrong number of them, it
ends in the storage in which it began. -/
theorem call_final (h : Owned owner o ⟨n, mode, .call name g es dependent, s⟩) (f : FunctionId)
    (depth : Nat) (mode' : Mode) :
    (final (callWith (evaluateWithin depth) mode' f es.length
      (argumentsWith (evaluateWithin depth) es) s)).memory =
      match (s.memory.function f).checkArity es.length with
      | .ok () => (final (argumentsWith (evaluateWithin depth) es s)).memory
      | .error _ => s.memory := by
  rw [callWith_lookup]
  cases (s.memory.function f).checkArity es.length with
  | error fault => rfl
  | ok =>
      have harity : (Effect.ofExcept (.ok ()) : Evaluation Unit) s = .ok () s := rfl
      rw [bind_ok harity]
      cases hes : argumentsWith (evaluateWithin depth) es s with
      | error fault t =>
          rw [bind_error hes]
          rfl
      | ok vs t =>
          rw [bind_ok hes]
          rcases (h.arguments fun _ he => he).of_ok (.refl h.coherent) hes with
            ⟨hcoherent, hunchanged⟩
          have hf : t.memory.function f = s.memory.function f := hunchanged.function f
          rw [← hf]
          cases hb : (t.memory.function f).body with
          | none => rfl
          | some b =>
              -- The body stays with the slots of the function, all of which the call puts back.
              have hbody : ∀ k, t.memory.enter f = .ok k →
                  Keeps (fun _ => True) (Confined owner f k) (evaluateWithin depth mode' b) := by
                intro k hk
                rcases hcoherent.body f b hb with ⟨hlocal, hslots⟩
                rcases Memory.enter_ok hk with ⟨-, rfl⟩
                exact evaluateWithin_confined depth hlocal hslots
              exact (asCall_unchanged (fun _ _ => trivial) hcoherent hb hbody).final rfl

/-- After a call every function is what it was before, the number of its active calls included. -/
theorem call_function (h : Owned owner o ⟨n, mode, .call name g es dependent, s⟩) (f : FunctionId)
    (depth : Nat) (mode' : Mode) (i : FunctionId) :
    (final (callWith (evaluateWithin depth) mode' f es.length
      (argumentsWith (evaluateWithin depth) es) s)).memory.function i = s.memory.function i := by
  rw [h.call_final f depth mode']
  cases (s.memory.function f).checkArity es.length with
  | error fault => rfl
  | ok => exact ((h.arguments fun _ he => he).final (.refl h.coherent)).2.function i

end Call
end Owned
end Moment
end LineLang
