import LineLang.Proofs.Activation.Soundness
import LineLang.Proofs.Session.Records

/-!
# Soundness of kinds

If a kind that was written with a binding is also known of its initializer, wherever the initializer
is left in the slot, then values are of the computed kinds. Without the condition they need not be:
what is read from such a slot is not checked against the written kind.

- `Memory.inferredKind?`          : the kind that was found for an initializer
- `Memory.WrittenKindsInferred`   : the condition on the bindings of all functions
- `Memory.Complete.reliable`      : under it, slots have the kinds of what is left in them
- `Session.evaluate_sound`        : values are of the computed kinds
-/

namespace LineLang

open Effect Typing

namespace Memory

variable {owner : SlotId → FunctionId} {m n : Memory} {f : FunctionId} {b e : Expr} {k : Kind}

/-! ## Kinds found while a function was declared -/

/-- The storage as it was while the body of a function was read: the function had neither body nor
kind. -/
def withoutBody (m : Memory) (f : FunctionId) : Memory :=
  m.modifyFunction f fun g => { g with body := none, returnKind := none }

/-- The kind that was found for an initializer in the body of a function. -/
def inferredKind? (m : Memory) (f : FunctionId) (e : Expr) : Option Kind :=
  match Typing.kindOf e (m.withoutBody f) with
  | .ok k _ => some k
  | .error _ _ => none

/-- A binding whose initializer is left in its slot has a kind other than dynamic only if the
initializer was found to have one. A binding written without a kind gets the one that was found, so
this is about bindings written with a kind. -/
def KindInferred (m : Memory) (f : FunctionId) (d : Declaration Expr) : Prop :=
  d.dependent = true → d.kind ≠ .dynamic → m.inferredKind? f d.initializer ≠ some .dynamic

instance {d : Declaration Expr} : Decidable (m.KindInferred f d) :=
  inferInstanceAs (Decidable (d.dependent = true → d.kind ≠ .dynamic →
    m.inferredKind? f d.initializer ≠ some .dynamic))

def WrittenKindsInferred (m : Memory) : Prop :=
  ∀ f < m.functions.size, ∀ b ∈ (m.function f).body, b.Binds (m.KindInferred f)

instance : Decidable m.WrittenKindsInferred :=
  inferInstanceAs (Decidable (∀ f < m.functions.size, ∀ b ∈ (m.function f).body,
    ∀ p ∈ b.parts, ∀ d ∈ p.ownDeclarations, m.KindInferred f d))

/-- Only the one function differs. -/
theorem function_withoutBody (g : FunctionId) :
    (m.withoutBody f).function g =
      if g = f then { m.function g with body := none, returnKind := none } else m.function g := by
  by_cases hg : g = f
  · subst hg
    rw [if_pos rfl]
    by_cases hlt : g < m.functions.size
    · exact function_modify_self hlt
    · have hle := Nat.le_of_not_lt hlt
      rw [function_of_size_le hle, withoutBody, function_of_size_le (by simpa using hle)]
      rfl
  · rw [if_neg hg]
    exact function_modify_of_ne hg

/-- The kinds of all other functions are remembered. -/
theorem settled_withoutBody (h : m.Complete) : (m.withoutBody f).Settled := by
  intro g hg
  rw [function_withoutBody] at hg ⊢
  split at hg
  · next hgf => rw [if_pos hgf]
  · next hgf =>
      rw [if_neg hgf]
      exact h.settled g hg

/-- Calls of the function were not trusted. -/
theorem inferredKind?_eq (h : m.Complete)
    (hk : kindGiven m (m.answering f (.ok .dynamic)) e = .ok k) : m.inferredKind? f e = some k := by
  have hanswer : (m.withoutBody f).answer = m.answering f (.ok .dynamic) := by
    funext g
    unfold answer answering
    rw [function_withoutBody]
    split <;> rfl
  -- The kinds of slots and the numbers of parameters do not hang on bodies.
  have hgiven : kindGiven (m.withoutBody f) (m.withoutBody f).answer e = .ok k := by
    rw [hanswer, ← hk]
    apply kindGiven_congr
    · exact fun p _ t _ => rfl
    · refine fun p _ g _ => ⟨rfl, fun count => ?_⟩
      rw [function_withoutBody]
      split <;> rfl
  have hyields := kindOf_settled (settled_withoutBody h (f := f)) e (m.withoutBody f) rfl
  unfold inferredKind?
  cases hr : kindOf e (m.withoutBody f) with
  | ok k' n =>
      rw [hr, hgiven] at hyields
      cases hyields.1
      rfl
  | error fault n =>
      rw [hr, hgiven] at hyields
      cases hyields.1

/-! ## Slots have the kinds of what is left in them -/

/-- A definite kind is only given to a variable whose initializer has it or has none. -/
theorem settleKind_eq {name : String} {declared : Option Kind} {inferred : Kind}
    (h : Resolution.settleKind name declared inferred = .ok k) (hk : k ≠ .dynamic)
    (hi : inferred ≠ .dynamic) : inferred = k := by
  cases declared with
  | none =>
      cases h
      rfl
  | some kind =>
      by_cases haccepts : kind.accepts inferred
      · rw [Resolution.settleKind, if_pos haccepts] at h
        cases h
        simp only [Kind.accepts, hk, hi, false_or, decide_eq_true_eq] at haccepts
        exact haccepts.symm
      · rw [Resolution.settleKind, if_neg haccepts] at h
        cases h

/-- Kinds that were inferred without the body still hold with it. -/
theorem CompleteWith.keeping (hf : m.CompleteWith f b k) (hm : m.Complete)
    (hb : b.Binds (m.KindInferred f)) : b.Binds (m.Keeping f) := by
  intro p hp d hd hdependent
  rcases hf.fits p hp d hd with ⟨hkind, declared, inferred, hinferred, hsettle⟩
  unfold KindFrom
  rw [hkind]
  by_cases hdynamic : d.kind = .dynamic
  · exact .inl hdynamic
  · -- By assumption a kind was found for the initializer; a written one can then only be the same.
    have hfound := hb p hp d hd hdependent hdynamic
    rw [inferredKind?_eq hm hinferred] at hfound
    have hne : inferred ≠ .dynamic := fun h => hfound (congrArg some h)
    right
    rw [hinferred, settleKind_eq hsettle hdynamic hne]

/-- What holds of the slots of a function stays true when others are added. -/
theorem Keeping.extends {d : Declaration Expr} (hd : m.Keeping f d) (h : Extends m n)
    (hslot : d.slot < m.slots.size) (hs : d.initializer.SlotsIn (· < m.slots.size))
    (hc : d.initializer.Calls (· < m.functions.size)) : n.Keeping f d := by
  intro hdependent
  unfold KindFrom
  rw [h.slot hslot]
  refine (hd hdependent).imp id fun hkind => ?_
  rw [kindGiven_extends h hs hc ?_, hkind]
  intro g hg
  simp only [answering, answer_extends h hg]

/-- Bodies of complete functions have the remembered kinds. -/
theorem reliable_of_complete (h : ∀ f b, (m.function f).body = some b → ∃ k, m.CompleteWith f b k)
    (hkeeping : ∀ f b, (m.function f).body = some b → b.Binds (m.Keeping f)) : m.Reliable where
  parameters f b hb t ht := by
    rcases h f b hb with ⟨k, hc⟩
    exact (hc.parameters t ht).2
  kind f b hb := by
    rcases h f b hb with ⟨k, hc⟩
    rw [hc.kind, answer, hc.returnKind]
    rfl
  keeping := hkeeping

theorem Complete.reliable (h : m.Complete)
    (hkeeping : ∀ f b, (m.function f).body = some b → b.Binds (m.Keeping f)) : m.Reliable :=
  reliable_of_complete (fun _ _ hb => h.of_body hb) hkeeping

theorem Complete.keeping (h : m.Complete) (hw : m.WrittenKindsInferred) {f : FunctionId} {b : Expr}
    (hb : (m.function f).body = some b) : b.Binds (m.Keeping f) := by
  rcases h.of_body hb with ⟨k, hc⟩
  exact hc.keeping h (hw f (lt_size_of_body hb) b hb)

/-- The slots of functions keep their kinds while an instruction is read. A function that is being
declared has no body yet. -/
theorem Complete.reliable_above (hm : m.Complete) (hw : m.WrittenKindsInferred) (h : m.Extends n)
    (hbodies : ∀ f b, (n.function f).body = some b → f < m.functions.size) : n.Reliable := by
  refine reliable_of_complete (fun f b hb => ?_) fun f b hb => ?_
  all_goals
    have hlt := hbodies f b hb
    rw [h.function hlt] at hb
    rcases hm.of_body hb with ⟨k, hc⟩
  · exact ⟨k, hc.extends h hlt⟩
  · intro p hp d hd
    have hi := Expr.mem_parts_trans (Expr.initializer_mem_parts hd) hp
    have hcalls := hc.calls_lt hlt
    have hslot : d.slot < m.slots.size := hc.slots p hp d.slot (Expr.slot_mem_ownSlots hd)
    exact (hm.keeping hw hb p hp d hd).extends h hslot (Expr.Every.part hc.slots hi)
      (Expr.Every.part hcalls hi)

theorem Staged.reliable (h : m.Staged owner n e) (hm : m.Complete) (hw : m.WrittenKindsInferred) :
    n.Reliable :=
  hm.reliable_above hw h.grown.extends fun f _ hb => lt_size_of_body (h.grown.function f ▸ hb)

/-- Outside of functions nothing is dependent, so that nothing is left in slots. -/
theorem Staged.keeping {o : FunctionId} (h : m.Staged owner n e) (hm : m.Complete) :
    e.Binds (n.Keeping o) := by
  have hbody : ∀ f < n.functions.size, (n.function f).body ≠ none := by
    intro f hf hnone
    rcases h.complete hm f hf with ⟨b, k, hc⟩
    rw [hc.body] at hnone
    cases hnone
  have hindependent := (h.resolved.independent hbody nofun).2
  intro p hp d hd hdependent
  rw [hindependent p hp d hd] at hdependent
  cases hdependent

/-- A call with values for arguments can be evaluated. -/
theorem Complete.ready_call {o id : FunctionId} (h : m.Complete) (hm : m.Coherent owner)
    (name : String) (values : List Value) :
    m.Ready owner o (.call name id (values.map .literal) false) := by
  refine ⟨h, hm, ⟨?_, ?_⟩, ?_, ?_⟩
  · exact Expr.every_call_literals (by simp [Expr.ownSlots]) (by simp [Expr.ownSlots])
  · exact Expr.every_call_literals (by simp [Expr.ownDeclarations]) (by simp [Expr.ownDeclarations])
  · exact Expr.every_call_literals (by simp [Expr.ownSlots]) (by simp [Expr.ownSlots])
  · refine Expr.scopedAll_iff.2 fun e he => ?_
    rcases List.mem_map.1 he with ⟨v, -, rfl⟩
    trivial

end Memory

/-! ## Evaluation -/

namespace Activation

variable {owner : SlotId → FunctionId} {m : Memory} {o : FunctionId} {e : Expr} {v : Value}

theorem SameOutcome.of_ok {α : Type} {Q : α → Machine → Activation → Prop} {v : α} {s : Machine}
    {r : EStateM.Result Fault Activation α} (h : SameOutcome Q (.ok v s) r) : ∃ a, r = .ok v a := by
  cases h with
  | ok _ => exact ⟨_, rfl⟩

/-- What is known of values in records holds of values over shared slots. -/
theorem of_evaluateWithin {P : Value → Prop} {n : Nat} {mode : Mode} {printed : Array String}
    {t : Machine} (h : m.Ready owner o e)
    (hP : Respects m o (evaluateWithin m n [] mode e) P)
    (hv : Evaluation.evaluateWithin n mode e { memory := m, printed } = .ok v t) : P v := by
  have hsame := evaluateWithin_same h n mode printed
  rw [hv] at hsame
  rcases hsame.of_ok with ⟨a, ha⟩
  exact (hP.of_ok Record.kinded_empty ha).2

/-- A call made from outside gives a value of the remembered kind, whatever it is given. -/
theorem call_refines {id : FunctionId} {k : Kind} {mode : Mode} {values : List Value}
    {printed : Array String} {t : Machine} (hm : m.Complete) (hcoherent : m.Coherent owner)
    (hreliable : m.Reliable) (hk : (m.function id).returnKind = some k)
    (hv : Evaluation.call mode id (values.map .literal) { memory := m, printed } = .ok v t) :
    v.kind.Refines k := by
  let call : Expr := .call "" id (values.map .literal) false
  have hready : m.Ready owner id call := hm.ready_call hcoherent "" values
  have hsound : Sound m (evaluateWithin m (Evaluation.depthBound m)) :=
    evaluateWithin_respects hreliable _
  have harguments : Respects m id (argumentsWith m (evaluateWithin m (Evaluation.depthBound m)) []
      (values.map .literal)) fun _ => True := by
    refine argumentsWith_respects fun e he => evaluateWith_respects hreliable hsound ?_
    rcases List.mem_map.1 he with ⟨w, -, rfl⟩
    exact Expr.every_literal.2 nofun
  have hanswer : m.answer id = .ok k := by
    rw [Memory.answer, hk]
    rfl
  have hcall : Respects m id (evaluateWithin m (Evaluation.depthBound m + 1) [] mode call)
      fun w => w.kind.Refines k :=
    (call_respects hreliable hsound harguments).imp fun w hw =>
      hw m.answer k Memory.trusts_answer hanswer
  exact of_evaluateWithin hready hcall hv

end Activation

namespace Session

theorem kindGiven_of_kindOf {m n : Memory} {e : Expr} {k : Kind} (hm : m.Settled)
    (h : Typing.kindOf e m = .ok k n) : kindGiven m m.answer e = .ok k :=
  ((kindOf_settled hm e).of_ok rfl h).1

/-- If every written kind is known of what is left in the slot, a value is of the kind that was
computed for the expression, in both modes. The kind remembered with a function is the kind of the
values of all its calls. -/
theorem evaluate_sound {s : Session} (hs : Reachable s) (hw : s.memory.WrittenKindsInferred) :
    (∀ ts e m, parse ts s.memory = .ok e m →
      ∀ mode printed k n v t, Typing.kindOf e m = .ok k n →
        Evaluation.evaluate mode e { memory := m, printed } = .ok v t → k.accepts v.kind = true) ∧
    ∀ name id, s.memory.lookup? name = some id →
      ∃ k, (s.memory.function id).returnKind = some k ∧
        ∀ mode (values : List Value) printed v t,
          Evaluation.call mode id (values.map .literal) { memory := s.memory, printed } = .ok v t →
            k.accepts v.kind = true := by
  have hm := hs.valid
  refine ⟨fun ts e m hp mode printed k n v t hk hv => ?_, fun name id hid => ?_⟩
  · rcases (Resolution.parse_outcome hm ts).of_ok rfl hp with ⟨owner, hstaged⟩ | ⟨name, rfl, hadded⟩
    · -- The value is that of the evaluator with records, where soundness is known.
      have hready := hstaged.ready hm.complete
      have hsound : Activation.Sound m (Activation.evaluateWithin m (Evaluation.depthBound m)) :=
        Activation.evaluateWithin_respects (hstaged.reliable hm.complete hw) _
      have haccepts := Activation.of_evaluateWithin hready
        (hsound _ _ _ _ (hstaged.keeping hm.complete)) hv
      have hgiven := kindGiven_of_kindOf hready.complete.settled hk
      exact Value.refines_iff.1 (haccepts m.answer k Memory.trusts_answer hgiven)
    · -- A declaration is void, whatever the kind of its function.
      rw [Evaluation.evaluate_declaration] at hv
      cases hk
      cases hv
      rfl
  · rcases List.lookup_eq_some_iff.1 hid with ⟨l₁, l₂, hregistry, -⟩
    have hlt := hm.registered (name, id) (by simp [hregistry])
    rcases hm.complete id hlt with ⟨b, k, hc⟩
    rcases hm.owners with ⟨owner, hcoherent, -⟩
    have hreliable := hm.complete.reliable fun f b hb => hm.complete.keeping hw hb
    refine ⟨k, hc.returnKind, fun mode values printed v t hv => ?_⟩
    exact Value.refines_iff.1
      (Activation.call_refines hm.complete hcoherent hreliable hc.returnKind hv)

def picking : Session :=
  (submit {}
    "function pick(b) => let boolean flipped = !b in if (b) pick(flipped) | b else flipped").session

def pickingCall : List Token :=
  [.word "pick", .symbol .openParen, .boolean true, .symbol .closeParen]

theorem reachable_picking : Reachable picking :=
  .submit .start _

/-- All that has to be computed is computed at once, so that the session is only built once. -/
theorem pickingCall_runs : picking.memory.WrittenKindsInferred ∧
    picking.memory.lookup? "pick" = some 0 ∧
    (match parse pickingCall picking.memory with
      | .ok e m =>
          match Typing.kindOf e m, Evaluation.evaluate .run e { memory := m } with
          | .ok k _, .ok _ _ => decide (k = .boolean)
          | _, _ => false
      | .error _ _ => false) = true ∧
    (outcome (Evaluation.call .run 0 [.literal (.boolean true)] { memory := picking.memory })).isOk
    = true := by
  decide +kernel

/-- The call is found to be boolean and gives a boolean, and so does the function when called from
outside. -/
theorem evaluate_sound_picking :
    Reachable picking ∧ picking.memory.WrittenKindsInferred ∧
      (∃ e m n v t, parse pickingCall picking.memory = .ok e m ∧
        Typing.kindOf e m = .ok .boolean n ∧ Evaluation.evaluate .run e { memory := m } = .ok v t ∧
          Kind.accepts .boolean v.kind = true) ∧
      picking.memory.lookup? "pick" = some 0 ∧
      ∃ k, (picking.memory.function 0).returnKind = some k ∧ ∃ v t,
        Evaluation.call .run 0 [.literal (.boolean true)] { memory := picking.memory } = .ok v t ∧
          k.accepts v.kind = true := by
  obtain ⟨hw, hname, hrun, hcalled⟩ := pickingCall_runs
  rcases evaluate_sound reachable_picking hw with ⟨hexpr, hcall⟩
  rcases hcall "pick" 0 hname with ⟨k, hk, hvalues⟩
  refine ⟨reachable_picking, hw, ?_, hname, k, hk, ?_⟩
  · cases hp : parse pickingCall picking.memory with
    | error r m =>
        rw [hp] at hrun
        cases hrun
    | ok e m =>
        rw [hp] at hrun
        dsimp only at hrun
        split at hrun
        · next k n v t hkind hvalue =>
            cases of_decide_eq_true hrun
            exact ⟨e, m, n, v, t, rfl, hkind, hvalue, hexpr _ e m hp .run #[] _ n v t hkind hvalue⟩
        · cases hrun
  · obtain ⟨v, t, hvalue⟩ := ok_of_isOk hcalled
    exact ⟨v, t, hvalue, hvalues .run [.boolean true] #[] v t hvalue⟩

end Session
end LineLang
