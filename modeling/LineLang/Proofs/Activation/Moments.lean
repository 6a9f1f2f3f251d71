import LineLang.Proofs.Activation.Simulation
import LineLang.Proofs.Activation.Soundness
import LineLang.Proofs.Evaluation.Moments

/-!
# Moments and records

Every moment of an evaluation belongs to one call, and the slots of its function hold what the
record of that call holds. What is known of all records is therefore known of the storage at every
moment.

- `Memory.Grounded`, `Record.Grounded`  : what may be evaluated, and what may be left in slots for
  it
- `Activation.Prepared`                 : functions that may be called
- `Activation.Holds`                    : a moment, the call that it belongs to and its record
- `Activation.Tracked.reaches`          : every moment has these
- `Activation.Holds.not_premature`      : nothing is used before it is there
- `Activation.Holds.read_refines`       : variables are of the kinds of their slots
-/

namespace LineLang

open Effect

/-! ## What may be evaluated -/

namespace Memory

variable {m : Memory} {o : FunctionId} {e p : Expr}

/-- An expression of `o` that only calls functions with bodies. If the kinds of functions are
reliable, so are those of its bindings. -/
structure Grounded (m : Memory) (o : FunctionId) (e : Expr) : Prop where
  calls : e.Calls fun f => (m.function f).body ≠ none
  keeping : m.Reliable → e.Binds (m.Keeping o)

theorem Grounded.part (h : m.Grounded o e) (hp : p ∈ e.parts) : m.Grounded o p :=
  ⟨Expr.Every.part h.calls hp, fun hm => Expr.Every.part (h.keeping hm) hp⟩

end Memory

/-- The slots hold what their kinds allow, and what is left in them may be evaluated. -/
structure Record.Grounded (m : Memory) (o : FunctionId) (r : Record) : Prop where
  value : ∀ t v, r t = .value v → v.kind.Refines (m.slot t).kind
  dependent : ∀ t e, r t = .dependent e → m.Grounded o e ∧ (m.Reliable → m.KindFrom o t e)

theorem Record.grounded_empty {m : Memory} {o : FunctionId} : Record.empty.Grounded m o :=
  ⟨nofun, nofun⟩

namespace Record.Grounded

variable {m : Memory} {o : FunctionId} {r : Record} {t : SlotId} {c : Content}

/-- One more slot is set, to a value of its kind or to an expression that may be evaluated. -/
theorem put (h : r.Grounded m o) (hv : ∀ v, c = .value v → v.kind.Refines (m.slot t).kind)
    (he : ∀ e, c = .dependent e → m.Grounded o e ∧ (m.Reliable → m.KindFrom o t e)) :
    (r.put t c).Grounded m o := by
  refine ⟨fun u v hu => ?_, fun u e hu => ?_⟩
  all_goals by_cases hut : u = t
  · subst hut
    exact hv v (put_self.symm.trans hu)
  · exact h.value u v ((put_of_ne hut).symm.trans hu)
  · subst hut
    exact he e (put_self.symm.trans hu)
  · exact h.dependent u e ((put_of_ne hut).symm.trans hu)

/-- Parameters take any value. -/
theorem bind (h : r.Grounded m o) {pairs : List (SlotId × Value)}
    (hp : ∀ p ∈ pairs, (m.slot p.1).kind = .dynamic) : (r.bind pairs).Grounded m o := by
  induction pairs generalizing r with
  | nil => exact h
  | cons p pairs ih =>
      rw [List.forall_mem_cons] at hp
      exact ih (h.put (fun _ _ => .inr hp.1) nofun) hp.2

theorem kinded (h : r.Grounded m o) (hm : m.Reliable) : r.Kinded m o :=
  ⟨h.value, fun t e ht => ⟨(h.dependent t e ht).1.keeping hm, (h.dependent t e ht).2 hm⟩⟩

end Record.Grounded

namespace Activation

variable {owner : SlotId → FunctionId} {m : Memory} {bound : Nat} {o : FunctionId}
variable {live : List FunctionId} {mode : Mode}

/-- An action that succeeds over shared slots succeeds in records. -/
theorem Matches.of_ok {α : Type} {R : Machine → Activation → Prop}
    {Q : α → Machine → Activation → Prop} {x : Evaluation α} {y : Action α} {s t : Machine}
    {a : Activation} {v : α} (h : Matches R x y Q) (hs : R s a) (hx : x s = .ok v t) :
    ∃ b, y a = .ok v b ∧ Q v t b := by
  have hsame := h s a hs
  rw [hx] at hsame
  generalize y a = r at hsame
  cases hsame with
  | ok hq => exact ⟨_, rfl, hq⟩

/-! ## Evaluation keeps records grounded -/

abbrev Grounds {α : Type} (m : Memory) (o : FunctionId) (x : Action α) : Prop :=
  Keeps (fun _ => True) (fun a : Activation => a.record.Grounded m o) x

/-- A value is only stored if it is of the kind of the slot. -/
theorem write_grounds {t : SlotId} {v : Value} : Grounds m o (write m t v) := by
  apply Triple.update
  · intro a a' ha h
    rcases ok_of_bind h with ⟨_, hv, hput⟩
    cases hput
    have haccepts : (m.slot t).kind.accepts v.kind = true := by
      by_contra hne
      rw [Value.expectKind, if_neg hne] at hv
      cases hv
    refine ha.put ?_ (by simp)
    rintro _ ⟨⟩
    exact Value.refines_iff.2 haccepts
  · exact fun _ _ ha _ => ⟨trivial, ha⟩

theorem writeTargets_grounds {v : Value} {targets : List Reference} :
    Grounds m o (writeTargets m v targets) := by
  induction targets with
  | nil => exact Keeps.pure
  | cons t ts ih => exact Keeps.bind write_grounds fun _ => ih

theorem defer_grounds {d : Declaration Expr} (hi : m.Grounded o d.initializer)
    (hd : m.Reliable → m.KindFrom o d.slot d.initializer) :
    Grounds m o (defer d.slot d.initializer) := by
  apply Triple.modify
  intro a ha
  refine ha.put nofun ?_
  rintro _ ⟨⟩
  exact ⟨hi, hd⟩

/-- Whatever a call does, it does in a record of its own. -/
theorem inRecord_grounds {r : Record} {body : Action Value} : Grounds m o (inRecord r body) := by
  intro a ha
  unfold inRecord
  cases body { a with record := r } with
  | ok v b => exact ha
  | error fault b => exact ⟨trivial, ha⟩

/-- A call leaves the record of the caller alone. -/
theorem call_grounds {follow : Follow} {id : FunctionId} {count : Nat}
    {arguments : Action (List Value)} (harguments : Grounds m o arguments) :
    Grounds m o (callWith m follow live mode id count arguments) := by
  refine Keeps.bind (Keeps.ofExcept fun _ _ => trivial) fun _ =>
    Keeps.bind harguments fun values => ?_
  cases (m.function id).body with
  | none => exact Keeps.throw trivial
  | some b =>
      dsimp only
      split
      · exact Keeps.throw trivial
      · exact inRecord_grounds

theorem argumentsWith_grounds {follow : Follow} {es : List Expr}
    (hes : ∀ e ∈ es, Grounds m o (evaluateWith m follow live .probe e)) :
    Grounds m o (argumentsWith m follow live es) := by
  induction es with
  | nil => exact Keeps.pure
  | cons e es ih =>
      rw [List.forall_mem_cons] at hes
      exact Keeps.bind hes.1 fun v => Keeps.bind (ih hes.2) fun vs => Keeps.pure

/-- Each binding is filled with its value, or its initializer is kept for later. -/
theorem bindWith_grounds {follow : Follow} {ds : List (Declaration Expr)}
    (hds : ∀ d ∈ ds, m.Grounded o d.initializer ∧ (m.Reliable → m.Keeping o d))
    (hinits : ∀ d ∈ ds, Grounds m o (evaluateWith m follow live mode d.initializer)) :
    Grounds m o (bindWith m follow live mode ds) := by
  induction ds with
  | nil => exact Keeps.pure
  | cons d ds ih =>
      rw [List.forall_mem_cons] at hds hinits
      have hrest := ih hds.2 hinits.2
      rcases d with ⟨name, slot, kind, initializer, dependent⟩
      cases dependent with
      | true => exact Keeps.bind (defer_grounds hds.1.1 fun hm => hds.1.2 hm rfl) fun _ => hrest
      | false => exact Keeps.bind hinits.1 fun v => Keeps.bind write_grounds fun _ => hrest

/-- Bindings of a `let` that may be evaluated. -/
theorem grounded_bindings {ds : List (Declaration Expr)} {b : Expr}
    (h : m.Grounded o (.letIn ds b)) :
    ∀ d ∈ ds, m.Grounded o d.initializer ∧ (m.Reliable → m.Keeping o d) :=
  fun d hd =>
    ⟨h.part (Expr.initializer_mem_parts (p := .letIn ds b) hd), fun hm => (h.keeping hm).self d hd⟩

/-- One level of evaluation keeps the record grounded if what it follows does. -/
theorem evaluateWith_grounds {follow : Follow}
    (hfollow : ∀ mode e, m.Grounded o e → Grounds m o (follow live mode e)) {e : Expr}
    (he : m.Grounded o e) : Grounds m o (evaluateWith m follow live mode e) := by
  -- All that is asked of the expression is asked of its parts, which is what the induction needs.
  have hpart : ∀ p ∈ e.parts, m.Grounded o p := fun p hp => he.part hp
  clear he
  induction e using Expr.induction generalizing mode with
  | literal v => exact Keeps.pure
  | declaration name f => exact Keeps.pure
  | read r =>
      refine Triple.get_bind fun a ha => ?_
      cases hc : a.record r.slot with
      | uninitialized => exact Triple.throw fun b hb => ⟨trivial, hb ▸ ha⟩
      | value v => exact Triple.pure fun b hb => hb ▸ ha
      | dependent e =>
          intro b hb
          exact hfollow mode e (ha.dependent r.slot e hc).1 b (hb ▸ ha)
  | unary op e ih =>
      simp only [Expr.parts, List.forall_mem_cons] at hpart
      exact Keeps.bind (ih hpart.2) fun v => Keeps.ofExcept fun _ _ => trivial
  | binary op l r ihl ihr =>
      simp only [Expr.parts, List.forall_mem_cons, List.forall_mem_append] at hpart
      refine Keeps.bind (ihl hpart.2.1) fun v =>
        Keeps.bind (Keeps.ofExcept fun _ _ => trivial) fun d => ?_
      cases d with
      | some w => exact Keeps.pure
      | none => exact Keeps.bind (ihr hpart.2.2) fun w => Keeps.ofExcept fun _ _ => trivial
  | assign ts e ih =>
      simp only [Expr.parts, List.forall_mem_cons] at hpart
      refine Keeps.bind (ih hpart.2) fun v => ?_
      cases mode with
      | run => exact Keeps.bind writeTargets_grounds fun _ => Keeps.pure
      | probe => exact Keeps.pure
  | call name f es dependent ih =>
      simp only [Expr.parts, List.forall_mem_cons] at hpart
      refine call_grounds (argumentsWith_grounds fun e he => ih e he fun p hp => ?_)
      exact hpart.2 p (Expr.mem_partsOfAll.2 ⟨e, he, hp⟩)
  | print e ih =>
      simp only [Expr.parts, List.forall_mem_cons] at hpart
      refine Keeps.bind (ih hpart.2) fun v => ?_
      cases mode with
      | run => exact Keeps.bind (Triple.modify fun _ ha => ha) fun _ => Keeps.pure
      | probe => exact Keeps.pure
  | letIn ds b ihd ihb =>
      have hds := grounded_bindings (hpart _ (Expr.mem_parts_self _))
      simp only [Expr.parts, List.forall_mem_cons, List.forall_mem_append] at hpart
      refine Keeps.bind (bindWith_grounds hds fun d hd => ihd d hd fun p hp => ?_)
        fun _ => ihb hpart.2.2
      exact hpart.2.1 p (Expr.mem_partsOfInitializers.2 ⟨d, hd, hp⟩)
  | conditional c t e ihc iht ihe =>
      simp only [Expr.parts, List.forall_mem_cons, List.forall_mem_append] at hpart
      refine Keeps.bind (ihc hpart.2.1) fun v =>
        Keeps.bind (Keeps.ofExcept fun _ _ => trivial) fun b => ?_
      cases b with
      | true => exact iht hpart.2.2.1
      | false => exact ihe hpart.2.2.2

theorem evaluateWithin_grounds (n : Nat) {e : Expr} (he : m.Grounded o e) :
    Grounds m o (evaluateWithin m n live mode e) := by
  induction n generalizing mode e with
  | zero => exact Keeps.throw trivial
  | succ n ih => exact evaluateWith_grounds (fun _ _ he => ih he) he

/-! ## Functions that may be called -/

/-- Besides, their bodies only call functions with bodies. -/
structure Prepared (m : Memory) (bound : Nat) : Prop extends Callable m bound where
  grounded : ∀ f b, (m.function f).body = some b → m.Grounded f b

/-! ## Moments -/

/-- A moment in a call of `o` that has the record of `a`. The variables in `Γ` are in force. -/
structure Holds (owner : SlotId → FunctionId) (m : Memory) (bound : Nat) (o : FunctionId)
    (live : List FunctionId) (Γ : Set SlotId) (a : Activation) (p : Moment) : Prop where
  agrees : Agrees owner m bound o live Γ p.machine a
  record : a.record.Grounded m o
  here : p.expr.Local owner o
  slots : p.expr.SlotsIn (· < bound)
  inScope : p.expr.Scoped Γ
  grounded : m.Grounded o p.expr

def Tracked (owner : SlotId → FunctionId) (m : Memory) (bound : Nat) (p : Moment) : Prop :=
  ∃ o live Γ a, Holds owner m bound o live Γ a p

namespace Holds

variable {Γ Δ : Set SlotId} {a b : Activation} {n n' : Nat} {mode' : Mode} {e e' : Expr}
variable {s t : Machine}

/-- Evaluation turns to a part of the expression, in the same call. -/
theorem part (h : Holds owner m bound o live Γ a ⟨n, mode, e, s⟩)
    (hagrees : Agrees owner m bound o live Δ t b) (hrecord : b.record.Grounded m o)
    (hp : e' ∈ e.parts) (hscope : e'.Scoped Δ) :
    Holds owner m bound o live Δ b ⟨n', mode', e', t⟩ where
  agrees := hagrees
  record := hrecord
  here := h.here.part hp
  slots := Expr.Every.part h.slots hp
  inScope := hscope
  grounded := h.grounded.part hp

/-- Evaluation turns to an operand at once. -/
theorem operand (h : Holds owner m bound o live Γ a ⟨n, mode, e, s⟩) (hp : e' ∈ e.parts)
    (hscope : e'.Scoped Γ) : Holds owner m bound o live Γ a ⟨n', mode', e', s⟩ :=
  h.part h.agrees h.record hp hscope

/-- An operand that has its value leaves a record that agrees with the storage. -/
theorem after (h : Holds owner m bound o live Γ a ⟨n, mode, e, s⟩) (hm : Prepared m bound)
    {v : Value} (hv : Evaluation.evaluateWithin n mode e s = .ok v t) :
    ∃ b, Agrees owner m bound o live Γ t b ∧ b.record.Grounded m o := by
  have hfollows : Follows owner m bound _ _ := evaluateWithin_follows hm.toCallable n
  rcases (hfollows.same h.here h.slots h.inScope).of_ok h.agrees hv with ⟨b, hb, hagrees⟩
  exact ⟨b, hagrees, (evaluateWithin_grounds n h.grounded).of_ok h.record hb⟩

/-- Some of the arguments have their values. -/
theorem arguments {name : String} {f : FunctionId} {es es' : List Expr} {dependent : Bool}
    {vs : List Value}
    (h : Holds owner m bound o live Γ a ⟨n + 1, mode, .call name f (es ++ es') dependent, s⟩)
    (hm : Prepared m bound)
    (hv : Evaluation.argumentsWith (Evaluation.evaluateWithin n) es s = .ok vs t) :
    vs.length = es.length ∧ ∃ b, Agrees owner m bound o live Γ t b ∧ b.record.Grounded m o := by
  have hfollows : Follows owner m bound _ _ := evaluateWithin_follows hm.toCallable (n + 1)
  have hpart : ∀ e ∈ es, e ∈ (Expr.call name f (es ++ es') dependent).parts := fun e he =>
    List.mem_cons_of_mem
      _ (Expr.mem_partsOfAll.2 ⟨e, List.mem_append_left _ he, Expr.mem_parts_self e⟩)
  have hmatches : Matches (Agrees owner m bound o live Γ)
      (Evaluation.argumentsWith (Evaluation.evaluateWithin n) es)
      (argumentsWith m (evaluateWithin m n) live es) fun vs s b =>
        vs.length = es.length ∧ Agrees owner m bound o live Γ s b := by
    refine argumentsWith_matches fun e he => ?_
    exact hfollows.same (h.here.part (hpart e he)) (Expr.Every.part h.slots (hpart e he))
      (Expr.scopedAll_iff.1 h.inScope e (List.mem_append_left _ he))
  rcases hmatches.of_ok h.agrees hv with ⟨b, hb, hlen, hagrees⟩
  have hgrounds : Grounds m o (argumentsWith m (evaluateWithin m n) live es) :=
    argumentsWith_grounds fun e he => evaluateWithin_grounds (n + 1) (h.grounded.part (hpart e he))
  exact ⟨hlen, b, hagrees, hgrounds.of_ok h.record hb⟩

/-- Some of the bindings are in force. -/
theorem bindings {ds ds' : List (Declaration Expr)} {b' : Expr}
    (h : Holds owner m bound o live Γ a ⟨n + 1, mode, .letIn (ds ++ ds') b', s⟩)
    (hm : Prepared m bound)
    (hv : Evaluation.bindWith (Evaluation.evaluateWithin n) mode ds s = .ok () t) :
    ∃ b, Agrees owner m bound o live (Γ ∪ {t | ∃ d ∈ ds, d.slot = t}) t b ∧
      b.record.Grounded m o := by
  have hfollows : Follows owner m bound _ _ := evaluateWithin_follows hm.toCallable (n + 1)
  have hmem : ∀ d ∈ ds, d ∈ ds ++ ds' := fun d hd => List.mem_append_left _ hd
  have hpart : ∀ d ∈ ds, d.initializer ∈ (Expr.letIn (ds ++ ds') b').parts := fun d hd =>
    Expr.initializer_mem_parts (p := .letIn (ds ++ ds') b') (hmem d hd)
  have hself := Expr.mem_parts_self (Expr.letIn (ds ++ ds') b')
  have hmatches : Matches (Agrees owner m bound o live Γ)
      (Evaluation.bindWith (Evaluation.evaluateWithin n) mode ds)
      (bindWith m (evaluateWithin m n) live mode ds)
      fun _ => Agrees owner m bound o live (Γ ∪ {t | ∃ d ∈ ds, d.slot = t}) := by
    refine bindWith_matches (fun d hd Δ hΔ => ?_) (fun d hd => h.here.binds _ hself d (hmem d hd))
      (fun d hd => ?_) (Expr.scopedBindings_append.1 h.inScope.1).1
    · exact hfollows.same (h.here.part (hpart d hd)) (Expr.Every.part h.slots (hpart d hd)) hΔ
    · exact ⟨h.slots _ hself _ (List.mem_map_of_mem (hmem d hd)),
        h.here.slots _ hself _ (List.mem_map_of_mem (hmem d hd))⟩
  rcases hmatches.of_ok h.agrees hv with ⟨b, hb, hagrees⟩
  have hgrounds : Grounds m o (bindWith m (evaluateWithin m n) live mode ds) :=
    bindWith_grounds (fun d hd => grounded_bindings h.grounded d (hmem d hd)) fun d hd =>
      evaluateWithin_grounds (n + 1) (h.grounded.part (hpart d hd))
  exact ⟨b, hagrees, hgrounds.of_ok h.record hb⟩

/-- A function is entered, and its parameters are set. -/
theorem body {name : String} {f : FunctionId} {es : List Expr} {dependent : Bool} {vs : List Value}
    {k : Memory} {u : Machine} {b : Expr}
    (h : Holds owner m bound o live Γ a ⟨n + 1, mode, .call name f es dependent, s⟩)
    (hm : Prepared m bound) (harity : (s.memory.function f).checkArity es.length = .ok ())
    (hes : Evaluation.argumentsWith (Evaluation.evaluateWithin n) es s = .ok vs t)
    (hb : (s.memory.function f).body = some b) (hk : t.memory.enter f = .ok k)
    (hu : Evaluation.writeAll ((s.memory.function f).parameterSlots.zip vs)
      { t with memory := k } = .ok () u) : Tracked owner m bound ⟨n, mode, b, u⟩ := by
  have hf := h.agrees.functions f
  rcases h.agrees.coherent.body f b hb with ⟨hlocal, hslots⟩
  have hsize : s.memory.slots.size = bound := h.agrees.size
  rw [hsize] at hslots
  rw [hf] at harity hb hu
  have hb' : (m.function f).body = some b := hb
  have hcount : (m.function f).parameters.length = es.length := by
    by_contra hne
    have harity' : (m.function f).checkArity es.length = .ok () := harity
    rw [Function.checkArity, if_neg hne] at harity'
    cases harity'
  have hcall :
      Holds owner m bound o live Γ a ⟨n + 1, mode, .call name f (es ++ []) dependent, s⟩ := by
    rwa [List.append_nil]
  rcases hcall.arguments hm hes with ⟨hlen, c, hagrees, -⟩
  -- The state after the parameters were set is the one in which they are set in a new record.
  rcases hagrees.call hm.toCallable hb' hk (hlen.trans hcount.symm) with ⟨u', hu', hcallee⟩
  cases hu'.symm.trans hu
  refine ⟨f, f :: live, _, _, hcallee, ?_, hlocal, hslots, hm.inScope f b hb', hm.grounded f b hb'⟩
  refine Record.grounded_empty.bind fun p hp => ?_
  exact (hm.parameters f b hb' p.1 (List.of_mem_zip hp).1).2

/-- An initializer that was left in a slot is evaluated in the same call. -/
theorem deferred {r : Reference} (h : Holds owner m bound o live Γ a ⟨n + 1, mode, .variable r, s⟩)
    (he : s.memory.content r.slot = .dependent e) : Tracked owner m bound ⟨n, mode, e, s⟩ := by
  have hfilled := h.agrees.inForce h.inScope
  rcases h.agrees.record r.slot hfilled with ⟨hlt, ho, hcontent⟩
  have hrecord : a.record r.slot = .dependent e := hcontent.symm.trans he
  rcases h.agrees.coherent.deferred r.slot e he with ⟨hlocal, hslots⟩
  refine ⟨o, live, a.record.filled, a, { h.agrees with inForce := subset_rfl }, h.record,
    ho ▸ hlocal, ?_, h.agrees.deferred r.slot e hrecord, (h.record.dependent r.slot e hrecord).1⟩
  exact Expr.Every.imp hslots fun p hp t ht => Nat.lt_trans (hp t ht) hlt

/-- The moments that one leads to belong to calls that are known as well. -/
theorem leads {p q : Moment} (h : Holds owner m bound o live Γ a p) (hm : Prepared m bound)
    (hq : p.Leads q) : Tracked owner m bound q := by
  cases hq with
  | operand | printed =>
      exact ⟨_, _, _, _, h.operand (by simp [Expr.parts, Expr.mem_parts_self]) h.inScope⟩
  | assigned =>
      exact ⟨_, _, _, _, h.operand (by simp [Expr.parts, Expr.mem_parts_self]) h.inScope.2⟩
  | left | condition =>
      exact ⟨_, _, _, _, h.operand (by simp [Expr.parts, Expr.mem_parts_self]) h.inScope.1⟩
  | @right n mode op l r s v t hl hundecided =>
      have hleft : Holds owner m bound o live Γ a ⟨n + 1, mode, l, s⟩ :=
        h.operand (by simp [Expr.parts, Expr.mem_parts_self]) h.inScope.1
      rcases hleft.after hm hl with ⟨b, hagrees, hrecord⟩
      exact ⟨_, _, _, _,
        h.part hagrees hrecord (by simp [Expr.parts, Expr.mem_parts_self]) h.inScope.2⟩
  | argument harity hes =>
      rcases h.arguments hm hes with ⟨-, b, hagrees, hrecord⟩
      refine ⟨_, _, _, _, h.part hagrees hrecord ?_ ?_⟩
      · simp [Expr.parts, Expr.mem_partsOfAll, Expr.mem_parts_self, or_and_right, exists_or]
      · exact Expr.scopedAll_iff.1 h.inScope _ (by simp)
  | body harity hes hb hk hu => exact h.body hm harity hes hb hk hu
  | @initializer n mode ds d ds' b s t hds hd =>
      rcases h.bindings hm hds with ⟨b', hagrees, hrecord⟩
      refine ⟨_, _, _, _, h.part hagrees hrecord ?_ (Expr.scopedBindings_append.1 h.inScope.1).2.1⟩
      exact Expr.initializer_mem_parts (p := .letIn (ds ++ d :: ds') b)
        (by simp [Expr.ownDeclarations])
  | @inside n mode ds b s t hds =>
      have hlet : Holds owner m bound o live Γ a ⟨n + 1, mode, .letIn (ds ++ []) b, s⟩ := by
        rwa [List.append_nil]
      rcases hlet.bindings hm hds with ⟨b', hagrees, hrecord⟩
      exact ⟨_, _, _, _,
        h.part hagrees hrecord (by simp [Expr.parts, Expr.mem_parts_self]) h.inScope.2⟩
  | @consequent n mode c t e s v u hc hv =>
      have hcondition : Holds owner m bound o live Γ a ⟨n + 1, mode, c, s⟩ :=
        h.operand (by simp [Expr.parts, Expr.mem_parts_self]) h.inScope.1
      rcases hcondition.after hm hc with ⟨b, hagrees, hrecord⟩
      exact ⟨_, _, _, _, h.part hagrees hrecord (by simp [Expr.parts, Expr.mem_parts_self])
        h.inScope.2.1⟩
  | @alternative n mode c t e s v u hc hv =>
      have hcondition : Holds owner m bound o live Γ a ⟨n + 1, mode, c, s⟩ :=
        h.operand (by simp [Expr.parts, Expr.mem_parts_self]) h.inScope.1
      rcases hcondition.after hm hc with ⟨b, hagrees, hrecord⟩
      exact ⟨_, _, _, _, h.part hagrees hrecord (by simp [Expr.parts, Expr.mem_parts_self])
        h.inScope.2.2⟩
  | deferred he => exact h.deferred he

/-- Nothing is used before it is there. -/
theorem not_premature {p : Moment} (h : Holds owner m bound o live Γ a p) : ¬ p.Premature := by
  rcases p with ⟨n, mode, e, s⟩
  intro hp
  cases e with
  | «variable» r =>
      -- The variable is in force, so the call has set it.
      have hfilled := h.agrees.inForce h.inScope
      have hcontent := (h.agrees.record r.slot hfilled).2.2
      exact hfilled (hcontent.symm.trans hp)
  | call name f es dependent =>
      have hnone : (s.memory.function f).body = none := hp
      rw [h.agrees.functions f] at hnone
      exact h.grounded.calls.self f (List.mem_singleton.2 rfl) hnone
  | _ => exact hp

/-- A variable that has a value has one of the kind of its slot, if it holds the value itself, or if
the kinds of functions are reliable. -/
theorem read_refines {r : Reference} {v : Value}
    (h : Holds owner m bound o live Γ a ⟨n, mode, .variable r, s⟩) (hm : Prepared m bound)
    (hv : Evaluation.evaluateWithin n mode (.variable r) s = .ok v t)
    (hor : (∃ w, s.memory.content r.slot = .value w) ∨ m.Reliable) :
    v.kind.Refines (s.memory.slot r.slot).kind := by
  have hfilled := h.agrees.inForce h.inScope
  rcases h.agrees.record r.slot hfilled with ⟨hlt, -, hcontent⟩
  rw [h.agrees.kind hlt]
  cases n with
  | zero => cases hv
  | succ n =>
      rcases hor with ⟨w, hw⟩ | hreliable
      · have hread : Evaluation.readWith (Evaluation.evaluateWithin n) mode r s = .ok v t := hv
        rw [Evaluation.readWith_apply, hw] at hread
        cases hread
        exact h.record.value r.slot v (hcontent.symm.trans hw)
      · -- In records the value is known to be of the kind of the slot.
        have hfollows : Follows owner m bound _ _ := evaluateWithin_follows hm.toCallable (n + 1)
        rcases (hfollows.same h.here h.slots h.inScope).of_ok h.agrees hv with ⟨b, hb, -⟩
        have hsound : Sound m (evaluateWithin m n) := evaluateWithin_respects hreliable n
        exact ((read_respects hsound).of_ok (h.record.kinded hreliable) hb).2

end Holds

/-- Every moment of an evaluation belongs to a call that is known. -/
theorem Tracked.reaches {p q : Moment} (h : Tracked owner m bound p) (hm : Prepared m bound)
    (hq : p.Reaches q) : Tracked owner m bound q := by
  induction hq with
  | refl => exact h
  | tail _ hleads ih =>
      rcases ih with ⟨o, live, Γ, a, hholds⟩
      exact hholds.leads hm hleads

end Activation
end LineLang
