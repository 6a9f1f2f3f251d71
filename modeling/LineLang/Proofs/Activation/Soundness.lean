import LineLang.Proofs.Activation.Records
import LineLang.Proofs.Operator
import LineLang.Proofs.Typing.Precision

/-!
# Kinds of values in records

An expression that has a kind gives values of that kind, whether calls are taken to have the
remembered kinds or are not trusted to have any. Slots got their kinds in the second way while the
function was being declared, and the function got its kind in the first way afterwards.

- `Memory.Trusts`             : the kinds that calls may be taken to have
- `Memory.Reliable`           : bodies have the remembered kinds, and slots the kinds of what is
  deferred
- `Record.Kinded`             : the slots of a record hold what their kinds allow
- `Activation.evaluateWithin_respects`  : values are of the computed kinds
-/

namespace LineLang

open Effect Typing

/-- Values are of a definite kind, so that a kind accepts them only if it is theirs or dynamic. -/
theorem Value.refines_iff {v : Value} {k : Kind} : v.kind.Refines k ↔ k.accepts v.kind = true := by
  cases v <;> cases k <;> simp [Kind.Refines, Kind.accepts, Value.kind]

/-! ## Kinds that were found -/

/-- An operator that accepts its operands has one kind of results. -/
theorem Typing.binaryKind_ok {op : BinaryOperator} {l r k : Kind} (h : binaryKind op l r = .ok k) :
    k = op.outputKind := by
  unfold binaryKind at h
  cases hf : op.family <;> simp only [hf] at h
  case arithmetic | relational | logical =>
    rcases ok_of_bind h with ⟨_, -, h⟩
    rcases ok_of_bind h with ⟨_, -, h⟩
    cases h
    rfl
  case equality =>
    rcases ok_of_bind h with ⟨_, -, h⟩
    cases h
    rfl
  case concatenation =>
    split at h <;> cases h
    rfl

/-- If no branch overflowed, both have kinds. -/
theorem Typing.branchKind_ok {a b : Except Fault Kind} {k : Kind} (h : branchKind a b = .ok k)
    (ha : ∀ g, a ≠ .error (.stackOverflow g)) (hb : ∀ g, b ≠ .error (.stackOverflow g)) :
    ∃ ka kb, a = .ok ka ∧ b = .ok kb ∧ k = ka.unify kb := by
  unfold branchKind at h
  split at h
  case h_1 ka kb =>
    cases h
    exact ⟨ka, kb, rfl, rfl, rfl⟩
  case h_3 g kind => exact absurd rfl (ha g)
  case h_4 kind g => exact absurd rfl (hb g)
  all_goals cases h

namespace Memory

variable {m : Memory} {o : FunctionId}

/-- Calls are taken to have the remembered kinds, or are not trusted to have any. -/
def Trusts (m : Memory) (answer : FunctionId → Except Fault Kind) : Prop :=
  ∀ f, answer f = m.answer f ∨ answer f = .ok .dynamic

theorem trusts_answer : m.Trusts m.answer :=
  fun _ => .inl rfl

theorem trusts_answering : m.Trusts (m.answering o (.ok .dynamic)) := by
  intro f
  unfold answering
  split
  · exact .inr rfl
  · exact .inl rfl

/-- A kind that calls are taken to have is no overflow. -/
theorem Trusts.ne_overflow {answer : FunctionId → Except Fault Kind} (h : m.Trusts answer)
    (f : FunctionId) (name : String) : answer f ≠ .error (.stackOverflow name) := by
  rcases h f with hf | hf
  · rw [hf]
    exact nofun
  · rw [hf]
    exact nofun

def Accepts (m : Memory) (e : Expr) (v : Value) : Prop :=
  ∀ answer k, m.Trusts answer → kindGiven m answer e = .ok k → v.kind.Refines k

section Accepts

variable {v : Value}

theorem accepts_unary {op : UnaryOperator} {e : Expr} (h : v.kind = op.outputKind) :
    m.Accepts (.unary op e) v := by
  intro answer k _ hk
  rcases ok_of_bind hk with ⟨_, -, hk⟩
  rcases ok_of_bind hk with ⟨_, -, hk⟩
  cases hk
  exact .inl h

theorem accepts_binary {op : BinaryOperator} {l r : Expr} (h : v.kind = op.outputKind) :
    m.Accepts (.binary op l r) v := by
  intro answer k _ hk
  rcases ok_of_bind hk with ⟨_, -, hk⟩
  rcases ok_of_bind hk with ⟨_, -, hk⟩
  rw [binaryKind_ok hk]
  exact .inl h

/-- An assignment has the value that is assigned. -/
theorem accepts_assign {ts : List Reference} {e : Expr} (h : m.Accepts e v) :
    m.Accepts (.assign ts e) v := by
  intro answer k htrusts hk
  rcases ok_of_bind hk with ⟨_, hkind, hk⟩
  rcases ok_of_bind hk with ⟨_, -, hk⟩
  cases hk
  exact h answer k htrusts hkind

theorem accepts_call {name : String} {f : FunctionId} {es : List Expr} {dependent : Bool}
    (h : ∀ answer k, m.Trusts answer → answer f = .ok k → v.kind.Refines k) :
    m.Accepts (.call name f es dependent) v := by
  intro answer k htrusts hk
  rcases ok_of_bind hk with ⟨_, -, hk⟩
  rcases ok_of_bind hk with ⟨_, -, hk⟩
  exact h answer k htrusts hk

theorem accepts_letIn {ds : List (Declaration Expr)} {b : Expr} (h : m.Accepts b v) :
    m.Accepts (.letIn ds b) v := by
  intro answer k htrusts hk
  rcases ok_of_bind hk with ⟨_, -, hk⟩
  exact h answer k htrusts hk

/-- Both branches have kinds, because neither overflows, and the kind of either refines the kind of
the whole. -/
theorem accepts_conditional {c t e : Expr} (h : m.Accepts t v ∨ m.Accepts e v) :
    m.Accepts (.conditional c t e) v := by
  intro answer k htrusts hk
  rcases ok_of_bind hk with ⟨_, -, hk⟩
  rcases ok_of_bind hk with ⟨_, -, hk⟩
  have ht : ∀ g, kindGiven m answer t ≠ .error (.stackOverflow g) := fun g =>
    kindGiven_ne_overflow (fun f => htrusts.ne_overflow f g) t
  have he : ∀ g, kindGiven m answer e ≠ .error (.stackOverflow g) := fun g =>
    kindGiven_ne_overflow (fun f => htrusts.ne_overflow f g) e
  rcases branchKind_ok hk ht he with ⟨a, b, ha, hb, rfl⟩
  rcases h with h | h
  · exact (h answer a htrusts ha).trans (.unify_left a b)
  · exact (h answer b htrusts hb).trans (.unify_right a b)

end Accepts

/-- The kind of a slot is that of the expression left in it, found while calls of `o` were not
trusted. -/
def KindFrom (m : Memory) (o : FunctionId) (t : SlotId) (e : Expr) : Prop :=
  (m.slot t).kind = .dynamic ∨ kindGiven m (m.answering o (.ok .dynamic)) e = .ok (m.slot t).kind

/-- A binding whose initializer is left in its slot has its kind from there. -/
def Keeping (m : Memory) (o : FunctionId) (d : Declaration Expr) : Prop :=
  d.dependent = true → m.KindFrom o d.slot d.initializer

/-- Parameters take any value, bodies have the remembered kinds, and what is left in slots is of
their kinds. -/
structure Reliable (m : Memory) : Prop where
  parameters : ∀ f b, (m.function f).body = some b →
    ∀ t ∈ (m.function f).parameterSlots, (m.slot t).kind = .dynamic
  kind : ∀ f b, (m.function f).body = some b → kindGiven m m.answer b = m.answer f
  keeping : ∀ f b, (m.function f).body = some b → b.Binds (m.Keeping f)

end Memory

/-! ## Records -/

namespace Record

variable {m : Memory} {o : FunctionId} {r : Record} {t : SlotId} {c : Content}

structure Kinded (m : Memory) (o : FunctionId) (r : Record) : Prop where
  value : ∀ t v, r t = .value v → v.kind.Refines (m.slot t).kind
  dependent : ∀ t e, r t = .dependent e → e.Binds (m.Keeping o) ∧ m.KindFrom o t e

theorem kinded_empty : empty.Kinded m o :=
  ⟨nofun, nofun⟩

/-- One more slot is set as its kind allows. -/
theorem Kinded.put (h : r.Kinded m o) (hv : ∀ v, c = .value v → v.kind.Refines (m.slot t).kind)
    (he : ∀ e, c = .dependent e → e.Binds (m.Keeping o) ∧ m.KindFrom o t e) :
    (r.put t c).Kinded m o := by
  refine ⟨fun u v hu => ?_, fun u e hu => ?_⟩
  all_goals by_cases hut : u = t
  · subst hut
    exact hv v (put_self.symm.trans hu)
  · exact h.value u v ((put_of_ne hut).symm.trans hu)
  · subst hut
    exact he e (put_self.symm.trans hu)
  · exact h.dependent u e ((put_of_ne hut).symm.trans hu)

/-- Slots that take any value may be set to any. -/
theorem Kinded.bind (h : r.Kinded m o) {pairs : List (SlotId × Value)}
    (hp : ∀ p ∈ pairs, (m.slot p.1).kind = .dynamic) : (r.bind pairs).Kinded m o := by
  induction pairs generalizing r with
  | nil => exact h
  | cons p pairs ih =>
      rw [List.forall_mem_cons] at hp
      refine ih (h.put ?_ nofun) hp.2
      exact fun v _ => .inr hp.1

end Record

/-! ## Actions that respect kinds -/

namespace Activation

/-- Started in a record whose slots hold what their kinds allow, the action leaves such a record,
and its result has `P`. -/
def Respects {α : Type} (m : Memory) (o : FunctionId) (x : Action α) (P : α → Prop) : Prop :=
  Triple (fun a => a.record.Kinded m o) x (fun v a => a.record.Kinded m o ∧ P v) fun _ _ => True

namespace Respects

variable {α β : Type} {m : Memory} {o : FunctionId} {P : α → Prop} {Q : β → Prop}

theorem pure {v : α} (h : P v) : Respects m o (Pure.pure v) P :=
  Triple.pure fun _ ha => ⟨ha, h⟩

theorem throw {fault : Fault} : Respects m o (MonadExcept.throw fault : Action α) P :=
  Triple.throw fun _ _ => trivial

theorem ofExcept {r : Except Fault α} (h : ∀ v, r = .ok v → P v) :
    Respects m o (Effect.ofExcept r) P :=
  Triple.ofExcept (fun v _ hv ha => ⟨ha, h v hv⟩) fun _ _ _ _ => trivial

theorem bind {x : Action α} {f : α → Action β} (hx : Respects m o x P)
    (hf : ∀ v, P v → Respects m o (f v) Q) : Respects m o (x >>= f) Q := by
  refine Triple.bind hx fun v => ?_
  intro a ha
  exact hf v ha.2 a ha.1

theorem imp {Q : α → Prop} {x : Action α} (hx : Respects m o x P) (h : ∀ v, P v → Q v) :
    Respects m o x Q :=
  hx.weaken (fun _ ha => ha) (fun v _ ha => ⟨ha.1, h v ha.2⟩) fun _ _ _ => trivial

end Respects

section Actions

variable {m : Memory} {o : FunctionId} {follow : Follow} {live : List FunctionId} {mode : Mode}

/-- A value is stored only where the kind of the slot accepts it. -/
theorem write_respects {t : SlotId} {v : Value} : Respects m o (write m t v) fun _ => True := by
  apply Triple.update
  · intro a a' ha h
    rcases ok_of_bind h with ⟨_, hv, hput⟩
    cases hput
    have haccepts : (m.slot t).kind.accepts v.kind = true := by
      by_contra hne
      rw [Value.expectKind, if_neg hne] at hv
      cases hv
    refine ⟨ha.put ?_ nofun, trivial⟩
    rintro _ ⟨⟩
    exact Value.refines_iff.2 haccepts
  · exact fun _ _ _ _ => trivial

theorem writeTargets_respects {v : Value} {targets : List Reference} :
    Respects m o (writeTargets m v targets) fun _ => True := by
  induction targets with
  | nil => exact Respects.pure trivial
  | cons t ts ih => exact Respects.bind write_respects fun _ _ => ih

theorem defer_respects {d : Declaration Expr} (hd : m.KindFrom o d.slot d.initializer)
    (hb : d.initializer.Binds (m.Keeping o)) :
    Respects m o (defer d.slot d.initializer) fun _ => True := by
  apply Triple.modify
  intro a ha
  refine ⟨ha.put nofun ?_, trivial⟩
  rintro _ ⟨⟩
  exact ⟨hb, hd⟩

theorem emit_respects {text : String} : Respects m o (emit text) fun _ => True :=
  Triple.modify fun _ ha => ⟨ha, trivial⟩

def Sound (m : Memory) (follow : Follow) : Prop :=
  ∀ o live mode e, e.Binds (m.Keeping o) → Respects m o (follow live mode e) (m.Accepts e)

/-- A variable is of the kind of its slot, because that is the kind of what was left there. -/
theorem read_respects (hfollow : Sound m follow) {r : Reference} :
    Respects m o (readWith follow live mode r) fun v => v.kind.Refines (m.slot r.slot).kind := by
  refine Triple.get_bind fun a ha => ?_
  cases hc : a.record r.slot with
  | uninitialized => exact Triple.throw fun _ _ => trivial
  | value v =>
      have hv := ha.value r.slot v hc
      exact Triple.pure fun _ h => ⟨h ▸ ha, hv⟩
  | dependent e =>
      -- The slot got its kind from this very expression, when calls of the function were not
      -- trusted.
      rcases ha.dependent r.slot e hc with ⟨hb, hkind⟩
      have hread : Respects m o (follow live mode e) fun v =>
          v.kind.Refines (m.slot r.slot).kind := by
        refine (hfollow _ _ _ _ hb).imp fun v hv => ?_
        rcases hkind with hdynamic | hkind
        · exact .inr hdynamic
        · exact hv _ _ Memory.trusts_answering hkind
      intro b hb'
      exact hread b (hb' ▸ ha)

/-- Whatever happens in a record of its own, the record outside is as it was. -/
theorem inRecord_respects {id : FunctionId} {r : Record} {body : Action Value} {P : Value → Prop}
    (hr : r.Kinded m id) (hbody : Respects m id body P) : Respects m o (inRecord r body) P := by
  intro a ha
  have hrun := hbody { a with record := r } hr
  unfold inRecord
  cases hresult : body { a with record := r } with
  | ok v b =>
      rw [hresult] at hrun
      exact ⟨ha, hrun.2⟩
  | error fault b => trivial

/-- A call gives what the body gives, and the body is of the remembered kind. -/
theorem call_respects (hm : m.Reliable) (hfollow : Sound m follow) {id : FunctionId} {count : Nat}
    {arguments : Action (List Value)} (harguments : Respects m o arguments fun _ => True) :
    Respects m o (callWith m follow live mode id count arguments) fun v =>
      ∀ answer k, m.Trusts answer → answer id = .ok k → v.kind.Refines k := by
  refine Respects.bind (P := fun _ => True) (Respects.ofExcept fun _ _ => trivial) fun _ _ => ?_
  refine Respects.bind harguments fun values _ => ?_
  cases hb : (m.function id).body with
  | none => exact Respects.throw
  | some b =>
      dsimp only
      split
      · exact Respects.throw
      · have hrecord :
            (Record.empty.bind ((m.function id).parameterSlots.zip values)).Kinded m id := by
          refine Record.kinded_empty.bind fun p hp => ?_
          exact hm.parameters id b hb p.1 (List.of_mem_zip hp).1
        have hbody : Respects m id (follow (id :: live) mode b) (m.Accepts b) :=
          hfollow _ _ _ _ (hm.keeping id b hb)
        refine (inRecord_respects hrecord hbody).imp fun v hv answer k htrusts hk => ?_
        -- A call that is not trusted is of no particular kind.
        rcases htrusts id with hanswer | hanswer
        · have hkind : kindGiven m m.answer b = .ok k := by
            rw [hm.kind id b hb, ← hanswer, hk]
          exact hv _ _ Memory.trusts_answer hkind
        · rw [hanswer] at hk
          cases hk
          exact .inr rfl

/-! ## One level of evaluation -/

/-- Arguments one after another. -/
theorem argumentsWith_respects {es : List Expr}
    (hes : ∀ e ∈ es, Respects m o (evaluateWith m follow live .probe e) (m.Accepts e)) :
    Respects m o (argumentsWith m follow live es) fun _ => True := by
  induction es with
  | nil => exact Respects.pure trivial
  | cons e es ih =>
      rw [List.forall_mem_cons] at hes
      refine Respects.bind hes.1 fun v _ => ?_
      exact Respects.bind (ih hes.2) fun vs _ => Respects.pure trivial

/-- Bindings one after another. An initializer that is kept was the source of the kind of its
slot. -/
theorem bindWith_respects {ds : List (Declaration Expr)}
    (hds : ∀ d ∈ ds, Respects m o (evaluateWith m follow live mode d.initializer)
      (m.Accepts d.initializer))
    (hkeeping : ∀ d ∈ ds, m.Keeping o d) (hb : ∀ d ∈ ds, d.initializer.Binds (m.Keeping o)) :
    Respects m o (bindWith m follow live mode ds) fun _ => True := by
  induction ds with
  | nil => exact Respects.pure trivial
  | cons d ds ih =>
      rw [List.forall_mem_cons] at hds hkeeping hb
      have hrest := ih hds.2 hkeeping.2 hb.2
      rcases d with ⟨name, slot, kind, initializer, dependent⟩
      cases dependent with
      | true => exact Respects.bind (defer_respects (hkeeping.1 rfl) hb.1) fun _ _ => hrest
      | false =>
          -- Nothing has to be known of the initializer: writing checks its value.
          refine Respects.bind hds.1 fun v _ => ?_
          exact Respects.bind write_respects fun _ _ => hrest

/-- One level of evaluation gives values of the computed kinds, if what it follows does. -/
theorem evaluateWith_respects (hm : m.Reliable) (hfollow : Sound m follow) {e : Expr}
    (he : e.Binds (m.Keeping o)) :
    Respects m o (evaluateWith m follow live mode e) (m.Accepts e) := by
  induction e using Expr.induction generalizing mode with
  | literal v =>
      refine Respects.pure fun answer k _ hk => ?_
      cases hk
      exact .refl _
  | declaration name f =>
      refine Respects.pure fun answer k _ hk => ?_
      cases hk
      exact .refl _
  | read r =>
      refine (read_respects hfollow).imp fun v hv answer k _ hk => ?_
      cases hk
      exact hv
  | unary op e ih =>
      simp only [Expr.Binds, Expr.every_unary] at he
      refine Respects.bind (ih he.2) fun v _ => Respects.ofExcept fun w hw => ?_
      have hmeets := op.apply_meets v
      rw [hw] at hmeets
      exact Memory.accepts_unary hmeets
  | binary op l r ihl ihr =>
      simp only [Expr.Binds, Expr.every_binary] at he
      refine Respects.bind (ihl he.2.1) fun v _ => ?_
      refine Respects.bind (Respects.ofExcept fun d hd => hd) fun d hd => ?_
      cases d with
      | some w =>
          -- The left operand decided, so the right one was not looked at.
          exact Respects.pure (Memory.accepts_binary (op.decided?_some hd))
      | none =>
          refine Respects.bind (ihr he.2.2) fun w _ => Respects.ofExcept fun x hx => ?_
          have hmeets := op.apply_meets v w
          rw [hx] at hmeets
          exact Memory.accepts_binary hmeets
  | assign ts e ih =>
      simp only [Expr.Binds, Expr.every_assign] at he
      -- Targets are checked again when they are written; the value is that of the right-hand side.
      refine Respects.bind (ih he.2) fun v hv => ?_
      cases mode with
      | run =>
          refine Respects.bind writeTargets_respects fun _ _ => ?_
          exact Respects.pure (Memory.accepts_assign hv)
      | probe => exact Respects.pure (Memory.accepts_assign hv)
  | call name f as dependent ih =>
      simp only [Expr.Binds, Expr.every_call] at he
      have harguments : Respects m o (argumentsWith m follow live as) fun _ => True :=
        argumentsWith_respects fun a ha => ih a ha (he.2 a ha)
      exact (call_respects hm hfollow harguments).imp fun v hv => Memory.accepts_call hv
  | print e ih =>
      simp only [Expr.Binds, Expr.every_print] at he
      refine Respects.bind (ih he.2) fun v hv => ?_
      cases mode with
      | run => exact Respects.bind emit_respects fun _ _ => Respects.pure hv
      | probe => exact Respects.pure hv
  | letIn ds b ihd ihb =>
      simp only [Expr.Binds, Expr.every_letIn] at he
      have hbind : Respects m o (bindWith m follow live mode ds) fun _ => True :=
        bindWith_respects (fun d hd => ihd d hd (he.2.1 d hd)) he.1 he.2.1
      refine Respects.bind hbind fun _ _ => ?_
      exact (ihb he.2.2).imp fun v hv => Memory.accepts_letIn hv
  | conditional c t e ihc iht ihe =>
      simp only [Expr.Binds, Expr.every_conditional] at he
      refine Respects.bind (ihc he.2.1) fun v _ => ?_
      refine Respects.bind (P := fun _ => True) (Respects.ofExcept fun _ _ => trivial) fun b _ => ?_
      cases b with
      | true => exact (iht he.2.2.1).imp fun v hv => Memory.accepts_conditional (.inl hv)
      | false => exact (ihe he.2.2.2).imp fun v hv => Memory.accepts_conditional (.inr hv)

/-- However deep stored expressions are followed, values are of the computed kinds. -/
theorem evaluateWithin_respects (hm : m.Reliable) (n : Nat) : Sound m (evaluateWithin m n) := by
  induction n with
  | zero =>
      intro o live mode e _
      exact Respects.throw
  | succ n ih =>
      intro o live mode e he
      exact evaluateWith_respects hm ih he

end Actions

end Activation
end LineLang
