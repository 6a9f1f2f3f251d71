import LineLang.Proofs.Activation.Simulation
import LineLang.Proofs.Renaming.Memory
import Mathlib.Data.List.Count

/-!
# Evaluation with other handles

Evaluation in records treats handles as names, so it comes to the same with other handles.

- `Activation.Renamed`                 : a record and its copy
- `Activation.Copies`                  : two actions that come to the same, each with its handles
- `Activation.evaluateWithin_copies`   : evaluation is one
-/

namespace LineLang

open Effect

/-- A record holds what its copy holds, and the same was printed. -/
structure Activation.Renamed (ρ : Renaming) (a a' : Activation) : Prop where
  record : ∀ t, a'.record (ρ.slot t) = (a.record t).rename ρ
  printed : a'.printed = a.printed

namespace Activation

variable {ρ : Renaming} {N : Set String} {m m' : Memory} {a a' : Activation}
variable {live : List FunctionId}

theorem put_rename {r r' : Record} (h : ∀ t, r' (ρ.slot t) = (r t).rename ρ) (u : SlotId)
    (c : Content) (t : SlotId) :
    r'.put (ρ.slot u) (c.rename ρ) (ρ.slot t) = (r.put u c t).rename ρ := by
  by_cases ht : t = u
  · rw [ht, Record.put_self, Record.put_self]
  · rw [Record.put_of_ne ht, Record.put_of_ne (ρ.slot_injective.ne ht), h t]

/-- Parameters are set in both records. -/
theorem bind_rename {r r' : Record} (h : ∀ t, r' (ρ.slot t) = (r t).rename ρ) (us : List SlotId)
    (vs : List Value) (t : SlotId) :
    r'.bind ((us.map ρ.slot).zip vs) (ρ.slot t) = (r.bind (us.zip vs) t).rename ρ := by
  induction us generalizing vs r r' with
  | nil => exact h t
  | cons u us ih =>
      cases vs with
      | nil => exact h t
      | cons v vs => exact ih (put_rename h u (.value v)) vs

abbrev Copied {α : Type} (ρ : Renaming) :
    EStateM.Result Fault Activation α → EStateM.Result Fault Activation α → Prop :=
  Agree (fun v b w b' => w = v ∧ Renamed ρ b b') fun b b' => b'.printed = b.printed

def Copies {α : Type} (ρ : Renaming) (x y : Action α) : Prop :=
  ∀ ⦃a a' : Activation⦄, a.Renamed ρ a' → Copied ρ (x a) (y a')

namespace Copies

variable {α β : Type}

theorem pure {v : α} : Copies ρ (Pure.pure v) (Pure.pure v) :=
  fun _ _ ha => .ok ⟨rfl, ha⟩

theorem throw {fault : Fault} :
    Copies ρ (MonadExcept.throw fault : Action α) (MonadExcept.throw fault) :=
  fun _ _ ha => .error ha.printed

theorem ofExcept {r : Except Fault α} : Copies ρ (Effect.ofExcept r) (Effect.ofExcept r) :=
  fun _ _ ha => Agree.ofExcept (fun _ _ => ⟨rfl, ha⟩) ha.printed

theorem bind {x y : Action α} {f g : α → Action β} (hx : Copies ρ x y)
    (hf : ∀ v, Copies ρ (f v) (g v)) : Copies ρ (x >>= f) (y >>= g) := by
  intro a a' ha
  refine (hx ha).bind ?_
  rintro v b _ b' ⟨rfl, hb⟩
  exact hf _ hb

/-- A call starts with a record of its own and leaves the one it found. -/
theorem inRecord {r r' : Record} {x y : Action Value} (hr : ∀ t, r' (ρ.slot t) = (r t).rename ρ)
    (hx : Copies ρ x y) : Copies ρ (inRecord r x) (inRecord r' y) := by
  intro a a' ha
  have hstart : Renamed ρ { a with record := r } { a' with record := r' } := ⟨hr, ha.printed⟩
  have hagree := hx hstart
  unfold Activation.inRecord
  generalize x { a with record := r } = o at hagree ⊢
  generalize y { a' with record := r' } = o' at hagree ⊢
  cases hagree with
  | ok h => exact .ok ⟨h.1, ha.record, h.2.printed⟩
  | error hprinted => exact .error hprinted

end Copies

/-- The slot has the same kind under its other handle. -/
theorem write_copies (h : m.Renamed ρ N m') (t : SlotId) (v : Value) :
    Copies ρ (write m t v) (write m' (ρ.slot t) v) := by
  intro a a' ha
  simp only [write, h.kind, h.name, Effect.update]
  cases v.expectKind (.variable (m.slot t).name) (m.slot t).kind with
  | ok _ => exact .ok ⟨rfl, put_rename ha.record t (.value v), ha.printed⟩
  | error fault => exact .error ha.printed

theorem writeTargets_copies (h : m.Renamed ρ N m') (v : Value) (ts : List Reference) :
    Copies ρ (writeTargets m v ts) (writeTargets m' v (ts.map (·.rename ρ))) := by
  induction ts with
  | nil => exact Copies.pure
  | cons t ts ih => exact Copies.bind (write_copies h t.slot v) fun _ => ih

theorem defer_copies (t : SlotId) (e : Expr) :
    Copies ρ (defer t e) (defer (ρ.slot t) (e.rename ρ)) :=
  fun _ _ ha => .ok ⟨rfl, put_rename ha.record t (.dependent e), ha.printed⟩

theorem emit_copies (text : String) : Copies ρ (emit text) (emit text) :=
  fun _ _ ha => .ok ⟨rfl, ha.record, congrArg (·.push text) ha.printed⟩

abbrev FollowsCopy (ρ : Renaming) (follow follow' : Follow) : Prop :=
  ∀ live mode e, Copies ρ (follow live mode e) (follow' (live.map ρ.function) mode (e.rename ρ))

variable {follow follow' : Follow} {mode : Mode}

/-- What reading a variable in a record comes to, by what the record holds. -/
theorem readWith_apply (r : Reference) : readWith follow live mode r a =
    match a.record r.slot with
    | .uninitialized => .error (.uninitialized r.name) a
    | .value v => .ok v a
    | .dependent initializer => follow live mode initializer a := by
  show (match a.record r.slot with
    | .uninitialized => throw (.uninitialized r.name)
    | .value v => pure v
    | .dependent initializer => follow live mode initializer : Action Value) a = _
  cases a.record r.slot <;> rfl

/-- A variable holds the same under its other handle, up to handles in an initializer. -/
theorem readWith_copies (hfollow : FollowsCopy ρ follow follow') (r : Reference) :
    Copies ρ (readWith follow live mode r)
      (readWith follow' (live.map ρ.function) mode (r.rename ρ)) := by
  intro a a' ha
  have hcontent : a'.record (r.rename ρ).slot = (a.record r.slot).rename ρ := ha.record r.slot
  rw [readWith_apply, readWith_apply, hcontent]
  cases a.record r.slot with
  | uninitialized => exact .error ha.printed
  | value v => exact .ok ⟨rfl, ha⟩
  | dependent e => exact hfollow live mode e ha

/-- Both calls check the same number of arguments and the same limit, and their records start
alike. -/
theorem callWith_copies (h : m.Renamed ρ N m') (hfollow : FollowsCopy ρ follow follow')
    (f : FunctionId) (count : Nat) {x y : Action (List Value)} (hx : Copies ρ x y) :
    Copies ρ (callWith m follow live mode f count x)
      (callWith m' follow' (live.map ρ.function) mode (ρ.function f) count y) := by
  have hf := h.function f
  unfold callWith
  simp only [hf.checkArity, hf.name, hf.body, hf.slots]
  refine Copies.bind .ofExcept fun _ => Copies.bind hx fun vs => ?_
  cases (m.function f).body with
  | none => exact Copies.throw
  | some b =>
      have hcount : (live.map ρ.function).count (ρ.function f) = live.count f :=
        List.count_map_of_injective live ρ.function ρ.function_injective f
      simp only [Option.map_some, hcount]
      split
      · exact Copies.throw
      · exact Copies.inRecord (bind_rename (fun _ => rfl) _ vs) (hfollow (f :: live) mode b)

/-- One level of evaluation with other handles. -/
theorem evaluateWith_copies (h : m.Renamed ρ N m') (hfollow : FollowsCopy ρ follow follow')
    (e : Expr) :
    Copies ρ (evaluateWith m follow live mode e)
      (evaluateWith m' follow' (live.map ρ.function) mode (e.rename ρ)) := by
  induction e using Expr.induction generalizing mode with
  | literal v | declaration name f => exact Copies.pure
  | read r => exact readWith_copies hfollow r
  | unary op e ih => exact Copies.bind ih fun v => .ofExcept
  | binary op l r ihl ihr =>
      refine Copies.bind ihl fun v => Copies.bind .ofExcept fun d => ?_
      cases d with
      | some w => exact Copies.pure
      | none => exact Copies.bind ihr fun w => .ofExcept
  | assign ts e ih =>
      refine Copies.bind ih fun v => ?_
      cases mode with
      | run => exact Copies.bind (writeTargets_copies h v ts) fun _ => .pure
      | probe => exact Copies.pure
  | call name f es dependent ih =>
      have hes : Copies ρ (argumentsWith m follow live es)
          (argumentsWith m' follow' (live.map ρ.function) (Expr.renameAll ρ es)) := by
        induction es with
        | nil => exact Copies.pure
        | cons e es ihes =>
            rw [List.forall_mem_cons] at ih
            exact Copies.bind ih.1 fun v => Copies.bind (ihes ih.2) fun vs => .pure
      -- The same number of arguments is checked on both sides.
      have hlength : (Expr.renameAll ρ es).length = es.length := by
        rw [Expr.renameAll_eq, List.length_map]
      simp only [Expr.rename, evaluateWith, hlength]
      exact callWith_copies h hfollow f es.length hes
  | print e ih =>
      refine Copies.bind ih fun v => ?_
      cases mode with
      | run => exact Copies.bind (emit_copies v.display) fun _ => .pure
      | probe => exact Copies.pure
  | letIn ds b ihd ihb =>
      have hds : Copies ρ (bindWith m follow live mode ds)
          (bindWith m' follow' (live.map ρ.function) mode (Expr.renameBindings ρ ds)) := by
        clear ihb
        induction ds with
        | nil => exact Copies.pure
        | cons d ds ihds =>
            rw [List.forall_mem_cons] at ihd
            rcases d with ⟨name, slot, kind, initializer, dependent⟩
            cases dependent with
            | true => exact Copies.bind (defer_copies slot initializer) fun _ => ihds ihd.2
            | false =>
                exact Copies.bind ihd.1 fun v =>
                  Copies.bind (write_copies h slot v) fun _ => ihds ihd.2
      exact Copies.bind hds fun _ => ihb
  | conditional c t e ihc iht ihe =>
      refine Copies.bind ihc fun v => Copies.bind .ofExcept fun d => ?_
      cases d with
      | true => exact iht
      | false => exact ihe

/-- Evaluation with other handles comes to the same. -/
theorem evaluateWithin_copies (h : m.Renamed ρ N m') (n : Nat) :
    FollowsCopy ρ (evaluateWithin m n) (evaluateWithin m' n) := by
  induction n with
  | zero => exact fun _ _ _ => Copies.throw
  | succ n ih => exact fun _ _ e => evaluateWith_copies h ih e

/-- Over two storages that agree with a record and its copy an expression comes to the same. -/
theorem SameOutcome.copied {α : Type} {Q Q' : α → Machine → Activation → Prop}
    {r r' : EStateM.Result Fault Machine α} {q q' : EStateM.Result Fault Activation α}
    (h : SameOutcome Q r q) (h' : SameOutcome Q' r' q') (hq : Copied ρ q q') :
    Agree (fun v s w s' => w = v ∧ ∃ a a', Q v s a ∧ Q' v s' a' ∧ Renamed ρ a a')
      (fun s s' => s'.printed = s.printed) r r' := by
  cases h with
  | ok hQ =>
      cases hq with
      | ok hcopy =>
          rcases hcopy with ⟨rfl, ha⟩
          cases h' with
          | ok hQ' => exact .ok ⟨rfl, _, _, hQ, hQ', ha⟩
  | error hprinted =>
      cases hq with
      | error hcopy =>
          cases h' with
          | error hprinted' => exact .error (hprinted'.trans (hcopy.trans hprinted.symm))

end Activation
end LineLang
