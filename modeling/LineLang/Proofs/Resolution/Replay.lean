import LineLang.Proofs.Activation.Simulation
import LineLang.Proofs.Resolution.Phrases

/-!
# Values of bindings, computed later

Reading computes the value of every independent binding on the way. Here a phrase is read without
that, and the values are computed afterwards, binding by binding in the order in which they were
read. The two come to the same: reading on the way fails exactly where computing afterwards fails,
and with the same fault, and otherwise both have the same expression and the same values in the
variables in force.

- `Expr.bindings`                     : the bindings of an expression in the order of reading
- `Resolution.postpone`               : slots are filled as far as nothing has to be evaluated
- `Resolution.fillAll`                : slots are filled one after the other
- `Memory.Level`                      : storages that differ at most in what slots hold
- `Resolution.Stage`                  : how far both ways of reading have come
- `Resolution.resolveWith_replays`    : both ways of reading a phrase
-/

namespace LineLang

open Effect

namespace Expr

mutual

/-- The bindings of an expression in the order in which they are read: those in an initializer come
before its own. -/
def bindings : Expr → List (Declaration Expr)
  | .literal _ => []
  | .variable _ => []
  | .unary _ operand => bindings operand
  | .binary _ left right => bindings left ++ bindings right
  | .assign _ value => bindings value
  | .call _ _ arguments _ => bindingsOfAll arguments
  | .print argument => bindings argument
  | .declaration _ _ => []
  | .letIn declarations body => bindingsOfDeclarations declarations ++ bindings body
  | .conditional condition consequent alternative =>
      bindings condition ++ (bindings consequent ++ bindings alternative)

def bindingsOfAll : List Expr → List (Declaration Expr)
  | [] => []
  | e :: es => bindings e ++ bindingsOfAll es

def bindingsOfDeclarations : List (Declaration Expr) → List (Declaration Expr)
  | [] => []
  | ⟨name, slot, kind, initializer, dependent⟩ :: declarations =>
      bindings initializer ++
        (⟨name, slot, kind, initializer, dependent⟩ :: bindingsOfDeclarations declarations)

end

end Expr

abbrev Memory.Level (m n : Memory) : Prop :=
  m.UnchangedOutside (fun _ => True) n

/-- A new slot holds nothing, and nothing was set in it. -/
theorem Activation.Agrees.allocate {owner : SlotId → FunctionId} {n m : Memory} {b : Nat}
    {o : FunctionId} {Γ : Set SlotId} {a : Activation} {s : Slot}
    (h : Agrees owner n b o [] Γ { memory := m } a) (hs : s.content = .uninitialized)
    (hbody : (m.function (owner b)).body = none) (hn : (n.slot b).shape = s.shape) :
    Agrees owner n (b + 1) o [] Γ { memory := m.allocate s } a := by
  have hsize : m.slots.size = b := h.size
  refine { h with size := ?_, shape := fun t ht => ?_, coherent := ?_, record := fun t ht => ?_ }
  · rw [Memory.size_allocate, hsize]
  · rcases Nat.eq_or_lt_of_le (Nat.le_of_lt_succ ht) with rfl | hlt
    · rw [hn, ← hsize, Memory.slot_allocate_self]
    · rw [Memory.slot_allocate_of_lt (hsize.symm ▸ hlt)]
      exact h.shape t hlt
  · exact h.coherent.allocate hs (hsize.symm ▸ hbody)
  · rcases h.record t ht with ⟨hlt, ho, hcontent⟩
    refine ⟨Nat.lt_succ_of_lt hlt, ho, ?_⟩
    rw [Memory.content, Memory.slot_allocate_of_lt (hsize.symm ▸ hlt)]
    exact hcontent

namespace Resolution

/-! ## Putting off -/

/-- Fills the slot of a variable as far as nothing has to be evaluated. -/
def postpone (d : Declaration Expr) : Resolution Unit :=
  if d.dependent then modify (·.replace d.slot (.dependent d.initializer)) else pure ()

def fillAll : List (Declaration Expr) → Resolution Unit
  | [] => pure ()
  | d :: ds => do
      fill d
      fillAll ds

theorem fillAll_append (ds ds' : List (Declaration Expr)) :
    fillAll (ds ++ ds') = fillAll ds >>= fun _ => fillAll ds' := by
  induction ds with
  | nil => simp only [List.nil_append, fillAll, pure_bind]
  | cons d ds ih => simp only [List.cons_append, fillAll, ih, bind_assoc]

theorem fillAll_singleton (d : Declaration Expr) : fillAll [d] = fill d :=
  bind_pure (fill d)

variable {owner : SlotId → FunctionId} {o : FunctionId} {lo : Nat}

/-- Leaving a slot unfilled is a step like filling it. -/
theorem postpone_steps : Fills owner o lo postpone := by
  intro m Γ d hm hlo he hlt hflags
  unfold postpone
  by_cases hd : d.dependent = true
  · rw [if_pos hd]
    exact defer_steps hm hlo he hlt hflags hd
  · rw [if_neg hd]
    exact Steps.pure hm trivial

/-- Without evaluation only a dependent initializer is put into its slot. -/
theorem postpone_ok {d : Declaration Expr} {l l' : Memory} (h : postpone d l = .ok () l') :
    l.Level l' := by
  unfold postpone at h
  split at h
  · cases h
    exact .replace trivial _
  · cases h
    exact .refl l

/-! ## Stages -/

/-- Reading has come to the storage `m`, reading without evaluation to `l`, and filling the slots
later to `k`, which has the slots of the storage `n` in which reading without evaluation ends. The
variables in `Γ` hold the same in `m` and in `k`. -/
structure Stage (owner : SlotId → FunctionId) (o : FunctionId) (n : Memory) (Γ : Set SlotId)
    (m l k : Memory) : Prop where
  level : l.Level m
  record : ∃ r : Record,
    Activation.Agrees owner n l.slots.size o [] Γ { memory := m } { record := r } ∧
      Activation.Agrees owner n n.slots.size o [] Γ { memory := k } { record := r }

variable {n m l k : Memory} {Γ Δ : Set SlotId}

namespace Stage

theorem mono (h : Stage owner o n Δ m l k) (hΓ : Γ ⊆ Δ) : Stage owner o n Γ m l k := by
  rcases h with ⟨hlevel, r, hm, hk⟩
  exact ⟨hlevel, r, hm.mono hΓ, hk.mono hΓ⟩

theorem grown (h : Stage owner o n Γ m l k) : l.Grown 0 m :=
  .of_unchangedOutside h.level fun _ _ => Nat.zero_le _

/-- What the slots hold where nothing is evaluated does not matter. -/
theorem postponed {l' : Memory} (h : Stage owner o n Γ m l k)
    (hl : l.Level l') : Stage owner o n Γ m l' k := by
  rcases h with ⟨hlevel, r, hm, hk⟩
  refine ⟨hl.symm.trans hlevel, r, ?_, hk⟩
  rw [hl.size]
  exact hm

/-- Both ways of reading add a slot, which is there already where slots are filled later. -/
theorem allocate (h : Stage owner o n Γ m l k) (hl : l.Working owner o lo) {s : Slot}
    (hs : s.content = .uninitialized) (hn : (n.slot l.slots.size).shape = s.shape) :
    Stage owner o n Γ (m.allocate s) (l.allocate s) k := by
  rcases h with ⟨hlevel, r, hm, hk⟩
  have hbody : (m.function (owner l.slots.size)).body = none := by
    rw [(hl.owned _).2 hl.low, hlevel.function, hl.bodyless]
  refine ⟨hlevel.allocate s, r, ?_, hk⟩
  rw [Memory.size_allocate]
  exact hm.allocate hs hbody hn

/-- Both set a slot to the same. -/
theorem put (h : Stage owner o n Γ m l k) {t : SlotId} {c : Content} (ht : t < l.slots.size)
    (hle : l.slots.size ≤ n.slots.size) (ho : owner t = o) (hc : c ≠ .uninitialized)
    (he : ∀ e, c = .dependent e → e.Local owner o ∧ e.SlotsIn (· < t) ∧ e.Scoped Γ) :
    Stage owner o n (insert t Γ) (m.replace t c) l (k.replace t c) := by
  rcases h with ⟨hlevel, r, hm, hk⟩
  have he' : ∀ e, c = .dependent e → e.Local owner o ∧ e.SlotsIn (· < t) ∧ e.Scoped r.filled := by
    intro e hce
    rcases he e hce with ⟨hlocal, hslots, hscoped⟩
    exact ⟨hlocal, hslots, hscoped.mono hm.inForce⟩
  refine ⟨hlevel.trans (.replace trivial c), r.put t c, hm.put ht ho hc he', ?_⟩
  exact hk.put (Nat.lt_of_lt_of_le ht hle) ho hc he'

end Stage

/-- Reading gives the expected, or it fails as filling the slots later does. -/
inductive Replays (owner : SlotId → FunctionId) (o : FunctionId) (n : Memory) (Γ : Set SlotId)
    {α : Type} (a : α) (l : Memory) :
    EStateM.Result Rejection Memory α → EStateM.Result Rejection Memory Unit → Prop
  | ok {m k : Memory} : Stage owner o n Γ m l k → Replays owner o n Γ a l (.ok a m) (.ok () k)
  | error {fault : Fault} {m k : Memory} :
      Replays owner o n Γ a l (.error (.static fault) m) (.error (.static fault) k)

namespace Replays

variable {α β : Type} {a : α} {c : β} {x : Resolution α} {ds ds' : List (Declaration Expr)}

/-- One action after another. The bindings of both are filled in their order. -/
theorem bind {f : α → Resolution β} {l' : Memory}
    (hx : Replays owner o n Γ a l (x m) (fillAll ds k))
    (hf : ∀ m' k', Stage owner o n Γ m' l k' →
      Replays owner o n Δ c l' (f a m') (fillAll ds' k')) :
    Replays owner o n Δ c l' ((x >>= f) m) (fillAll (ds ++ ds') k) := by
  rw [fillAll_append]
  generalize hr : x m = r at hx
  generalize hr' : fillAll ds k = r' at hx
  cases hx with
  | ok h =>
      rw [bind_ok hr, bind_ok hr']
      exact hf _ _ h
  | error =>
      rw [bind_error hr, bind_error hr']
      exact .error

theorem imp {l' : Memory} {r : EStateM.Result Rejection Memory α}
    {r' : EStateM.Result Rejection Memory Unit} (h : Replays owner o n Γ a l r r')
    (hS : ∀ m k, Stage owner o n Γ m l k → Stage owner o n Δ m l' k) :
    Replays owner o n Δ a l' r r' := by
  cases h with
  | ok h => exact .ok (hS _ _ h)
  | error => exact .error

/-- What follows has no bindings and leaves the storage as it is. -/
theorem last {f : α → Resolution β} (hx : Replays owner o n Γ a l (x m) (fillAll ds k))
    (hf : ∀ m', l.Level m' → f a m' = .ok c m') :
    Replays owner o n Γ c l ((x >>= f) m) (fillAll ds k) := by
  have h : Replays owner o n Γ c l ((x >>= f) m) (fillAll (ds ++ []) k) := by
    refine hx.bind fun m' k' h => ?_
    rw [hf m' h.level]
    exact .ok h
  rwa [List.append_nil] at h

theorem map (g : α → β) (hx : Replays owner o n Γ a l (x m) (fillAll ds k)) :
    Replays owner o n Γ (g a) l ((x >>= fun v => pure (g v)) m) (fillAll ds k) :=
  hx.last fun _ _ => rfl

end Replays

/-! ## Filling a slot -/

/-- The value of an initializer is the same on the way and later. -/
theorem probe_both {e : Expr} (hn : Activation.Callable n l.slots.size)
    (hle : l.slots.size ≤ n.slots.size) (h : Stage owner o n Γ m l k) (he : e.Local owner o)
    (hs : e.SlotsIn (· < l.slots.size)) (hΓ : e.Scoped Γ) :
    (∃ v m' k', Evaluation.probe e m = .ok v m' ∧ Evaluation.probe e k = .ok v k' ∧
      Stage owner o n Γ m' l k') ∨
      ∃ fault m' k', Evaluation.probe e m = .error fault m' ∧
        Evaluation.probe e k = .error fault k' := by
  rcases h with ⟨hlevel, r, hm, hk⟩
  have hconfined := Evaluation.evaluate_confined .probe (m := m) he (hlevel.size ▸ hs)
  unfold Evaluation.probe
  rcases Activation.evaluate_both hn hle hm hk he hs hΓ .probe with
    ⟨v, s, s', a, hms, hks, hm', hk'⟩ | ⟨fault, s, s', hms, hks, -⟩
  · rw [hms, hks]
    refine .inl ⟨v, s.memory, s'.memory, rfl, rfl, ?_, a.record, ?_, ?_⟩
    · have hunchanged := (hconfined.of_ok ⟨rfl, hm.coherent⟩ hms).2
      exact hlevel.trans (hunchanged.mono fun _ _ => trivial)
    · exact { hm' with printed := rfl }
    · exact { hk' with printed := rfl }
  · rw [hms, hks]
    exact .inr ⟨fault, s.memory, s'.memory, rfl, rfl⟩

/-- A value is stored on both sides or refused on both, since the slots have one kind. -/
theorem write_both {t : SlotId} {v : Value} (h : Stage owner o n Γ m l k) (ht : t < l.slots.size)
    (hle : l.slots.size ≤ n.slots.size) :
    (m.write t v = .ok (m.replace t (.value v)) ∧ k.write t v = .ok (k.replace t (.value v))) ∨
      ∃ fault, m.write t v = .error fault ∧ k.write t v = .error fault := by
  rcases h with ⟨-, r, hm, hk⟩
  have ht' := Nat.lt_of_lt_of_le ht hle
  -- Kinds and names of slots come from one storage on both sides.
  simp only [Memory.write, hm.kind ht, hm.name ht, hk.kind ht', hk.name ht']
  cases v.expectKind (.variable (n.slot t).name) (n.slot t).kind with
  | ok _ => exact .inl ⟨rfl, rfl⟩
  | error fault => exact .inr ⟨fault, rfl, rfl⟩

theorem fill_dependent {d : Declaration Expr} (hd : d.dependent = true) (m : Memory) :
    fill d m = .ok () (m.replace d.slot (.dependent d.initializer)) := by
  rw [fill, if_pos hd]
  rfl

theorem fill_ok {d : Declaration Expr} {m m₁ m₂ : Memory} {v : Value} (hd : ¬ d.dependent = true)
    (hv : Evaluation.probe d.initializer m = .ok v m₁) (hw : m₁.write d.slot v = .ok m₂) :
    fill d m = .ok () m₂ := by
  have hprobe : static (Evaluation.probe d.initializer) m = .ok v m₁ := mapError_ok hv
  rw [fill, if_neg hd, bind_ok hprobe]
  exact mapError_ok (update_ok hw)

theorem fill_error_probe {d : Declaration Expr} {m m₁ : Memory} {fault : Fault}
    (hd : ¬ d.dependent = true) (hv : Evaluation.probe d.initializer m = .error fault m₁) :
    fill d m = .error (.static fault) m₁ := by
  rw [fill, if_neg hd]
  exact bind_error (mapError_error hv)

theorem fill_error_write {d : Declaration Expr} {m m₁ : Memory} {v : Value} {fault : Fault}
    (hd : ¬ d.dependent = true) (hv : Evaluation.probe d.initializer m = .ok v m₁)
    (hw : m₁.write d.slot v = .error fault) : fill d m = .error (.static fault) m₁ := by
  have hprobe : static (Evaluation.probe d.initializer) m = .ok v m₁ := mapError_ok hv
  rw [fill, if_neg hd, bind_ok hprobe]
  exact mapError_error (update_error hw)

/-- A slot is filled alike on the way and later. -/
theorem fill_replays {d : Declaration Expr} (hn : Activation.Callable n l.slots.size)
    (hle : l.slots.size ≤ n.slots.size) (h : Stage owner o n Γ m l k) (hd : d.slot < l.slots.size)
    (ho : owner d.slot = o) (he : d.initializer.Local owner o)
    (hlt : d.initializer.SlotsIn (· < d.slot)) (hΓ : d.initializer.Scoped Γ) :
    Replays owner o n (insert d.slot Γ) () l (fill d m) (fillAll [d] k) := by
  rw [fillAll_singleton]
  by_cases hdependent : d.dependent = true
  · rw [fill_dependent hdependent, fill_dependent hdependent]
    refine .ok (h.put hd hle ho nofun ?_)
    rintro _ ⟨⟩
    exact ⟨he, hlt, hΓ⟩
  · have hslots : d.initializer.SlotsIn (· < l.slots.size) :=
      Expr.Every.imp hlt fun p hp t ht => Nat.lt_trans (hp t ht) hd
    rcases probe_both hn hle h he hslots hΓ with ⟨v, m', k', hm, hk, h'⟩ | ⟨fault, m', k', hm, hk⟩
    · rcases write_both (v := v) h' hd hle with ⟨hwm, hwk⟩ | ⟨fault, hwm, hwk⟩
      · rw [fill_ok hdependent hm hwm, fill_ok hdependent hk hwk]
        exact .ok (h'.put hd hle ho nofun nofun)
      · rw [fill_error_write hdependent hm hwm, fill_error_write hdependent hk hwk]
        exact .error
    · rw [fill_error_probe hdependent hm, fill_error_probe hdependent hk]
      exact .error

/-! ## Names -/

section Names

variable {scope : Scope} {name : String} {l' : Memory}

/-- A variable is the same wherever the slots have the same marks. -/
theorem reference_level (h : l.Level m) {r : Reference}
    (hr : reference scope name l = .ok r l') : l' = l ∧ reference scope name m = .ok r m := by
  unfold reference at hr ⊢
  cases hlookup : scope.bindings.lookup name with
  | none =>
      rw [hlookup] at hr
      cases hr
  | some t =>
      rw [hlookup] at hr
      have hmark : (m.slot t).dependent = (l.slot t).dependent := congrArg (·.dependent) (h.shape t)
      cases hr
      refine ⟨rfl, ?_⟩
      rw [← hmark]
      rfl

/-- Names do not depend on what slots hold. -/
theorem targets_level (h : l.Level m) {names : List Target} {rs : List Reference}
    (hrs : targets scope names l = .ok rs l') : l' = l ∧ targets scope names m = .ok rs m := by
  induction names generalizing rs l' with
  | nil =>
      cases hrs
      exact ⟨rfl, rfl⟩
  | cons t ts ih =>
      rcases t with name | r
      · simp only [targets] at hrs ⊢
        rcases of_bind_ok hrs with ⟨r, l₁, hr, hrest⟩
        rcases reference_level h hr with ⟨rfl, hr'⟩
        rcases of_bind_ok hrest with ⟨rs', l₂, hrs', hend⟩
        rcases ih hrs' with ⟨rfl, hrs''⟩
        cases hend
        refine ⟨rfl, ?_⟩
        rw [bind_ok hr', bind_ok hrs'']
        rfl
      · cases hrs

theorem bindings_builtinCall {b : Builtin} {es : List Expr} {e : Expr}
    (h : builtinCall b es = some e) : e.bindings = Expr.bindingsOfAll es := by
  unfold builtinCall at h
  split at h <;> cases h <;> simp only [Expr.bindings, Expr.bindingsOfAll, List.append_nil]

/-- What is called by a name that is no function of the language. -/
theorem callee_of_name {es : List Expr} (hb : Builtin.ofName? name = none)
    (hname : checkIdentifier name = .ok ()) : callee scope name es m =
      (match m.lookup? name, scope.declaring with
        | some id, _ => return .call name id es (es.any Expr.isDependent)
        | none, some (declaring, id) =>
            if declaring = name then return .call name id es true else throw (.unknownFunction name)
        | none, none => throw (.unknownFunction name) : Resolution Expr) m := by
  unfold callee
  rw [hb, hname]
  rfl

theorem callee_name {es : List Expr} {e : Expr} (hb : Builtin.ofName? name = none)
    (h : callee scope name es m = .ok e n) : checkIdentifier name = .ok () := by
  unfold callee at h
  rw [hb] at h
  rcases of_bind_ok h with ⟨_, k, hk, -⟩
  exact (of_ofExcept_ok hk).1

/-- A call is resolved by names alone, and its bindings are those of its arguments. -/
theorem callee_level (h : l.Level m) {es : List Expr} {e : Expr}
    (he : callee scope name es l = .ok e l') :
    l' = l ∧ callee scope name es m = .ok e m ∧ e.bindings = Expr.bindingsOfAll es := by
  cases hb : Builtin.ofName? name with
  | some b =>
      unfold callee at he ⊢
      rw [hb] at he ⊢
      dsimp only at he ⊢
      cases hcall : builtinCall b es with
      | some e' =>
          rw [hcall] at he
          cases he
          exact ⟨rfl, rfl, bindings_builtinCall hcall⟩
      | none =>
          rw [hcall] at he
          cases he
  | none =>
      have hname := callee_name hb he
      -- The two memories have one registry, and a name is looked up in nothing else.
      have hlookup : m.lookup? name = l.lookup? name := by
        rw [Memory.lookup?, h.registry, Memory.lookup?]
      rw [callee_of_name hb hname] at he ⊢
      rw [hlookup]
      cases hid : l.lookup? name with
      | some id =>
          rw [hid] at he
          cases he
          exact ⟨rfl, rfl, rfl⟩
      | none =>
          cases hd : scope.declaring with
          | none =>
              rw [hid, hd] at he
              cases he
          | some p =>
              rw [hid, hd] at he
              dsimp only at he ⊢
              split at he
              · next hself =>
                  cases he
                  rw [if_pos hself]
                  exact ⟨rfl, rfl, rfl⟩
              · cases he

end Names

/-! ## Bindings -/

/-- The binding of a `let` when the kind of its initializer is known. -/
theorem declareWith_eq {fill : Declaration Expr → Resolution Unit} {declared : Option Kind}
    {name : String} {e : Expr} {inferred kind : Kind} (hm : m.Settled)
    (hinferred : Typing.kindGiven m m.answer e = .ok inferred)
    (hkind : settleKind name declared inferred = .ok kind) :
    declareWith fill declared name e m =
      (fill ⟨name, m.slots.size, kind, e, e.isDependent⟩ >>= fun _ =>
        pure ⟨name, m.slots.size, kind, e, e.isDependent⟩)
        (m.allocate { name, kind, dependent := e.isDependent }) := by
  have hkindOf : static (Typing.kindOf e) m = .ok inferred m := by
    apply mapError_ok
    rw [Typing.kindOf_eq hm, hinferred]
    rfl
  have hsettle : static (Effect.ofExcept (settleKind name declared inferred)) m = .ok kind m := by
    rw [hkind]
    rfl
  rw [declareWith, bind_ok hkindOf, bind_ok hsettle]
  rfl

/-- What a declaration that succeeded has done. -/
theorem declareWith_ok {fill : Declaration Expr → Resolution Unit} {declared : Option Kind}
    {name : String} {e : Expr} {d : Declaration Expr} {m' : Memory} (hm : m.Settled)
    (h : declareWith fill declared name e m = .ok d m') :
    ∃ inferred kind, Typing.kindGiven m m.answer e = .ok inferred ∧
      settleKind name declared inferred = .ok kind ∧
        d = ⟨name, m.slots.size, kind, e, e.isDependent⟩ ∧
          fill d (m.allocate { name, kind, dependent := e.isDependent }) = .ok () m' := by
  have hdeclare := h
  rw [declareWith] at hdeclare
  rcases of_bind_ok hdeclare with ⟨inferred, m₁, hkindOf, hrest⟩
  rcases of_bind_ok hrest with ⟨kind, m₂, hsettle, -⟩
  have hofExcept := of_mapError_ok hkindOf
  rw [Typing.kindOf_eq hm] at hofExcept
  rcases of_ofExcept_ok hofExcept with ⟨hinferred, rfl⟩
  have hkind := (of_ofExcept_ok (of_mapError_ok hsettle)).1
  rw [declareWith_eq hm hinferred hkind] at h
  rcases of_bind_ok h with ⟨_, m₃, hfill, hend⟩
  cases hend
  exact ⟨inferred, kind, hinferred, hkind, rfl, hfill⟩

/-- The binding of a `let` is added alike, and its slot is filled alike on the way and later. -/
theorem declareWith_replays {declared : Option Kind} {name : String} {e : Expr}
    {d : Declaration Expr} {l' : Memory} (hn : Activation.Callable n lo) (hl : l.Working owner o lo)
    (he : l.Resolved owner o Γ e) (hd : declareWith postpone declared name e l = .ok d l')
    (hl' : l'.Grown lo n) (h : Stage owner o n Γ m l k) :
    Replays owner o n (insert d.slot Γ) d l' (declareWith fill declared name e m)
      (fillAll [d] k) := by
  rcases declareWith_ok hl.settled hd with ⟨inferred, kind, hinferred, hkind, rfl, hpostpone⟩
  have hsettled : m.Settled := by
    intro f
    rw [h.level.function]
    exact hl.settled f
  -- The initializer has the same kind on the way, so both ways add the same slot.
  have hinferred' := (h.grown.kindGiven he.slots).trans hinferred
  let s : Slot := { name, kind, dependent := e.isDependent }
  have hlater := postpone_ok hpostpone
  have hlt : l.slots.size < (l.allocate s).slots.size := by
    rw [Memory.size_allocate]
    exact Nat.lt_succ_self _
  have hle : (l.allocate s).slots.size ≤ n.slots.size := hlater.size ▸ hl'.size
  -- Where slots are filled later, the slot is there from the start.
  have hshape : (n.slot l.slots.size).shape = s.shape := by
    calc
      (n.slot l.slots.size).shape = (l'.slot l.slots.size).shape := hl'.shape _ (hlater.size ▸ hlt)
      _ = ((l.allocate s).slot l.slots.size).shape := hlater.shape _
      _ = s.shape := by rw [Memory.slot_allocate_self]
  have hstage : Stage owner o n Γ (m.allocate s) (l.allocate s) k := h.allocate hl rfl hshape
  have hcallable : Activation.Callable n (l.allocate s).slots.size :=
    hn.mono (Nat.le_trans hl.low (Nat.le_of_lt hlt))
  have hsize : m.slots.size = l.slots.size := h.level.size
  rw [declareWith_eq hsettled hinferred' hkind, hsize]
  have hfill := fill_replays (d := ⟨name, l.slots.size, kind, e, e.isDependent⟩) hcallable
    hle hstage hlt ((hl.owned _).2 hl.low) he.here he.slots he.inScope
  exact (hfill.map fun _ => _).imp fun _ _ h => h.postponed hlater

/-! ## Phrases -/

def Replayed (owner : SlotId → FunctionId) (o : FunctionId) (lo : Nat) (n : Memory) (p : Phrase) :
    Prop :=
  ∀ {scope : Scope} {m l l' k : Memory} {e : Expr}, l.Working owner o lo → scope.Within lo l →
    resolveWith postpone scope p l = .ok e l' → l'.Grown lo n →
      Stage owner o n scope.slots m l k →
        Replays owner o n scope.slots e l' (resolveWith fill scope p m) (fillAll e.bindings k)

variable {scope : Scope} {l' : Memory}

/-- Phrases are read from left to right, and so are their bindings. -/
theorem resolveAllWith_replays {ps : List Phrase} {es : List Expr} (hl : l.Working owner o lo)
    (hs : scope.Within lo l) (hps : ∀ p ∈ ps, Resolves postpone owner o lo p)
    (hreplayed : ∀ p ∈ ps, Replayed owner o lo n p)
    (hes : resolveAllWith postpone scope ps l = .ok es l') (hl' : l'.Grown lo n)
    (h : Stage owner o n scope.slots m l k) :
    Replays owner o n scope.slots es l' (resolveAllWith fill scope ps m)
      (fillAll (Expr.bindingsOfAll es) k) := by
  induction ps generalizing l m k es with
  | nil =>
      cases hes
      exact .ok h
  | cons p ps ih =>
      rw [List.forall_mem_cons] at hps hreplayed
      simp only [resolveAllWith] at hes ⊢
      rcases of_bind_ok hes with ⟨e, l₁, he, hrest⟩
      rcases of_bind_ok hrest with ⟨es', l₂, hes', hend⟩
      cases hend
      have hsteps := (hps.1 hl hs).of_ok rfl he
      have hsteps' := (resolveAllWith_steps hsteps.2.1 (hs.grown hsteps.1) hps.2).of_ok rfl hes'
      refine Replays.bind (hreplayed.1 hl hs he (hsteps'.1.trans hl') h) fun m₁ k₁ h₁ => ?_
      exact (ih hsteps.2.1 (hs.grown hsteps.1) hps.2 hreplayed.2 hes' h₁).map (e :: ·)

/-- The bindings of an initializer come before its own, which is in force for the clauses after
it. -/
theorem resolveClausesWith_replays (hn : Activation.Callable n lo) {clauses : List (Clause Phrase)}
    {ds : List (Declaration Expr)} {inner : Scope} (hl : l.Working owner o lo)
    (hs : scope.Within lo l) (hmalformed : ∀ r, .malformed r ∈ clauses → r.Syntactic)
    (hclauses : ∀ declared name i, .binding declared name i ∈ clauses →
      Resolves postpone owner o lo i ∧ Replayed owner o lo n i)
    (hds : resolveClausesWith postpone scope clauses l = .ok (ds, inner) l') (hl' : l'.Grown lo n)
    (h : Stage owner o n scope.slots m l k) :
    Replays owner o n inner.slots (ds, inner) l' (resolveClausesWith fill scope clauses m)
      (fillAll (Expr.bindingsOfDeclarations ds) k) := by
  induction clauses generalizing scope l m k ds inner with
  | nil =>
      cases hds
      exact .ok h
  | cons c cs ih =>
      rcases c with ⟨declared, name, i⟩ | r
      · simp only [resolveClausesWith] at hds ⊢
        rcases of_bind_ok hds with ⟨e, l₁, he, hrest⟩
        rcases of_bind_ok hrest with ⟨d, l₂, hd, hrest⟩
        rcases of_bind_ok hrest with ⟨⟨ds', inner'⟩, l₃, hds', hend⟩
        cases hend
        rcases hclauses declared name i List.mem_cons_self with ⟨hi, hreplayed⟩
        have hmalformed' := fun r hr => hmalformed r (List.mem_cons_of_mem _ hr)
        have hclauses' := fun declared name i hi =>
          hclauses declared name i (List.mem_cons_of_mem _ hi)
        -- Without evaluation all steps succeed, and each of them only adds slots.
        rcases (hi hl hs).of_ok rfl he with ⟨hg₁, hw₁, he₁⟩
        rcases (declareWith_steps postpone_steps hw₁ he₁).of_ok rfl hd with
          ⟨hg₂, hw₂, rfl, hslot, hlt, -⟩
        have hs₂ : (scope.bind name d.slot).Within lo l₂ :=
          ((hs.grown hg₁).grown hg₂).bind (hslot ▸ hw₁.low) hlt
        have hsteps := resolveClausesWith_steps postpone_steps hw₂ hs₂ hmalformed'
          fun declared name i hi => (hclauses' declared name i hi).1
        have hg₃ := (hsteps.of_ok rfl hds').1
        rcases d with ⟨_, slot, kind, e, dependent⟩
        refine Replays.bind (hreplayed hl hs he (hg₂.trans (hg₃.trans hl')) h) fun m₁ k₁ h₁ => ?_
        have hdeclare := declareWith_replays hn hw₁ he₁ hd (hg₃.trans hl') h₁
        refine hdeclare.bind fun m₂ k₂ h₂ => ?_
        have hinner : Stage owner o n (scope.bind name slot).slots m₂ l₂ k₂ := by
          rw [Scope.slots_bind]
          exact h₂
        exact (ih hw₂ hs₂ hmalformed' hclauses' hds' hinner).map fun r => (_ :: r.1, r.2)
      · cases hds

/-- Reading a phrase on the way fails exactly where filling the slots of its bindings later fails,
and with the same fault. -/
theorem resolveWith_replays (hn : Activation.Callable n lo) {p : Phrase}
    (hp : p.RejectsOnly Rejection.Syntactic) : Replayed owner o lo n p := by
  intro scope m l l' k e hl hs he hl' h
  -- By induction on the phrase. Reading without evaluation succeeds, hence in each part; what its
  -- steps say of the storage in between lets the parts be put together.
  induction hp generalizing scope m l l' k e with
  | malformed hr => cases he
  | literal v =>
      cases he
      exact .ok h
  | name word =>
      simp only [resolveWith] at he ⊢
      rcases of_bind_ok he with ⟨r, l₁, hr, hend⟩
      rcases reference_level h.level hr with ⟨rfl, hr'⟩
      cases hend
      rw [bind_ok hr']
      exact .ok h
  | prefixed _ ih =>
      simp only [resolveWith] at he ⊢
      rcases of_bind_ok he with ⟨v, l₁, hv, hend⟩
      cases hend
      exact (ih hl hs hv hl' h).map _
  | infixed hpl hpr ihl ihr =>
      simp only [resolveWith] at he ⊢
      rcases of_bind_ok he with ⟨a, l₁, ha, hrest⟩
      rcases of_bind_ok hrest with ⟨b, l₂, hb, hend⟩
      cases hend
      rcases (resolveWith_steps postpone_steps hpl hl hs).of_ok rfl ha with ⟨hg₁, hw₁, -⟩
      rcases (resolveWith_steps postpone_steps hpr hw₁ (hs.grown hg₁)).of_ok rfl hb with ⟨hg₂, -, -⟩
      refine Replays.bind (ihl hl hs ha (hg₂.trans hl') h) fun m₁ k₁ h₁ => ?_
      exact (ihr hw₁ (hs.grown hg₁) hb hl' h₁).map _
  | assignment _ _ ih =>
      simp only [resolveWith] at he ⊢
      rcases of_bind_ok he with ⟨rs, l₁, hrs, hrest⟩
      rcases targets_level h.level hrs with ⟨rfl, hrs'⟩
      rcases of_bind_ok hrest with ⟨v, l₂, hv, hend⟩
      cases hend
      rw [bind_ok hrs']
      exact (ih hl hs hv hl' h).map _
  | call hps ih =>
      simp only [resolveWith] at he ⊢
      rcases of_bind_ok he with ⟨es, l₁, hes, hcallee⟩
      rcases callee_level (.refl l₁) hcallee with ⟨rfl, -, hbindings⟩
      have hresolves : ∀ p ∈ _, Resolves postpone owner o lo p := fun p hp =>
        resolveWith_steps postpone_steps (hps p hp)
      rw [hbindings]
      refine Replays.last (resolveAllWith_replays hl hs hresolves ih hes hl' h) fun m₁ hm₁ => ?_
      exact (callee_level hm₁ hcallee).2.1
  | conditional hpc hpt hpe ihc iht ihe =>
      simp only [resolveWith] at he ⊢
      rcases of_bind_ok he with ⟨c, l₁, hc, hrest⟩
      rcases of_bind_ok hrest with ⟨t, l₂, ht, hrest⟩
      rcases of_bind_ok hrest with ⟨f, l₃, hf, hend⟩
      cases hend
      rcases (resolveWith_steps postpone_steps hpc hl hs).of_ok rfl hc with ⟨hg₁, hw₁, -⟩
      have hs₁ := hs.grown hg₁
      rcases (resolveWith_steps postpone_steps hpt hw₁ hs₁).of_ok rfl ht with ⟨hg₂, hw₂, -⟩
      have hs₂ := hs₁.grown hg₂
      rcases (resolveWith_steps postpone_steps hpe hw₂ hs₂).of_ok rfl hf with ⟨hg₃, -, -⟩
      refine Replays.bind (ihc hl hs hc (hg₂.trans (hg₃.trans hl')) h) fun m₁ k₁ h₁ => ?_
      refine Replays.bind (iht hw₁ hs₁ ht (hg₃.trans hl') h₁) fun m₂ k₂ h₂ => ?_
      exact (ihe hw₂ hs₂ hf hl' h₂).map _
  | letIn hmalformed hpi hpb ihi ihb =>
      simp only [resolveWith] at he ⊢
      rcases of_bind_ok he with ⟨⟨ds, inner⟩, l₁, hds, hrest⟩
      rcases of_bind_ok hrest with ⟨b, l₂, hb, hend⟩
      cases hend
      have hi : ∀ declared name i, Clause.binding declared name i ∈ _ →
          Resolves postpone owner o lo i :=
        fun declared name i hi => resolveWith_steps postpone_steps (hpi declared name i hi)
      rcases (resolveClausesWith_steps postpone_steps hl hs hmalformed hi).of_ok rfl hds with
        ⟨hg₁, hw₁, -, hs₁, hslots⟩
      have hg₂ := ((resolveWith_steps postpone_steps hpb hw₁ hs₁).of_ok rfl hb).1
      have hclauses := resolveClausesWith_replays hn hl hs hmalformed
        (fun declared name i hm => ⟨hi declared name i hm, ihi declared name i hm⟩) hds
        (hg₂.trans hl') h
      refine Replays.bind hclauses fun m₁ k₁ h₁ => ?_
      -- The bindings go out of force again.
      refine ((ihb hw₁ hs₁ hb hl' h₁).map _).imp fun m₂ k₂ h₂ => h₂.mono ?_
      rw [hslots]
      exact Set.subset_union_left

end Resolution
end LineLang
