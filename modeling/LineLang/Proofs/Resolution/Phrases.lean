import LineLang.Proofs.Phrase
import LineLang.Proofs.Resolution.Growth

/-!
# Expressions of phrases

What resolving a phrase gives, and what it does to the storage, by recursion on the phrase.

- `Scope.slots`, `Scope.Within`   : the slots of the variables in force
- `Resolution.Fills`                : filling the slot of a binding is a step
- `Resolution.declareWith_steps`    : the binding of a `let`
- `Resolution.resolveWith_steps`    : all names of a phrase are resolved
-/

namespace LineLang

open Effect

namespace Memory.Resolved

variable {owner : SlotId → FunctionId} {o : FunctionId} {Γ : Set SlotId} {m : Memory} {e : Expr}

/-! ## Building expressions -/

theorem literal (v : Value) : m.Resolved owner o Γ (.literal v) :=
  ⟨Expr.every_literal.2 ⟨nofun, nofun, nofun, nofun, trivial⟩, trivial⟩

theorem read {r : Reference} (ho : owner r.slot = o) (hr : r.slot < m.slots.size) (hΓ : r.slot ∈ Γ)
    (hmark : r.dependent = (m.slot r.slot).dependent) : m.Resolved owner o Γ (.variable r) := by
  refine ⟨Expr.every_variable.2 ⟨fun t ht => ?_, nofun, nofun, nofun, hmark⟩, hΓ⟩
  cases List.mem_singleton.1 ht
  exact ⟨ho, hr⟩

theorem unary {op : UnaryOperator} (he : m.Resolved owner o Γ e) :
    m.Resolved owner o Γ (.unary op e) :=
  ⟨Expr.every_unary.2 ⟨⟨nofun, nofun, nofun, nofun, trivial⟩, he.every⟩, he.inScope⟩

theorem binary {op : BinaryOperator} {l r : Expr} (hl : m.Resolved owner o Γ l)
    (hr : m.Resolved owner o Γ r) : m.Resolved owner o Γ (.binary op l r) :=
  ⟨Expr.every_binary.2 ⟨⟨nofun, nofun, nofun, nofun, trivial⟩, hl.every, hr.every⟩,
    hl.inScope, hr.inScope⟩

theorem assign {ts : List Reference} (ho : ∀ t ∈ ts, owner t.slot = o ∧ t.slot < m.slots.size)
    (hΓ : ∀ t ∈ ts, t.slot ∈ Γ) (hmarks : ∀ t ∈ ts, t.dependent = (m.slot t.slot).dependent)
    (he : m.Resolved owner o Γ e) : m.Resolved owner o Γ (.assign ts e) := by
  refine ⟨Expr.every_assign.2 ⟨⟨fun t ht => ?_, nofun, nofun, nofun, hmarks⟩, he.every⟩,
    hΓ, he.inScope⟩
  rcases List.mem_map.1 ht with ⟨r, hr, rfl⟩
  exact ho r hr

/-- A call is resolved if its arguments are and its mark has a reason. -/
theorem call {name : String} {f : FunctionId} {es : List Expr} {dependent : Bool}
    (hf : f < m.functions.size) (hes : ∀ e ∈ es, m.Resolved owner o Γ e)
    (hmark : dependent = true ↔ (m.function f).body = none ∨ ∃ e ∈ es, e.isDependent = true) :
    m.Resolved owner o Γ (.call name f es dependent) := by
  refine ⟨Expr.every_call.2 ⟨⟨nofun, nofun, fun g hg => ?_, nofun, hmark⟩, ?_⟩, ?_⟩
  · cases List.mem_singleton.1 hg
    exact hf
  · exact fun e he => (hes e he).every
  · exact Expr.scopedAll_iff.2 fun e he => (hes e he).inScope

theorem print (he : m.Resolved owner o Γ e) : m.Resolved owner o Γ (.print e) :=
  ⟨Expr.every_print.2 ⟨⟨nofun, nofun, nofun, nofun, trivial⟩, he.every⟩, he.inScope⟩

theorem conditional {c t e : Expr} (hc : m.Resolved owner o Γ c) (ht : m.Resolved owner o Γ t)
    (he : m.Resolved owner o Γ e) : m.Resolved owner o Γ (.conditional c t e) :=
  ⟨Expr.every_conditional.2 ⟨⟨nofun, nofun, nofun, nofun, trivial⟩, hc.every, ht.every, he.every⟩,
    hc.inScope, ht.inScope, he.inScope⟩

end Memory.Resolved

/-- Bindings are resolved if a `let` of nothing but them is. -/
abbrev Memory.ResolvedBindings (owner : SlotId → FunctionId) (o : FunctionId) (Γ : Set SlotId)
    (m : Memory) (ds : List (Declaration Expr)) : Prop :=
  m.Resolved owner o Γ (.letIn ds (.literal .void))

namespace Memory.ResolvedBindings

variable {owner : SlotId → FunctionId} {o : FunctionId} {Γ : Set SlotId} {m : Memory}

theorem nil : m.ResolvedBindings owner o Γ [] := by
  refine ⟨Expr.every_letIn.2 ⟨⟨nofun, nofun, nofun, nofun, nofun⟩, nofun, ?_⟩, trivial, trivial⟩
  exact (Resolved.literal .void : m.Resolved owner o Γ _).every

/-- One more binding in front. Its variable is in force for the others. -/
theorem cons {d : Declaration Expr} {ds : List (Declaration Expr)} (ho : owner d.slot = o)
    (hd : d.slot < m.slots.size) (hlt : d.initializer.SlotsIn (· < d.slot)) (hfits : m.Fits d)
    (hmark : d.dependent = d.initializer.isDependent ∧ (m.slot d.slot).dependent = d.dependent)
    (hi : m.Resolved owner o Γ d.initializer)
    (hds : m.ResolvedBindings owner o (insert d.slot Γ) ds) :
    m.ResolvedBindings owner o Γ (d :: ds) := by
  rcases Expr.every_letIn.1 hds.every with ⟨hown, hinits, hvoid⟩
  refine ⟨Expr.every_letIn.2 ⟨⟨?_, ?_, nofun, nofun, ?_⟩, ?_, hvoid⟩, ?_, trivial⟩
  · exact List.forall_mem_cons.2 ⟨⟨ho, hd⟩, hown.slots⟩
  · exact List.forall_mem_cons.2 ⟨⟨hlt, hfits⟩, hown.bindings⟩
  · exact List.forall_mem_cons.2 ⟨hmark, hown.marked⟩
  · exact List.forall_mem_cons.2 ⟨hi.every, hinits⟩
  · exact ⟨hi.inScope, hds.inScope.1⟩

theorem letIn {ds : List (Declaration Expr)} {b : Expr} (hds : m.ResolvedBindings owner o Γ ds)
    (hb : m.Resolved owner o (Γ ∪ {t | ∃ d ∈ ds, d.slot = t}) b) :
    m.Resolved owner o Γ (.letIn ds b) := by
  rcases Expr.every_letIn.1 hds.every with ⟨hown, hinits, -⟩
  refine ⟨Expr.every_letIn.2 ⟨?_, hinits, hb.every⟩, hds.inScope.1, hb.inScope⟩
  exact ⟨hown.slots, hown.bindings, nofun, nofun, hown.marked⟩

end Memory.ResolvedBindings

/-! ## Scopes -/

namespace Scope

def slots (s : Scope) : Set SlotId :=
  {t | ∃ name, (name, t) ∈ s.bindings}

/-- The variables in force belong to the instruction, and the function being declared is there,
without a body. -/
structure Within (lo : Nat) (m : Memory) (s : Scope) : Prop where
  bindings : ∀ t ∈ s.slots, lo ≤ t ∧ t < m.slots.size
  declaring : ∀ name id, s.declaring = some (name, id) →
    id < m.functions.size ∧ (m.function id).body = none

theorem slots_bind {s : Scope} {name : String} {t : SlotId} :
    (s.bind name t).slots = insert t s.slots := by
  ext u
  simp [slots, bind, exists_or]

namespace Within

variable {lo : Nat} {m n : Memory} {s : Scope}

theorem grown (h : s.Within lo m) (hn : m.Grown lo n) : s.Within lo n where
  bindings t ht := (h.bindings t ht).imp id fun hlt => Nat.lt_of_lt_of_le hlt hn.size
  declaring name id hd := by
    rw [hn.functions, hn.function]
    exact h.declaring name id hd

theorem owned {owner : SlotId → FunctionId} {o : FunctionId} {t : SlotId} (h : s.Within lo m)
    (hm : m.Working owner o lo) (ht : t ∈ s.slots) : owner t = o ∧ t < m.slots.size :=
  ⟨(hm.owned t).2 (h.bindings t ht).1, (h.bindings t ht).2⟩

/-- The variable in force belongs to the instruction. -/
theorem bind (h : s.Within lo m) {name : String} {t : SlotId} (hlo : lo ≤ t)
    (ht : t < m.slots.size) : (s.bind name t).Within lo m where
  bindings u hu := by
    rw [slots_bind] at hu
    rcases hu with rfl | hu
    · exact ⟨hlo, ht⟩
    · exact h.bindings u hu
  declaring := h.declaring

end Within
end Scope

namespace Resolution

variable {owner : SlotId → FunctionId} {o : FunctionId} {lo : Nat} {m : Memory} {scope : Scope}

/-! ## Names -/

/-- Looking up a name changes nothing. -/
theorem reference_steps (hm : m.Working owner o lo) (name : String) :
    Steps owner o lo m (reference scope name) fun r n => n = m ∧ r.slot ∈ scope.slots ∧
      r.dependent = (m.slot r.slot).dependent := by
  unfold reference
  cases h : scope.bindings.lookup name with
  | none => exact Steps.throw nofun
  | some t =>
      refine Steps.get_bind (Steps.pure hm ?_)
      rcases List.lookup_eq_some_iff.1 h with ⟨l₁, l₂, hl, -⟩
      exact ⟨rfl, ⟨name, by simp [hl]⟩, rfl⟩

/-- Neither does looking up targets. -/
theorem targets_steps (hm : m.Working owner o lo) {names : List Target}
    (hnames : ∀ r, .malformed r ∈ names → r.Syntactic) :
    Steps owner o lo m (targets scope names) fun rs n => n = m ∧
      ∀ r ∈ rs, r.slot ∈ scope.slots ∧ r.dependent = (m.slot r.slot).dependent := by
  induction names with
  | nil => exact Steps.pure hm ⟨rfl, nofun⟩
  | cons t ts ih =>
      rcases t with name | r
      · simp only [targets]
        refine Steps.bind (reference_steps hm name) ?_
        rintro r _ - - ⟨rfl, hr⟩
        refine Steps.bind (ih fun r hr => hnames r (List.mem_cons_of_mem _ hr)) ?_
        rintro rs _ - - ⟨rfl, hrs⟩
        exact Steps.pure hm ⟨rfl, List.forall_mem_cons.2 ⟨hr, hrs⟩⟩
      · exact Steps.throw (hnames r List.mem_cons_self _)

/-- A call of a function of the language is an operator on its arguments. -/
theorem resolved_builtinCall {b : Builtin} {es : List Expr} {e : Expr} {Γ : Set SlotId}
    (hes : ∀ e ∈ es, m.Resolved owner o Γ e) (h : builtinCall b es = some e) :
    m.Resolved owner o Γ e := by
  unfold builtinCall at h
  split at h <;> cases h
  · exact (hes _ List.mem_cons_self).unary
  · exact (hes _ List.mem_cons_self).binary (hes _ (List.mem_cons_of_mem _ List.mem_cons_self))
  · exact (hes _ List.mem_cons_self).print

/-- Looking up a function changes nothing, and the call is marked as it should be. -/
theorem callee_steps (hm : m.Working owner o lo) (hscope : scope.Within lo m) {name : String}
    {es : List Expr} {Γ : Set SlotId} (hes : ∀ e ∈ es, m.Resolved owner o Γ e) :
    Steps owner o lo m (callee scope name es) fun e n => n.Resolved owner o Γ e := by
  unfold callee
  cases Builtin.ofName? name with
  | some b =>
      dsimp only
      cases hb : builtinCall b es with
      | some e => exact Steps.pure hm (resolved_builtinCall hes hb)
      | none => exact Steps.throw nofun
  | none =>
      dsimp only
      refine Steps.bind (Q := fun _ n => n = m) (Steps.ofExcept hm (fun _ _ => rfl) ?_) ?_
      · intro r hr
        unfold checkIdentifier at hr
        split at hr <;> cases hr
        exact nofun
      · rintro _ n - - rfl
        refine Steps.get_bind ?_
        -- The registry is asked first, so a registered function hides the one being declared.
        cases hl : n.lookup? name with
        | some id =>
            rcases List.lookup_eq_some_iff.1 hl with ⟨l₁, l₂, hreg, -⟩
            rcases hm.registered (name, id) (by simp [hreg]) with ⟨hid, hbody⟩
            refine Steps.pure hm (.call hid hes ?_)
            simp [hbody]
        | none =>
            cases hd : scope.declaring with
            | none => exact Steps.throw nofun
            | some p =>
                rcases p with ⟨declaring, id⟩
                dsimp only
                split
                · rcases hscope.declaring declaring id hd with ⟨hid, hbody⟩
                  exact Steps.pure hm (.call hid hes ⟨fun _ => .inl hbody, fun _ => rfl⟩)
                · exact Steps.throw nofun

/-! ## Bindings -/

/-- Where all kinds are remembered, computing one changes nothing. -/
theorem static_settled {x : Typing Kind} {r : Except Fault Kind} (hm : m.Working owner o lo)
    (hx : Yields (· = m) (· = m) x r) (hr : r ≠ .error .endless) :
    Steps owner o lo m (static x) fun k n => n = m ∧ r = .ok k := by
  apply Triple.mapError
  refine hx.weaken (fun _ h => h) ?_ ?_
  · rintro k _ ⟨hk, rfl⟩
    exact ⟨.refl _, hm, rfl, hk⟩
  · rintro fault _ ⟨hf, rfl⟩
    refine ⟨fun h => hr ?_, .refl _⟩
    cases h
    exact hf

/-- Asking for the value of an expression only fills slots of the instruction. -/
theorem probe_steps {Γ : Set SlotId} {e : Expr} (hm : m.Working owner o lo)
    (he : m.Resolved owner o Γ e) :
    Steps owner o lo m (static (Evaluation.probe e)) fun _ _ => True := by
  have hlo : ∀ t, owner t = o → lo ≤ t := fun t => (hm.owned t).1
  have heval := Evaluation.evaluate_confined .probe he.here he.slots
    { memory := m } ⟨rfl, hm.coherent⟩
  have hflags := Evaluation.evaluate_flagged .probe he.here he.slots he.flags
    { memory := m } ⟨rfl, hm.coherent, hm.flagged⟩
  apply Triple.mapError
  rintro _ rfl
  unfold Evaluation.probe
  cases hr : Evaluation.evaluate .probe e { memory := _ } with
  | ok v s =>
      rw [hr] at heval hflags
      have hgrown := Memory.Grown.of_unchangedOutside heval.2 hlo
      exact ⟨hgrown, hm.of_grown hgrown heval.1 hflags, trivial⟩
  | error fault s =>
      rw [hr] at heval
      refine ⟨fun h => heval.1 ?_, .of_unchangedOutside heval.2.2 hlo⟩
      cases h
      rfl

/-- A slot of the instruction is filled. -/
theorem replace_steps {i : SlotId} {c : Content} (hm : m.Working owner o lo) (hi : lo ≤ i)
    (hc : ∀ e, c = .dependent e → e.Local owner o ∧ e.SlotsIn (· < i))
    (hflags : ∀ e, c = .dependent e → (m.slot i).dependent = true ∧ e.Binds m.Flags) :
    m.Grown lo (m.replace i c) ∧ (m.replace i c).Working owner o lo := by
  have hown : owner i = o := (hm.owned i).2 hi
  have hgrown : m.Grown lo (m.replace i c) :=
    .of_unchangedOutside (.replace (S := (lo ≤ ·)) hi c) fun _ h => h
  refine ⟨hgrown, hm.of_grown hgrown (hm.coherent.replace fun e he => ?_)
    (hm.flagged.replace hflags)⟩
  rw [hown]
  exact hc e he

theorem settleKind_ne_endless {name : String} {declared : Option Kind} {inferred : Kind} :
    settleKind name declared inferred ≠ .error .endless := by
  unfold settleKind
  split
  · exact nofun
  · split <;> exact nofun

/-- A value is stored in a slot of the instruction or refused. -/
theorem write_steps {i : SlotId} {v : Value} (hm : m.Working owner o lo) (hi : lo ≤ i) :
    Steps owner o lo m (static (Effect.update (·.write i v))) fun _ _ => True := by
  apply Triple.mapError
  apply Triple.update
  · rintro _ n rfl h
    rcases Memory.write_ok h with ⟨rfl, -⟩
    rcases replace_steps (c := .value v) hm hi nofun nofun with ⟨hg, hw⟩
    exact ⟨hg, hw, trivial⟩
  · rintro _ fault rfl h
    rw [Memory.write_error h]
    exact ⟨nofun, .refl _⟩

def Fills (owner : SlotId → FunctionId) (o : FunctionId) (lo : Nat)
    (fill : Declaration Expr → Resolution Unit) : Prop :=
  ∀ {m : Memory} {Γ : Set SlotId} {d : Declaration Expr}, m.Working owner o lo → lo ≤ d.slot →
    m.Resolved owner o Γ d.initializer → d.initializer.SlotsIn (· < d.slot) → m.Flags d →
      Steps owner o lo m (fill d) fun _ _ => True

/-- Leaving a dependent initializer in the slot is a step. -/
theorem defer_steps {Γ : Set SlotId} {d : Declaration Expr} (hm : m.Working owner o lo)
    (hlo : lo ≤ d.slot) (he : m.Resolved owner o Γ d.initializer)
    (hlt : d.initializer.SlotsIn (· < d.slot)) (hflags : m.Flags d) (hd : d.dependent = true) :
    Steps owner o lo m (modify (·.replace d.slot (.dependent d.initializer))) fun _ _ => True := by
  have hlocal : ∀ i, Content.dependent d.initializer = .dependent i →
      i.Local owner o ∧ i.SlotsIn (· < d.slot) := by
    rintro _ ⟨⟩
    exact ⟨he.here, hlt⟩
  have hflagged : ∀ i, Content.dependent d.initializer = .dependent i →
      (m.slot d.slot).dependent = true ∧ i.Binds m.Flags := by
    rintro _ ⟨⟩
    exact ⟨hflags hd, he.flags⟩
  rcases replace_steps hm hlo hlocal hflagged with ⟨hg, hw⟩
  exact Steps.modify hg hw trivial

/-- An initializer is left in its slot or evaluated, which fills slots of the instruction only. -/
theorem fill_steps : Fills owner o lo fill := by
  intro m Γ d hm hlo he hlt hflags
  unfold fill
  by_cases hd : d.dependent = true
  · rw [if_pos hd]
    exact defer_steps hm hlo he hlt hflags hd
  · rw [if_neg hd]
    exact Steps.bind (probe_steps hm he) fun v n _ hw _ => write_steps hw hlo

variable {fill : Declaration Expr → Resolution Unit}

/-- A binding gets a new slot of a kind that fits its initializer. -/
theorem declareWith_steps (hfill : Fills owner o lo fill) {Γ : Set SlotId} {declared : Option Kind}
    {name : String} {e : Expr} (hm : m.Working owner o lo) (he : m.Resolved owner o Γ e) :
    Steps owner o lo m (declareWith fill declared name e) fun d n => d.initializer = e ∧
      d.slot = m.slots.size ∧ d.slot < n.slots.size ∧ n.Fits d ∧ d.dependent = e.isDependent ∧
        (n.slot d.slot).dependent = d.dependent := by
  unfold declareWith
  refine Steps.bind (static_settled hm (Typing.kindOf_settled hm.settled e)
    (Typing.kindGiven_answer_ne_endless e)) ?_
  rintro inferred _ - - ⟨rfl, hinferred⟩
  refine Steps.bind (static_settled hm (Yields.ofExcept fun _ h => h) settleKind_ne_endless) ?_
  rintro kind n - - ⟨rfl, hsettle⟩
  refine Steps.get_bind ?_
  let s : Slot := { name, kind, dependent := e.isDependent }
  have hg : n.Grown lo (n.allocate s) := .allocate hm.low s
  have hlt : n.slots.size < (n.allocate s).slots.size := by simp
  refine Steps.bind (Steps.modify (Q := fun _ k => k = n.allocate s) hg (hm.allocate rfl) rfl) ?_
  rintro _ _ - hw rfl
  have hflags : (n.allocate s).Flags ⟨name, n.slots.size, kind, e, e.isDependent⟩ := by
    intro hd
    rw [Memory.slot_allocate_self]
    exact hd
  refine Steps.bind (hfill hw hm.low (he.grown hg) he.slots hflags) fun _ k hk hwk _ => ?_
  -- However the new slot is filled, it keeps its kind and its mark.
  refine Steps.pure hwk
    ⟨rfl, rfl, Nat.lt_of_lt_of_le hlt hk.size, ⟨?_, declared, inferred, ?_, hsettle⟩, rfl, ?_⟩
  · rw [hk.kind hlt, Memory.slot_allocate_self]
  · rw [(hg.trans hk).kindGiven he.slots, hinferred]
  · rw [hk.dependent hlt, Memory.slot_allocate_self]

/-! ## Phrases -/

/-- Wherever the phrase stands, its names are resolved, and only slots are added. -/
def Resolves (fill : Declaration Expr → Resolution Unit) (owner : SlotId → FunctionId)
    (o : FunctionId) (lo : Nat) (p : Phrase) : Prop :=
  ∀ {m : Memory} {scope : Scope}, m.Working owner o lo → scope.Within lo m →
    Steps owner o lo m (resolveWith fill scope p) fun e n => n.Resolved owner o scope.slots e

/-- Phrases one after another. What was resolved stays resolved. -/
theorem resolveAllWith_steps {ps : List Phrase} (hm : m.Working owner o lo) (hs : scope.Within lo m)
    (hps : ∀ p ∈ ps, Resolves fill owner o lo p) :
    Steps owner o lo m (resolveAllWith fill scope ps) fun es n =>
      ∀ e ∈ es, n.Resolved owner o scope.slots e := by
  induction ps generalizing m with
  | nil => exact Steps.pure hm nofun
  | cons p ps ih =>
      rw [List.forall_mem_cons] at hps
      simp only [resolveAllWith]
      refine Steps.bind (hps.1 hm hs) fun e n hn hwn he => ?_
      refine Steps.bind (ih hwn (hs.grown hn) hps.2) fun es k hk hwk hes => ?_
      exact Steps.pure hwk (List.forall_mem_cons.2 ⟨he.grown hk, hes⟩)

/-- Each binding is in force after its own initializer. -/
theorem resolveClausesWith_steps (hfill : Fills owner o lo fill) {clauses : List (Clause Phrase)}
    (hm : m.Working owner o lo) (hs : scope.Within lo m)
    (hmalformed : ∀ r, .malformed r ∈ clauses → r.Syntactic)
    (hclauses : ∀ declared name i, .binding declared name i ∈ clauses →
      Resolves fill owner o lo i) :
    Steps owner o lo m (resolveClausesWith fill scope clauses) fun result n =>
      n.ResolvedBindings owner o scope.slots result.1 ∧ result.2.Within lo n ∧
        result.2.slots = scope.slots ∪ {t | ∃ d ∈ result.1, d.slot = t} := by
  induction clauses generalizing scope m with
  | nil =>
      refine Steps.pure hm ⟨.nil, hs, ?_⟩
      simp
  | cons c cs ih =>
      rcases c with ⟨declared, name, i⟩ | r
      · simp only [resolveClausesWith]
        refine Steps.bind (hclauses declared name i List.mem_cons_self hm hs)
          fun e n hn hwn he => ?_
        refine Steps.bind (declareWith_steps hfill hwn he) ?_
        rintro d k hk hwk ⟨rfl, hslot, hlt, hfits, hmark⟩
        have hlo : lo ≤ d.slot := hslot ▸ hwn.low
        have hs' : (scope.bind name d.slot).Within lo k := ((hs.grown hn).grown hk).bind hlo hlt
        refine Steps.bind (ih hwk hs' (fun r hr => hmalformed r (List.mem_cons_of_mem _ hr))
          fun declared name i hi => hclauses declared name i (List.mem_cons_of_mem _ hi)) ?_
        rintro ⟨ds, inner⟩ l hl hwl ⟨hds, hinner, hslots⟩
        rw [Scope.slots_bind] at hds hslots
        refine Steps.pure hwl
          ⟨.cons ((hwl.owned _).2 hlo) (Nat.lt_of_lt_of_le hlt hl.size) ?_ ?_ ?_ ?_ hds, hinner, ?_⟩
        · -- The new slot is the last one, so the initializer only uses slots before it.
          exact hslot ▸ he.slots
        · exact hfits.grown hl hlt (he.grown hk).slots
        · exact ⟨hmark.1, (hl.dependent hlt).trans hmark.2⟩
        · exact (he.grown hk).grown hl
        · rw [hslots]
          ext t
          simp [or_assoc, or_left_comm, eq_comm]
      · exact Steps.throw (hmalformed r List.mem_cons_self _)

/-- Reading a phrase lets the storage grow and resolves all its names. The induction is on the
phrase, for every scope and storage. -/
theorem resolveWith_steps (hfill : Fills owner o lo fill) {p : Phrase}
    (hp : p.RejectsOnly Rejection.Syntactic) : Resolves fill owner o lo p := by
  intro m scope hm hs
  induction hp generalizing scope m with
  | malformed hr => exact Steps.throw (hr _)
  | literal v => exact Steps.pure hm (.literal v)
  | name word =>
      simp only [resolveWith]
      refine Steps.bind (reference_steps hm word) ?_
      rintro r _ - - ⟨rfl, hr, hmark⟩
      rcases hs.owned hm hr with ⟨ho, hlt⟩
      exact Steps.pure hm (.read ho hlt hr hmark)
  | prefixed _ ih =>
      simp only [resolveWith]
      exact Steps.bind (ih hm hs) fun e n _ hw he => Steps.pure hw he.unary
  | infixed _ _ ihl ihr =>
      simp only [resolveWith]
      refine Steps.bind (ihl hm hs) fun l n hn hw hl => ?_
      refine Steps.bind (ihr hw (hs.grown hn)) fun r k hk hw hr => ?_
      exact Steps.pure hw ((hl.grown hk).binary hr)
  | assignment htargets _ ih =>
      simp only [resolveWith]
      refine Steps.bind (targets_steps hm htargets) ?_
      rintro rs _ - - ⟨rfl, hrs⟩
      refine Steps.bind (ih hm hs) fun e n hn hw he => Steps.pure hw ?_
      refine .assign (fun r hr => (hs.grown hn).owned hw (hrs r hr).1)
        (fun r hr => (hrs r hr).1) ?_ he
      intro r hr
      exact (hrs r hr).2.trans (hn.dependent (hs.bindings r.slot (hrs r hr).1).2).symm
  | call _ ih =>
      simp only [resolveWith]
      refine Steps.bind (resolveAllWith_steps hm hs ih) ?_
      exact fun es n hn hw hes => callee_steps hw (hs.grown hn) hes
  | conditional _ _ _ ihc iht ihe =>
      simp only [resolveWith]
      refine Steps.bind (ihc hm hs) fun c n hn hw hc => ?_
      refine Steps.bind (iht hw (hs.grown hn)) fun t k hk hw ht => ?_
      refine Steps.bind (ihe hw ((hs.grown hn).grown hk)) fun e l hl hw he => ?_
      exact Steps.pure hw (.conditional ((hc.grown hk).grown hl) (ht.grown hl) he)
  | letIn hmalformed _ _ ihi ihb =>
      simp only [resolveWith]
      refine Steps.bind (resolveClausesWith_steps hfill hm hs hmalformed ihi) ?_
      rintro ⟨ds, inner⟩ n hn hw ⟨hds, hinner, hslots⟩
      -- The body is read where all bindings are in force.
      refine Steps.bind (ihb hw hinner) fun b k hk hw hb => Steps.pure hw ?_
      exact Memory.ResolvedBindings.letIn (hds.grown hk) (hslots ▸ hb)

end Resolution
end LineLang
