import LineLang.Proofs.Resolution.Phrases
import LineLang.Proofs.Resolution.Replay

/-!
# Phrases and their expressions

The expression of a phrase is the phrase with its names replaced by handles. When a phrase has been
read, the two are related form by form: a variable is the innermost one of its name, a function is
found by its name, and the slots of bindings are new ones, in the order in which the initializers
end.

- `Resolution.reference_ok`, `Resolution.targets_ok`, `Resolution.callee_ok`  : names that were
  found
- `Scope.functions`               : the functions that can be called
- `Linked`                        : a phrase and its expression
- `Resolution.resolveWith_linked` : what is read is linked
-/

namespace LineLang

open Effect

namespace Resolution

variable {scope : Scope} {m n : Memory}

/-! ## Names -/

/-- A name that was found is the innermost variable of that name. -/
theorem reference_ok {name : String} {r : Reference} (h : reference scope name m = .ok r n) :
    n = m ∧ r.name = name ∧ scope.bindings.lookup name = some r.slot := by
  unfold reference at h
  cases hlookup : scope.bindings.lookup name with
  | none =>
      rw [hlookup] at h
      cases h
  | some t =>
      rw [hlookup] at h
      cases h
      exact ⟨rfl, rfl, rfl⟩

/-- Targets that were found are names in force. -/
theorem targets_ok {names : List Target} {rs : List Reference}
    (h : targets scope names m = .ok rs n) :
    n = m ∧ names = rs.map (fun r => .variable r.name) ∧
      ∀ r ∈ rs, scope.bindings.lookup r.name = some r.slot := by
  induction names generalizing rs with
  | nil =>
      cases h
      exact ⟨rfl, rfl, nofun⟩
  | cons t ts ih =>
      rcases t with name | rejection
      · rcases of_bind_ok h with ⟨r, k, hr, hrest⟩
        rcases reference_ok hr with ⟨rfl, rfl, hlookup⟩
        rcases of_bind_ok hrest with ⟨rs', l, hrs', hend⟩
        cases hend
        rcases ih hrs' with ⟨rfl, rfl, hall⟩
        exact ⟨rfl, rfl, List.forall_mem_cons.2 ⟨hlookup, hall⟩⟩
      · cases h

end Resolution

/-- The functions that can be called in a scope: the registered ones and then the one being
declared. -/
def Scope.functions (s : Scope) (m : Memory) : List (String × FunctionId) :=
  m.registry ++ s.declaring.toList

namespace Resolution

variable {scope : Scope} {m n : Memory}

/-- A call is one of a function of the language or of a function that is found by its name. -/
theorem callee_ok {name : String} {es : List Expr} {e : Expr}
    (h : callee scope name es m = .ok e n) :
    n = m ∧ ((∃ b, Builtin.ofName? name = some b ∧ builtinCall b es = some e) ∨
      ∃ id dependent, Builtin.ofName? name = none ∧ (scope.functions m).lookup name = some id ∧
        e = .call name id es dependent) := by
  cases hb : Builtin.ofName? name with
  | some b =>
      unfold callee at h
      rw [hb] at h
      dsimp only at h
      cases hcall : builtinCall b es with
      | none =>
          rw [hcall] at h
          cases h
      | some e' =>
          rw [hcall] at h
          cases h
          exact ⟨rfl, .inl ⟨b, rfl, hcall⟩⟩
  | none =>
      rw [callee_of_name hb (callee_name hb h)] at h
      have hlookup : (scope.functions m).lookup name =
          (m.lookup? name).or (scope.declaring.toList.lookup name) := List.lookup_append
      rw [hlookup]
      -- A registered function comes before the one being declared.
      cases hl : m.lookup? name with
      | some id =>
          rw [hl] at h
          cases h
          exact ⟨rfl, .inr ⟨id, _, rfl, rfl, rfl⟩⟩
      | none =>
          rw [hl] at h
          cases hd : scope.declaring with
          | none =>
              rw [hd] at h
              cases h
          | some p =>
              rcases p with ⟨declaring, id⟩
              rw [hd] at h
              dsimp only at h
              split at h
              · next heq =>
                  cases h
                  subst heq
                  refine ⟨rfl, .inr ⟨id, true, rfl, ?_, rfl⟩⟩
                  simp
              · cases h

end Resolution

/-! ## Expressions of phrases -/

mutual

/-- The phrase is the expression with names in place of handles, where the given functions can be
called and the given variables are in force, the innermost first. The slots bound in the expression
go from `lo` up to `hi`. -/
inductive Linked (functions : List (String × FunctionId)) :
    List (String × SlotId) → Nat → Phrase → Expr → Nat → Prop
  | literal {Γ lo v} : Linked functions Γ lo (.literal v) (.literal v) lo
  | name {Γ lo} {r : Reference} (hr : Γ.lookup r.name = some r.slot) :
      Linked functions Γ lo (.name r.name) (.variable r) lo
  | prefixed {Γ lo op p e hi} (h : Linked functions Γ lo p e hi) :
      Linked functions Γ lo (.prefixed op p) (.unary op e) hi
  | infixed {Γ lo op p e k q f hi} (hl : Linked functions Γ lo p e k)
      (hr : Linked functions Γ k q f hi) :
      Linked functions Γ lo (.infixed op p q) (.binary op e f) hi
  | assignment {Γ lo p e hi} {rs : List Reference} (hrs : ∀ r ∈ rs, Γ.lookup r.name = some r.slot)
      (h : Linked functions Γ lo p e hi) :
      Linked functions Γ lo (.assignment (rs.map fun r => .variable r.name) p) (.assign rs e) hi
  | builtin {Γ lo name b ps es e hi} (hname : Builtin.ofName? name = some b)
      (he : Resolution.builtinCall b es = some e) (h : LinkedAll functions Γ lo ps es hi) :
      Linked functions Γ lo (.call name ps) e hi
  | call {Γ lo name id dependent ps es hi} (hname : Builtin.ofName? name = none)
      (hid : functions.lookup name = some id) (h : LinkedAll functions Γ lo ps es hi) :
      Linked functions Γ lo (.call name ps) (.call name id es dependent) hi
  | conditional {Γ lo p c k q t l r e hi} (hc : Linked functions Γ lo p c k)
      (ht : Linked functions Γ k q t l) (he : Linked functions Γ l r e hi) :
      Linked functions Γ lo (.conditional p q r) (.conditional c t e) hi
  | letIn {Γ lo cs ds Δ k p e hi} (hds : LinkedClauses functions Γ lo cs ds Δ k)
      (h : Linked functions Δ k p e hi) : Linked functions Γ lo (.letIn cs p) (.letIn ds e) hi

inductive LinkedAll (functions : List (String × FunctionId)) :
    List (String × SlotId) → Nat → List Phrase → List Expr → Nat → Prop
  | nil {Γ lo} : LinkedAll functions Γ lo [] [] lo
  | cons {Γ lo p e k ps es hi} (h : Linked functions Γ lo p e k)
      (hes : LinkedAll functions Γ k ps es hi) : LinkedAll functions Γ lo (p :: ps) (e :: es) hi

/-- The bindings of a `let`, each in force after its own initializer, and what is in force after
them. -/
inductive LinkedClauses (functions : List (String × FunctionId)) :
    List (String × SlotId) → Nat → List (Clause Phrase) → List (Declaration Expr) →
      List (String × SlotId) → Nat → Prop
  | nil {Γ lo} : LinkedClauses functions Γ lo [] [] Γ lo
  | cons {Γ lo declared p k cs ds Δ hi} {d : Declaration Expr}
      (h : Linked functions Γ lo p d.initializer d.slot)
      (hslot : d.slot < k) (hkind : ∀ kind ∈ declared, d.kind = kind)
      (hds : LinkedClauses functions ((d.name, d.slot) :: Γ) k cs ds Δ hi) :
      LinkedClauses functions Γ lo (.binding declared d.name p :: cs) (d :: ds) Δ hi

end

def bound (ds : List (Declaration Expr)) : List (String × SlotId) :=
  (ds.map fun d => (d.name, d.slot)).reverse

theorem bound_cons {d : Declaration Expr} {ds : List (Declaration Expr)}
    {Γ : List (String × SlotId)} : bound (d :: ds) ++ Γ = bound ds ++ (d.name, d.slot) :: Γ := by
  simp [bound]

namespace LinkedClauses

variable {functions : List (String × FunctionId)} {Γ Δ : List (String × SlotId)} {lo hi : Nat}
variable {cs : List (Clause Phrase)} {ds : List (Declaration Expr)}

/-- After bindings their variables are in force, and then what was in force before. -/
theorem bindings (h : LinkedClauses functions Γ lo cs ds Δ hi) : Δ = bound ds ++ Γ := by
  induction ds generalizing Γ lo cs with
  | nil =>
      cases h
      rfl
  | cons d ds ih =>
      cases h with
      | cons _ _ _ hds => rw [bound_cons, ← ih hds]

end LinkedClauses

namespace Resolution

variable {owner : SlotId → FunctionId} {o : FunctionId} {lo : Nat} {m n : Memory}

/-! ## Reading -/

theorem functions_grown (h : m.Grown lo n) (scope : Scope) :
    scope.functions n = scope.functions m := by
  rw [Scope.functions, Scope.functions, h.registry]

def Links (owner : SlotId → FunctionId) (o : FunctionId) (lo : Nat) (p : Phrase) : Prop :=
  ∀ {m n : Memory} {scope : Scope} {e : Expr}, m.Working owner o lo → scope.Within lo m →
    resolveWith fill scope p m = .ok e n →
      Linked (scope.functions m) scope.bindings m.slots.size p e n.slots.size

/-- Phrases one after another, each with the slots after those of the ones before it. -/
theorem resolveAllWith_linked {scope : Scope} {ps : List Phrase} {es : List Expr}
    (hresolves : ∀ p ∈ ps, Resolves fill owner o lo p) (hlinks : ∀ p ∈ ps, Links owner o lo p)
    (hm : m.Working owner o lo) (hs : scope.Within lo m)
    (h : resolveAllWith fill scope ps m = .ok es n) :
    LinkedAll (scope.functions m) scope.bindings m.slots.size ps es n.slots.size := by
  induction ps generalizing m es with
  | nil =>
      cases h
      exact .nil
  | cons p ps ih =>
      rw [List.forall_mem_cons] at hresolves hlinks
      rcases of_bind_ok h with ⟨e, k, he, hrest⟩
      rcases of_bind_ok hrest with ⟨es', l, hes', hend⟩
      cases hend
      rcases (hresolves.1 hm hs).of_ok rfl he with ⟨hg, hk, -⟩
      have htail := ih hresolves.2 hlinks.2 hk (hs.grown hg) hes'
      rw [functions_grown hg] at htail
      exact .cons (hlinks.1 hm hs he) htail

/-- A binding that is added has its declared kind, if any. -/
theorem settleKind_ok {name : String} {declared : Option Kind} {inferred kind : Kind}
    (h : settleKind name declared inferred = .ok kind) : ∀ k ∈ declared, kind = k := by
  rintro k ⟨⟩
  unfold settleKind at h
  dsimp only at h
  split at h <;> cases h
  rfl

/-- A binding gets the next slot after those in its initializer. -/
theorem resolveClausesWith_linked {scope inner : Scope} {cs : List (Clause Phrase)}
    {ds : List (Declaration Expr)}
    (hresolves : ∀ declared name i, .binding declared name i ∈ cs → Resolves fill owner o lo i)
    (hlinks : ∀ declared name i, .binding declared name i ∈ cs → Links owner o lo i)
    (hm : m.Working owner o lo) (hs : scope.Within lo m)
    (h : resolveClausesWith fill scope cs m = .ok (ds, inner) n) :
    LinkedClauses (scope.functions m) scope.bindings m.slots.size cs ds inner.bindings
      n.slots.size ∧ inner.declaring = scope.declaring := by
  induction cs generalizing scope m ds with
  | nil =>
      cases h
      exact ⟨.nil, rfl⟩
  | cons c cs ih =>
      rcases c with ⟨declared, name, p⟩ | r
      · rcases of_bind_ok h with ⟨e, k, he, hrest⟩
        rcases of_bind_ok hrest with ⟨d, l, hd, hrest⟩
        rcases of_bind_ok hrest with ⟨⟨ds', inner'⟩, l', hds, hend⟩
        cases hend
        rcases (hresolves declared name p List.mem_cons_self hm hs).of_ok rfl he with
          ⟨hg, hk, hresolved⟩
        have hinitializer := hlinks declared name p List.mem_cons_self hm hs he
        rcases (declareWith_steps fill_steps hk hresolved).of_ok rfl hd with
          ⟨hg', hl, -, hslot, hlt, -⟩
        have hlow : lo ≤ d.slot := hslot ▸ hk.low
        have hwithin : (scope.bind name d.slot).Within lo l :=
          ((hs.grown hg).grown hg').bind hlow hlt
        rcases ih (fun declared name i hi => hresolves declared name i (List.mem_cons_of_mem _ hi))
          (fun declared name i hi => hlinks declared name i (List.mem_cons_of_mem _ hi))
          hl hwithin hds with ⟨htail, hdeclaring⟩
        -- The binding was added with the first slot that was free.
        rcases declareWith_ok hk.settled hd with ⟨inferred, kind, -, hkind, rfl, -⟩
        have hfunctions : (scope.bind name k.slots.size).functions l = scope.functions m :=
          functions_grown (hg.trans hg') scope
        rw [hfunctions] at htail
        exact ⟨.cons (d := ⟨name, k.slots.size, kind, e, e.isDependent⟩) hinitializer hlt
          (settleKind_ok hkind) htail, hdeclaring⟩
      · cases h

/-- A phrase that is read is linked to its expression. -/
theorem resolveWith_linked {p : Phrase} (hp : p.RejectsOnly Rejection.Syntactic) :
    Links owner o lo p := by
  intro m n scope e hm hs h
  induction hp generalizing scope m n e with
  | malformed _ => cases h
  | literal v =>
      cases h
      exact .literal
  | name word =>
      rcases of_bind_ok h with ⟨r, k, hr, hend⟩
      cases hend
      rcases reference_ok hr with ⟨rfl, rfl, hlookup⟩
      exact .name hlookup
  | prefixed _ ih =>
      rcases of_bind_ok h with ⟨e', k, he', hend⟩
      cases hend
      exact .prefixed (ih hm hs he')
  | infixed hl _ ihl ihr =>
      -- Reading the left part changes the storage, but not the functions that can be called.
      rcases of_bind_ok h with ⟨l, k, hl', hrest⟩
      rcases of_bind_ok hrest with ⟨r, k', hr', hend⟩
      cases hend
      rcases (resolveWith_steps fill_steps hl hm hs).of_ok rfl hl' with ⟨hg, hk, -⟩
      have hright := ihr hk (hs.grown hg) hr'
      rw [functions_grown hg] at hright
      exact .infixed (ihl hm hs hl') hright
  | assignment _ _ ih =>
      rcases of_bind_ok h with ⟨rs, k, hrs, hrest⟩
      rcases of_bind_ok hrest with ⟨v, k', hv, hend⟩
      cases hend
      rcases targets_ok hrs with ⟨rfl, rfl, hlookup⟩
      exact .assignment hlookup (ih hm hs hv)
  | @call f ps hps ih =>
      rcases of_bind_ok h with ⟨es, k, hes, hcall⟩
      have hresolves : ∀ p ∈ ps, Resolves fill owner o lo p :=
        fun p hp => resolveWith_steps fill_steps (hps p hp)
      have hall :=
        resolveAllWith_linked hresolves (fun p hp _ _ _ _ hm hs h => ih p hp hm hs h) hm hs hes
      rcases (resolveAllWith_steps hm hs hresolves).of_ok rfl hes with ⟨hg, -, -⟩
      rcases callee_ok hcall with ⟨rfl, ⟨b, hb, hbuiltin⟩ | ⟨id, dependent, hb, hid, rfl⟩⟩
      · exact .builtin hb hbuiltin hall
      · rw [functions_grown hg] at hid
        exact .call hb hid hall
  | conditional hc ht _ ihc iht ihe =>
      rcases of_bind_ok h with ⟨c, k, hc', hrest⟩
      rcases of_bind_ok hrest with ⟨t, k', ht', hrest⟩
      rcases of_bind_ok hrest with ⟨e', l, he', hend⟩
      cases hend
      rcases (resolveWith_steps fill_steps hc hm hs).of_ok rfl hc' with ⟨hg, hk, -⟩
      rcases (resolveWith_steps fill_steps ht hk (hs.grown hg)).of_ok rfl ht' with ⟨hg', hk', -⟩
      have hthen := iht hk (hs.grown hg) ht'
      have helse := ihe hk' ((hs.grown hg).grown hg') he'
      rw [functions_grown hg] at hthen
      rw [functions_grown (hg.trans hg')] at helse
      exact .conditional (ihc hm hs hc') hthen helse
  | @letIn cs b hmalformed hclauses _ ihi ihb =>
      rcases of_bind_ok h with ⟨⟨ds, inner⟩, k, hcs, hrest⟩
      rcases of_bind_ok hrest with ⟨b', l, hb', hend⟩
      cases hend
      have hresolves : ∀ declared name i, Clause.binding declared name i ∈ cs →
          Resolves fill owner o lo i :=
        fun declared name i hi => resolveWith_steps fill_steps (hclauses declared name i hi)
      rcases resolveClausesWith_linked hresolves
        (fun declared name i hi _ _ _ _ hm hs h => ihi declared name i hi hm hs h) hm hs hcs
        with ⟨hds, hdeclaring⟩
      rcases (resolveClausesWith_steps fill_steps hm hs hmalformed hresolves).of_ok rfl hcs with
        ⟨hg, hk, -, hwithin, -⟩
      -- The body is read in the scope that the bindings leave.
      have hbody := ihb hk hwithin hb'
      have hfunctions : inner.functions k = scope.functions m := by
        rw [Scope.functions, hdeclaring]
        exact functions_grown hg scope
      rw [hfunctions] at hbody
      exact .letIn hds hbody

end Resolution
end LineLang
