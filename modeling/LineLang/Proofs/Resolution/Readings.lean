import LineLang.Proofs.Evaluation.Moments
import LineLang.Proofs.Resolution.Faults
import LineLang.Proofs.Typing.Given

/-!
# Readings of a phrase

While the names of a phrase are resolved, its parts are read one after the other, each in its scope
and in the storage of that time. The slot of a binding is filled when its initializer has been read,
and for this the initializer is evaluated unless it is dependent.

- `Reading`               : a phrase that is about to be read
- `Reading.Leads`         : the next readings inside
- `Reading.Reaches`       : all readings inside
- `Reading.Allots`        : a binding whose slot is about to be filled
- `Reading.Probes`        : the evaluation that is started for it
- `Reading.rash_of_premature`  : something used too early was used in such an evaluation
-/

namespace LineLang

open Effect Resolution

structure Reading where
  scope : Scope
  phrase : Phrase
  memory : Memory

def Moment.probing (e : Expr) (m : Memory) : Moment :=
  ⟨Evaluation.depthBound m, .probe, e, { memory := m }⟩

namespace Reading

/-- Reading turns from a phrase to its parts, after the parts before them have been read. -/
inductive Leads : Reading → Reading → Prop
  | operand {scope op p m} : Leads ⟨scope, .prefixed op p, m⟩ ⟨scope, p, m⟩
  | left {scope op l r m} : Leads ⟨scope, .infixed op l r, m⟩ ⟨scope, l, m⟩
  | right {scope op l r m e n} (hl : resolveWith fill scope l m = .ok e n) :
      Leads ⟨scope, .infixed op l r, m⟩ ⟨scope, r, n⟩
  | assigned {scope names p m rs n} (hnames : targets scope names m = .ok rs n) :
      Leads ⟨scope, .assignment names p, m⟩ ⟨scope, p, n⟩
  | argument {scope f ps p ps' m es n} (hps : resolveAllWith fill scope ps m = .ok es n) :
      Leads ⟨scope, .call f (ps ++ p :: ps'), m⟩ ⟨scope, p, n⟩
  | condition {scope c t e m} : Leads ⟨scope, .conditional c t e, m⟩ ⟨scope, c, m⟩
  | consequent {scope c t e m c' n} (hc : resolveWith fill scope c m = .ok c' n) :
      Leads ⟨scope, .conditional c t e, m⟩ ⟨scope, t, n⟩
  | alternative {scope c t e m c' n t' k} (hc : resolveWith fill scope c m = .ok c' n)
      (ht : resolveWith fill scope t n = .ok t' k) :
      Leads ⟨scope, .conditional c t e, m⟩ ⟨scope, e, k⟩
  | initializer {scope cs declared name p cs' b m ds inner n}
      (hcs : resolveClausesWith fill scope cs m = .ok (ds, inner) n) :
      Leads ⟨scope, .letIn (cs ++ .binding declared name p :: cs') b, m⟩ ⟨inner, p, n⟩
  | inside {scope cs b m ds inner n}
      (hcs : resolveClausesWith fill scope cs m = .ok (ds, inner) n) :
      Leads ⟨scope, .letIn cs b, m⟩ ⟨inner, b, n⟩

abbrev Reaches : Reading → Reading → Prop :=
  Relation.ReflTransGen Leads

/-- The initializer of a binding has been read in a scope and has a kind. The slot has been added
and is about to be filled. -/
inductive Allots : Reading → Scope → Declaration Expr → Memory → Prop
  | binding {scope cs declared name p cs' b m ds inner n e k inferred l kind}
      (hcs : resolveClausesWith fill scope cs m = .ok (ds, inner) n)
      (hp : resolveWith fill inner p n = .ok e k) (hinferred : Typing.kindOf e k = .ok inferred l)
      (hkind : settleKind name declared inferred = .ok kind) :
      Allots ⟨scope, .letIn (cs ++ .binding declared name p :: cs') b, m⟩ inner
        ⟨name, l.slots.size, kind, e, e.isDependent⟩
        (l.allocate { name, kind, dependent := e.isDependent })

def Probes (r : Reading) (scope : Scope) (e : Expr) (m : Memory) : Prop :=
  ∃ r' d, r.Reaches r' ∧ r'.Allots scope d m ∧ d.dependent = false ∧ d.initializer = e

theorem Leads.probes {r r' : Reading} {scope : Scope} {e : Expr} {m : Memory} (h : r.Leads r')
    (hr' : r'.Probes scope e m) : r.Probes scope e m := by
  rcases hr' with ⟨q, d, hreaches, hallots⟩
  exact ⟨q, d, .head h hreaches, hallots⟩

end Reading

/-! ## Things used too early -/

/-- Something was used too early while an instruction was read. -/
def Rejection.Premature : Rejection → Prop
  | .static fault => fault.Premature
  | _ => False

theorem Rejection.Syntactic.not_premature {r : Rejection} (h : r.Syntactic) : ¬ r.Premature := by
  cases r with
  | static fault => exact absurd rfl (h fault)
  | _ => exact id

namespace Typing

/-- Remembering a kind adds no fault of its own. -/
theorem remember_not_premature {id : FunctionId} {body : Typing Kind}
    (h : Keeps (fun fault => ¬ fault.Premature) (fun _ => True) body) :
    Keeps (fun fault => ¬ fault.Premature) (fun _ => True) (remember id body) := by
  refine Triple.bind (attempt_keeps h) fun r => ?_
  cases r with
  | ok kind => exact fun _ _ => trivial
  | error fault =>
      rintro s ⟨hfault, -⟩
      have hthrow : ¬ fault.Premature := hfault fault rfl
      cases fault <;> exact ⟨hthrow, trivial⟩

/-- Computing kinds uses neither what slots hold nor functions without bodies. -/
theorem kindWithin_not_premature (n : Nat) (e : Expr) :
    Keeps (fun fault => ¬ fault.Premature) (fun _ => True) (kindWithin n e) := by
  induction n generalizing e with
  | zero => exact Keeps.throw id
  | succ n ih =>
      refine kindWith_keeps (fun _ _ _ => id) (fun _ _ _ => id) (fun f => ?_) e
      refine Triple.get_bind fun s _ => ?_
      dsimp only
      split
      · exact Triple.pure fun _ _ => trivial
      · exact Triple.pure fun _ _ => trivial
      · split
        · exact Triple.throw fun _ _ => ⟨id, trivial⟩
        · refine Triple.bind (R := fun _ _ => True)
            (Triple.update (fun _ _ _ _ => trivial) ?_) fun _ => ?_
          · intro k fault _ hfault
            rw [(Memory.enter_error hfault).2]
            exact ⟨id, trivial⟩
          · exact Triple.ensuring (remember_not_premature (ih _))

theorem kindOf_not_premature {e : Expr} {m n : Memory} {fault : Fault}
    (h : kindOf e m = .error fault n) : ¬ fault.Premature :=
  ((kindWithin_not_premature _ e).of_error trivial h).1

end Typing

namespace Reading

def Rash (r : Reading) : Prop :=
  ∃ scope e m, r.Probes scope e m ∧ (Moment.probing e m).Rash

theorem Leads.rash {r r' : Reading} (h : r.Leads r') (hr' : r'.Rash) : r.Rash := by
  rcases hr' with ⟨scope, e, m, hprobes, hrash⟩
  exact ⟨scope, e, m, h.probes hprobes, hrash⟩

theorem reference_error {scope : Scope} {name : String} {m n : Memory} {r : Rejection}
    (h : reference scope name m = .error r n) : ¬ r.Premature := by
  have hfails := failsOnly_reference (fun _ hr => hr.syntactic.not_premature) scope name
  exact (hfails.of_error trivial h).1

theorem targets_error {scope : Scope} {names : List Target} {m n : Memory} {r : Rejection}
    (hnames : ∀ r, .malformed r ∈ names → r.Syntactic) (h : targets scope names m = .error r n) :
    ¬ r.Premature := by
  have hfails : FailsOnly (fun r => ¬ r.Premature) (targets scope names) :=
    failsOnly_targets (fun _ hr => hr.syntactic.not_premature) fun r hr =>
      (hnames r hr).not_premature
  exact (hfails.of_error trivial h).1

theorem callee_error {scope : Scope} {name : String} {es : List Expr} {m n : Memory} {r : Rejection}
    (h : callee scope name es m = .error r n) : ¬ r.Premature := by
  have hfails : FailsOnly (fun r => ¬ r.Premature) (callee scope name es) :=
    failsOnly_callee (fun _ hr => hr.syntactic.not_premature) (fun _ _ _ => id) scope name es
  exact (hfails.of_error trivial h).1

/-- Filling the slot of a binding fails too early only if the evaluation of the initializer does. -/
theorem fill_error {d : Declaration Expr} {m n : Memory} {r : Rejection} (h : fill d m = .error r n)
    (hr : r.Premature) : d.dependent = false ∧ (Moment.probing d.initializer m).Rash := by
  unfold fill at h
  split at h
  · cases h
  · next hd =>
      refine ⟨by simpa using hd, ?_⟩
      rcases of_bind_error h with h | ⟨v, k, -, h⟩
      · rcases of_mapError_error h with ⟨fault, hprobe, rfl⟩
        unfold Evaluation.probe at hprobe
        cases hv : Evaluation.evaluate .probe d.initializer { memory := m } with
        | ok v s =>
            rw [hv] at hprobe
            cases hprobe
        | error fault' s =>
            rw [hv] at hprobe
            cases hprobe
            exact Moment.rash_of_premature (p := .probing d.initializer m) hv hr
      · rcases of_mapError_error h with ⟨fault, hwrite, rfl⟩
        rw [Memory.write_error (of_update_error hwrite)] at hr
        exact absurd hr id

/-- A declared kind that does not fit is another fault. -/
theorem settleKind_error {name : String} {declared : Option Kind} {inferred : Kind} {fault : Fault}
    (h : settleKind name declared inferred = .error fault) : ¬ fault.Premature := by
  unfold settleKind at h
  split at h
  · cases h
  · split at h <;> cases h
    exact id

/-- A binding that was read fails too early only if its initializer does when it is evaluated. -/
theorem declareWith_error {declared : Option Kind} {name : String} {e : Expr} {m n : Memory}
    {r : Rejection} (h : declareWith fill declared name e m = .error r n) (hr : r.Premature) :
    ∃ inferred k kind, Typing.kindOf e m = .ok inferred k ∧
      settleKind name declared inferred = .ok kind ∧ e.isDependent = false ∧
        (Moment.probing e (k.allocate { name, kind, dependent := e.isDependent })).Rash := by
  unfold declareWith at h
  rcases of_bind_error h with h | ⟨inferred, k, hinferred, h⟩
  · rcases of_mapError_error h with ⟨fault, hfault, rfl⟩
    exact absurd hr (Typing.kindOf_not_premature hfault)
  · rcases of_bind_error h with h | ⟨kind, l, hkind, hrest⟩
    · rcases of_mapError_error h with ⟨fault, hfault, rfl⟩
      exact absurd hr (settleKind_error (of_ofExcept_error hfault))
    · rcases of_ofExcept_ok (of_mapError_ok hkind) with ⟨hsettle, rfl⟩
      let d : Declaration Expr := ⟨name, l.slots.size, kind, e, e.isDependent⟩
      have hfill : (fill d >>= fun _ => pure d : Resolution (Declaration Expr))
          (l.allocate { name, kind, dependent := e.isDependent }) = .error r n := hrest
      rcases of_bind_error hfill with hfill | ⟨_, l', -, hpure⟩
      · rcases fill_error hfill hr with ⟨hdependent, hrash⟩
        exact ⟨inferred, l, kind, of_mapError_ok hinferred, hsettle, hdependent, hrash⟩
      · cases hpure

/-- Of some phrases, the first that fails. -/
theorem resolveAllWith_error {ps : List Phrase} {scope : Scope} {m n : Memory} {r : Rejection}
    (h : resolveAllWith fill scope ps m = .error r n) :
    ∃ ps₁ p ps₂ es k, ps = ps₁ ++ p :: ps₂ ∧ resolveAllWith fill scope ps₁ m = .ok es k ∧
      resolveWith fill scope p k = .error r n := by
  induction ps generalizing m with
  | nil => cases h
  | cons p ps ih =>
      rcases of_bind_error h with h | ⟨e, k, he, h⟩
      · exact ⟨[], p, ps, [], m, rfl, rfl, h⟩
      · rcases of_bind_error h with h | ⟨es, l, -, h⟩
        · rcases ih h with ⟨ps₁, p', ps₂, es, l, rfl, hes, hp'⟩
          exact ⟨p :: ps₁, p', ps₂, e :: es, l, rfl, (bind_ok he).trans (bind_ok hes), hp'⟩
        · cases h

/-- Of some clauses, the first that fails: it is malformed, or reading its initializer fails, or the
binding. -/
theorem resolveClausesWith_error {cs : List (Clause Phrase)} {scope : Scope} {m n : Memory}
    {r : Rejection} (h : resolveClausesWith fill scope cs m = .error r n) :
    .malformed r ∈ cs ∨ ∃ cs₁ declared name p cs₂ ds inner k, cs = cs₁ ++ .binding declared
      name p :: cs₂ ∧ resolveClausesWith fill scope cs₁ m = .ok (ds, inner) k ∧
        (resolveWith fill inner p k = .error r n ∨
          ∃ e l, resolveWith fill inner p k = .ok e l ∧
            declareWith fill declared name e l = .error r n) := by
  induction cs generalizing scope m with
  | nil => cases h
  | cons c cs ih =>
      rcases c with ⟨declared, name, p⟩ | r'
      · rcases of_bind_error h with h | ⟨e, k, he, h⟩
        · exact .inr ⟨[], declared, name, p, cs, [], scope, m, rfl, rfl, .inl h⟩
        · rcases of_bind_error h with h | ⟨d, l, hd, h⟩
          · exact .inr ⟨[], declared, name, p, cs, [], scope, m, rfl, rfl, .inr ⟨e, k, he, h⟩⟩
          · rcases of_bind_error h with h | ⟨⟨ds, inner⟩, l', -, h⟩
            · rcases ih h with
                hmem | ⟨cs₁, declared', name', p', cs₂, ds, inner, l', rfl, hcs₁, hor⟩
              · exact .inl (List.mem_cons_of_mem _ hmem)
              · refine .inr ⟨.binding declared name p :: cs₁, declared', name', p', cs₂,
                  d :: ds, inner, l', rfl, ?_, hor⟩
                exact (bind_ok he).trans ((bind_ok hd).trans (bind_ok hcs₁))
            · cases h
      · cases h
        exact .inl List.mem_cons_self

/-- If reading a phrase fails because something was used too early, it was used in the evaluation of
some initializer. -/
theorem rash_of_premature {p : Phrase} (hp : p.RejectsOnly Rejection.Syntactic) {scope : Scope}
    {m n : Memory} {r : Rejection} (h : resolveWith fill scope p m = .error r n)
    (hr : r.Premature) : Rash ⟨scope, p, m⟩ := by
  -- The fault came up in the first step that failed: in a part, or in a check that has no such
  -- faults.
  induction hp generalizing scope m n with
  | malformed hr' =>
      cases h
      exact absurd hr hr'.not_premature
  | literal v => cases h
  | name word =>
      rcases of_bind_error h with h | ⟨_, k, -, h⟩
      · exact absurd hr (reference_error h)
      · cases h
  | prefixed _ ih =>
      rcases of_bind_error h with h | ⟨_, k, -, h⟩
      · exact Leads.operand.rash (ih h)
      · cases h
  | infixed _ _ ihl ihr =>
      rcases of_bind_error h with h | ⟨_, k, hl, h⟩
      · exact Leads.left.rash (ihl h)
      · rcases of_bind_error h with h | ⟨_, l, -, h⟩
        · exact (Leads.right hl).rash (ihr h)
        · cases h
  | assignment htargets _ ih =>
      rcases of_bind_error h with h | ⟨_, k, hnames, h⟩
      · exact absurd hr (targets_error htargets h)
      · rcases of_bind_error h with h | ⟨_, l, -, h⟩
        · exact (Leads.assigned hnames).rash (ih h)
        · cases h
  | call _ ih =>
      rcases of_bind_error h with h | ⟨_, k, -, h⟩
      · rcases resolveAllWith_error h with ⟨ps₁, p, ps₂, es, l, rfl, hes, hp⟩
        exact (Leads.argument hes).rash (ih p (by simp) hp)
      · exact absurd hr (callee_error h)
  | conditional _ _ _ ihc iht ihe =>
      rcases of_bind_error h with h | ⟨_, k, hc, h⟩
      · exact Leads.condition.rash (ihc h)
      · rcases of_bind_error h with h | ⟨_, l, ht, h⟩
        · exact (Leads.consequent hc).rash (iht h)
        · rcases of_bind_error h with h | ⟨_, l', -, h⟩
          · exact (Leads.alternative hc ht).rash (ihe h)
          · cases h
  | letIn hmalformed _ _ ihi ihb =>
      rcases of_bind_error h with h | ⟨⟨ds, inner⟩, k, hcs, h⟩
      · rcases resolveClausesWith_error h with
          hmem | ⟨cs₁, declared, name, p, cs₂, ds, inner, l, rfl, hcs₁, hp | ⟨e, l', he, hd⟩⟩
        · exact absurd hr (hmalformed r hmem).not_premature
        · exact (Leads.initializer hcs₁).rash (ihi declared name p (by simp) hp)
        · -- The initializer was read, and the fault came up when it was evaluated to fill its slot.
          rcases declareWith_error hd hr with
            ⟨inferred, k', kind, hinferred, hkind, hdependent, hrash⟩
          exact ⟨inner, e, _,
            ⟨_, _, .refl, .binding hcs₁ he hinferred hkind, hdependent, rfl⟩, hrash⟩
      · rcases of_bind_error h with h | ⟨_, l, -, h⟩
        · exact (Leads.inside hcs).rash (ihb h)
        · cases h

end Reading
end LineLang
