import LineLang.Proofs.Resolution.Opening

/-!
# The order of readings

The parts of a phrase are read one after the other, and storage only grows on the way. So of the
storages in which two parts have been read, one has grown out of the other.

- `Reading.Reads`             : a phrase is read to its end
- `Reading.Over`              : it has been read
- `Reading.Open.leads_grown`  : a part begins to be read after the whole
- `Reading.Open.leads_over`   : it has been read when the whole has
- `Reading.Open.ordered`      : of two parts, one has been read when the other is about to be
- `Reading.Open.comparable`   : one of two storages has grown out of the other
-/

namespace LineLang

open Effect

instance {lo : Nat} : Trans (Memory.Grown lo) (Memory.Grown lo) (Memory.Grown lo) :=
  ⟨Memory.Grown.trans⟩

namespace Resolution

variable {fill : Declaration Expr → Resolution Unit} {scope inner : Scope} {m n : Memory}

/-- Phrases have been read if those before them were, and then they. -/
theorem resolveAllWith_append_ok {ps ps' : List Phrase} {es : List Expr}
    (h : resolveAllWith fill scope (ps ++ ps') m = .ok es n) :
    ∃ es₁ k es₂, resolveAllWith fill scope ps m = .ok es₁ k ∧
      resolveAllWith fill scope ps' k = .ok es₂ n := by
  induction ps generalizing m es with
  | nil => exact ⟨[], m, es, rfl, h⟩
  | cons p ps ih =>
      rcases of_bind_ok h with ⟨e, k, he, hrest⟩
      rcases of_bind_ok hrest with ⟨es', l, hes', hend⟩
      cases hend
      rcases ih hes' with ⟨es₁, k', es₂, hps, hps'⟩
      exact ⟨e :: es₁, k', es₂, (bind_ok he).trans (bind_ok hps), hps'⟩

/-- Bindings that were read together were read in two goes. -/
theorem resolveClausesWith_append_ok {cs cs' : List (Clause Phrase)} {ds : List (Declaration Expr)}
    (h : resolveClausesWith fill scope (cs ++ cs') m = .ok (ds, inner) n) :
    ∃ ds₁ mid k ds₂, resolveClausesWith fill scope cs m = .ok (ds₁, mid) k ∧
      resolveClausesWith fill mid cs' k = .ok (ds₂, inner) n := by
  induction cs generalizing scope m ds with
  | nil => exact ⟨[], scope, m, ds, rfl, h⟩
  | cons c cs ih =>
      rcases c with ⟨declared, name, p⟩ | r
      · rcases of_bind_ok h with ⟨e, k, he, hrest⟩
        rcases of_bind_ok hrest with ⟨d, l, hd, hrest⟩
        rcases of_bind_ok hrest with ⟨⟨ds', inner'⟩, l', hds, hend⟩
        cases hend
        rcases ih hds with ⟨ds₁, mid, k', ds₂, hcs, hcs'⟩
        exact ⟨d :: ds₁, mid, k', ds₂, (bind_ok he).trans ((bind_ok hd).trans (bind_ok hcs)), hcs'⟩
      · cases h

end Resolution

namespace Reading

open Resolution

def Reads (r : Reading) (e : Expr) (n : Memory) : Prop :=
  resolveWith fill r.scope r.phrase r.memory = .ok e n

/-- The phrase has been read, and the storage may have grown since then. -/
def Over (lo : Nat) (m : Memory) (r : Reading) : Prop :=
  ∃ e n, r.Reads e n ∧ n.Grown lo m

theorem Over.grown {lo : Nat} {m n : Memory} {r : Reading} (h : r.Over lo m) (hn : m.Grown lo n) :
    r.Over lo n := by
  rcases h with ⟨e, k, he, hk⟩
  exact ⟨e, k, he, hk.trans hn⟩

theorem Over.end_grown {lo : Nat} {m n : Memory} {r : Reading} {e : Expr} (h : r.Over lo m)
    (he : r.Reads e n) : n.Grown lo m := by
  rcases h with ⟨e', k, he', hk⟩
  cases he.symm.trans he'
  exact hk

variable {owner : SlotId → FunctionId} {base : Memory}

section Parts

variable {scope inner inner' : Scope} {m n k : Memory} {p : Phrase}

/-- An argument has been read when it and others have. -/
theorem over_argument {ps ps' : List Phrase} {es es' : List Expr} (h : scope.Open owner base m)
    (hall : ∀ q ∈ ps ++ p :: ps', q.RejectsOnly Rejection.Syntactic)
    (hps : resolveAllWith fill scope ps m = .ok es n)
    (hes : resolveAllWith fill scope (ps ++ p :: ps') m = .ok es' k) :
    Over base.slots.size k ⟨scope, p, n⟩ := by
  rw [List.forall_mem_append, List.forall_mem_cons] at hall
  rcases hall with ⟨hbefore, hp, hafter⟩
  -- Reading all arguments begins with those before `p`, and comes to the same storage after them.
  rcases resolveAllWith_append_ok hes with ⟨es₁, n', es₂, hps', hrest⟩
  cases hps.symm.trans hps'
  rcases of_bind_ok hrest with ⟨e, l, he, hrest⟩
  rcases of_bind_ok hrest with ⟨es₃, l', hes₃, hend⟩
  cases hend
  have hl :=
    resolveWith_open hp (resolveAllWith_open (fun q hq => resolveWith_open (hbefore q hq)) h hps) he
  have hresolves : ∀ q ∈ ps', Resolves fill owner base.functions.size base.slots.size q :=
    fun q hq => resolveWith_steps fill_steps (hafter q hq)
  exact ⟨e, l, he, ((resolveAllWith_steps hl.working hl.within hresolves).of_ok rfl hes₃).1⟩

/-- An initializer has been read when its binding and others have. -/
theorem over_initializer {declared : Option Kind} {name : String} {cs cs' : List (Clause Phrase)}
    {b : Phrase} {ds ds' : List (Declaration Expr)}
    (h : Open owner base ⟨scope, .letIn (cs ++ .binding declared name p :: cs') b, m⟩)
    (hcs : resolveClausesWith fill scope cs m = .ok (ds, inner) n)
    (hds : resolveClausesWith fill scope (cs ++ .binding declared name p :: cs') m =
      .ok (ds', inner') k) : Over base.slots.size k ⟨inner, p, n⟩ := by
  rcases resolveClausesWith_append_ok hds with ⟨ds₁, mid, n', ds₂, hcs', hrest⟩
  cases hcs.symm.trans hcs'
  rcases of_bind_ok hrest with ⟨e, l, he, hrest⟩
  rcases of_bind_ok hrest with ⟨d, l', hd, hrest⟩
  rcases of_bind_ok hrest with ⟨⟨ds₃, inner₃⟩, l'', hds₃, hend⟩
  cases hend
  have hpart := h.leads (.initializer hcs)
  have hl := resolveWith_open hpart.syntactic hpart.here he
  have hresolved :=
    ((resolveWith_steps fill_steps hpart.syntactic hpart.here.working hpart.here.within).of_ok rfl
      he).2.2
  -- The slot of the binding is added and filled, and the other bindings follow.
  have hdeclared := ((declareWith_steps fill_steps hl.working hresolved).of_ok rfl hd).1
  have hl' := declareWith_open hl hresolved hd
  have hmem : ∀ {c}, c ∈ cs' → c ∈ cs ++ .binding declared name p :: cs' := by
    intro c hc
    simp [hc]
  cases h.syntactic with
  | letIn hmalformed hclauses _ =>
      have hsteps := resolveClausesWith_steps fill_steps hl'.working hl'.within
        (fun r hr => hmalformed r (hmem hr)) fun declared name i hi =>
          resolveWith_steps fill_steps (hclauses declared name i (hmem hi))
      exact ⟨e, l, he, hdeclared.trans (hsteps.of_ok rfl hds₃).1⟩

end Parts

/-- A list is split in one place, or at one place before the other. -/
theorem split_cases {α : Type} {xs xs' ys ys' : List α} {x y : α}
    (h : xs ++ x :: xs' = ys ++ y :: ys') :
    (xs = ys ∧ x = y) ∨ (∃ zs, ys = xs ++ x :: zs) ∨ ∃ zs, xs = ys ++ y :: zs := by
  rcases List.append_eq_append_iff.1 h with ⟨zs, rfl, hzs⟩ | ⟨zs, rfl, hzs⟩
  all_goals cases zs with
  | nil =>
      cases hzs
      simp
  | cons z zs =>
      cases hzs
      simp

namespace Open

variable {r c c' : Reading} {e e' : Expr} {n n' : Memory}

/-- Bindings may be left out. -/
theorem shorter {scope : Scope} {cs cs' : List (Clause Phrase)} {b : Phrase} {m : Memory}
    (h : Open owner base ⟨scope, .letIn cs b, m⟩) (hcs : cs' ⊆ cs) :
    Open owner base ⟨scope, .letIn cs' b, m⟩ := by
  refine ⟨h.here, ?_⟩
  cases h.syntactic with
  | letIn hmalformed hclauses hbody =>
      exact .letIn (fun r hr => hmalformed r (hcs hr))
        (fun declared name i hi => hclauses declared name i (hcs hi)) hbody

/-- What is known of a phrase that has been read. -/
theorem steps (h : r.Open owner base) (he : r.Reads e n) :
    r.memory.Grown base.slots.size n ∧ n.Working owner base.functions.size base.slots.size ∧
      n.Resolved owner base.functions.size r.scope.slots e :=
  (resolveWith_steps fill_steps h.syntactic h.here.working h.here.within).of_ok rfl he

theorem grown (h : r.Open owner base) (he : r.Reads e n) : r.memory.Grown base.slots.size n :=
  (h.steps he).1

/-- A part begins to be read after the whole. -/
theorem leads_grown (h : r.Open owner base) (hc : r.Leads c) :
    r.memory.Grown base.slots.size c.memory := by
  cases hc with
  | operand | left | condition => exact .refl _
  | right hl => exact (h.leads .left).grown hl
  | assigned hnames =>
      cases h.syntactic with
      | assignment htargets _ => exact ((targets_steps h.here.working htargets).of_ok rfl hnames).1
  | argument hps =>
      cases h.syntactic with
      | call hall =>
          refine ((resolveAllWith_steps h.here.working h.here.within ?_).of_ok rfl hps).1
          intro q hq
          exact resolveWith_steps fill_steps (hall q (List.mem_append_left _ hq))
  | consequent hc => exact (h.leads .condition).grown hc
  | alternative hc ht =>
      exact ((h.leads .condition).grown hc).trans ((h.leads (.consequent hc)).grown ht)
  | initializer hcs =>
      cases h.syntactic with
      | letIn hmalformed hclauses _ =>
          refine ((resolveClausesWith_steps fill_steps h.here.working h.here.within (fun r hr => ?_)
            fun declared name i hi => ?_).of_ok rfl hcs).1
          · exact hmalformed r (List.mem_append_left _ hr)
          · exact resolveWith_steps fill_steps
              (hclauses declared name i (List.mem_append_left _ hi))
  | inside hcs =>
      cases h.syntactic with
      | letIn hmalformed hclauses _ =>
          refine ((resolveClausesWith_steps fill_steps h.here.working h.here.within hmalformed
            fun declared name i hi => ?_).of_ok rfl hcs).1
          exact resolveWith_steps fill_steps (hclauses declared name i hi)

/-- If the whole is read to its end, a part has been read by then. -/
theorem leads_over (h : r.Open owner base) (hc : r.Leads c) (he : r.Reads e n) :
    c.Over base.slots.size n := by
  -- The whole was read to its end, so every step before the part succeeded, and the steps after it
  -- only let the storage grow.
  cases hc with
  | operand =>
      rcases of_bind_ok he with ⟨e', k, he', hend⟩
      cases hend
      exact ⟨e', n, he', .refl n⟩
  | left =>
      rcases of_bind_ok he with ⟨l, k, hl, hrest⟩
      rcases of_bind_ok hrest with ⟨r, k', hr, hend⟩
      cases hend
      exact ⟨l, k, hl, (h.leads (.right hl)).grown hr⟩
  | right hl =>
      rcases of_bind_ok he with ⟨l, k, hl', hrest⟩
      cases hl.symm.trans hl'
      rcases of_bind_ok hrest with ⟨r, k', hr, hend⟩
      cases hend
      exact ⟨r, n, hr, .refl n⟩
  | assigned hnames =>
      rcases of_bind_ok he with ⟨rs, k, hrs, hrest⟩
      cases hnames.symm.trans hrs
      rcases of_bind_ok hrest with ⟨v, k', hv, hend⟩
      cases hend
      exact ⟨v, n, hv, .refl n⟩
  | argument hps =>
      rcases of_bind_ok he with ⟨es, k, hes, hcall⟩
      cases (callee_level (.refl k) hcall).1
      cases h.syntactic with
      | call hall => exact over_argument h.here hall hps hes
  | condition =>
      rcases of_bind_ok he with ⟨c, k, hc, hrest⟩
      rcases of_bind_ok hrest with ⟨t, k', ht, hrest⟩
      rcases of_bind_ok hrest with ⟨e', l, he', hend⟩
      cases hend
      exact ⟨c, k, hc,
        ((h.leads (.consequent hc)).grown ht).trans ((h.leads (.alternative hc ht)).grown he')⟩
  | consequent hc =>
      rcases of_bind_ok he with ⟨c, k, hc', hrest⟩
      cases hc.symm.trans hc'
      rcases of_bind_ok hrest with ⟨t, k', ht, hrest⟩
      rcases of_bind_ok hrest with ⟨e', l, he', hend⟩
      cases hend
      exact ⟨t, k', ht, (h.leads (.alternative hc ht)).grown he'⟩
  | alternative hc ht =>
      rcases of_bind_ok he with ⟨c, k, hc', hrest⟩
      cases hc.symm.trans hc'
      rcases of_bind_ok hrest with ⟨t, k', ht', hrest⟩
      cases ht.symm.trans ht'
      rcases of_bind_ok hrest with ⟨e', l, he', hend⟩
      cases hend
      exact ⟨e', n, he', .refl n⟩
  | initializer hcs =>
      rcases of_bind_ok he with ⟨⟨ds, inner⟩, k, hall, hrest⟩
      rcases of_bind_ok hrest with ⟨b, l, hb, hend⟩
      cases hend
      exact (over_initializer h hcs hall).grown ((h.leads (.inside hall)).grown hb)
  | inside hcs =>
      rcases of_bind_ok he with ⟨⟨ds, inner⟩, k, hcs', hrest⟩
      cases hcs.symm.trans hcs'
      rcases of_bind_ok hrest with ⟨b, l, hb, hend⟩
      cases hend
      exact ⟨b, n, hb, .refl n⟩

/-- Of two parts of one phrase, one has been read when the other is about to be. -/
theorem ordered (h : r.Open owner base) (hc : r.Leads c) (hc' : r.Leads c') :
    c = c' ∨ c.Over base.slots.size c'.memory ∨ c'.Over base.slots.size c.memory := by
  cases hc with
  | operand =>
      cases hc'
      exact .inl rfl
  | left =>
      cases hc' with
      | left => exact .inl rfl
      | right hl => exact .inr (.inl ⟨_, _, hl, .refl _⟩)
  | right hl =>
      cases hc' with
      | left => exact .inr (.inr ⟨_, _, hl, .refl _⟩)
      | right hl' =>
          cases hl.symm.trans hl'
          exact .inl rfl
  | assigned hnames =>
      cases hc' with
      | assigned hnames' =>
          cases hnames.symm.trans hnames'
          exact .inl rfl
  | condition =>
      cases hc' with
      | condition => exact .inl rfl
      | consequent hc => exact .inr (.inl ⟨_, _, hc, .refl _⟩)
      | alternative hc ht => exact .inr (.inl ⟨_, _, hc, (h.leads (.consequent hc)).grown ht⟩)
  | consequent hc =>
      cases hc' with
      | condition => exact .inr (.inr ⟨_, _, hc, .refl _⟩)
      | consequent hc' =>
          cases hc.symm.trans hc'
          exact .inl rfl
      | alternative hc' ht =>
          cases hc.symm.trans hc'
          exact .inr (.inl ⟨_, _, ht, .refl _⟩)
  | alternative hc ht =>
      cases hc' with
      | condition => exact .inr (.inr ⟨_, _, hc, (h.leads (.consequent hc)).grown ht⟩)
      | consequent hc' =>
          cases hc.symm.trans hc'
          exact .inr (.inr ⟨_, _, ht, .refl _⟩)
      | alternative hc' ht' =>
          cases hc.symm.trans hc'
          cases ht.symm.trans ht'
          exact .inl rfl
  | @argument scope f ps p ps' m es n hps =>
      -- The two parts split one list of arguments, perhaps in different places.
      generalize hall : ps ++ p :: ps' = all at h hc'
      cases hc' with
      | @argument _ _ qs q qs' _ _ _ hqs =>
          cases h.syntactic with
          | call hsyntactic =>
              rcases split_cases hall with ⟨rfl, rfl⟩ | ⟨zs, rfl⟩ | ⟨zs, rfl⟩
              · cases hps.symm.trans hqs
                exact .inl rfl
              · refine .inr (.inl (over_argument h.here (fun x hx => hsyntactic x ?_) hps hqs))
                exact List.mem_append_left _ hx
              · refine .inr (.inr (over_argument h.here (fun x hx => hsyntactic x ?_) hqs hps))
                rw [← hall]
                exact List.mem_append_left _ hx
  | @initializer scope cs declared name p cs' b m ds inner n hcs =>
      generalize hall : cs ++ .binding declared name p :: cs' = all at h hc'
      cases hc' with
      | @initializer _ qs declared' name' q qs' _ _ _ _ _ hqs =>
          rcases split_cases hall with ⟨rfl, hsame⟩ | ⟨zs, rfl⟩ | ⟨zs, rfl⟩
          · cases hsame
            cases hcs.symm.trans hqs
            exact .inl rfl
          · exact .inr
              (.inl (over_initializer (b := b) (h.shorter (List.subset_append_left _ _)) hcs hqs))
          · rw [← hall] at h
            exact .inr
              (.inr (over_initializer (b := b) (h.shorter (List.subset_append_left _ _)) hqs hcs))
      | inside hall' =>
          subst hall
          exact .inr (.inl (over_initializer h hcs hall'))
  | @inside scope cs b m ds inner n hcs =>
      cases hc' with
      | initializer hcs' => exact .inr (.inr (over_initializer h hcs' hcs))
      | inside hcs' =>
          cases hcs.symm.trans hcs'
          exact .inl rfl

/-- Parts begin to be read after the whole. -/
theorem reaches_grown (h : r.Open owner base) (hc : r.Reaches c) :
    r.memory.Grown base.slots.size c.memory := by
  induction hc with
  | refl => exact .refl _
  | tail hreaches hleads ih => exact ih.trans ((h.reaches hreaches).leads_grown hleads)

/-- If the whole is read to its end, all parts have been read by then. -/
theorem reaches_over (h : r.Open owner base) (hc : r.Reaches c) (hr : r.Over base.slots.size n) :
    c.Over base.slots.size n := by
  induction hc with
  | refl => exact hr
  | tail hreaches hleads ih =>
      rcases ih with ⟨e, k, he, hk⟩
      exact ((h.reaches hreaches).leads_over hleads he).grown hk

/-- What is read after another phrase ends in a storage that has grown out of the other's. -/
theorem later {d d' : Reading} (hd : d.Open owner base) (hd' : d'.Open owner base)
    (hbefore : d.Over base.slots.size d'.memory) (hc : d.Reaches c) (hc' : d'.Reaches c')
    (he : c.Reads e n) (he' : c'.Reads e' n') : n.Grown base.slots.size n' :=
  calc
    n.Grown base.slots.size d'.memory := Over.end_grown (hd.reaches_over hc hbefore) he
    d'.memory.Grown base.slots.size c'.memory := hd'.reaches_grown hc'
    c'.memory.Grown base.slots.size n' := (hd'.reaches hc').grown he'

/-- Two phrases are parts of one that have been read. Then the storage at the end of one has grown
out of the storage at the end of the other. -/
theorem comparable (h : r.Open owner base) (hc : r.Reaches c) (hc' : r.Reaches c')
    (he : c.Reads e n) (he' : c'.Reads e' n') :
    n.Grown base.slots.size n' ∨ n'.Grown base.slots.size n := by
  -- Follow both paths until they part. Then one phrase is over before the other begins.
  induction hc using Relation.ReflTransGen.head_induction_on with
  | refl => exact .inr (Over.end_grown (h.reaches_over hc' ⟨e, n, he, .refl n⟩) he')
  | @head r d hleads hreaches ih =>
      rcases Relation.ReflTransGen.cases_head hc' with rfl | ⟨d', hleads', hreaches'⟩
      · exact .inl
          (Over.end_grown (h.reaches_over (.head hleads hreaches) ⟨e', n', he', .refl n'⟩) he)
      · rcases h.ordered hleads hleads' with rfl | hbefore | hafter
        · exact ih (h.leads hleads) hreaches'
        · exact .inl (later (h.leads hleads) (h.leads hleads') hbefore hreaches hreaches' he he')
        · exact .inr (later (h.leads hleads') (h.leads hleads) hafter hreaches' hreaches he' he)

end Open
end Reading
end LineLang
