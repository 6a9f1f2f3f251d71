import LineLang.Proofs.Grammar.Statements
import LineLang.Proofs.Session.Moments
import LineLang.Proofs.Session.Success

/-!
# Reading forms that nest

A tree of conditionals, bindings and calls is read as it was written. Names and functions are found,
so that only the check of an initializer can fail: its kind is computed and compared with the
declared one, and its value is computed unless it is dependent.

- `Reading.Refuses`, `Reading.Refused`  : an initializer does not pass its check
- `Reading.refused_of_error`    : nothing else can fail
- `Session.statements_nest`     : a tree is read as it was written, or an initializer is refused
-/

namespace LineLang

open Effect Resolution

/-! ## Initializers that are refused -/

namespace Reading

/-- The initializer of a binding was read but does not pass its check. -/
inductive Refuses : Reading → Fault → Prop
  | binding {scope cs declared name p cs' b m ds inner n e k fault l}
      (hcs : resolveClausesWith fill scope cs m = .ok (ds, inner) n)
      (hp : resolveWith fill inner p n = .ok e k)
      (hcheck : declareWith fill declared name e k = .error (.static fault) l) :
      Refuses ⟨scope, .letIn (cs ++ .binding declared name p :: cs') b, m⟩ fault

def Refused (r : Reading) (fault : Fault) : Prop :=
  ∃ r', r.Reaches r' ∧ r'.Refuses fault

/-- What is refused inside is refused. -/
theorem Leads.refused {p q : Reading} {r : Rejection} (h : p.Leads q)
    (hq : ∃ fault, r = .static fault ∧ q.Refused fault) :
    ∃ fault, r = .static fault ∧ p.Refused fault := by
  rcases hq with ⟨fault, rfl, q', hreaches, hrefuses⟩
  exact ⟨fault, rfl, q', .head h hreaches, hrefuses⟩

/-- A slot is filled before the instruction runs, and so are its faults found. -/
theorem fill_static {d : Declaration Expr} {m n : Memory} {r : Rejection}
    (h : fill d m = .error r n) : ∃ fault, r = .static fault := by
  unfold fill at h
  split at h
  · cases h
  · rcases of_bind_error h with h | ⟨v, k, -, h⟩ <;>
    · rcases of_mapError_error h with ⟨fault, -, rfl⟩
      exact ⟨fault, rfl⟩

/-- The check of an initializer computes kinds and values, and only these can fail. -/
theorem declareWith_static {declared : Option Kind} {name : String} {e : Expr} {m n : Memory}
    {r : Rejection} (h : declareWith fill declared name e m = .error r n) :
    ∃ fault, r = .static fault := by
  unfold declareWith at h
  rcases of_bind_error h with h | ⟨inferred, k, -, h⟩
  · rcases of_mapError_error h with ⟨fault, -, rfl⟩
    exact ⟨fault, rfl⟩
  rcases of_bind_error h with h | ⟨kind, l, -, h⟩
  · rcases of_mapError_error h with ⟨fault, -, rfl⟩
    exact ⟨fault, rfl⟩
  let d : Declaration Expr := ⟨name, l.slots.size, kind, e, e.isDependent⟩
  have hfill : (fill d >>= fun _ => pure d : Resolution (Declaration Expr))
      (l.allocate { name, kind, dependent := e.isDependent }) = .error r n := h
  rcases of_bind_error hfill with hfill | ⟨_, l', -, hpure⟩
  · exact fill_static hfill
  · cases hpure

end Reading

/-! ## Names and functions are found -/

namespace Resolution

variable {scope : Scope} {m n : Memory}

theorem reference_found {name : String} {t : SlotId} (h : scope.bindings.lookup name = some t) :
    reference scope name m = .ok ⟨name, t, (m.slot t).dependent⟩ m := by
  unfold reference
  rw [h]
  rfl

/-- With the right number of arguments a function of the language can be called. -/
theorem builtinCall_arity (b : Builtin) (es : List Expr) (h : b.arity = es.length) :
    ∃ e, builtinCall b es = some e := by
  cases b with
  | unary op | print =>
      rcases List.length_eq_one_iff.1 h.symm with ⟨e, rfl⟩
      exact ⟨_, rfl⟩
  | log =>
      match es, h with
      | [base, e], _ => exact ⟨_, rfl⟩

/-- A call of a function with the right number of arguments can be read. -/
theorem callee_found {base : Memory} {name : String} {es : List Expr} (hbase : base.Named)
    (hm : m.registry = base.registry) (h : StatementTree.Takes base name es.length) :
    ∃ e, callee scope name es m = .ok e m := by
  rcases h with ⟨b, hb, harity⟩ | ⟨id, hid, -⟩
  · rcases builtinCall_arity b es harity with ⟨e, he⟩
    refine ⟨e, ?_⟩
    unfold callee
    rw [hb]
    dsimp only
    rw [he]
    rfl
  · -- The name of a function is an identifier and no function of the language.
    rcases checkDeclared_eq_ok.1 (hbase.lookup hid) with ⟨hidentifier, -, hb⟩
    have hlookup : m.lookup? name = some id := by
      rw [Memory.lookup?, hm]
      exact hid
    have hchecked : checkIdentifier name = .ok () := by
      rw [checkIdentifier, if_pos hidentifier]
    refine ⟨.call name id es (es.any Expr.isDependent), ?_⟩
    rw [callee_of_name hb hchecked, hlookup]
    rfl

/-- Every phrase has its expression. -/
theorem resolveAllWith_length {ps : List Phrase} {es : List Expr}
    (h : resolveAllWith fill scope ps m = .ok es n) : es.length = ps.length := by
  induction ps generalizing m es with
  | nil =>
      cases h
      rfl
  | cons p ps ih =>
      rcases of_bind_ok h with ⟨e, k, -, hrest⟩
      rcases of_bind_ok hrest with ⟨es', l, hes', hend⟩
      cases hend
      rw [List.length_cons, List.length_cons, ih hes']

end Resolution

def Scope.Covers (s : Scope) (Γ : List String) : Prop :=
  ∀ word ∈ Γ, ∃ t, s.bindings.lookup word = some t

theorem Scope.covers_nil (s : Scope) : s.Covers [] :=
  fun _ hword => absurd hword List.not_mem_nil

/-- One more name is in force. -/
theorem Scope.Covers.bind {s : Scope} {Γ : List String} (h : s.Covers Γ) (name : String)
    (t : SlotId) : (s.bind name t).Covers (name :: Γ) := by
  intro word hword
  by_cases heq : word = name
  · subst heq
    exact ⟨t, List.lookup_cons_self⟩
  · rcases h word (List.mem_of_ne_of_mem heq hword) with ⟨u, hu⟩
    have hne : (word == name) = false := by simpa using heq
    refine ⟨u, ?_⟩
    show List.lookup word ((name, t) :: s.bindings) = some u
    rw [List.lookup_cons, hne]
    exact hu

/-- After some bindings their names are in force as well. -/
theorem Scope.Covers.clauses {s inner : Scope} {Γ : List String} {m n : Memory}
    {bindings : List (Binding StatementTree)} {ds : List (Declaration Expr)} (h : s.Covers Γ)
    (hds : resolveClausesWith fill s (StatementTree.clauses bindings) m = .ok (ds, inner) n) :
    inner.Covers (StatementTree.binders bindings ++ Γ) := by
  induction bindings generalizing s Γ m ds with
  | nil =>
      cases hds
      exact h
  | cons d bindings ih =>
      rcases d with ⟨declared, binder, initializer⟩
      rcases of_bind_ok hds with ⟨e, k, -, hrest⟩
      rcases of_bind_ok hrest with ⟨d, l, -, hrest⟩
      rcases of_bind_ok hrest with ⟨⟨ds', inner'⟩, l', htail, hend⟩
      cases hend
      rw [StatementTree.binders_cons]
      exact ih (h.bind binder d.slot) htail

namespace Reading

variable {owner : SlotId → FunctionId} {base : Memory}

/-- The only thing that can fail when a tree is read is the check of an initializer. -/
theorem refused_of_error {T : StatementTree} {Γ : List String} {scope : Scope} {m n : Memory}
    {r : Rejection} (hnamed : base.Named) (hopen : Open owner base ⟨scope, T.phrase, m⟩)
    (hΓ : scope.Covers Γ) (hT : T.Written base Γ)
    (h : resolveWith fill scope T.phrase m = .error r n) :
    ∃ fault, r = .static fault ∧ Refused ⟨scope, T.phrase, m⟩ fault := by
  induction T using StatementTree.induction generalizing Γ scope m n with
  | number word x | boolean b | text s => cases h
  | name word =>
      rcases hΓ word hT with ⟨t, ht⟩
      have hread : resolveWith fill scope (.name word) m =
          .ok (.variable ⟨word, t, (m.slot t).dependent⟩) m :=
        bind_ok (reference_found ht)
      cases hread.symm.trans h
  | call f Ts ih =>
      rcases of_bind_error h with h | ⟨es, k, hes, h⟩
      · rcases resolveAllWith_error h with ⟨ps₁, p, ps₂, es, k, hsplit, hes, hp⟩
        -- The argument that fails is one of the trees.
        rw [StatementTree.phrases_eq] at hsplit
        rcases List.map_eq_append_iff.1 hsplit with ⟨Ts₁, Ts', rfl, rfl, hrest⟩
        rcases List.map_eq_cons_iff.1 hrest with ⟨T, Ts₂, rfl, rfl, rfl⟩
        have hleads : Leads ⟨scope, (StatementTree.call f (Ts₁ ++ T :: Ts₂)).phrase, m⟩
            ⟨scope, T.phrase, k⟩ := by
          rw [StatementTree.phrase, StatementTree.phrases_eq, List.map_append, List.map_cons]
          exact .argument hes
        have hwritten := StatementTree.writtenAll_iff.1 hT.2 T (by simp)
        exact hleads.refused (ih T (by simp) (hopen.leads hleads) hΓ hwritten hp)
      · -- The function is found, so the call can be read.
        have hall : Phrase.RejectsOnly Rejection.Syntactic (.call f (StatementTree.phrases Ts)) :=
          hopen.syntactic
        cases hall with
        | call hall =>
            have hk := resolveAllWith_open (fun p hp => resolveWith_open (hall p hp)) hopen.here hes
            have hcount : es.length = Ts.length := by
              rw [resolveAllWith_length hes, StatementTree.phrases_eq, List.length_map]
            have hfound : ∃ e, callee scope f es k = .ok e k :=
              callee_found hnamed hk.registry (hcount ▸ hT.1)
            rcases hfound with ⟨e, he⟩
            cases he.symm.trans h
  | conditional c t e ihc iht ihe =>
      rcases of_bind_error h with h | ⟨c', k, hc, h⟩
      · exact Leads.condition.refused (ihc (hopen.leads .condition) hΓ hT.1 h)
      rcases of_bind_error h with h | ⟨t', l, ht, h⟩
      · have hleads : Leads ⟨scope, (StatementTree.conditional c t e).phrase, m⟩
          ⟨scope, t.phrase, k⟩ := .consequent hc
        exact hleads.refused (iht (hopen.leads hleads) hΓ hT.2.1 h)
      rcases of_bind_error h with h | ⟨_, l', -, h⟩
      · have hleads : Leads ⟨scope, (StatementTree.conditional c t e).phrase, m⟩
            ⟨scope, e.phrase, l⟩ :=
          .alternative hc ht
        exact hleads.refused (ihe (hopen.leads hleads) hΓ hT.2.2 h)
      · cases h
  | letIn bindings b ihd ihb =>
      rcases hT with ⟨-, hds, hb⟩
      rcases of_bind_error h with h | ⟨⟨ds, inner⟩, k, hcs, h⟩
      · rcases resolveClausesWith_error h with
          hmem | ⟨cs₁, declared, name, p, cs₂, ds, inner, k, hsplit, hcs, hor⟩
        · rw [StatementTree.clauses_eq] at hmem
          rcases List.mem_map.1 hmem with ⟨d, -, hd⟩
          cases hd
        -- The binding that fails is one of those of the tree, and those before it are in force.
        rw [StatementTree.clauses_eq] at hsplit
        rcases List.map_eq_append_iff.1 hsplit with ⟨ds₁, ds', rfl, hcs₁, hrest⟩
        rcases List.map_eq_cons_iff.1 hrest with ⟨d, ds₂, rfl, hd, rfl⟩
        cases hd
        rw [← StatementTree.clauses_eq] at hcs₁
        subst hcs₁
        have hphrase : (StatementTree.letIn (ds₁ ++ d :: ds₂) b).phrase =
            .letIn (StatementTree.clauses ds₁ ++ .binding d.declared d.name d.initializer.phrase ::
              StatementTree.clauses ds₂) b.phrase := by
          simp [StatementTree.phrase, StatementTree.clauses_eq]
        rw [hphrase] at hopen ⊢
        have hleads : Leads ⟨scope, .letIn (StatementTree.clauses ds₁ ++ .binding d.declared d.name
            d.initializer.phrase :: StatementTree.clauses ds₂) b.phrase, m⟩
            ⟨inner, d.initializer.phrase, k⟩ :=
          .initializer hcs
        rcases StatementTree.writtenBindings_append.1 hds with ⟨-, -, hinitializer, -⟩
        rcases hor with hp | ⟨e, l, he, hcheck⟩
        · exact hleads.refused
            (ihd d (by simp) (hopen.leads hleads) (hΓ.clauses hcs) hinitializer hp)
        · rcases declareWith_static hcheck with ⟨fault, rfl⟩
          exact ⟨fault, rfl, _, .refl, .binding hcs he hcheck⟩
      · rcases of_bind_error h with h | ⟨_, l, -, h⟩
        · exact (Leads.inside hcs).refused (ihb (hopen.leads (.inside hcs)) (hΓ.clauses hcs) hb h)
        · cases h

end Reading

/-! ## Instructions -/

/-- A tree is an instruction of its own. -/
theorem StatementTree.ofTokens_window {m : Memory} {T : StatementTree} (hT : T.Written m []) :
    Instruction.ofTokens T.window = .expression T.phrase := by
  have hphrase : Phrase.ofWindow T.window = T.phrase :=
    ofWindow_window (fun _ hw => absurd hw List.not_mem_nil) hT
  have hbalance : Window.checkBalance T.window = .ok () := Window.checkBalance_iff.2 T.balanced
  unfold Instruction.ofTokens
  rw [hbalance, hphrase]
  cases T <;> rfl

namespace Session

open StatementTree

/-- A tree of conditionals, bindings and calls that is written without parentheses of its own is
read as it was written, with its names replaced by handles, or the check of one of its initializers
fails. -/
theorem statements_nest {s : Session} (hs : Reachable s) {T : StatementTree}
    (hT : T.Written s.memory []) :
    (∃ e n, parse T.window s.memory = .ok e n ∧
      Linked s.memory.registry [] s.memory.slots.size T.phrase e n.slots.size) ∨
    ∃ fault n, parse T.window s.memory = .error (.static fault) n ∧
      Reading.Refused ⟨{}, T.phrase, s.memory⟩ fault := by
  have htokens := ofTokens_window hT
  cases hparse : parse T.window s.memory with
  | ok e n =>
      refine .inl ⟨e, n, rfl, ?_⟩
      rcases parse_ok hs.valid hparse with ⟨p, owner, hp, -, hlinked⟩ | ⟨_, _, _, _, -, hdefines⟩
      · cases htokens.symm.trans hp
        exact hlinked
      · cases htokens.symm.trans hdefines.tokens
  | error r n =>
      have hread : resolveWith fill {} T.phrase s.memory = .error r n := by
        rw [parse, parseWith, htokens] at hparse
        exact hparse
      rcases (Reading.Starts.expression htokens).open hs.valid with ⟨owner, hopen⟩
      rcases Reading.refused_of_error hs.named hopen (Scope.covers_nil _) hT hread with
        ⟨fault, rfl, hrefused⟩
      exact .inr ⟨fault, n, rfl, hrefused⟩

/-- Every form in the place of every other one. -/
def nestedForms : StatementTree :=
  .letIn
    [⟨none, "x", .conditional (.boolean true)
      (.letIn [⟨some .boolean, "a", .boolean false⟩, ⟨none, "b", .name "a"⟩] (.name "b"))
      (.text "no")⟩, ⟨none, "y", .name "x"⟩]
    (.conditional
      (.letIn [⟨none, "x", .name "y"⟩,
      ⟨none, "y", .conditional (.name "x") (.name "x") (.name "y")⟩] (.name "y"))
      (.call "fall" [.conditional (.name "y") (.number "PI" 3.141592653589793)
        (.letIn [⟨none, "z", .number "π" 3.141592653589793⟩] (.call "fall" [.name "z"]))])
      (.call "log" [.letIn [⟨none, "u", .name "x"⟩, ⟨none, "v", .name "u"⟩] (.name "v"),
        .conditional (.call "print" [.name "y"]) (.name "x") (.call "sqrt" [.name "y"])]))

/-- All words of the tree are what they are used as in the session. -/
theorem written_nestedForms : nestedForms.Written falling.memory [] := by
  have hfall : Takes falling.memory "fall" 1 := .inr ⟨0, by decide +kernel, by decide +kernel⟩
  have hlog : Takes falling.memory "log" 2 := .inl ⟨.log, rfl, rfl⟩
  have hprint : Takes falling.memory "print" 1 := .inl ⟨.print, rfl, rfl⟩
  have hsqrt : Takes falling.memory "sqrt" 1 := .inl ⟨.unary .sqrt, rfl, rfl⟩
  have hnames : ∀ name ∈ ["x", "y", "z", "a", "b", "u", "v"], checkDeclared name = .ok () := by
    decide
  simp only [List.forall_mem_cons] at hnames
  have hpi : Spells "PI" 3.141592653589793 ∧ Spells "π" 3.141592653589793 := ⟨.inr rfl, .inr rfl⟩
  simp [nestedForms, Written, WrittenAll, WrittenBindings, binders, hfall, hlog, hprint,
    hsqrt, hnames, hpi]

/-- Nothing in the tree is refused. -/
theorem statements_nest_falling :
    Reachable falling ∧ nestedForms.Written falling.memory [] ∧
      ∃ e n, parse nestedForms.window falling.memory = .ok e n ∧
        Linked falling.memory.registry [] falling.memory.slots.size nestedForms.phrase e
          n.slots.size := by
  refine ⟨reachable_falling, written_nestedForms, ?_⟩
  rcases statements_nest reachable_falling written_nestedForms with h | ⟨fault, n, h, -⟩
  · exact h
  · have hok : (outcome (parse nestedForms.window falling.memory)).isOk = true := by
      decide +kernel
    obtain ⟨e, n', hparse⟩ := ok_of_isOk hok
    cases h.symm.trans hparse

end Session
end LineLang
