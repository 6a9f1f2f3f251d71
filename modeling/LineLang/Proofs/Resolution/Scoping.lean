import LineLang.Phrase.Unfold
import LineLang.Proofs.Layout
import LineLang.Proofs.Resolution.Allotment

/-!
# Lexical scoping

Where a variable is used in an expression that was read, it is the one of the innermost binder of
its name that is in force there.

- `Read`                : an expression that was read in a scope
- `Read.parts`          : its parts were read in the scope, with the bindings before them
- `introduces_around`   : the binders in force inside a part
- `Read.found`          : how a variable was found
- `Lexical`             : lexical scoping of an expression
- `lexical_of_linked`   : an expression that was read is lexically scoped
-/

namespace LineLang

def Read (functions : List (String × FunctionId)) (Γ : List (String × SlotId)) (e : Expr) : Prop :=
  ∃ w lo hi, Linked functions Γ lo (Phrase.ofWindow w) e hi

/-- What is known of an expression that was read: each part was read with the bindings before it in
force, bindings have names that may be declared, and variables were found. -/
structure ReadParts (functions : List (String × FunctionId)) (Γ : List (String × SlotId))
    (e : Expr) : Prop where
  child : ∀ j c, e.children[j]? = some c → Read functions (bound (e.ownDeclarations.take j) ++ Γ) c
  declared : ∀ d ∈ e.ownDeclarations, checkDeclared d.name = .ok ()
  lookup : ∀ r, e.Uses [] r → Γ.lookup r.name = some r.slot

section Parts

variable {functions : List (String × FunctionId)} {Γ Δ : List (String × SlotId)} {lo hi : Nat}
variable {e : Expr}

/-- An expression without bindings of its own. -/
theorem ReadParts.of_plain (hown : e.ownDeclarations = [])
    (hchildren : ∀ c ∈ e.children, Read functions Γ c)
    (huses : ∀ r, e.Uses [] r → Γ.lookup r.name = some r.slot) : ReadParts functions Γ e where
  child j c hc := by
    rw [hown, List.take_nil]
    exact hchildren c (List.mem_of_getElem? hc)
  declared d hd := by
    rw [hown] at hd
    cases hd
  lookup := huses

/-- Only a variable or an assignment uses variables itself. -/
theorem not_uses_nil {r : Reference} (hvariable : ∀ r, e ≠ .variable r)
    (hassign : ∀ rs v, e ≠ .assign rs v) : ¬ e.Uses [] r := by
  intro h
  cases h with
  | read h => exact hvariable r (Option.some.inj h)
  | assign h _ => exact hassign _ _ (Option.some.inj h)

/-- Every argument was read from its window, with the same variables in force. -/
theorem LinkedAll.read {ws : List Window} {es : List Expr}
    (h : LinkedAll functions Γ lo (ws.map Phrase.ofWindow) es hi) :
    ∀ c ∈ es, Read functions Γ c := by
  induction ws generalizing lo es with
  | nil =>
      cases h
      exact nofun
  | cons w ws ih =>
      cases h with
      | cons hw hws => exact List.forall_mem_cons.2 ⟨⟨w, _, _, hw⟩, ih hws⟩

/-- The initializers of bindings were read with the bindings before them in force. -/
theorem LinkedClauses.read {ws : List Window} {ds : List (Declaration Expr)}
    (h : LinkedClauses functions Γ lo
      ((ws.map Layout.clause).map (·.map Phrase.ofWindow)) ds Δ hi) :
    ∀ j d, ds[j]? = some d →
      checkDeclared d.name = .ok () ∧ Read functions (bound (ds.take j) ++ Γ) d.initializer := by
  induction ws generalizing Γ lo ds with
  | nil =>
      cases h
      exact nofun
  | cons w ws ih =>
      cases hclause : Layout.clause w with
      | malformed r =>
          rw [List.map_cons, List.map_cons, hclause] at h
          cases h
      | binding declared name i =>
          have hchecked := (Layout.clause_binding hclause).1
          rw [List.map_cons, List.map_cons, hclause] at h
          cases h with
          | cons hi _ _ htail =>
              -- The name of the first clause is in scope in all later ones.
              intro j d hd
              cases j with
              | zero =>
                  cases hd
                  exact ⟨hchecked, i, _, _, hi⟩
              | succ j =>
                  rw [List.take_succ_cons, bound_cons]
                  exact ih htail j d hd

/-- A call of a function of the language has its arguments as parts. -/
theorem children_builtinCall {b : Builtin} {es : List Expr}
    (h : Resolution.builtinCall b es = some e) :
    e.children = es ∧ e.ownDeclarations = [] ∧ ∀ r, ¬ e.Uses [] r := by
  unfold Resolution.builtinCall at h
  split at h <;> cases h <;> exact ⟨rfl, rfl, fun _ => not_uses_nil nofun nofun⟩

/-- A form hands the variables in force on to its parts. Only a `let` adds to them. -/
theorem Layout.Covers.readParts {l : Layout} {w : Window} (hl : l.Covers w)
    (hinside : ∀ v ∈ l.windows, Linked functions Γ lo (Phrase.ofWindow v) e hi →
      ReadParts functions Γ e) (h : Linked functions Γ lo (l.build Phrase.ofWindow) e hi) :
    ReadParts functions Γ e := by
  cases hl with
  | malformed => cases h
  | number | boolean | text =>
      cases h
      exact .of_plain rfl nofun fun r hr => absurd hr (not_uses_nil nofun nofun)
  | name =>
      cases h with
      | name hlookup =>
          refine .of_plain rfl nofun fun r hr => ?_
          cases hr with
          | read hr =>
              cases hr
              exact hlookup
          | assign hr _ => cases hr
  | prefixed _ =>
      cases h with
      | prefixed he =>
          refine .of_plain rfl (List.forall_mem_singleton.2 ⟨_, _, _, he⟩) ?_
          exact fun r hr => absurd hr (not_uses_nil nofun nofun)
  | infixed _ =>
      cases h with
      | infixed hl hr =>
          refine .of_plain rfl
            (List.forall_mem_cons.2 ⟨⟨_, _, _, hl⟩, List.forall_mem_singleton.2 ⟨_, _, _, hr⟩⟩) ?_
          exact fun r hr => absurd hr (not_uses_nil nofun nofun)
  | parenthesized => exact hinside _ (List.mem_singleton.2 rfl) h
  | @assignment ws v =>
      generalize ws.map target = ts at h
      cases h with
      | assignment hlookup he =>
          refine .of_plain rfl (List.forall_mem_singleton.2 ⟨_, _, _, he⟩) fun r hr => ?_
          cases hr with
          | read hr => cases hr
          | assign hr hmem =>
              cases hr
              exact hlookup r hmem
  | @call f ws =>
      cases h with
      | builtin _ he hes =>
          rcases children_builtinCall he with ⟨hchildren, hown, huses⟩
          exact .of_plain hown (hchildren ▸ hes.read) fun r hr => absurd hr (huses r)
      | call _ _ hes =>
          exact .of_plain rfl hes.read fun r hr => absurd hr (not_uses_nil nofun nofun)
  | conditional =>
      cases h with
      | conditional hc ht he =>
          refine .of_plain rfl ?_ fun r hr => absurd hr (not_uses_nil nofun nofun)
          refine List.forall_mem_cons.2 ⟨⟨_, _, _, hc⟩, List.forall_mem_cons.2 ⟨⟨_, _, _, ht⟩, ?_⟩⟩
          exact List.forall_mem_singleton.2 ⟨_, _, _, he⟩
  | @letIn ws b =>
      generalize hclauses : (ws.map clause).map (·.map Phrase.ofWindow) = cs at h
      cases h with
      | @letIn _ _ _ ds Δ _ _ body _ hds hb =>
          subst hclauses
          have hread := hds.read
          refine ⟨fun j c hc => ?_, fun d hd => ?_, fun r hr =>
            absurd hr (not_uses_nil nofun nofun)⟩
          · -- The part is an initializer, or it is the body.
            have hchild : (ds.map (·.initializer) ++ [body])[j]? = some c := hc
            rw [List.getElem?_append] at hchild
            split at hchild
            · rw [List.getElem?_map, Option.map_eq_some_iff] at hchild
              rcases hchild with ⟨d, hd, rfl⟩
              exact (hread j d hd).2
            · next hlen =>
                rw [List.length_map] at hlen
                have hbody : c = body := by
                  have hmem := List.mem_of_getElem? hchild
                  exact List.mem_singleton.1 hmem
                have htake : Expr.ownDeclarations (.letIn ds body) = ds := rfl
                rw [hbody, htake, List.take_of_length_le (Nat.le_of_not_lt hlen), ← hds.bindings]
                exact ⟨b, _, _, hb⟩
          · rcases List.getElem?_of_mem hd with ⟨j, hj⟩
            exact (hread j d hj).1

/-- The parts of an expression that was read. -/
theorem Read.parts (h : Read functions Γ e) : ReadParts functions Γ e := by
  rcases h with ⟨w, lo, hi, h⟩
  -- Parentheses are not part of the expression, so that the same expression is read from a shorter
  -- window.
  induction hn : w.length using Nat.strong_induction_on generalizing w with
  | _ n ih =>
      subst hn
      rw [Phrase.ofWindow_eq] at h
      refine (Layout.covers_ofWindow w).readParts (fun v hv h => ?_) h
      exact ih v.length (Layout.length_lt_of_mem_windows hv) v h rfl

end Parts

/-! ## Binders -/

section Binders

variable {functions : List (String × FunctionId)} {Γ : List (String × SlotId)} {e : Expr}

/-- No binding has a name that may not be declared. -/
theorem Read.declared {b : Binder} {x : String} {t : SlotId} (h : Read functions Γ e)
    (hb : Introduces [] e b x t) : checkDeclared x = .ok () := by
  rcases introduces_nil hb with ⟨π, i, rfl⟩
  induction π generalizing e Γ with
  | nil =>
      rcases introduces_here.1 hb with ⟨d, hd, rfl, -⟩
      exact h.parts.declared d (List.mem_of_getElem? hd)
  | cons j π ih =>
      rcases introduces_cons.1 hb with ⟨c, hc, hb⟩
      exact ih (h.parts.child j c hc) hb

theorem lookup_bound_none {ds : List (Declaration Expr)} {x : String}
    (h : (bound ds).lookup x = none) : ∀ d ∈ ds, d.name ≠ x := by
  intro d hd hx
  have hmem : (d.name, d.slot) ∈ bound ds := List.mem_reverse.2 (List.mem_map.2 ⟨d, hd, rfl⟩)
  have hne := List.lookup_eq_none_iff.1 h _ hmem
  simp [hx] at hne

/-- Of the bindings of a name, the last one is found. -/
theorem lookup_bound_some {ds : List (Declaration Expr)} {x : String} {t : SlotId}
    (h : (bound ds).lookup x = some t) :
    ∃ (i : Nat) (d : Declaration Expr), ds[i]? = some d ∧ d.name = x ∧
      d.slot = t ∧ ∀ (k : Nat) (d' : Declaration Expr), i < k → ds[k]? = some d' → d'.name ≠ x := by
  induction ds with
  | nil => cases h
  | cons d ds ih =>
      have hcons : bound (d :: ds) = bound ds ++ [(d.name, d.slot)] := by
        simp [bound]
      -- Later bindings are looked up before the first.
      rw [hcons, List.lookup_append] at h
      cases hlater : (bound ds).lookup x with
      | some u =>
          rw [hlater] at h
          cases h
          rcases ih hlater with ⟨i, d', hi, hname, hslot, hlast⟩
          refine ⟨i + 1, d', hi, hname, hslot, fun k d'' hk hd'' => ?_⟩
          cases k with
          | zero => exact absurd hk (Nat.not_lt_zero _)
          | succ k => exact hlast k d'' (Nat.lt_of_succ_lt_succ hk) hd''
      | none =>
          rw [hlater] at h
          have hnames := lookup_bound_none hlater
          rcases List.lookup_eq_some_iff.1 h with ⟨l₁, l₂, hl, -⟩
          have hmem : (x, t) ∈ [(d.name, d.slot)] := by
            rw [hl]
            simp
          cases List.mem_singleton.1 hmem
          refine ⟨0, d, rfl, rfl, rfl, fun k d' hk hd' => ?_⟩
          cases k with
          | zero => exact absurd hk (Nat.lt_irrefl 0)
          | succ k => exact hnames d' (List.mem_of_getElem? hd')

def Free (e : Expr) (x : String) (π : Place) : Prop :=
  ∀ b t, Introduces [] e b x t → π ∉ b.scope

/-- A binder in force inside a part is a binding before the part, or one inside it. -/
theorem introduces_around {c : Expr} {j : Nat} {π : Place} {x : String} {t : SlotId} {b : Binder}
    (hc : e.children[j]? = some c) (hb : Introduces [] e b x t) (hπ : j :: π ∈ b.scope) :
    (∃ (k : Nat) (d : Declaration Expr), b = .declaration [] k ∧ k < j ∧
      e.ownDeclarations[k]? = some d ∧ d.name = x) ∨
    ∃ ρ i, b = .declaration (j :: ρ) i ∧ Introduces [] c (.declaration ρ i) x t ∧
      π ∈ (Binder.declaration ρ i).scope := by
  rcases introduces_nil hb with ⟨ρ, i, rfl⟩
  cases ρ with
  | nil =>
      rcases introduces_here.1 hb with ⟨d, hd, hname, -⟩
      exact .inl ⟨i, d, rfl, Binder.mem_scope_here.1 hπ, hd, hname⟩
  | cons k ρ =>
      rcases Binder.cons_mem_scope.1 hπ with ⟨rfl, hinside⟩
      rcases introduces_cons.1 hb with ⟨c', hc', hb'⟩
      cases hc.symm.trans hc'
      exact .inr ⟨ρ, i, rfl, hb', hinside⟩

/-- What was found in a part is also found in the whole, where only bindings around the part may
come in addition. -/
theorem Innermost.cons {c : Expr} {j : Nat} {π : Place} {x : String} {t : SlotId} {b : Binder}
    (hc : e.children[j]? = some c) (h : Innermost [] c x π t b) :
    ∃ b', Innermost [] e x (j :: π) t b' := by
  rcases introduces_nil h.introduces with ⟨ρ, i, rfl⟩
  refine ⟨.declaration (j :: ρ) i, introduces_cons.2 ⟨c, hc, h.introduces⟩,
    Binder.cons_mem_scope.2 ⟨rfl, h.inForce⟩, fun b' t' hb' hπ => ?_⟩
  rcases introduces_around hc hb' hπ with ⟨k, d, rfl, hk, -, -⟩ | ⟨ρ', i', rfl, hb', hinside⟩
  · exact .inr (Binder.scope_inside hk)
  · rcases h.least _ t' hb' hinside with heq | hscope
    · cases heq
      exact .inl rfl
    · exact .inr (Binder.scope_cons hscope j)

/-- If nothing inside is in force, the last binding of the name before the part is the innermost
one. -/
theorem innermost_here {c : Expr} {i j : Nat} {π : Place} {x : String} {d : Declaration Expr}
    (hc : e.children[j]? = some c) (hfree : Free c x π) (hi : i < j)
    (hd : e.ownDeclarations[i]? = some d) (hname : d.name = x)
    (hlast : ∀ k d', i < k → k < j → e.ownDeclarations[k]? = some d' → d'.name ≠ x) :
    Innermost [] e x (j :: π) d.slot (.declaration [] i) := by
  refine ⟨introduces_here.2 ⟨d, hd, hname, rfl⟩, Binder.mem_scope_here.2 hi, fun b' t' hb' hπ => ?_⟩
  rcases introduces_around hc hb' hπ with ⟨k, d', rfl, hk, hd', hname'⟩ | ⟨ρ, k, rfl, hb', hinside⟩
  · rcases Nat.lt_trichotomy k i with hlt | rfl | hgt
    · exact .inr (Binder.scope_later hlt)
    · exact .inl rfl
    · exact absurd hname' (hlast k d' hgt hk hd')
  · exact absurd hinside (hfree _ t' hb')

/-- A name that is free in a part and not bound before it is free at the place. -/
theorem Free.cons {c : Expr} {j : Nat} {π : Place} {x : String} (hc : e.children[j]? = some c)
    (hfree : Free c x π) (hnames : ∀ d ∈ e.ownDeclarations.take j, d.name ≠ x) :
    Free e x (j :: π) := by
  intro b t hb hπ
  rcases introduces_around hc hb hπ with ⟨k, d, rfl, hk, hd, hname⟩ | ⟨ρ, i, rfl, hb, hinside⟩
  · have htake : (e.ownDeclarations.take j)[k]? = some d := by
      rw [List.getElem?_take_of_lt hk, hd]
    exact hnames d (List.mem_of_getElem? htake) hname
  · exact hfree _ t hb hinside

/-- A variable that is used is the one of its innermost binding, or it is free and was in force
before. -/
theorem Read.found {π : Place} {r : Reference} (h : Read functions Γ e) (hr : e.Uses π r) :
    (∃ b, Innermost [] e r.name π r.slot b) ∨ Free e r.name π ∧ Γ.lookup r.name = some r.slot := by
  induction π generalizing e Γ with
  | nil =>
      refine .inr ⟨fun b t hb hπ => ?_, h.parts.lookup r hr⟩
      rcases introduces_nil hb with ⟨ρ, i, rfl⟩
      exact Binder.nil_notMem_scope hπ
  | cons j π ih =>
      rcases Expr.uses_cons hr with ⟨c, hc, hr⟩
      rcases ih (h.parts.child j c hc) hr with ⟨b, hb⟩ | ⟨hfree, hlookup⟩
      · exact .inl (hb.cons hc)
      -- Free in the part: the bindings before the part come first, and then what was in force
      -- outside.
      rw [List.lookup_append] at hlookup
      cases hbound : (bound (e.ownDeclarations.take j)).lookup r.name with
      | some t =>
          rw [hbound] at hlookup
          cases hlookup
          rcases lookup_bound_some hbound with ⟨i, d, hd, hname, hslot, hlast⟩
          have hi : i < j := by
            have hlt := (List.getElem?_eq_some_iff.1 hd).1
            exact Nat.lt_of_lt_of_le hlt (List.length_take_le j _)
          rw [List.getElem?_take_of_lt hi] at hd
          refine .inl
            ⟨.declaration [] i,
            hslot ▸ innermost_here hc hfree hi hd hname fun k d' hk hkj hd' => ?_⟩
          exact hlast k d' hk (by rw [List.getElem?_take_of_lt hkj, hd'])
      | none =>
          rw [hbound] at hlookup
          exact .inr ⟨hfree.cons hc (lookup_bound_none hbound), hlookup⟩

end Binders

/-! ## Parameters -/

section Parameters

variable {parameters : List (String × SlotId)} {e : Expr} {x : String} {t : SlotId} {π : Place}

theorem introduces_declaration {ρ : Place} {i : Nat}
    (h : Introduces parameters e (.declaration ρ i) x t) :
    Introduces [] e (.declaration ρ i) x t := by
  cases h with
  | declaration hρ hd => exact .declaration hρ hd

/-- Parameters are around all bindings. -/
theorem Innermost.withParameters {b : Binder} (h : Innermost [] e x π t b) :
    Innermost parameters e x π t b := by
  rcases introduces_nil h.introduces with ⟨ρ, i, rfl⟩
  refine ⟨?_, h.inForce, fun b' t' hb' hπ => ?_⟩
  · cases h.introduces with
    | declaration hρ hd => exact .declaration hρ hd
  · cases b' with
    | parameter k => exact .inr Binder.scope_parameter
    | declaration ρ' k => exact h.least _ t' (introduces_declaration hb') hπ

/-- A name that no binding has is the one of a parameter. -/
theorem innermost_parameter (hnames : (parameters.map Prod.fst).Nodup) (hfree : Free e x π)
    (h : parameters.lookup x = some t) : ∃ b, Innermost parameters e x π t b := by
  rcases List.lookup_eq_some_iff.1 h with ⟨l₁, l₂, hl, -⟩
  have hmem : (x, t) ∈ parameters := by simp [hl]
  rcases List.getElem?_of_mem hmem with ⟨i, hi⟩
  refine ⟨.parameter i, .parameter hi, Set.mem_univ π, fun b' t' hb' hπ => ?_⟩
  cases b' with
  | declaration ρ k => exact absurd hπ (hfree _ t' (introduces_declaration hb'))
  | parameter k =>
      -- Different parameters have different names.
      cases hb' with
      | parameter hk =>
          have hname : (parameters.map Prod.fst)[i]? = some x := by simp [hi]
          have hname' : (parameters.map Prod.fst)[k]? = some x := by simp [hk]
          have hlt := (List.getElem?_eq_some_iff.1 hname).1
          rw [(List.getElem?_inj hlt hnames).1 (hname.trans hname'.symm)]
          exact .inl rfl

end Parameters

/-! ## Lexical scoping -/

/-- Names are scoped lexically in the expression, which may be the body of a function with
parameters. The storage was `base` before it was read and is `m` now. -/
structure Lexical (base m : Memory) (parameters : List (String × SlotId)) (e : Expr) : Prop where
  /-- A variable that is read or assigned has the slot of its innermost binder. -/
  resolves : ∀ π r, e.Uses π r → ∃ b, Innermost parameters e r.name π r.slot b
  distinct : ∀ b b' x x' t, Introduces parameters e b x t → Introduces parameters e b' x' t → b = b'
  fresh : ∀ b x t, Introduces parameters e b x t → base.slots.size ≤ t ∧ t < m.slots.size
  named : ∀ b x t, Introduces parameters e b x t →
    isIdentifier x = true ∧ constant? x = none ∧ Builtin.ofName? x = none
  flagged : ∀ π r, e.Uses π r → r.dependent = (m.slot r.slot).dependent
  /-- The slot of a binding is flagged as its initializer is. -/
  initialized : ∀ π ds body d, e.at? π = some (.letIn ds body) → d ∈ ds →
    (m.slot d.slot).dependent = d.initializer.isDependent

/-- Parameters that may be declared, with different names and the first slots after the storage
`base`. -/
structure Parameters (base : Memory) (parameters : List (String × SlotId)) : Prop where
  names : (parameters.map Prod.fst).Nodup
  slots : parameters.map Prod.snd = List.range' base.slots.size parameters.length
  declared : ∀ p ∈ parameters, checkDeclared p.1 = .ok ()

theorem Parameters.slot {base : Memory} {parameters : List (String × SlotId)}
    (h : Parameters base parameters) {i : Nat} {x : String} {t : SlotId}
    (hi : parameters[i]? = some (x, t)) : base.slots.size + i = t ∧ i < parameters.length := by
  have hlt := (List.getElem?_eq_some_iff.1 hi).1
  have hslot : (parameters.map Prod.snd)[i]? = some t := by simp [hi]
  rw [h.slots, List.getElem?_range' hlt] at hslot
  exact ⟨by simpa using hslot, hlt⟩

section Lexical

variable {base m : Memory} {parameters : List (String × SlotId)} {e : Expr}

/-- The flags of variables are those of their slots. -/
theorem Memory.Resolved.flagged {owner : SlotId → FunctionId} {o : FunctionId} {Γ : Set SlotId}
    {π : Place} {r : Reference} (h : m.Resolved owner o Γ e) (hr : e.Uses π r) :
    r.dependent = (m.slot r.slot).dependent := by
  cases hr with
  | read hπ => exact (h.every _ (Expr.mem_parts_of_at? hπ)).marked
  | assign hπ hr => exact (h.every _ (Expr.mem_parts_of_at? hπ)).marked r hr

theorem Memory.Resolved.initialized {owner : SlotId → FunctionId} {o : FunctionId} {Γ : Set SlotId}
    {π : Place} {ds : List (Declaration Expr)} {body : Expr} {d : Declaration Expr}
    (h : m.Resolved owner o Γ e) (hπ : e.at? π = some (.letIn ds body)) (hd : d ∈ ds) :
    (m.slot d.slot).dependent = d.initializer.isDependent := by
  have hmarked := (h.every _ (Expr.mem_parts_of_at? hπ)).marked d hd
  exact hmarked.2.trans hmarked.1

section Linked

variable {functions : List (String × FunctionId)} {w : Window} {b b' : Binder} {x x' : String}
variable {t : SlotId}

/-- The slots of bindings come after those of the parameters. -/
theorem Linked.slot_bounds {ρ : Place} {i : Nat}
    (hlinked : Linked functions parameters (base.slots.size + parameters.length)
      (Phrase.ofWindow w) e m.slots.size)
    (h : Introduces parameters e (.declaration ρ i) x t) :
    base.slots.size + parameters.length ≤ t ∧ t < m.slots.size :=
  hlinked.ascending.within t (introduces_declaration h).slot_mem

/-- All binders are new. -/
theorem Parameters.fresh (hparameters : Parameters base parameters)
    (hlinked : Linked functions parameters (base.slots.size + parameters.length)
      (Phrase.ofWindow w) e m.slots.size)
    (hb : Introduces parameters e b x t) : base.slots.size ≤ t ∧ t < m.slots.size := by
  cases b with
  | declaration ρ i =>
      rcases hlinked.slot_bounds hb with ⟨hle, hlt⟩
      exact ⟨(Nat.le_add_right _ _).trans hle, hlt⟩
  | parameter i =>
      cases hb with
      | parameter hi =>
          rcases hparameters.slot hi with ⟨rfl, hlt⟩
          exact ⟨Nat.le_add_right _ _, (Nat.add_lt_add_left hlt _).trans_le hlinked.ascending.le⟩

/-- A parameter shares its slot with no other binder. -/
theorem Parameters.distinct (hparameters : Parameters base parameters)
    (hlinked : Linked functions parameters (base.slots.size + parameters.length)
      (Phrase.ofWindow w) e m.slots.size)
    {i : Nat} (hi : parameters[i]? = some (x, t)) (hb' : Introduces parameters e b' x' t) :
    b' = .parameter i := by
  have hslot := hparameters.slot hi
  cases b' with
  | declaration ρ i' =>
      have hle := (hlinked.slot_bounds hb').1
      omega
  | parameter i' =>
      cases hb' with
      | parameter hi' =>
          have hslot' := hparameters.slot hi'
          have heq : i' = i := by omega
          rw [heq]

/-- Different binders have different slots. -/
theorem binders_distinct (hparameters : Parameters base parameters)
    (hlinked : Linked functions parameters (base.slots.size + parameters.length)
      (Phrase.ofWindow w) e m.slots.size)
    (hb : Introduces parameters e b x t) (hb' : Introduces parameters e b' x' t) : b = b' := by
  cases b with
  | parameter i =>
      cases hb with
      | parameter hi => exact (hparameters.distinct hlinked hi hb').symm
  | declaration ρ i =>
      cases b' with
      | parameter i' =>
          cases hb' with
          | parameter hi => exact hparameters.distinct hlinked hi hb
      | declaration ρ' i' =>
          exact introduces_distinct hlinked.ascending.nodup (introduces_declaration hb)
            (introduces_declaration hb')

/-- An expression that was read is lexically scoped. -/
theorem lexical_of_linked {owner : SlotId → FunctionId} {o : FunctionId} {Γ : Set SlotId}
    (hparameters : Parameters base parameters)
    (hlinked : Linked functions parameters (base.slots.size + parameters.length)
      (Phrase.ofWindow w) e m.slots.size)
    (hresolved : m.Resolved owner o Γ e) : Lexical base m parameters e where
  resolves π r hr := by
    have hread : Read functions parameters e := ⟨w, _, _, hlinked⟩
    rcases hread.found hr with ⟨b, hb⟩ | ⟨hfree, hlookup⟩
    · exact ⟨b, hb.withParameters⟩
    · exact innermost_parameter hparameters.names hfree hlookup
  distinct _ _ _ _ _ hb hb' := binders_distinct hparameters hlinked hb hb'
  fresh _ _ _ hb := hparameters.fresh hlinked hb
  named b x t hb := by
    have hread : Read functions parameters e := ⟨w, _, _, hlinked⟩
    apply checkDeclared_eq_ok.1
    cases b with
    | declaration ρ i => exact hread.declared (introduces_declaration hb)
    | parameter i =>
        cases hb with
        | parameter hi => exact hparameters.declared _ (List.mem_of_getElem? hi)
  flagged _ _ hr := hresolved.flagged hr
  initialized _ _ _ _ hπ hd := hresolved.initialized hπ hd

end Linked

/-- The storage matters by its slots only. -/
theorem Lexical.of_slots {n : Memory} (h : Lexical base m parameters e)
    (hslots : n.slots = m.slots) : Lexical base n parameters e := by
  have hslot : n.slot = m.slot := by
    funext t
    rw [Memory.slot, Memory.slot, hslots]
  refine ⟨h.resolves, h.distinct, ?_, h.named, ?_, ?_⟩
  · rw [hslots]
    exact h.fresh
  · rw [hslot]
    exact h.flagged
  · rw [hslot]
    exact h.initialized

/-- A declaration has no parts that could use a variable. -/
theorem lexical_declaration {name : String} {f : FunctionId} :
    Lexical base m [] (.declaration name f) := by
  -- A declaration has no part but itself.
  have hpart : ∀ {π p}, (Expr.declaration name f).at? π = some p →
      p = .declaration name f := fun h =>
    List.mem_singleton.1 (Expr.mem_parts_of_at? h)
  have huse : ∀ {π r}, ¬ (Expr.declaration name f).Uses π r := by
    intro π r h
    cases h with
    | read hπ => cases hpart hπ
    | assign hπ hr => cases hpart hπ
  have hbinder : ∀ {b x t}, ¬ Introduces [] (.declaration name f) b x t := by
    intro b x t h
    cases h with
    | parameter hi => cases hi
    | declaration hπ hd => cases hpart hπ
  exact ⟨fun _ _ h => absurd h huse, fun _ _ _ _ _ h => absurd h hbinder, fun _ _ _ h =>
    absurd h hbinder,
    fun _ _ _ h => absurd h hbinder, fun _ _ h => absurd h huse, fun _ _ _ _ h => nomatch hpart h⟩

end Lexical

end LineLang
