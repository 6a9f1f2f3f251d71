import LineLang.Proofs.Renaming.Activation
import LineLang.Proofs.Resolution.Opening

/-!
# Reading with other handles

A phrase is read in two storages, of which one is found in the other with other handles. The
variables in force hold the same, so both readings come to the same expression up to its handles, or
to the same fault.

- `Scope.rename`                 : the scope with other handles
- `Scope.Copied`                 : the variables in force hold the same in both storages
- `Scope.Paired`                 : besides, a phrase may be read in both
- `Resolution.resolveWith_alike` : a phrase is read alike
- `Resolution.resolveWith_called`  : all functions that are called are known
-/

namespace LineLang

open Effect Activation

def CalledIn (N : Set String) (names : List String) : Prop :=
  ∀ name ∈ names, Builtin.ofName? name = none → name ∈ N

theorem calledIn_append {N : Set String} {names names' : List String} :
    CalledIn N (names ++ names') ↔ CalledIn N names ∧ CalledIn N names' :=
  List.forall_mem_append

theorem calledIn_cons {N : Set String} {name : String} {names : List String} :
    CalledIn N (name :: names) ↔ (Builtin.ofName? name = none → name ∈ N) ∧ CalledIn N names :=
  List.forall_mem_cons

namespace Scope

variable {ρ : Renaming} {N : Set String} {owner owner' : SlotId → FunctionId}
variable {base base' m m' : Memory} {scope inner : Scope} {t : SlotId}

def rename (ρ : Renaming) (s : Scope) : Scope where
  bindings := s.bindings.map fun p => (p.1, ρ.slot p.2)
  declaring := s.declaring.map fun p => (p.1, ρ.function p.2)

/-- A name is found in both scopes or in neither. -/
theorem lookup_rename (s : Scope) (name : String) :
    (s.rename ρ).bindings.lookup name = (s.bindings.lookup name).map ρ.slot := by
  show (s.bindings.map fun p => (p.1, ρ.slot p.2)).lookup name = _
  induction s.bindings with
  | nil => rfl
  | cons p ps ih =>
      rcases p with ⟨x, t⟩
      simp only [List.map_cons, List.lookup_cons, ih]
      cases name == x <;> rfl

/-- The same variables are in force. -/
theorem mem_slots_rename : ρ.slot t ∈ (scope.rename ρ).slots ↔ t ∈ scope.slots := by
  constructor
  · rintro ⟨name, h⟩
    rcases List.mem_map.1 h with ⟨⟨x, u⟩, hu, heq⟩
    rcases Prod.mk.inj heq with ⟨rfl, hslot⟩
    exact ⟨x, ρ.slot_injective hslot ▸ hu⟩
  · rintro ⟨name, h⟩
    exact ⟨name, List.mem_map_of_mem (f := fun p => (p.1, ρ.slot p.2)) h⟩

/-- The storage `m` is found in `m'`, and the variables in force hold the same unless they are
dependent. -/
structure Copied (ρ : Renaming) (N : Set String) (s : Scope) (m m' : Memory) : Prop where
  renamed : m.Renamed ρ N m'
  contents : ∀ t ∈ m.fixed s.slots, m'.content (ρ.slot t) = (m.content t).rename ρ

namespace Copied

theorem mem_fixed (h : scope.Copied ρ N m m') :
    ρ.slot t ∈ m'.fixed (scope.rename ρ).slots ↔ t ∈ m.fixed scope.slots := by
  simp only [Memory.fixed, Set.mem_ofPred_eq, mem_slots_rename, h.renamed.dependent]

/-- What the variables in force hold is the same up to handles. -/
theorem record (h : scope.Copied ρ N m m') (t : SlotId) :
    (scope.rename ρ).record m' (ρ.slot t) = (scope.record m t).rename ρ := by
  by_cases ht : t ∈ m.fixed scope.slots
  · rw [record_of_mem ht, record_of_mem (h.mem_fixed.2 ht), h.contents t ht]
  · have hleft : scope.record m t = .uninitialized := by_contra fun hset => ht (mem_of_record hset)
    have hright : (scope.rename ρ).record m' (ρ.slot t) = .uninitialized :=
      by_contra fun hset => ht (h.mem_fixed.1 (mem_of_record hset))
    rw [hleft, hright]
    rfl

/-- Fewer variables are in force. -/
theorem outer (h : inner.Copied ρ N m m') (hslots : scope.slots ⊆ inner.slots) :
    scope.Copied ρ N m m' where
  renamed := h.renamed
  contents t ht := h.contents t ⟨hslots ht.1, ht.2⟩

/-- A new variable comes into force and is set alike. -/
theorem put (h : scope.Copied ρ N m m') (name : String) (ht : t < m.slots.size) (c : Content) :
    (scope.bind name t).Copied ρ N (m.replace t c) (m'.replace (ρ.slot t) (c.rename ρ)) where
  renamed := h.renamed.replace t (ρ.slot t) c (c.rename ρ)
  contents u hu := by
    by_cases hut : u = t
    · subst hut
      rw [Memory.content_replace_self ht, Memory.content_replace_self (h.renamed.slot_lt ht)]
    · have hold : u ∈ m.fixed scope.slots := by
        rcases hu with ⟨hu, hdependent⟩
        rw [slots_bind] at hu
        exact ⟨hu.resolve_left hut,
          (congrArg (·.dependent) Memory.shape_replace).symm.trans hdependent⟩
      rw [Memory.content_replace_of_ne hut, Memory.content_replace_of_ne (ρ.slot_injective.ne hut)]
      exact h.contents u hold

end Copied

/-- The phrase that stands in the scope may be read in both storages, which were `base` and `base'`
before the instruction. -/
structure Paired (ρ : Renaming) (N : Set String) (owner owner' : SlotId → FunctionId)
    (base base' : Memory) (s : Scope) (m m' : Memory) : Prop extends s.Copied ρ N m m' where
  left : s.Open owner base m
  right : (s.rename ρ).Open owner' base' m'

/-- A new slot does not disturb the variables in force. -/
theorem Paired.allocate (h : scope.Paired ρ N owner owner' base base' m m') {s : Slot}
    (hs : s.content = .uninitialized) :
    scope.Paired ρ N owner owner' base base' (m.allocate s) (m'.allocate s) where
  renamed := h.renamed.allocate s
  contents t ht := by
    rcases ht with ⟨ht, hdependent⟩
    have hlt := (h.left.within.bindings t ht).2
    rw [Memory.slot_allocate_of_lt hlt] at hdependent
    simp only [Memory.content, Memory.slot_allocate_of_lt hlt,
      Memory.slot_allocate_of_lt (h.renamed.slot_lt hlt)]
    exact h.contents t ⟨ht, hdependent⟩
  left := h.left.allocate hs
  right := h.right.allocate hs

/-- An initializer that is not dependent comes to the same over the slots and in the record of the
variables in force, also when stored expressions may be followed deeper. -/
theorem Open.same_outcome {owner : SlotId → FunctionId} {e : Expr} (h : scope.Open owner base m)
    (he : m.Resolved owner base.functions.size scope.slots e) (hd : e.isDependent = false) {n : Nat}
    (hn : Evaluation.depthBound m ≤ n) (mode : Mode) :
    SameOutcome (fun _ => Agrees owner m m.slots.size base.functions.size [] (m.fixed scope.slots))
      (Evaluation.evaluate mode e { memory := m })
      (evaluateWithin m n [] mode e { record := scope.record m }) := by
  have hholds := h.holds he hd n mode
  have hfollows : Follows owner m m.slots.size _ _ := evaluateWithin_follows h.prepared.toCallable n
  have hdepth : Evaluation.evaluateWithin n mode e { memory := m } =
      Evaluation.evaluate mode e { memory := m } :=
    Evaluation.evaluateWithin_eq_evaluate h.working.coherent he.here he.slots hn
  rw [← hdepth]
  exact hfollows.same hholds.here hholds.slots hholds.inScope _ _ hholds.agrees

end Scope

namespace Resolution

variable {ρ : Renaming} {N : Set String} {owner owner' : SlotId → FunctionId}
variable {base base' m m' : Memory} {scope inner : Scope} {e : Expr}

/-! ## Names -/

/-- A name stands for the same variable, with its other handle. -/
theorem reference_alike (h : m.Renamed ρ N m') (scope : Scope) (name : String) :
    Agree (fun r n r' n' => r' = r.rename ρ ∧ n = m ∧ n' = m') (fun _ _ => True)
      (reference scope name m) (reference (scope.rename ρ) name m') := by
  unfold reference
  rw [Scope.lookup_rename]
  cases scope.bindings.lookup name with
  | none => exact .error trivial
  | some t =>
      refine .ok ⟨?_, rfl, rfl⟩
      simp only [Reference.rename, h.dependent]

/-- So do the targets of an assignment. -/
theorem targets_alike (h : m.Renamed ρ N m') (scope : Scope) (names : List Target) :
    Agree (fun rs n rs' n' => rs' = rs.map (·.rename ρ) ∧ n = m ∧ n' = m') (fun _ _ => True)
      (targets scope names m) (targets (scope.rename ρ) names m') := by
  induction names with
  | nil => exact .ok ⟨rfl, rfl, rfl⟩
  | cons t ts ih =>
      rcases t with name | r
      · refine (reference_alike h scope name).bind ?_
        rintro r _ _ _ ⟨rfl, rfl, rfl⟩
        refine ih.bind ?_
        rintro rs _ _ _ ⟨rfl, rfl, rfl⟩
        exact .ok ⟨rfl, rfl, rfl⟩
      · exact .error trivial

theorem builtinCall_rename (b : Builtin) (es : List Expr) :
    builtinCall b (es.map (Expr.rename ρ)) = (builtinCall b es).map (Expr.rename ρ) := by
  rcases es with _ | ⟨e, _ | ⟨e', _ | ⟨e'', es⟩⟩⟩ <;> cases b <;> rfl

/-- A name in `N` stands for the same function, or for none on both sides. -/
theorem callee_alike (h : m.Renamed ρ N m') (scope : Scope) {name : String}
    (hname : Builtin.ofName? name = none → name ∈ N) (es : List Expr) :
    Agree (fun e n e' n' => e' = e.rename ρ ∧ n = m ∧ n' = m') (fun _ _ => True)
      (callee scope name es m) (callee (scope.rename ρ) name (es.map (Expr.rename ρ)) m') := by
  unfold callee
  cases hb : Builtin.ofName? name with
  | some b =>
      simp only [builtinCall_rename, List.length_map]
      cases builtinCall b es with
      | some e => exact .ok ⟨rfl, rfl, rfl⟩
      | none => exact .error trivial
  | none =>
      dsimp only
      refine Agree.bind (Q := fun _ n _ n' => n = m ∧ n' = m')
        (Agree.ofExcept (fun _ _ => ⟨rfl, rfl⟩) trivial) ?_
      rintro _ n _ n' ⟨rfl, rfl⟩
      refine Agree.get_bind ?_
      -- Registered names are looked up alike, and what is left is the function being declared.
      rw [h.lookup name (hname hb)]
      cases n.lookup? name with
      | some id =>
          have hany : (es.map (Expr.rename ρ)).any Expr.isDependent = es.any Expr.isDependent := by
            simp [List.any_map, Function.comp_def]
          refine .ok ⟨?_, rfl, rfl⟩
          rw [hany, Expr.rename, Expr.renameAll_eq]
      | none =>
          unfold Scope.rename
          cases scope.declaring with
          | none => exact .error trivial
          | some p =>
              rcases p with ⟨declaring, id⟩
              by_cases hself : declaring = name
              · simp only [Option.map, hself, if_true]
                refine .ok ⟨?_, rfl, rfl⟩
                rw [Expr.rename, Expr.renameAll_eq]
              · simp only [Option.map, hself, if_false]
                exact .error trivial

/-! ## Bindings -/

/-- An initializer that is evaluated on the way has the same value. -/
theorem probe_alike (h : scope.Paired ρ N owner owner' base base' m m')
    (he : m.Resolved owner base.functions.size scope.slots e)
    (he' : m'.Resolved owner' base'.functions.size (scope.rename ρ).slots (e.rename ρ))
    (hd : e.isDependent = false) :
    Agree (fun v n v' n' => v' = v ∧ scope.Copied ρ N n n') (fun _ _ => True)
      (Evaluation.probe e m) (Evaluation.probe (e.rename ρ) m') := by
  -- At a depth that is enough for both, records may be used instead of the slots.
  have hsame := h.left.same_outcome he hd (Nat.le_max_left _ (Evaluation.depthBound m')) .probe
  have hsame' := h.right.same_outcome he' (by rw [Expr.isDependent_rename, hd])
    (Nat.le_max_right (Evaluation.depthBound m) _) .probe
  have hstart : Activation.Renamed ρ { record := scope.record m }
      { record := (scope.rename ρ).record m' } :=
    ⟨h.record, rfl⟩
  have hcopied := evaluateWithin_copies h.renamed
    (max (Evaluation.depthBound m) (Evaluation.depthBound m')) [] .probe e hstart
  have hagree := hsame.copied hsame' hcopied
  have hconfined := Evaluation.evaluate_confined .probe he.here he.slots
  have hconfined' := Evaluation.evaluate_confined .probe he'.here he'.slots
  unfold Evaluation.probe
  generalize hr : Evaluation.evaluate .probe e { memory := m } = r at hagree ⊢
  generalize hr' : Evaluation.evaluate .probe (e.rename ρ) { memory := m' } = r' at hagree ⊢
  cases hagree with
  | error hprinted => exact .error trivial
  | @ok v s v' s' hboth =>
      rcases hboth with ⟨rfl, b, b', hs, hs', hb⟩
      have hunchanged := (hconfined.of_ok ⟨rfl, h.left.working.coherent⟩ hr).2
      have hunchanged' := (hconfined'.of_ok ⟨rfl, h.right.working.coherent⟩ hr').2
      refine .ok ⟨rfl, h.renamed.unchanged hunchanged hunchanged', fun t ht => ?_⟩
      have hfixed : t ∈ m.fixed scope.slots :=
        ⟨ht.1, (congrArg (·.dependent) (hunchanged.shape t)).symm.trans ht.2⟩
      have hcontent := (hs.record t (hs.inForce hfixed)).2.2
      have hcontent' := (hs'.record _ (hs'.inForce (h.mem_fixed.2 hfixed))).2.2
      rw [hcontent, hcontent', hb.record]

/-- A value is stored on both sides, or refused on both. -/
theorem write_alike (h : scope.Copied ρ N m m') (name : String) {t : SlotId} (ht : t < m.slots.size)
    (v : Value) :
    Agree (fun _ n _ n' => (scope.bind name t).Copied ρ N n n') (fun _ _ => True)
      (static (Effect.update (·.write t v)) m)
        (static (Effect.update (·.write (ρ.slot t) v)) m') := by
  refine Agree.mapError ?_
  simp only [Effect.update, Memory.write, h.renamed.kind, h.renamed.name]
  cases v.expectKind (.variable (m.slot t).name) (m.slot t).kind with
  | ok _ => exact .ok (h.put name ht (.value v))
  | error fault => exact .error trivial

/-- The new slot of a binding is filled alike. -/
theorem fill_alike {d : Declaration Expr} (name : String)
    (h : scope.Paired ρ N owner owner' base base' m m')
    (he : m.Resolved owner base.functions.size scope.slots d.initializer)
    (he' : m'.Resolved owner' base'.functions.size (scope.rename ρ).slots (d.initializer.rename ρ))
    (hd : d.dependent = d.initializer.isDependent) (hlt : d.slot < m.slots.size) :
    Agree (fun _ n _ n' => (scope.bind name d.slot).Copied ρ N n n') (fun _ _ => True)
      (fill d m) (fill (d.rename ρ) m') := by
  by_cases hdependent : d.dependent = true
  · rw [fill_dependent hdependent, fill_dependent (d := d.rename ρ) hdependent]
    exact .ok (h.toCopied.put name hlt (.dependent d.initializer))
  · have hindependent : d.initializer.isDependent = false := by
      rw [← hd]
      simpa using hdependent
    rw [fill, fill, if_neg hdependent,
      if_neg (show ¬ (d.rename ρ).dependent = true from hdependent)]
    refine (probe_alike h he he' hindependent).mapError.known.bind ?_
    rintro v n _ n' ⟨⟨rfl, hn⟩, hprobe, -⟩
    have hsize := ((probe_steps h.left.working he).of_ok rfl hprobe).1.size
    exact write_alike hn name (Nat.lt_of_lt_of_le hlt hsize) _

/-- A binding gets its slot alike. -/
theorem declareWith_alike {declared : Option Kind} {name : String}
    (h : scope.Paired ρ N owner owner' base base' m m')
    (he : m.Resolved owner base.functions.size scope.slots e)
    (he' : m'.Resolved owner' base'.functions.size (scope.rename ρ).slots (e.rename ρ)) :
    Agree (fun d n d' n' => d' = d.rename ρ ∧
        (scope.bind name d.slot).Paired ρ N owner owner' base base' n n') (fun _ _ => True)
      (declareWith fill declared name e m) (declareWith fill declared name (e.rename ρ) m') := by
  -- The two runs allocate slots that the renaming takes to each other. That the scopes stay open is
  -- known of each run by itself.
  have hcopied : Agree (fun d n d' n' => d' = d.rename ρ ∧ (scope.bind name d.slot).Copied ρ N n n')
      (fun _ _ => True) (declareWith fill declared name e m)
      (declareWith fill declared name (e.rename ρ) m') := by
    unfold declareWith
    refine Agree.bind (Q := fun k n k' n' => k' = k ∧ n = m ∧ n' = m') ?_ ?_
    · refine Agree.mapError ?_
      rw [Typing.kindOf_eq h.left.working.settled, Typing.kindOf_eq h.right.working.settled,
        Typing.kindGiven_rename h.renamed h.renamed.answer]
      exact Agree.ofExcept (fun _ _ => ⟨rfl, rfl, rfl⟩) trivial
    rintro inferred n _ n' ⟨rfl, rfl, rfl⟩
    refine Agree.bind (Q := fun k l k' l' => k' = k ∧ l = n ∧ l' = n')
      (Agree.mapError (Agree.ofExcept (fun _ _ => ⟨rfl, rfl, rfl⟩) trivial)) ?_
    rintro _ l kind l' ⟨rfl, rfl, rfl⟩
    let d : Declaration Expr := ⟨name, l.slots.size, kind, e, e.isDependent⟩
    let s : Slot := { name, kind, dependent := e.isDependent }
    have hd :
        (⟨name, l'.slots.size, kind, e.rename ρ, (e.rename ρ).isDependent⟩ : Declaration Expr) =
          d.rename ρ := by
      rw [Declaration.rename, Expr.isDependent_rename, h.renamed.slot_size]
    refine Agree.get_bind ?_
    show Agree _ _ ((fill d >>= fun _ => pure d) (l.allocate s))
      ((fill _ >>= fun _ => pure _)
        (l'.allocate { name, kind, dependent := (e.rename ρ).isDependent }))
    rw [hd, Expr.isDependent_rename]
    have hg : l.Grown base.slots.size (l.allocate s) := .allocate h.left.working.low s
    have hg' : l'.Grown base'.slots.size (l'.allocate s) := .allocate h.right.working.low s
    have hlt : d.slot < (l.allocate s).slots.size := by
      rw [Memory.size_allocate]
      exact Nat.lt_succ_self _
    refine (fill_alike name (h.allocate rfl) (he.grown hg) (he'.grown hg') rfl hlt).bind ?_
    exact fun _ n _ n' hn => .ok ⟨rfl, hn⟩
  refine hcopied.known.imp ?_ fun _ _ h => h
  rintro d n _ n' ⟨⟨rfl, hn⟩, hd, hd'⟩
  exact ⟨rfl, hn, declareWith_open h.left he hd, declareWith_open h.right he' hd'⟩

/-! ## Phrases -/

/-- Both readings give the same expression up to its handles, or the same fault. -/
abbrev Alike (ρ : Renaming) (N : Set String) (scope : Scope) :
    EStateM.Result Rejection Memory Expr → EStateM.Result Rejection Memory Expr → Prop :=
  Agree (fun e n e' n' => e' = e.rename ρ ∧ scope.Copied ρ N n n') fun _ _ => True

/-- Wherever the phrase stands, it is read alike. -/
def ReadAlike (ρ : Renaming) (N : Set String) (owner owner' : SlotId → FunctionId)
    (base base' : Memory) (p : Phrase) : Prop :=
  ∀ ⦃scope : Scope⦄ ⦃m m' : Memory⦄, scope.Paired ρ N owner owner' base base' m m' →
    Agree (fun e n e' n' => e' = e.rename ρ ∧ scope.Paired ρ N owner owner' base base' n n' ∧
        n.Resolved owner base.functions.size scope.slots e ∧
        n'.Resolved owner' base'.functions.size (scope.rename ρ).slots e') (fun _ _ => True)
      (resolveWith fill scope p m) (resolveWith fill (scope.rename ρ) p m')

/-- What is known of a single reading is known of both. -/
theorem ReadAlike.of_alike {p : Phrase} (hp : p.RejectsOnly Rejection.Syntactic)
    (h : ∀ {scope m m'}, scope.Paired ρ N owner owner' base base' m m' →
      Alike ρ N scope (resolveWith fill scope p m) (resolveWith fill (scope.rename ρ) p m')) :
    ReadAlike ρ N owner owner' base base' p := by
  intro scope m m' hm
  refine (h hm).known.imp ?_ fun _ _ h => h
  rintro e n _ n' ⟨⟨rfl, hn⟩, he, he'⟩
  have hresolved :=
    ((resolveWith_steps fill_steps hp hm.left.working hm.left.within).of_ok rfl he).2.2
  have hresolved' :=
    ((resolveWith_steps fill_steps hp hm.right.working hm.right.within).of_ok rfl he').2.2
  exact ⟨rfl, ⟨hn, resolveWith_open hp hm.left he, resolveWith_open hp hm.right he'⟩,
    hresolved, hresolved'⟩

/-- Phrases one after another. -/
theorem resolveAllWith_alike {ps : List Phrase}
    (hps : ∀ p ∈ ps, ReadAlike ρ N owner owner' base base' p)
    (h : scope.Paired ρ N owner owner' base base' m m') :
    Agree (fun es n es' n' => es' = es.map (Expr.rename ρ) ∧ scope.Copied ρ N n n')
      (fun _ _ => True)
      (resolveAllWith fill scope ps m) (resolveAllWith fill (scope.rename ρ) ps m') := by
  induction ps generalizing m m' with
  | nil => exact .ok ⟨rfl, h.toCopied⟩
  | cons p ps ih =>
      rw [List.forall_mem_cons] at hps
      refine (hps.1 h).bind ?_
      rintro e n _ n' ⟨rfl, hn, -⟩
      refine (ih hps.2 hn).bind ?_
      rintro es k _ k' ⟨rfl, hk⟩
      exact .ok ⟨rfl, hk⟩

/-- Bindings one after another. Each new variable is in force on both sides. -/
theorem resolveClausesWith_alike {clauses : List (Clause Phrase)}
    (hclauses : ∀ declared name i, .binding declared name i ∈ clauses →
      ReadAlike ρ N owner owner' base base' i)
    (h : scope.Paired ρ N owner owner' base base' m m') :
    Agree (fun r n r' n' => r' = (r.1.map (Declaration.rename ρ), r.2.rename ρ) ∧
        scope.slots ⊆ r.2.slots ∧ r.2.Paired ρ N owner owner' base base' n n') (fun _ _ => True)
      (resolveClausesWith fill scope clauses m)
        (resolveClausesWith fill (scope.rename ρ) clauses m') := by
  induction clauses generalizing scope m m' with
  | nil => exact .ok ⟨rfl, subset_rfl, h⟩
  | cons c cs ih =>
      rcases c with ⟨declared, name, i⟩ | r
      · refine (hclauses declared name i List.mem_cons_self h).bind ?_
        rintro e n _ n' ⟨rfl, hn, he, he'⟩
        refine (declareWith_alike hn he he').bind ?_
        rintro d k _ k' ⟨rfl, hk⟩
        refine (ih (fun declared name i hi => hclauses declared name i (List.mem_cons_of_mem _ hi))
          hk).bind ?_
        rintro ⟨ds, inner⟩ l _ l' ⟨rfl, hslots, hl⟩
        refine .ok ⟨rfl, fun t ht => hslots ?_, hl⟩
        rw [Scope.slots_bind]
        exact .inr ht
      · exact .error trivial

/-- A phrase is read alike in two storages that know the functions that it calls by the same
names. -/
theorem resolveWith_alike {p : Phrase} (hp : p.RejectsOnly Rejection.Syntactic)
    (hcalled : CalledIn N p.called) : ReadAlike ρ N owner owner' base base' p := by
  induction hp with
  | malformed hr => exact .of_alike (.malformed hr) fun _ => .error trivial
  | literal v => exact .of_alike (.literal v) fun h => .ok ⟨rfl, h.toCopied⟩
  | name word =>
      refine .of_alike (.name word) fun {scope _ _} h =>
        (reference_alike h.renamed scope word).bind ?_
      rintro r _ _ _ ⟨rfl, rfl, rfl⟩
      exact .ok ⟨rfl, h.toCopied⟩
  | prefixed hp ih =>
      refine .of_alike (.prefixed hp) fun h => (ih hcalled h).bind ?_
      rintro e n _ n' ⟨rfl, hn, -⟩
      exact .ok ⟨rfl, hn.toCopied⟩
  | infixed hl hr ihl ihr =>
      rw [Phrase.called, calledIn_append] at hcalled
      refine .of_alike (.infixed hl hr) fun h => (ihl hcalled.1 h).bind ?_
      rintro l n _ n' ⟨rfl, hn, -⟩
      refine (ihr hcalled.2 hn).bind ?_
      rintro r k _ k' ⟨rfl, hk, -⟩
      exact .ok ⟨rfl, hk.toCopied⟩
  | @assignment names value htargets hvalue ih =>
      refine .of_alike (.assignment htargets hvalue) fun {scope _ _} h =>
        (targets_alike h.renamed scope names).bind ?_
      rintro rs _ _ _ ⟨rfl, rfl, rfl⟩
      refine (ih hcalled h).bind ?_
      rintro e n _ n' ⟨rfl, hn, -⟩
      exact .ok ⟨rfl, hn.toCopied⟩
  | @call f ps hps ih =>
      rw [Phrase.called, calledIn_cons] at hcalled
      have hall : ∀ p ∈ ps, ReadAlike ρ N owner owner' base base' p := fun p hp =>
        ih p hp fun name hname => hcalled.2 name (Phrase.mem_calledInAll hp hname)
      refine .of_alike (.call hps) fun {scope _ _} h => (resolveAllWith_alike hall h).bind ?_
      rintro es n _ n' ⟨rfl, hn⟩
      refine (callee_alike hn.renamed scope hcalled.1 es).imp ?_ fun _ _ h => h
      rintro e _ _ _ ⟨rfl, rfl, rfl⟩
      exact ⟨rfl, hn⟩
  | conditional hc ht he ihc iht ihe =>
      rw [Phrase.called, calledIn_append, calledIn_append] at hcalled
      refine .of_alike (.conditional hc ht he) fun h => (ihc hcalled.1.1 h).bind ?_
      rintro c n _ n' ⟨rfl, hn, -⟩
      refine (iht hcalled.1.2 hn).bind ?_
      rintro t k _ k' ⟨rfl, hk, -⟩
      refine (ihe hcalled.2 hk).bind ?_
      rintro e l _ l' ⟨rfl, hl, -⟩
      exact .ok ⟨rfl, hl.toCopied⟩
  | @letIn cs b hmalformed hclauses hbody ihi ihb =>
      rw [Phrase.called, calledIn_append] at hcalled
      refine .of_alike (.letIn hmalformed hclauses hbody) fun h =>
        (resolveClausesWith_alike (fun declared x i hi => ihi declared x i hi fun name hname =>
          hcalled.1 name (Phrase.mem_calledInClauses hi hname)) h).bind ?_
      rintro ⟨ds, inner⟩ n _ n' ⟨rfl, hslots, hn⟩
      refine (ihb hcalled.2 hn).bind ?_
      rintro e k _ k' ⟨rfl, hk, -⟩
      -- The bindings are out of force again.
      refine .ok ⟨?_, hk.toCopied.outer hslots⟩
      rw [Expr.rename, Expr.renameBindings_eq]

/-! ## Calls -/

def known (scope : Scope) (m : Memory) : Set String :=
  {name | m.lookup? name ≠ none ∨ ∃ id, scope.declaring = some (name, id)}

/-- The variables in force do not matter. -/
theorem known_of_registry {n : Memory} (hdeclaring : inner.declaring = scope.declaring)
    (hregistry : n.registry = m.registry) : known inner n = known scope m := by
  simp only [known, Memory.lookup?, hdeclaring, hregistry]

/-- A function that can be called is known. -/
theorem callee_called {name : String} {es : List Expr} {n : Memory}
    (h : callee scope name es m = .ok e n) (hname : Builtin.ofName? name = none) :
    name ∈ known scope m := by
  unfold callee at h
  rw [hname] at h
  rcases of_bind_ok h with ⟨_, k, hcheck, hrest⟩
  rcases of_ofExcept_ok hcheck with ⟨-, rfl⟩
  rcases of_bind_ok hrest with ⟨_, _, ⟨⟩, hrest⟩
  cases hl : k.lookup? name with
  | some id => exact .inl (by rw [hl]; exact nofun)
  | none =>
      rw [hl] at hrest
      cases hd : scope.declaring with
      | none =>
          rw [hd] at hrest
          cases hrest
      | some p =>
          rcases p with ⟨declaring, id⟩
          rw [hd] at hrest
          dsimp only at hrest
          split at hrest
          · next hself => exact .inr ⟨id, by rw [hd, hself]⟩
          · cases hrest

def CallsKnown (owner : SlotId → FunctionId) (base : Memory) (p : Phrase) : Prop :=
  ∀ ⦃scope : Scope⦄ ⦃m n : Memory⦄ ⦃e : Expr⦄, scope.Open owner base m →
    resolveWith fill scope p m = .ok e n → CalledIn (known scope m) p.called

/-- Reading a phrase makes no function known. -/
theorem resolveWith_known {p : Phrase} (hp : p.RejectsOnly Rejection.Syntactic) {n : Memory}
    (h : scope.Open owner base m) (he : resolveWith fill scope p m = .ok e n) :
    known scope n = known scope m :=
  known_of_registry rfl
    ((resolveWith_steps fill_steps hp h.working h.within).of_ok rfl he).1.registry

/-- Reading phrases registers no function, so that the same names are known for all of them. -/
theorem resolveAllWith_called {ps : List Phrase} (hps : ∀ p ∈ ps, p.RejectsOnly Rejection.Syntactic)
    (hcalls : ∀ p ∈ ps, CallsKnown owner base p) {es : List Expr} {n : Memory}
    (h : scope.Open owner base m) (hes : resolveAllWith fill scope ps m = .ok es n) :
    known scope n = known scope m ∧ CalledIn (known scope m) (Phrase.calledInAll ps) := by
  induction ps generalizing m es with
  | nil =>
      cases hes
      exact ⟨rfl, nofun⟩
  | cons p ps ih =>
      rw [List.forall_mem_cons] at hps hcalls
      rcases of_bind_ok hes with ⟨e, k, he, hrest⟩
      rcases of_bind_ok hrest with ⟨es', l, hes', hend⟩
      cases hend
      have hrest := ih hps.2 hcalls.2 (resolveWith_open hps.1 h he) hes'
      rw [resolveWith_known hps.1 h he] at hrest
      exact ⟨hrest.1, calledIn_append.2 ⟨hcalls.1 h he, hrest.2⟩⟩

/-- Bindings register no function either. -/
theorem resolveClausesWith_called {clauses : List (Clause Phrase)}
    (hclauses : ∀ declared name i, .binding declared name i ∈ clauses →
      i.RejectsOnly Rejection.Syntactic)
    (hcalls : ∀ declared name i, .binding declared name i ∈ clauses → CallsKnown owner base i)
    {ds : List (Declaration Expr)} {n : Memory} (h : scope.Open owner base m)
    (hcs : resolveClausesWith fill scope clauses m = .ok (ds, inner) n) :
    known inner n = known scope m ∧ inner.Open owner base n ∧
      CalledIn (known scope m) (Phrase.calledInClauses clauses) := by
  induction clauses generalizing scope m ds with
  | nil =>
      cases hcs
      exact ⟨rfl, h, nofun⟩
  | cons c cs ih =>
      rcases c with ⟨declared, x, i⟩ | r
      · rcases of_bind_ok hcs with ⟨e, k, he, hrest⟩
        rcases of_bind_ok hrest with ⟨d, l, hd, hrest⟩
        rcases of_bind_ok hrest with ⟨⟨ds', inner'⟩, l', hds, hend⟩
        cases hend
        have hi := hclauses declared x i List.mem_cons_self
        have hk := resolveWith_open hi h he
        have hresolved := ((resolveWith_steps fill_steps hi h.working h.within).of_ok rfl he).2.2
        -- A binding brings a variable into force, but makes no function known.
        have hregistry :=
          ((declareWith_steps fill_steps hk.working hresolved).of_ok rfl hd).1.registry
        have hsame : known (scope.bind x d.slot) l = known scope m := by
          rw [← resolveWith_known hi h he]
          exact known_of_registry rfl hregistry
        have hrest :=
          ih (fun declared name i hi => hclauses declared name i (List.mem_cons_of_mem _ hi))
          (fun declared name i hi => hcalls declared name i (List.mem_cons_of_mem _ hi))
          (declareWith_open hk hresolved hd) hds
        rw [hsame] at hrest
        exact ⟨hrest.1, hrest.2.1,
          calledIn_append.2 ⟨hcalls declared x i List.mem_cons_self h he, hrest.2.2⟩⟩
      · cases hcs

/-- If a phrase can be read, all functions that it calls are known. -/
theorem resolveWith_called {p : Phrase} (hp : p.RejectsOnly Rejection.Syntactic) :
    CallsKnown owner base p := by
  intro scope m n e h he
  induction hp generalizing scope m n e with
  | malformed hr | literal v | name word => exact nofun
  | prefixed hp ih =>
      rcases of_bind_ok he with ⟨e', k, he', hend⟩
      exact ih h he'
  | infixed hl hr ihl ihr =>
      rcases of_bind_ok he with ⟨l, k, hkl, hrest⟩
      rcases of_bind_ok hrest with ⟨r, k', hkr, hend⟩
      -- Reading the left operand declares no function, so the same ones are known to the right one.
      have hright := ihr (resolveWith_open hl h hkl) hkr
      rw [resolveWith_known hl h hkl] at hright
      exact calledIn_append.2 ⟨ihl h hkl, hright⟩
  | assignment htargets hvalue ih =>
      rcases of_bind_ok he with ⟨rs, k, hrs, hrest⟩
      rcases of_bind_ok hrest with ⟨v, k', hv, hend⟩
      have hk := ((targets_steps h.working htargets).of_ok rfl hrs).2.2.1
      subst hk
      exact ih h hv
  | call hps ih =>
      rcases of_bind_ok he with ⟨es, k, hes, hcall⟩
      rcases resolveAllWith_called hps (fun p hp _ _ _ _ h he => ih p hp h he) h hes with
        ⟨hsame, hcalled⟩
      exact calledIn_cons.2 ⟨fun hbuiltin => hsame ▸ callee_called hcall hbuiltin, hcalled⟩
  | conditional hc ht hf ihc iht ihf =>
      rcases of_bind_ok he with ⟨c, k, hkc, hrest⟩
      rcases of_bind_ok hrest with ⟨t, k', hkt, hrest⟩
      rcases of_bind_ok hrest with ⟨e', l, hkf, hend⟩
      have hk := resolveWith_open hc h hkc
      have hconsequent := iht hk hkt
      have halternative := ihf (resolveWith_open ht hk hkt) hkf
      rw [resolveWith_known ht hk hkt, resolveWith_known hc h hkc] at halternative
      rw [resolveWith_known hc h hkc] at hconsequent
      exact calledIn_append.2 ⟨calledIn_append.2 ⟨ihc h hkc, hconsequent⟩, halternative⟩
  | letIn hmalformed hclauses hbody ihi ihb =>
      rcases of_bind_ok he with ⟨⟨ds, inner⟩, k, hcs, hrest⟩
      rcases of_bind_ok hrest with ⟨b', l, hkb, hend⟩
      rcases resolveClausesWith_called hclauses
        (fun declared x i hi _ _ _ _ h he => ihi declared x i hi h he) h hcs
        with ⟨hsame, hopen, hcalled⟩
      have hinside := ihb hopen hkb
      rw [hsame] at hinside
      exact calledIn_append.2 ⟨hcalled, hinside⟩

end Resolution
end LineLang
