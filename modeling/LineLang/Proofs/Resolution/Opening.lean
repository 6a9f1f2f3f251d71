import LineLang.Proofs.Activation.Moments
import LineLang.Proofs.Resolution.Readings
import LineLang.Proofs.Resolution.Replay

/-!
# Variables in force while a phrase is read

A variable in force holds a value unless it is dependent, because its slot was filled when its
binding was read. An initializer that is evaluated on the way only uses such variables and functions
that have bodies.

- `Scope.record`              : what the variables in force hold, as a record
- `Scope.Filled`              : they hold values of their kinds, unless they are dependent
- `Scope.Open`                : besides, all functions with bodies may be called
- `Scope.Open.holds`          : an initializer may be evaluated
- `Resolution.resolveWith_open`  : reading a phrase keeps what is known
- `Reading.Open.reaches`      : it is known at every reading
- `Reading.Open.probes`       : and wherever an initializer is evaluated
-/

namespace LineLang

open Effect Activation

/-- More slots and functions without bodies change nothing. -/
theorem Activation.Prepared.mono {m n : Memory} (h : Prepared m m.slots.size)
    (hsize : m.slots.size ≤ n.slots.size)
    (hkind : ∀ t < m.slots.size, (n.slot t).kind = (m.slot t).kind)
    (hnew : ∀ f b, (n.function f).body = some b → n.function f = m.function f)
    (hold : ∀ f, (m.function f).body ≠ none → (n.function f).body ≠ none) :
    Prepared n n.slots.size where
  parameters f b hb t ht := by
    have hf := hnew f b hb
    rw [hf] at hb ht
    rcases h.parameters f b hb t ht with ⟨hlt, hdynamic⟩
    exact ⟨Nat.lt_of_lt_of_le hlt hsize, by rw [hkind t hlt, hdynamic]⟩
  inScope f b hb := by
    have hf := hnew f b hb
    rw [hf] at hb ⊢
    exact h.inScope f b hb
  grounded f b hb := by
    refine ⟨?_, fun hm => hm.keeping f b hb⟩
    rw [hnew f b hb] at hb
    exact Expr.Every.imp (h.grounded f b hb).calls fun p hp g hg => hold g (hp g hg)

namespace Scope

variable {owner : SlotId → FunctionId} {base m n : Memory} {scope : Scope} {e : Expr}

/-! ## What variables hold -/

def record (s : Scope) (m : Memory) : Record := fun t =>
  if s.bindings.any (·.2 == t) && !(m.slot t).dependent then m.content t else .uninitialized

theorem record_of_mem {t : SlotId} (ht : t ∈ m.fixed scope.slots) :
    scope.record m t = m.content t := by
  rcases ht with ⟨⟨name, hname⟩, hdependent⟩
  have hany : scope.bindings.any (·.2 == t) = true := List.any_eq_true.2 ⟨(name, t), hname, by simp⟩
  simp [record, hany, hdependent]

/-- What the record holds belongs to a variable in force that is not dependent. -/
theorem mem_of_record {t : SlotId} (h : scope.record m t ≠ .uninitialized) :
    t ∈ m.fixed scope.slots := by
  unfold record at h
  split at h
  · next hand =>
      rcases Bool.and_eq_true_iff.1 hand with ⟨hany, hdependent⟩
      rcases List.any_eq_true.1 hany with ⟨⟨name, u⟩, hmem, hu⟩
      cases eq_of_beq hu
      exact ⟨⟨name, hmem⟩, by simpa using hdependent⟩
  · exact absurd rfl h

def Filled (s : Scope) (m : Memory) : Prop :=
  ∀ t ∈ m.fixed s.slots, ∃ v, m.content t = .value v ∧ v.kind.Refines (m.slot t).kind

theorem Filled.record {t : SlotId} (h : scope.Filled m) (ht : scope.record m t ≠ .uninitialized) :
    ∃ v, scope.record m t = .value v ∧ v.kind.Refines (m.slot t).kind := by
  have hmem := mem_of_record ht
  rcases h t hmem with ⟨v, hv, hkind⟩
  exact ⟨v, (record_of_mem hmem).trans hv, hkind⟩

/-- Slots that are as they were hold what they held. -/
theorem Filled.congr (h : scope.Filled m) (hslot : ∀ t ∈ scope.slots, n.slot t = m.slot t) :
    scope.Filled n := by
  rintro t ⟨ht, hdependent⟩
  have hsame := hslot t ht
  rw [Memory.content, hsame]
  exact h t ⟨ht, hsame ▸ hdependent⟩

/-- One more variable is in force, with a value unless it is dependent. -/
theorem Filled.bind {name : String} {t : SlotId} (h : scope.Filled m)
    (ht : (m.slot t).dependent = false → ∃ v, m.content t = .value v ∧
      v.kind.Refines (m.slot t).kind) : (scope.bind name t).Filled m := by
  rintro u ⟨hu, hdependent⟩
  rw [slots_bind] at hu
  rcases hu with rfl | hu
  · exact ht hdependent
  · exact h u ⟨hu, hdependent⟩

/-- The storage in which a phrase is read that stands in a scope, when it was `base` before the
instruction. -/
structure Open (owner : SlotId → FunctionId) (base : Memory) (s : Scope) (m : Memory) :
    Prop where
  working : m.Working owner base.functions.size base.slots.size
  within : s.Within base.slots.size m
  filled : s.Filled m
  above : base.Extends m
  registry : m.registry = base.registry
  bodies : ∀ f b, (m.function f).body = some b → f < base.functions.size
  prepared : Prepared m m.slots.size
  idle : ∀ f, (m.function f).depth = 0

namespace Open

/-- What is known of the variables in force is kept while the storage grows. -/
theorem grown (h : scope.Open owner base m) (hn : m.Grown base.slots.size n)
    (hw : n.Working owner base.functions.size base.slots.size) {inner : Scope}
    (hwithin : inner.Within base.slots.size n) (hfilled : inner.Filled n) :
    inner.Open owner base n where
  working := hw
  within := hwithin
  filled := hfilled
  above := h.above.grown hn
  registry := hn.registry.trans h.registry
  bodies f b hb := h.bodies f b (hn.function f ▸ hb)
  prepared := h.prepared.mono hn.size (fun t ht => hn.kind ht) (fun f _ _ => hn.function f)
    fun f hf => (hn.function f).symm ▸ hf
  idle f := by
    rw [hn.function]
    exact h.idle f

/-- An initializer that is not dependent may be evaluated in the record of the variables in
force. -/
theorem holds (h : scope.Open owner base m)
    (he : m.Resolved owner base.functions.size scope.slots e) (hd : e.isDependent = false) (k : Nat)
    (mode : Mode) :
    Holds owner m m.slots.size base.functions.size [] (m.fixed scope.slots)
      { record := scope.record m } ⟨k, mode, e, { memory := m }⟩ := by
  rcases he.fixed hd with ⟨hscope, hcalls, hbinds⟩
  -- Nothing is left in the slots of these variables but values.
  have hvalue : ∀ t, scope.record m t ≠ .uninitialized →
      ∃ v, scope.record m t = .value v ∧ v.kind.Refines (m.slot t).kind := fun t => h.filled.record
  have hdeferred : ∀ t i, scope.record m t ≠ .dependent i := by
    intro t i hi
    rcases hvalue t (by rw [hi]; exact nofun) with ⟨v, hv, -⟩
    cases hv.symm.trans hi
  have hagrees : Agrees owner m m.slots.size base.functions.size [] (m.fixed scope.slots)
      { memory := m } { record := scope.record m } := by
    refine ⟨rfl, rfl, fun _ _ => rfl, fun f => ?_, h.working.coherent, fun t ht => ?_,
      fun t i ht => absurd ht (hdeferred t i), fun t ht => ?_⟩
    · rw [List.count_nil, ← h.idle f]
    · have hmem := mem_of_record ht
      rcases h.within.owned h.working hmem.1 with ⟨ho, hlt⟩
      exact ⟨hlt, ho, (record_of_mem hmem).symm⟩
    · rcases h.filled t ht with ⟨v, hv, -⟩
      show scope.record m t ≠ .uninitialized
      rw [record_of_mem ht, hv]
      exact nofun
  have hrecord : (scope.record m).Grounded m base.functions.size := by
    refine ⟨fun t v ht => ?_, fun t i ht => absurd ht (hdeferred t i)⟩
    rcases hvalue t (by rw [ht]; exact nofun) with ⟨w, hw, hkind⟩
    cases hw.symm.trans ht
    exact hkind
  refine ⟨hagrees, hrecord, he.here, he.slots, hscope, hcalls, fun _ p hp d hd' hdependent => ?_⟩
  cases (hbinds p hp d hd').symm.trans hdependent

/-- The variables in force still hold values after an initializer was evaluated. -/
theorem filled_after (h : scope.Open owner base m)
    (he : m.Resolved owner base.functions.size scope.slots e) (hd : e.isDependent = false)
    {v : Value} (hv : Evaluation.probe e m = .ok v n)
    (hn : n.Working owner base.functions.size base.slots.size) : scope.Filled n := by
  unfold Evaluation.probe at hv
  cases hs : Evaluation.evaluate .probe e { memory := m } with
  | error fault s =>
      rw [hs] at hv
      cases hv
  | ok w s =>
      rw [hs] at hv
      cases hv
      rcases (h.holds he hd (Evaluation.depthBound m) .probe).after h.prepared hs with
        ⟨b, hagrees, hrecord⟩
      rintro t ⟨ht, hdependent⟩
      have hlt := (h.within.bindings t ht).2
      have hshape := hagrees.shape t hlt
      have hfixed : t ∈ m.fixed scope.slots :=
        ⟨ht, (congrArg (·.dependent) hshape).symm.trans hdependent⟩
      have hfilled := hagrees.inForce hfixed
      have hcontent := (hagrees.record t hfilled).2.2
      rw [hcontent, hagrees.kind hlt]
      cases hc : b.record t with
      | uninitialized => exact absurd hc hfilled
      | value u => exact ⟨u, rfl, hrecord.value t u hc⟩
      | dependent i =>
          -- Initializers are only left in slots that are flagged.
          have hflag := (hn.flagged t i (hcontent.trans hc)).1
          cases hflag.symm.trans hdependent

theorem allocate (h : scope.Open owner base m) {s : Slot} (hs : s.content = .uninitialized) :
    scope.Open owner base (m.allocate s) := by
  have hg : m.Grown base.slots.size (m.allocate s) := .allocate h.working.low s
  refine h.grown hg (h.working.allocate hs) (h.within.grown hg) (h.filled.congr fun t ht => ?_)
  exact Memory.slot_allocate_of_lt (h.within.bindings t ht).2

end Open
end Scope

/-! ## Reading -/

namespace Resolution

variable {owner : SlotId → FunctionId} {base m n : Memory} {scope : Scope} {e : Expr}

/-- The new slot of a binding is filled like the ones before it. -/
theorem fill_filled {d : Declaration Expr} {name : String} (h : scope.Open owner base m)
    (he : m.Resolved owner base.functions.size scope.slots d.initializer)
    (hd : d.dependent = d.initializer.isDependent)
    (hnew : d.slot ∉ scope.slots) (hlt : d.slot < m.slots.size)
    (hflag : (m.slot d.slot).dependent = d.dependent) (hn : fill d m = .ok () n) :
    (scope.bind name d.slot).Filled n := by
  have hother : ∀ {k : Memory} {c : Content}, scope.Filled k →
      scope.Filled (k.replace d.slot c) := by
    intro k c hk
    refine hk.congr fun t ht => Memory.slot_replace_of_ne ?_
    rintro rfl
    exact hnew ht
  -- A dependent initializer is stored and counts as filled. Any other is evaluated, which may
  -- assign to slots in scope but leaves them filled.
  by_cases hdependent : d.dependent = true
  · rw [fill_dependent hdependent] at hn
    cases hn
    refine (hother h.filled).bind fun hfalse => ?_
    have hshape : ((m.replace d.slot (.dependent d.initializer)).slot d.slot).dependent =
        d.dependent :=
      (congrArg (·.dependent) Memory.shape_replace).trans hflag
    cases (hshape.trans hdependent).symm.trans hfalse
  · have hindependent : d.initializer.isDependent = false := by
      rw [← hd]
      simpa using hdependent
    rw [fill, if_neg hdependent] at hn
    rcases of_bind_ok hn with ⟨v, k, hprobe, hwrite⟩
    rcases (probe_steps h.working he).of_ok rfl hprobe with ⟨hg, hk, -⟩
    have hfilled := h.filled_after he hindependent (of_mapError_ok hprobe) hk
    have hlt' : d.slot < k.slots.size := Nat.lt_of_lt_of_le hlt hg.size
    rcases Memory.write_ok (of_update_ok (of_mapError_ok hwrite)) with ⟨rfl, haccepts⟩
    refine (hother hfilled).bind fun _ => ⟨v, ?_, ?_⟩
    · exact Memory.content_replace_self hlt'
    · rw [Memory.slot_replace_self hlt']
      exact Value.refines_iff.2 haccepts

/-- A declared variable holds the value of its initializer or the initializer itself. -/
theorem declareWith_open {declared : Option Kind} {name : String} {d : Declaration Expr}
    (h : scope.Open owner base m) (he : m.Resolved owner base.functions.size scope.slots e)
    (hd : declareWith fill declared name e m = .ok d n) :
    (scope.bind name d.slot).Open owner base n := by
  rcases (declareWith_steps fill_steps h.working he).of_ok rfl hd with ⟨hg, hw, -, hslot, hlt, -⟩
  have hlo : base.slots.size ≤ d.slot := hslot ▸ h.working.low
  refine h.grown hg hw ((h.within.grown hg).bind hlo hlt) ?_
  rcases declareWith_ok h.working.settled hd with ⟨inferred, kind, -, -, rfl, hfill⟩
  refine fill_filled (h.allocate rfl) (he.grown (.allocate h.working.low _)) rfl
    (fun hmem => ?_) ?_ ?_ hfill
  · exact Nat.lt_irrefl _ (h.within.bindings _ hmem).2
  · rw [Memory.size_allocate]
    exact Nat.lt_succ_self _
  · rw [Memory.slot_allocate_self]

def KeepsOpen (owner : SlotId → FunctionId) (base : Memory) (p : Phrase) : Prop :=
  ∀ {m n : Memory} {scope : Scope} {e : Expr}, scope.Open owner base m →
    resolveWith fill scope p m = .ok e n → scope.Open owner base n

/-- Phrases one after another. -/
theorem resolveAllWith_open {ps : List Phrase} {es : List Expr}
    (hps : ∀ p ∈ ps, KeepsOpen owner base p) (h : scope.Open owner base m)
    (hes : resolveAllWith fill scope ps m = .ok es n) : scope.Open owner base n := by
  induction ps generalizing m es with
  | nil =>
      cases hes
      exact h
  | cons p ps ih =>
      rw [List.forall_mem_cons] at hps
      rcases of_bind_ok hes with ⟨e, k, he, hrest⟩
      rcases of_bind_ok hrest with ⟨es', l, hes', hend⟩
      cases hend
      exact ih hps.2 (hps.1 h he) hes'

/-- Bindings one after another. Each is in force for the ones after it. -/
theorem resolveClausesWith_open {clauses : List (Clause Phrase)} {ds : List (Declaration Expr)}
    {inner : Scope}
    (hresolves : ∀ declared name i, .binding declared name i ∈ clauses →
      Resolves fill owner base.functions.size base.slots.size i)
    (hclauses : ∀ declared name i, .binding declared name i ∈ clauses → KeepsOpen owner base i)
    (h : scope.Open owner base m)
    (hcs : resolveClausesWith fill scope clauses m = .ok (ds, inner) n) :
    inner.Open owner base n := by
  induction clauses generalizing scope m ds with
  | nil =>
      cases hcs
      exact h
  | cons c cs ih =>
      rcases c with ⟨declared, name, p⟩ | r
      · rcases of_bind_ok hcs with ⟨e, k, he, hrest⟩
        rcases of_bind_ok hrest with ⟨d, l, hd, hrest⟩
        rcases of_bind_ok hrest with ⟨⟨ds', inner'⟩, l', hds, hend⟩
        cases hend
        have hresolved :=
          ((hresolves declared name p List.mem_cons_self h.working h.within).of_ok rfl he).2.2
        have hk := hclauses declared name p List.mem_cons_self h he
        exact ih (fun declared name i hi => hresolves declared name i (List.mem_cons_of_mem _ hi))
          (fun declared name i hi => hclauses declared name i (List.mem_cons_of_mem _ hi))
          (declareWith_open hk hresolved hd) hds
      · cases hcs

/-- Reading keeps what is known of the variables in force. -/
theorem resolveWith_open {p : Phrase} (hp : p.RejectsOnly Rejection.Syntactic) :
    KeepsOpen owner base p := by
  intro m n scope e h he
  induction hp generalizing scope m n e with
  | malformed hr => cases he
  | literal v =>
      cases he
      exact h
  | name word =>
      rcases of_bind_ok he with ⟨r, k, hr, hend⟩
      cases hend
      exact ((reference_steps h.working word).of_ok rfl hr).2.2.1 ▸ h
  | prefixed _ ih =>
      rcases of_bind_ok he with ⟨e', k, he', hend⟩
      cases hend
      exact ih h he'
  | infixed _ _ ihl ihr =>
      rcases of_bind_ok he with ⟨l, k, hl, hrest⟩
      rcases of_bind_ok hrest with ⟨r, k', hr, hend⟩
      cases hend
      exact ihr (ihl h hl) hr
  | assignment htargets _ ih =>
      rcases of_bind_ok he with ⟨rs, k, hrs, hrest⟩
      rcases of_bind_ok hrest with ⟨v, k', hv, hend⟩
      cases hend
      have hk := ((targets_steps h.working htargets).of_ok rfl hrs).2.2.1
      exact ih (hk ▸ h) hv
  | call _ ih =>
      rcases of_bind_ok he with ⟨es, k, hes, hcall⟩
      have hk : scope.Open owner base k :=
        resolveAllWith_open (fun p hp _ _ _ _ h he => ih p hp h he) h hes
      exact (callee_level (.refl k) hcall).1 ▸ hk
  | conditional _ _ _ ihc iht ihe =>
      rcases of_bind_ok he with ⟨c, k, hc, hrest⟩
      rcases of_bind_ok hrest with ⟨t, k', ht, hrest⟩
      rcases of_bind_ok hrest with ⟨e', l, he', hend⟩
      cases hend
      exact ihe (iht (ihc h hc) ht) he'
  | @letIn cs b hmalformed hclauses hbody ihi ihb =>
      rcases of_bind_ok he with ⟨⟨ds, inner⟩, k, hcs, hrest⟩
      rcases of_bind_ok hrest with ⟨b', l, hb, hend⟩
      cases hend
      have hresolves : ∀ declared name i, Clause.binding declared name i ∈ cs →
          Resolves fill owner base.functions.size base.slots.size i :=
        fun declared name i hi => resolveWith_steps fill_steps (hclauses declared name i hi)
      have hinner : inner.Open owner base k :=
        resolveClausesWith_open hresolves
          (fun declared name i hi _ _ _ _ h he => ihi declared name i hi h he) h hcs
      rcases (resolveClausesWith_steps fill_steps h.working h.within hmalformed hresolves).of_ok rfl
          hcs with
        ⟨hg, -, -, -, hslots⟩
      rcases (resolveWith_steps fill_steps hbody hinner.working hinner.within).of_ok rfl
        hb with ⟨hg', -⟩
      -- The bindings are out of force again, and fewer variables are filled if more are.
      have hopen := ihb hinner hb
      refine h.grown (hg.trans hg') hopen.working ((h.within.grown hg).grown hg') ?_
      rintro t ⟨ht, hdependent⟩
      exact hopen.filled t ⟨hslots ▸ .inl ht, hdependent⟩

end Resolution

/-! ## Every reading -/

namespace Reading

open Resolution

variable {owner : SlotId → FunctionId} {base : Memory} {r r' : Reading}

/-- What is known of a phrase that is about to be read. -/
structure Open (owner : SlotId → FunctionId) (base : Memory) (r : Reading) : Prop where
  here : r.scope.Open owner base r.memory
  syntactic : r.phrase.RejectsOnly Rejection.Syntactic

namespace Open

/-- Some of the clauses of a `let` have been read. -/
theorem clauses {scope : Scope} {cs cs' : List (Clause Phrase)} {b : Phrase} {m n : Memory}
    {ds : List (Declaration Expr)} {inner : Scope}
    (h : Open owner base ⟨scope, .letIn (cs ++ cs') b, m⟩)
    (hcs : resolveClausesWith fill scope cs m = .ok (ds, inner) n) : inner.Open owner base n := by
  cases h.syntactic with
  | letIn hmalformed hclauses hbody =>
      have hmem : ∀ {c}, c ∈ cs → c ∈ cs ++ cs' := fun hc => List.mem_append_left _ hc
      refine resolveClausesWith_open (fun declared name i hi => ?_)
        (fun declared name i hi => ?_) h.here hcs
      · exact resolveWith_steps fill_steps (hclauses declared name i (hmem hi))
      · exact resolveWith_open (hclauses declared name i (hmem hi))

/-- What is known of a phrase is known of the parts that are read after others. -/
theorem leads (h : r.Open owner base) (hr : r.Leads r') : r'.Open owner base := by
  cases hr with
  | operand =>
      cases h.syntactic with
      | prefixed hp => exact ⟨h.here, hp⟩
  | left =>
      cases h.syntactic with
      | infixed hl _ => exact ⟨h.here, hl⟩
  | right hl =>
      cases h.syntactic with
      | infixed hpl hpr => exact ⟨resolveWith_open hpl h.here hl, hpr⟩
  | assigned hnames =>
      cases h.syntactic with
      | assignment htargets hp =>
          exact ⟨((targets_steps h.here.working htargets).of_ok rfl hnames).2.2.1 ▸ h.here, hp⟩
  | @argument scope f ps p ps' m es n hps =>
      cases h.syntactic with
      | call hall =>
          refine ⟨resolveAllWith_open (fun q hq => ?_) h.here hps, hall p (by simp)⟩
          exact resolveWith_open (hall q (List.mem_append_left _ hq))
  | condition =>
      cases h.syntactic with
      | conditional hc _ _ => exact ⟨h.here, hc⟩
  | consequent hc =>
      cases h.syntactic with
      | conditional hpc hpt _ => exact ⟨resolveWith_open hpc h.here hc, hpt⟩
  | alternative hc ht =>
      cases h.syntactic with
      | conditional hpc hpt hpe =>
          exact ⟨resolveWith_open hpt (resolveWith_open hpc h.here hc) ht, hpe⟩
  | @initializer scope cs declared name p cs' b m ds inner n hcs =>
      cases h.syntactic with
      | letIn _ hclauses _ => exact ⟨h.clauses hcs, hclauses declared name p (by simp)⟩
  | @inside scope cs b m ds inner n hcs =>
      cases h.syntactic with
      | letIn hmalformed hclauses hbody =>
          have hopen : Open owner base ⟨scope, .letIn (cs ++ []) b, m⟩ :=
            ⟨h.here, by rw [List.append_nil]; exact h.syntactic⟩
          exact ⟨hopen.clauses hcs, hbody⟩

/-- It is known of every phrase that is read on the way. -/
theorem reaches (h : r.Open owner base) (hr : r.Reaches r') : r'.Open owner base := by
  induction hr with
  | refl => exact h
  | tail _ hleads ih => exact ih.leads hleads

/-- An initializer that is asked for its value only uses variables that hold values and functions
that have bodies. -/
theorem probes {scope : Scope} {e : Expr} {n : Memory} (h : r.Open owner base)
    (hr : r.Probes scope e n) :
    scope.Open owner base n ∧ n.Resolved owner base.functions.size scope.slots e ∧
      e.isDependent = false := by
  rcases hr with ⟨r', d, hreaches, hallots, hdependent, rfl⟩
  have hr' := h.reaches hreaches
  cases hallots with
  | @binding scope cs declared name p cs' b m ds inner k e k' inferred l kind hcs hp
      hinferred hkind =>
      cases hr'.syntactic with
      | letIn _ hclauses _ =>
          have hsyntactic := hclauses declared name p (by simp)
          have hinner := hr'.clauses hcs
          have hk := resolveWith_open hsyntactic hinner hp
          rcases (resolveWith_steps fill_steps hsyntactic hinner.working hinner.within).of_ok rfl hp
              with
            ⟨-, -, he⟩
          rw [Typing.kindOf_eq hk.working.settled] at hinferred
          rcases of_ofExcept_ok hinferred with ⟨-, rfl⟩
          exact ⟨hk.allocate rfl, he.grown (.allocate hk.working.low _), hdependent⟩

end Open
end Reading
end LineLang
