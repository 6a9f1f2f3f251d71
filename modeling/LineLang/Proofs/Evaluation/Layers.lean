import LineLang.Proofs.Evaluation.Modes
import LineLang.Proofs.Resolution.Allotment

/-!
# Layers of bindings

The bindings of an expression have slots of their own, which come after those of all variables in
force. An initializer that was left in a slot is older than the variables bound after it. So
whatever an evaluation binds, the variables in force where it started are spared.

- `Expr.IsOperand`     : a part that is evaluated among the same variables
- `Expr.Placed`        : an expression among the variables in force
- `Memory.Layered`     : so is what was left in their slots
- `Machine.Changes`    : what may differ after an evaluation
- `Moment.Rebinds`     : the slots that an evaluation may bind
- `Moment.footprint`   : those that are not in force
- `Machine.ChangesAt`  : an expression binds no others, by the forms of expressions
- `evaluateWithin_changes`  : an evaluation binds no others
-/

namespace LineLang

open Effect Evaluation

/-! ## Slots that ascend -/

namespace Ascending

variable {lo hi : Nat} {ts us : List SlotId} {t : SlotId}

theorem sublist (h : Ascending lo ts hi) (hus : us.Sublist ts) : Ascending lo us hi :=
  ⟨h.le, h.pairwise.sublist hus, fun t ht => h.within t (hus.subset ht)⟩

/-- The slots before one of them, and the ones from there on. -/
theorem split_at (h : Ascending lo (ts ++ t :: us) hi) :
    Ascending lo ts t ∧ Ascending t (t :: us) hi := by
  rcases List.pairwise_append.1 h.pairwise with ⟨hts, hus, hbefore⟩
  have hwithin := h.within t (by simp)
  refine ⟨⟨hwithin.1, hts, fun u hu => ?_⟩, ⟨Nat.le_of_lt hwithin.2, hus, fun u hu => ?_⟩⟩
  · exact ⟨(h.within u (List.mem_append_left _ hu)).1, hbefore u hu t List.mem_cons_self⟩
  · refine ⟨?_, (h.within u (List.mem_append_right _ hu)).2⟩
    rcases List.mem_cons.1 hu with rfl | hu
    · exact Nat.le_refl u
    · exact Nat.le_of_lt ((List.pairwise_cons.1 hus).1 u hu)

/-- Slots that go up can be cut at any of them. -/
theorem split (h : Ascending lo (ts ++ us) hi) : ∃ k, Ascending lo ts k ∧ Ascending k us hi := by
  cases us with
  | nil =>
      rw [List.append_nil] at h
      exact ⟨hi, h, .nil⟩
  | cons u us => exact ⟨u, h.split_at⟩

end Ascending

/-! ## Expressions among variables -/

def visible (Γ : Set SlotId) (k : Nat) : Set SlotId :=
  {u | u ∈ Γ ∧ u < k}

/-- The variables in force after some bindings. -/
abbrev inForce (Γ : Set SlotId) (ds : List (Declaration Expr)) : Set SlotId :=
  Γ ∪ {t | ∃ d ∈ ds, d.slot = t}

theorem insert_inForce {Γ : Set SlotId} {ds : List (Declaration Expr)} {d : Declaration Expr} :
    insert d.slot (inForce Γ ds) = inForce Γ (ds ++ [d]) := by
  ext x
  simp [or_left_comm, or_and_right, exists_or, or_comm, eq_comm]

namespace Expr

/-- A part that is evaluated among the same variables as the whole expression. -/
structure IsOperand (e e' : Expr) : Prop where
  part : e' ∈ e.parts
  uses : ∀ Γ, e.Scoped Γ → e'.Scoped Γ
  allotted : e'.allotted.Sublist e.allotted

namespace IsOperand

variable {e l r c a : Expr}

theorem unary {op : UnaryOperator} : IsOperand (.unary op e) e :=
  ⟨by simp [parts, mem_parts_self], fun _ h => h, .refl _⟩

theorem left {op : BinaryOperator} : IsOperand (.binary op l r) l :=
  ⟨by simp [parts, mem_parts_self], fun _ h => h.1, List.sublist_append_left _ _⟩

theorem right {op : BinaryOperator} : IsOperand (.binary op l r) r :=
  ⟨by simp [parts, mem_parts_self], fun _ h => h.2, List.sublist_append_right _ _⟩

theorem assigned {ts : List Reference} : IsOperand (.assign ts e) e :=
  ⟨by simp [parts, mem_parts_self], fun _ h => h.2, .refl _⟩

theorem printed : IsOperand (.print e) e :=
  ⟨by simp [parts, mem_parts_self], fun _ h => h, .refl _⟩

theorem argument {name : String} {f : FunctionId} {es : List Expr} {dependent : Bool}
    (he : e ∈ es) : IsOperand (.call name f es dependent) e where
  part := List.mem_cons_of_mem _ (mem_partsOfAll.2 ⟨e, he, mem_parts_self e⟩)
  uses _ h := scopedAll_iff.1 h e he
  allotted := by
    rw [Expr.allotted, allottedInAll_eq, List.flatMap_def]
    exact List.sublist_flatten_of_mem (List.mem_map_of_mem he)

theorem condition : IsOperand (.conditional c a e) c :=
  ⟨by simp [parts, mem_parts_self], fun _ h => h.1, List.sublist_append_left _ _⟩

theorem consequent : IsOperand (.conditional c a e) a :=
  ⟨by simp [parts, mem_parts_self], fun _ h => h.2.1,
    (List.sublist_append_left _ _).trans (List.sublist_append_right _ _)⟩

theorem alternative : IsOperand (.conditional c a e) e :=
  ⟨by simp [parts, mem_parts_self], fun _ h => h.2.2,
    (List.sublist_append_right _ _).trans (List.sublist_append_right _ _)⟩

end IsOperand

/-- The expression uses variables in `Γ` that come before `lo`. Its own bindings have slots from
`lo` up to `hi`, and there are no others in `Γ`. All of its parts satisfy `P`. -/
structure Placed (P : Expr → Prop) (Γ : Set SlotId) (lo hi : Nat) (e : Expr) : Prop where
  every : e.Every P
  uses : e.Scoped (visible Γ lo)
  ascending : Ascending lo e.allotted hi
  outside : ∀ u ∈ Γ, u < lo ∨ hi ≤ u

theorem allottedInBindings_append (ds ds' : List (Declaration Expr)) :
    allottedInBindings (ds ++ ds') = allottedInBindings ds ++ allottedInBindings ds' := by
  induction ds with
  | nil => rfl
  | cons d ds ih => simp [allottedInBindings, ih]

theorem slot_mem_allottedInBindings {ds : List (Declaration Expr)} {d : Declaration Expr}
    (h : d ∈ ds) : d.slot ∈ allottedInBindings ds :=
  (allottedInBindings_perm ds).mem_iff.2 (List.mem_append_left _ (List.mem_map_of_mem h))

namespace Placed

variable {P : Expr → Prop} {Γ Δ : Set SlotId} {lo hi : Nat} {e e' b : Expr}
variable {ds ds' : List (Declaration Expr)} {d : Declaration Expr}

theorem operand (h : e.Placed P Γ lo hi) (he : IsOperand e e') : e'.Placed P Γ lo hi :=
  ⟨h.every.part he.part, he.uses _ h.uses, h.ascending.sublist he.allotted, h.outside⟩

/-- More variables are in force, with later slots. -/
theorem mono (h : e.Placed P Γ lo hi) (hΓ : Γ ⊆ Δ) (hlater : ∀ u ∈ Δ, u ∈ Γ ∨ hi ≤ u) :
    e.Placed P Δ lo hi where
  every := h.every
  uses := h.uses.mono fun _ hu => ⟨hΓ hu.1, hu.2⟩
  ascending := h.ascending
  outside u hu := (hlater u hu).elim (h.outside u) .inr

/-- The slot of a binding comes after those of the bindings before it and of the variables in force
before the `let`. -/
theorem slot (h : (Expr.letIn (ds ++ d :: ds') b).Placed P Γ lo hi) :
    d.slot < hi ∧ ∀ u ∈ inForce Γ ds, u < hi → u < d.slot := by
  have hascending : Ascending lo (allottedInBindings ds ++ (d.initializer.allotted ++
      d.slot :: (allottedInBindings ds' ++ b.allotted))) hi := by
    simpa [allotted, allottedInBindings_append, allottedInBindings] using h.ascending
  rcases hascending.split with ⟨k, hds, hrest⟩
  rcases hrest.split_at with ⟨hinitializer, hd⟩
  refine ⟨(hd.within d.slot List.mem_cons_self).2, ?_⟩
  -- A variable in force before the `let` comes before `lo`, a binding of it before the initializer.
  rintro u (hu | ⟨d', hd', rfl⟩) hlt
  · have hulo := (h.outside u hu).resolve_right (Nat.not_le_of_lt hlt)
    exact Nat.lt_of_lt_of_le hulo (Nat.le_trans hds.le hinitializer.le)
  · exact Nat.lt_of_lt_of_le (hds.within _ (slot_mem_allottedInBindings hd')).2 hinitializer.le

/-- An initializer stands among the bindings before it. -/
theorem initializer (h : (Expr.letIn (ds ++ d :: ds') b).Placed P Γ lo hi) :
    ∃ k, d.initializer.Placed P (inForce Γ ds) k d.slot := by
  have hascending : Ascending lo (allottedInBindings ds ++ (d.initializer.allotted ++
      d.slot :: (allottedInBindings ds' ++ b.allotted))) hi := by
    simpa [allotted, allottedInBindings_append, allottedInBindings] using h.ascending
  rcases hascending.split with ⟨k, hds, hrest⟩
  rcases hrest.split_at with ⟨hinitializer, hd⟩
  have hbefore : ∀ d' ∈ ds, d'.slot < k :=
    fun d' hd' => (hds.within _ (slot_mem_allottedInBindings hd')).2
  have hpart : d.initializer ∈ (Expr.letIn (ds ++ d :: ds') b).parts :=
    initializer_mem_parts (p := .letIn (ds ++ d :: ds') b) (by simp [ownDeclarations])
  refine ⟨k, h.every.part hpart, ?_, hinitializer, ?_⟩
  · refine (scopedBindings_append.1 h.uses.1).2.1.mono ?_
    rintro u (⟨hu, hlt⟩ | ⟨d', hd', rfl⟩)
    · exact ⟨.inl hu, Nat.lt_of_lt_of_le hlt hds.le⟩
    · exact ⟨.inr ⟨d', hd', rfl⟩, hbefore d' hd'⟩
  · rintro u (hu | ⟨d', hd', rfl⟩)
    · refine (h.outside u hu).imp (fun hlt => Nat.lt_of_lt_of_le hlt hds.le) fun hle => ?_
      exact Nat.le_trans (Nat.le_of_lt (hd.within d.slot List.mem_cons_self).2) hle
    · exact .inl (hbefore d' hd')

/-- What stands inside a `let` stands among all of its bindings. -/
theorem inside (h : (Expr.letIn ds b).Placed P Γ lo hi) :
    ∃ k ≤ hi, b.Placed P (inForce Γ ds) k hi := by
  rcases Ascending.split h.ascending with ⟨k, hds, hb⟩
  have hbefore : ∀ d ∈ ds, d.slot < k :=
    fun d hd => (hds.within _ (slot_mem_allottedInBindings hd)).2
  refine ⟨k, hb.le, h.every.part (by simp [parts, mem_parts_self]), ?_, hb, ?_⟩
  · refine h.uses.2.mono ?_
    rintro u (⟨hu, hlt⟩ | ⟨d, hd, rfl⟩)
    · exact ⟨.inl hu, Nat.lt_of_lt_of_le hlt hds.le⟩
    · exact ⟨.inr ⟨d, hd, rfl⟩, hbefore d hd⟩
  · rintro u (hu | ⟨d, hd, rfl⟩)
    · exact (h.outside u hu).imp_left fun hlt => Nat.lt_of_lt_of_le hlt hds.le
    · exact .inl (hbefore d hd)

end Placed
end Expr

/-! ## Storage in layers -/

namespace Memory

/-- What was left in the slot of a variable in force stands among the variables that are older. -/
def Layered (P : Expr → Prop) (Γ : Set SlotId) (lo : Nat) (m : Memory) : Prop :=
  ∀ t ∈ Γ, t < lo → ∀ e, m.content t = .dependent e → ∃ k, e.Placed P Γ k t

namespace Layered

variable {P : Expr → Prop} {Γ : Set SlotId} {lo hi : Nat} {m : Memory}

theorem of_le (h : m.Layered P Γ hi) (hle : lo ≤ hi) : m.Layered P Γ lo :=
  fun t ht hlt => h t ht (Nat.lt_of_lt_of_le hlt hle)

/-- One more variable is bound, with a slot after all others. -/
theorem bind (h : m.Layered P Γ hi) {i : SlotId} {c : Content} (hlater : ∀ u ∈ Γ, u < hi → u < i)
    (hi' : i < hi) (hc : ∀ e, c = .dependent e → ∃ k, e.Placed P Γ k i) :
    (m.replace i c).Layered P (insert i Γ) hi := by
  -- Whatever is left in a slot up to the new one stands among the older variables, as before.
  have hmono : ∀ {e k t}, t ≤ i → Expr.Placed P Γ k t e → Expr.Placed P (insert i Γ) k t e := by
    intro e k t hle he
    refine he.mono (Set.subset_insert i Γ) ?_
    rintro u (rfl | hu)
    · exact .inr hle
    · exact .inl hu
  intro t ht hlt e he
  rcases content_replace m i t c with heq | ⟨rfl, heq⟩
  -- The new slot may be out of range, and then nothing is left in it.
  · rcases ht with rfl | ht
    · by_cases hsize : t < m.slots.size
      · rw [content_replace_self hsize] at he
        rcases hc e he with ⟨k, hk⟩
        exact ⟨k, hmono (Nat.le_refl t) hk⟩
      · rw [heq] at he
        exact absurd (lt_size_of_dependent he) hsize
    · rcases h t ht hlt e (heq ▸ he) with ⟨k, hk⟩
      exact ⟨k, hmono (Nat.le_of_lt (hlater t ht hlt)) hk⟩
  · rcases hc e (heq ▸ he) with ⟨k, hk⟩
    exact ⟨k, hmono (Nat.le_refl t) hk⟩

end Layered
end Memory

/-! ## What an evaluation changes -/

namespace Effect

variable {ε σ α β : Type} {x : EStateM ε σ α} {f : α → EStateM ε σ β} {s : σ} {P : σ → Prop}

/-- What holds when the first part ends holds when both do, if the second part keeps it. -/
theorem final_bind (hx : P (final (x s))) (hf : ∀ a t, x s = .ok a t → P t → P (final (f a t))) :
    P (final ((x >>= f) s)) := by
  cases hr : x s with
  | ok a t =>
      rw [hr] at hx
      rw [bind_ok hr]
      exact hf a t hr hx
  | error e t =>
      rw [hr] at hx
      rw [bind_error hr]
      exact hx

theorem final_ofExcept (r : Except ε α) (s : σ) : final (Effect.ofExcept r s) = s := by
  cases r <;> rfl

end Effect

namespace Machine

variable {mode : Mode} {S T : Set SlotId} {s t u : Machine}

/-- A slot holds what it held, or a value if values are assigned, or it is in `S`. -/
def Changes (mode : Mode) (S : Set SlotId) (s t : Machine) : Prop :=
  ∀ x, t.memory.content x = s.memory.content x ∨
    (mode = .run ∧ ∃ v, t.memory.content x = .value v) ∨ x ∈ S

namespace Changes

theorem refl (mode : Mode) (S : Set SlotId) (s : Machine) : Changes mode S s s :=
  fun _ => .inl rfl

theorem mono (h : Changes mode S s t) (hST : S ⊆ T) : Changes mode T s t :=
  fun x => (h x).imp_right (Or.imp_right fun hx => hST hx)

/-- Two changes one after the other. -/
theorem trans (h : Changes mode S s t) (h' : Changes mode S t u) : Changes mode S s u := by
  intro x
  rcases h' x with heq | hx
  · rw [heq]
    exact h x
  · exact .inr hx

/-- Asking for a value changes no more than carrying it out may. -/
theorem of_probe (h : Changes .probe S s t) (mode : Mode) : Changes mode S s t := by
  intro x
  rcases h x with heq | ⟨hrun, -⟩ | hx
  · exact .inl heq
  · cases hrun
  · exact .inr (.inr hx)

theorem of_memory (h : Changes mode S s t) (hu : u.memory = t.memory) : Changes mode S s u := by
  intro x
  rw [hu]
  exact h x

/-- Both parts of a sequence change no more than this. -/
theorem bind {α β : Type} {x : Evaluation α} {f : α → Evaluation β}
    (hx : Changes mode S s (final (x s)))
    (hf : ∀ a t, x s = .ok a t → Changes mode S s t → Changes mode S t (final (f a t))) :
    Changes mode S s (final ((x >>= f) s)) :=
  final_bind hx fun a t hok ht => ht.trans (hf a t hok ht)

theorem ofExcept {α : Type} (r : Except Fault α) :
    Changes mode S s (final (Effect.ofExcept r s)) := by
  rw [final_ofExcept]
  exact refl mode S s

theorem replace (i : SlotId) (c : Content) (hi : i ∈ S) :
    Changes mode S s { s with memory := s.memory.replace i c } := by
  intro x
  rcases Memory.content_replace s.memory i x c with heq | ⟨rfl, -⟩
  · exact .inl heq
  · exact .inr (.inr hi)

/-- Storing a value in a slot. -/
theorem write (i : SlotId) (v : Value) (hi : mode = .run ∨ i ∈ S) :
    Changes mode S s (final (Evaluation.write i v s)) := by
  cases hw : s.memory.write i v with
  | ok m =>
      have hstored : Evaluation.write i v s = .ok () { s with memory := m } :=
        update_ok (by rw [hw]; rfl)
      rw [hstored]
      rcases Memory.write_ok hw with ⟨rfl, -⟩
      intro x
      rcases Memory.content_replace s.memory i x (.value v) with heq | ⟨rfl, heq⟩
      · exact .inl heq
      · exact .inr (hi.imp (fun hrun => ⟨hrun, v, heq⟩) id)
  | error fault =>
      have hrefused : Evaluation.write i v s = .error fault s := update_error (by rw [hw]; rfl)
      rw [hrefused]
      exact refl mode S s

theorem writeTargets (v : Value) (ts : List Reference) :
    Changes .run S s (final (Evaluation.writeTargets v ts s)) := by
  induction ts generalizing s with
  | nil => exact refl .run S s
  | cons r rs ih => exact bind (write r.slot v (.inl rfl)) fun _ t _ _ => ih

/-- Variables in force that are spared hold no other expressions than before. -/
theorem layered {P : Expr → Prop} {Γ : Set SlotId} {lo : Nat} (h : Changes mode Γᶜ s t)
    (hs : s.memory.Layered P Γ lo) : t.memory.Layered P Γ lo := by
  intro x hx hlt e he
  rcases h x with heq | ⟨-, v, hv⟩ | hmem
  · exact hs x hx hlt e (heq ▸ he)
  · cases hv.symm.trans he
  · exact absurd hx hmem

end Changes
end Machine

/-! ## What an evaluation binds -/

namespace Moment

/-- The slot is bound in the expression, or in an initializer that is read on the way in the same
call. -/
def Rebinds (p : Moment) (x : SlotId) : Prop :=
  x ∈ p.expr.allotted ∨ ∃ q r e, p.Reaches q ∧
    q.machine.memory.functions = p.machine.memory.functions ∧
    q.expr = .variable r ∧ q.machine.memory.content r.slot = .dependent e ∧ x ∈ e.allotted

/-- The slots that the evaluation may bind, except for those of variables in force. -/
def footprint (Γ : Set SlotId) (p : Moment) : Set SlotId :=
  {x | x ∉ Γ ∧ p.Rebinds x}

theorem footprint_subset_compl {Γ : Set SlotId} {p : Moment} : p.footprint Γ ⊆ Γᶜ :=
  fun _ hx => hx.1

/-- What a part binds the whole does. -/
theorem Leads.footprint_subset {Γ Δ : Set SlotId} {p q : Moment} (h : p.Leads q)
    (hfunctions : q.machine.memory.functions = p.machine.memory.functions)
    (hallotted : ∀ x ∈ q.expr.allotted, p.Rebinds x) (hΓ : Γ ⊆ Δ) :
    q.footprint Δ ⊆ p.footprint Γ := by
  rintro x ⟨hx, hbinds⟩
  refine ⟨fun hmem => hx (hΓ hmem), ?_⟩
  rcases hbinds with hown | ⟨q', r, e, hq', hfunctions', hread⟩
  · exact hallotted x hown
  · exact .inr ⟨q', r, e, .head h hq', hfunctions'.trans hfunctions, hread⟩

theorem Leads.footprint_operand {Γ : Set SlotId} {p q : Moment} (h : p.Leads q)
    (hfunctions : q.machine.memory.functions = p.machine.memory.functions)
    (hq : p.expr.IsOperand q.expr) : q.footprint Γ ⊆ p.footprint Γ :=
  h.footprint_subset hfunctions (fun _ hx => .inl (hq.allotted.subset hx)) subset_rfl

end Moment

/-- An expression that is about to be evaluated stands among the variables in force, and so does
what was left in their slots. -/
structure Moment.Placed (P : Expr → Prop) (Γ : Set SlotId) (lo hi : Nat) (p : Moment) : Prop where
  here : p.expr.Placed P Γ lo hi
  layered : p.machine.memory.Layered P Γ lo

namespace Moment.Placed

open Machine

variable {P : Expr → Prop} {Γ : Set SlotId} {lo hi n : Nat} {mode : Mode} {e e' b : Expr}
variable {s t : Machine} {ds ds' : List (Declaration Expr)} {d : Declaration Expr}

/-- Evaluation turns to an operand, after others that spared the variables in force. -/
theorem operand (h : Placed P Γ lo hi ⟨n, mode, e, s⟩) {n' : Nat} {mode' : Mode}
    (he : e.IsOperand e') (ht : Changes mode Γᶜ s t) : Placed P Γ lo hi ⟨n', mode', e', t⟩ :=
  ⟨h.here.operand he, ht.layered h.layered⟩

/-- Evaluation turns to what was left in a slot. The variables bound since then are still spared. -/
theorem deferred {r : Reference} (h : Placed P Γ lo hi ⟨n, mode, .variable r, s⟩) {n' : Nat}
    (he : s.memory.content r.slot = .dependent e) : ∃ k, Placed P Γ k r.slot ⟨n', mode, e, s⟩ := by
  rcases h.here.uses with ⟨hr, hlt⟩
  rcases h.layered r.slot hr hlt e he with ⟨k, hk⟩
  refine ⟨k, hk, h.layered.of_le ?_⟩
  exact Nat.le_trans hk.ascending.le (Nat.le_of_lt hlt)

/-- Before the bindings of a `let`. -/
theorem start (h : Placed P Γ lo hi ⟨n, mode, e, s⟩) : s.memory.Layered P (inForce Γ []) hi := by
  have hforce : inForce Γ [] = Γ := by simp
  rw [hforce]
  exact fun x hx hlt => h.layered x hx ((h.here.outside x hx).resolve_right (Nat.not_le_of_lt hlt))

/-- One binding is filled. Its slot comes after those of all variables in force. -/
theorem bindOne (h : (Expr.letIn (ds ++ d :: ds') b).Placed P Γ lo hi)
    (ht : t.memory.Layered P (inForce Γ ds) hi) {F : Set SlotId} (hslot : d.slot ∈ F)
    (hF : d.dependent = false → footprint (inForce Γ ds) ⟨n + 1, mode, d.initializer, t⟩ ⊆ F)
    (hinitializer : d.dependent = false →
      Changes mode (footprint (inForce Γ ds) ⟨n + 1, mode, d.initializer, t⟩) t
        (final (evaluateWithin (n + 1) mode d.initializer t))) :
    Changes mode F t (final (Evaluation.bindOne (evaluateWithin n) mode d t)) ∧
      ∀ u, Evaluation.bindOne (evaluateWithin n) mode d t = .ok () u →
        u.memory.Layered P (inForce Γ (ds ++ [d])) hi := by
  rcases h.slot with ⟨hlt, hlater⟩
  rw [← insert_inForce]
  unfold Evaluation.bindOne
  split
  · refine ⟨.replace d.slot _ hslot, ?_⟩
    rintro _ ⟨⟩
    refine ht.bind hlater hlt ?_
    rintro e ⟨⟩
    exact h.initializer
  · next hd =>
      have hdependent : d.dependent = false := by simpa using hd
      have hchanges := hinitializer hdependent
      refine ⟨.bind (hchanges.mono (hF hdependent)) fun v u _ _ => .write d.slot v (.inr hslot),
        fun u hu => ?_⟩
      rcases of_bind_ok hu with ⟨v, w, hv, hu⟩
      have hv' : evaluateWithin (n + 1) mode d.initializer t = .ok v w := hv
      rw [hv'] at hchanges
      -- The initializer changes nothing in force, so the layers are the ones from before it.
      have hw : w.memory.Layered P (inForce Γ ds) hi :=
        (hchanges.mono footprint_subset_compl).layered ht
      rcases ok_of_bind (of_update_ok hu) with ⟨m, hm, hend⟩
      rcases Memory.write_ok hm with ⟨rfl, -⟩
      cases hend
      exact hw.bind hlater hlt (by simp)

/-- Bindings of a `let` are filled, one after the other. -/
theorem bindings {owner : SlotId → FunctionId} {o : FunctionId} {all rest : List (Declaration Expr)}
    (howned : Owned owner o ⟨n + 1, mode, .letIn all b, s⟩)
    (h : (Expr.letIn all b).Placed P Γ lo hi) (hall : all = ds ++ ds' ++ rest)
    (hds : bindWith (evaluateWithin n) mode ds s = .ok () t)
    (ht : t.memory.Layered P (inForce Γ ds) hi)
    (hinitializer : ∀ ds₁ d ds₂ u, all = ds₁ ++ d :: ds₂ →
      bindWith (evaluateWithin n) mode ds₁ s = .ok () u →
      d.dependent = false → u.memory.Layered P (inForce Γ ds₁) hi →
        Changes mode (footprint (inForce Γ ds₁) ⟨n + 1, mode, d.initializer, u⟩) u
          (final (evaluateWithin (n + 1) mode d.initializer u))) :
    Changes mode (footprint Γ ⟨n + 1, mode, .letIn all b, s⟩) t
      (final (bindWith (evaluateWithin n) mode ds' t)) ∧
      ∀ u, bindWith (evaluateWithin n) mode ds' t = .ok () u →
        u.memory.Layered P (inForce Γ (ds ++ ds')) hi := by
  induction ds' generalizing ds t with
  | nil =>
      refine ⟨.refl mode _ t, ?_⟩
      rintro _ ⟨⟩
      rwa [List.append_nil]
  | cons d ds' ih =>
      have hsplit : all = ds ++ d :: (ds' ++ rest) := by simpa using hall
      have hplaced : (Expr.letIn (ds ++ d :: (ds' ++ rest)) b).Placed P Γ lo hi := hsplit ▸ h
      have hbound : ∀ x ∈ d.initializer.allotted ++ [d.slot], x ∈ (Expr.letIn all b).allotted := by
        intro x hx
        simp only [hsplit, Expr.allotted, Expr.allottedInBindings_append, Expr.allottedInBindings]
        grind
      have hslot : d.slot ∈ footprint Γ ⟨n + 1, mode, .letIn all b, s⟩ := by
        refine ⟨fun hmem => ?_, .inl (hbound _ (by simp))⟩
        exact Nat.lt_irrefl _ (hplaced.slot.2 _ (.inl hmem) hplaced.slot.1)
      -- The initializer runs inside the whole, so what it may touch lies in the footprint of the
      -- whole.
      have hF : d.dependent = false → footprint (inForce Γ ds) ⟨n + 1, mode, d.initializer, t⟩ ⊆
          footprint Γ ⟨n + 1, mode, .letIn all b, s⟩ := by
        subst hsplit
        intro hd
        refine (Leads.initializer hds hd).footprint_subset (howned.bindings hds).2.functions ?_
          Set.subset_union_left
        exact fun x hx => .inl (hbound x (List.mem_append_left _ hx))
      have hone := bindOne hplaced ht hslot hF fun hd => hinitializer ds d _ t hsplit hds hd ht
      have hnext : ∀ u, Evaluation.bindOne (evaluateWithin n) mode d t = .ok () u →
          bindWith (evaluateWithin n) mode (ds ++ [d]) s = .ok () u := by
        intro u hu
        rw [bindWith_append hds, bindWith_cons, bind_ok hu]
        rfl
      have hall' : all = ds ++ [d] ++ ds' ++ rest := by simpa using hall
      rw [bindWith_cons, List.append_cons]
      refine ⟨.bind hone.1 fun _ u hu _ => (ih hall' (hnext u hu) (hone.2 u hu)).1, fun w hw => ?_⟩
      rcases of_bind_ok hw with ⟨_, u, hu, hw⟩
      exact (ih hall' (hnext u hu) (hone.2 u hu)).2 w hw

end Moment.Placed

/-- Arguments change no more than each of them does. -/
theorem Machine.changes_arguments {n : Nat} {F : Set SlotId} {s : Machine} {es : List Expr}
    (hes : ∀ es₁ e es₂ vs t, es = es₁ ++ e :: es₂ →
      argumentsWith (evaluateWithin n) es₁ s = .ok vs t →
      Changes .probe F s t → Changes .probe F t (final (evaluateWithin (n + 1) .probe e t))) :
    Changes .probe F s (final (argumentsWith (evaluateWithin n) es s)) := by
  induction es generalizing s with
  | nil => exact .refl .probe F s
  | cons e es ih =>
      refine Changes.bind (hes [] e es [] s rfl rfl (.refl .probe F s)) fun v t hv ht => ?_
      refine Changes.bind (ih ?_) fun vs u _ _ => .refl .probe F u
      rintro es₁ e' es₂ vs u rfl hvs hu
      exact hes (e :: es₁) e' es₂ (v :: vs) u rfl ((bind_ok hv).trans (bind_ok hvs)) (ht.trans hu)

open Machine Moment

/-! ## Expressions -/

/-- Wherever the expression stands among variables in force, its evaluation fills slots of bindings
that it comes to, but not those of the variables, and beyond this it stores assigned values. -/
def Machine.ChangesAt (owner : SlotId → FunctionId) (o : FunctionId) (P : Expr → Prop) (n : Nat)
    (e : Expr) : Prop :=
  ∀ ⦃Γ : Set SlotId⦄ ⦃lo hi : Nat⦄ ⦃mode : Mode⦄ ⦃s : Machine⦄, Owned owner o ⟨n, mode, e, s⟩ →
    Placed P Γ lo hi ⟨n, mode, e, s⟩ →
      Changes mode (footprint Γ ⟨n, mode, e, s⟩) s (final (evaluateWithin n mode e s))

namespace Machine.ChangesAt

variable {owner : SlotId → FunctionId} {o : FunctionId} {P : Expr → Prop} {n : Nat} {e : Expr}
variable {Γ : Set SlotId} {lo hi : Nat} {mode : Mode} {s t : Machine}

/-- An operand changes no more than the whole expression. -/
theorem operand {n' : Nat} {mode' : Mode} {e' : Expr} (he' : ChangesAt owner o P n' e')
    (h : Placed P Γ lo hi ⟨n, mode, e, s⟩) (howned : Owned owner o ⟨n, mode, e, s⟩)
    (he : e.IsOperand e') (hleads : Leads ⟨n, mode, e, s⟩ ⟨n', mode', e', t⟩)
    (hconfined : Confined owner o s.memory t) (ht : Changes mode Γᶜ s t) :
    Changes mode' (footprint Γ ⟨n, mode, e, s⟩) t (final (evaluateWithin n' mode' e' t)) := by
  have hplaced : Placed P Γ lo hi ⟨n', mode', e', t⟩ := h.operand he ht
  have hchanges := he' (howned.part hconfined he.part) hplaced
  exact hchanges.mono (hleads.footprint_operand hconfined.2.functions he)

/-- An operand that is evaluated first. -/
theorem first {n' : Nat} {mode' : Mode} {e' : Expr} (he' : ChangesAt owner o P n' e')
    (h : Placed P Γ lo hi ⟨n, mode, e, s⟩) (howned : Owned owner o ⟨n, mode, e, s⟩)
    (he : e.IsOperand e') (hleads : Leads ⟨n, mode, e, s⟩ ⟨n', mode', e', s⟩) :
    Changes mode' (footprint Γ ⟨n, mode, e, s⟩) s (final (evaluateWithin n' mode' e' s)) :=
  he'.operand h howned he hleads (.refl howned.coherent) (.refl mode _ s)

/-- An operand that is evaluated after another one, which spared the variables in force. -/
theorem next {e₁ e₂ : Expr} {v : Value} (he₂ : ChangesAt owner o P (n + 1) e₂)
    (h : Placed P Γ lo hi ⟨n + 1, mode, e, s⟩) (howned : Owned owner o ⟨n + 1, mode, e, s⟩)
    (hfirst : e.IsOperand e₁) (hv : evaluateWithin (n + 1) mode e₁ s = .ok v t)
    (ht : Changes mode (footprint Γ ⟨n + 1, mode, e, s⟩) s t) (hsecond : e.IsOperand e₂)
    (hleads : Leads ⟨n + 1, mode, e, s⟩ ⟨n + 1, mode, e₂, t⟩) :
    Changes mode (footprint Γ ⟨n + 1, mode, e, s⟩) t
      (final (evaluateWithin (n + 1) mode e₂ t)) := by
  have hpart : Owned owner o ⟨n + 1, mode, e₁, s⟩ := howned.operand hfirst.part
  exact he₂.operand h howned hsecond hleads (hpart.after hv) (ht.mono footprint_subset_compl)

/-- An initializer that is read from a slot is older than the variable, and so are its bindings. -/
theorem read (r : Reference) (hstored : ∀ o e, ChangesAt owner o P n e) :
    ChangesAt owner o P (n + 1) (.variable r) := by
  intro Γ lo hi mode s howned h
  show Changes mode _ s (final (readWith (evaluateWithin n) mode r s))
  rw [readWith_apply]
  cases hc : s.memory.content r.slot with
  | uninitialized => exact .refl mode _ s
  | value v => exact .refl mode _ s
  | dependent e =>
      have hleads : Leads ⟨n + 1, mode, .variable r, s⟩ ⟨n, mode, e, s⟩ := .deferred hc
      rcases h.deferred hc with ⟨k, hk⟩
      refine (hstored _ e (howned.deferred hc) hk).mono
        (hleads.footprint_subset rfl ?_ subset_rfl)
      exact fun x hx => .inr ⟨_, r, e, .refl, rfl, rfl, hc, hx⟩

theorem unary (op : UnaryOperator) (he : ChangesAt owner o P (n + 1) e) :
    ChangesAt owner o P (n + 1) (.unary op e) :=
  fun _ _ _ _ _ howned h => .bind (he.first h howned .unary .operand) fun _ _ _ _ => .ofExcept _

/-- The right operand is evaluated where the left one spared the variables in force. -/
theorem binary (op : BinaryOperator) {l r : Expr} (hl : ChangesAt owner o P (n + 1) l)
    (hr : ChangesAt owner o P (n + 1) r) : ChangesAt owner o P (n + 1) (.binary op l r) := by
  intro Γ lo hi mode s howned h
  refine .bind (hl.first h howned .left .left) fun v t hv ht => ?_
  refine .bind (.ofExcept (op.decided? v)) fun d u hd _ => ?_
  rcases of_ofExcept_ok hd with ⟨hundecided, rfl⟩
  cases d with
  | some w => exact .refl mode _ u
  | none =>
      have hright := hr.next h howned .left hv ht .right (.right hv hundecided)
      exact .bind hright fun w u _ _ => .ofExcept _

/-- Assigned values are stored besides. -/
theorem assign (ts : List Reference) (he : ChangesAt owner o P (n + 1) e) :
    ChangesAt owner o P (n + 1) (.assign ts e) := by
  intro Γ lo hi mode s howned h
  refine .bind (he.first h howned .assigned .assigned) fun v t _ _ => ?_
  cases mode with
  | probe => exact .refl .probe _ t
  | run => exact .bind (.writeTargets v ts) fun _ u _ _ => .refl .run _ u

/-- Only the arguments of a call leave a trace, and they are asked for their values. -/
theorem call (name : String) (f : FunctionId) {es : List Expr} (dependent : Bool)
    (hes : ∀ e ∈ es, ChangesAt owner o P (n + 1) e) :
    ChangesAt owner o P (n + 1) (.call name f es dependent) := by
  intro Γ lo hi mode s howned h
  have hfinal := howned.call_final f n mode
  cases harity : (s.memory.function f).checkArity es.length with
  | error fault =>
      rw [harity] at hfinal
      exact (Changes.refl mode _ s).of_memory hfinal
  | ok =>
      rw [harity] at hfinal
      refine ((changes_arguments ?_).of_probe mode).of_memory hfinal
      rintro es₁ e' es₂ vs t rfl hvs ht
      have hbefore : ∀ e ∈ es₁, e ∈ es₁ ++ e' :: es₂ := fun _ he => List.mem_append_left _ he
      have hafter := (howned.arguments hbefore).of_ok (.refl howned.coherent) hvs
      exact (hes e' (by simp)).operand h howned (.argument (by simp)) (.argument harity hvs) hafter
        ((ht.mono footprint_subset_compl).of_probe mode)

theorem print (he : ChangesAt owner o P (n + 1) e) : ChangesAt owner o P (n + 1) (.print e) := by
  intro Γ lo hi mode s howned h
  refine .bind (he.first h howned .printed .printed) fun v t _ _ x => ?_
  cases mode with
  | probe => exact .inl rfl
  | run => exact .inl rfl

/-- Inside a `let` its bindings are in force too, so that fewer slots may be bound there. -/
theorem letIn {ds : List (Declaration Expr)} {b : Expr}
    (hds : ∀ d ∈ ds, ChangesAt owner o P (n + 1) d.initializer)
    (hb : ChangesAt owner o P (n + 1) b) : ChangesAt owner o P (n + 1) (.letIn ds b) := by
  intro Γ lo hi mode s howned h
  have hall : ds = [] ++ ds ++ [] := by simp
  have hnone : bindWith (evaluateWithin n) mode [] s = .ok () s := rfl
  have hbindings := Placed.bindings howned h.here hall hnone h.start ?_
  · refine .bind hbindings.1 fun _ t hbound _ => ?_
    rw [← List.append_nil ds] at howned
    have hafter := howned.bindings hbound
    rcases h.here.inside with ⟨k, hk, hhere⟩
    have hplaced : Placed P (inForce Γ ds) k hi ⟨n + 1, mode, b, t⟩ :=
      ⟨hhere, (hbindings.2 t hbound).of_le hk⟩
    have hpart : b ∈ (Expr.letIn (ds ++ []) b).parts := by simp [Expr.parts, Expr.mem_parts_self]
    have hsubset := (Leads.inside (b := b) hbound).footprint_subset (Γ := Γ) (Δ := inForce Γ ds)
      hafter.2.functions (fun x hx => .inl (List.mem_append_right _ hx)) Set.subset_union_left
    exact (hb (howned.part hafter hpart) hplaced).mono hsubset
  · rintro ds₁ d ds₂ u rfl hu hd hlayered
    rcases h.here.initializer with ⟨k, hk⟩
    have hle : k ≤ hi := Nat.le_trans hk.ascending.le (Nat.le_of_lt h.here.slot.1)
    refine hds d (by simp) (howned.part (howned.bindings hu) ?_) ⟨hk, hlayered.of_le hle⟩
    exact Expr.initializer_mem_parts (p := .letIn (ds₁ ++ d :: ds₂) b)
      (by simp [Expr.ownDeclarations])

/-- Only one of the branches is evaluated, after the condition. -/
theorem conditional {c a e : Expr} (hc : ChangesAt owner o P (n + 1) c)
    (ha : ChangesAt owner o P (n + 1) a) (he : ChangesAt owner o P (n + 1) e) :
    ChangesAt owner o P (n + 1) (.conditional c a e) := by
  intro Γ lo hi mode s howned h
  refine .bind (hc.first h howned .condition .condition) fun v t hvalue ht => ?_
  refine .bind (.ofExcept (v.asBoolean .condition)) fun d u hd _ => ?_
  rcases of_ofExcept_ok hd with ⟨hv, rfl⟩
  cases d with
  | true => exact ha.next h howned .condition hvalue ht .consequent (.consequent hvalue hv)
  | false => exact he.next h howned .condition hvalue ht .alternative (.alternative hvalue hv)

end Machine.ChangesAt

/-- Every expression keeps to its footprint, at any depth. -/
theorem changesAt (owner : SlotId → FunctionId) (o : FunctionId) (P : Expr → Prop) (n : Nat)
    (e : Expr) : ChangesAt owner o P n e := by
  -- Stored expressions are followed to a smaller depth, and operands are evaluated at the same one.
  induction n generalizing o e with
  | zero => exact fun _ _ _ mode s _ _ => .refl mode _ s
  | succ n ihn =>
      induction e using Expr.induction with
      | literal v => exact fun _ _ _ mode s _ _ => .refl mode _ s
      | declaration name f => exact fun _ _ _ mode s _ _ => .refl mode _ s
      | read r => exact .read r ihn
      | unary op e ih => exact .unary op ih
      | binary op l r ihl ihr => exact .binary op ihl ihr
      | assign ts e ih => exact .assign ts ih
      | call name f es dependent ih => exact .call name f dependent ih
      | print e ih => exact .print ih
      | letIn ds b ihd ihb => exact .letIn ihd ihb
      | conditional c a e ihc iha ihe => exact .conditional ihc iha ihe

/-- An evaluation fills slots of bindings that it comes to, but not those of variables in force, and
beyond this it stores assigned values. -/
theorem evaluateWithin_changes {owner : SlotId → FunctionId} {o : FunctionId} {P : Expr → Prop}
    {Γ : Set SlotId} {lo hi n : Nat} {mode : Mode} {e : Expr} {s : Machine}
    (howned : Owned owner o ⟨n, mode, e, s⟩) (h : Placed P Γ lo hi ⟨n, mode, e, s⟩) :
    Changes mode (footprint Γ ⟨n, mode, e, s⟩) s (final (evaluateWithin n mode e s)) :=
  changesAt owner o P n e howned h

end LineLang
