import LineLang.Proofs.Evaluation.Flags
import LineLang.Proofs.Typing.Given
import LineLang.Resolution

/-!
# Storage while names are resolved

Resolving a phrase adds slots to the storage and fills some of them. Slots that were there before
the instruction are not touched, and what has been found out about an expression stays true.

- `Memory.Grown`         : slots were added, the others kept their kinds
- `Memory.Working`       : the storage is coherent and all kinds of functions are known
- `Memory.Resolved`      : what is known of an expression whose names have been resolved
- `Memory.Honest`        : the marks of a part say which of its slots are flagged
- `Resolution.Steps`     : an action of resolution that only lets the storage grow
-/

namespace LineLang

open Effect

namespace Memory

variable {lo : Nat} {m n k : Memory}

/-! ## Growth -/

/-- Slots were added and filled. The slots before `lo` are as they were, and no slot has another
kind. -/
structure Grown (lo : Nat) (m n : Memory) : Prop where
  functions : n.functions = m.functions
  registry : n.registry = m.registry
  size : m.slots.size ≤ n.slots.size
  shape : ∀ t, t < m.slots.size → (n.slot t).shape = (m.slot t).shape
  slot : ∀ t, t < lo → n.slot t = m.slot t

namespace Grown

theorem refl (m : Memory) : Grown lo m m :=
  ⟨rfl, rfl, Nat.le_refl _, fun _ _ => rfl, fun _ _ => rfl⟩

/-- Growth goes on. -/
theorem trans (h : Grown lo m n) (h' : Grown lo n k) : Grown lo m k where
  functions := h'.functions.trans h.functions
  registry := h'.registry.trans h.registry
  size := Nat.le_trans h.size h'.size
  shape t ht := (h'.shape t (Nat.lt_of_lt_of_le ht h.size)).trans (h.shape t ht)
  slot t ht := (h'.slot t ht).trans (h.slot t ht)

theorem allocate (hlo : lo ≤ m.slots.size) (s : Slot) : Grown lo m (m.allocate s) where
  functions := rfl
  registry := rfl
  size := by simp
  shape t ht := by rw [slot_allocate_of_lt ht]
  slot t ht := slot_allocate_of_lt (Nat.lt_of_lt_of_le ht hlo)

/-- Filling slots from `lo` on counts as growth. -/
theorem of_unchangedOutside {S : SlotId → Prop} (h : m.UnchangedOutside S n)
    (hS : ∀ t, S t → lo ≤ t) : Grown lo m n where
  functions := h.functions
  registry := h.registry
  size := Nat.le_of_eq h.size.symm
  shape t _ := h.shape t
  slot t ht := h.slot fun hs => Nat.not_le_of_lt ht (hS t hs)

theorem function (h : Grown lo m n) (f : FunctionId) : n.function f = m.function f := by
  simp only [Memory.function, h.functions]

theorem kind (h : Grown lo m n) {t : SlotId} (ht : t < m.slots.size) :
    (n.slot t).kind = (m.slot t).kind :=
  congrArg (·.kind) (h.shape t ht)

theorem dependent (h : Grown lo m n) {t : SlotId} (ht : t < m.slots.size) :
    (n.slot t).dependent = (m.slot t).dependent :=
  congrArg (·.dependent) (h.shape t ht)

/-- Kinds of expressions stay the same. -/
theorem kindGiven (h : Grown lo m n) {e : Expr} (he : e.SlotsIn (· < m.slots.size)) :
    Typing.kindGiven n n.answer e = Typing.kindGiven m m.answer e := by
  apply Typing.kindGiven_congr
  · exact Expr.Every.imp he fun p hp t ht => h.kind (hp t ht)
  · intro p _ f _
    simp only [answer, h.function, true_and, implies_true]

end Grown

/-- Slots that were added may be filled, and more may be added. -/
theorem Extends.grown {base : Memory} (h : base.Extends m) (hn : m.Grown base.slots.size n) :
    base.Extends n :=
  .of_forall (Nat.le_trans h.size_slots hn.size) (fun t ht => (hn.slot t ht).trans (h.slot ht))
    (by rw [hn.functions]; exact h.size_functions) fun f hf => (hn.function f).trans (h.function hf)

theorem Grown.extends (h : Grown m.slots.size m n) : Extends m n :=
  (Extends.refl m).grown h

/-! ## Coherence -/

/-- Owners may change for slots that are not there yet. -/
theorem Coherent.allocate {owner : SlotId → FunctionId} (h : m.Coherent owner) {s : Slot}
    (hs : s.content = .uninitialized) (hbody : (m.function (owner m.slots.size)).body = none) :
    (m.allocate s).Coherent owner where
  deferred t e ht := by
    have hle : t < m.slots.size + 1 := size_allocate ▸ lt_size_of_dependent ht
    have hne : t ≠ m.slots.size := by
      rintro rfl
      rw [content, slot_allocate_self, hs] at ht
      cases ht
    have hlt : t < m.slots.size := Nat.lt_of_le_of_ne (Nat.le_of_lt_succ hle) hne
    rw [content, slot_allocate_of_lt hlt] at ht
    exact h.deferred t e ht
  body f b hb := by
    refine ⟨(h.body f b hb).1, Expr.Every.imp (h.body f b hb).2 fun p hp t ht => ?_⟩
    rw [size_allocate]
    exact Nat.lt_succ_of_lt (hp t ht)
  frame f b hb t ht hlt := by
    refine h.frame f b hb t ht (Nat.lt_of_le_of_ne ?_ ?_)
    · rw [size_allocate] at hlt
      exact Nat.le_of_lt_succ hlt
    · -- The owner of the new slot has no body yet, so it has no frame to cover it.
      rintro rfl
      have hb' : (m.function f).body = some b := hb
      rw [← ht, hbody] at hb'
      cases hb'
  parameters f b hb := h.parameters f b hb

/-- The storage of an instruction whose slots begin at `lo` and belong to `o`. -/
structure Working (owner : SlotId → FunctionId) (o : FunctionId) (lo : Nat) (m : Memory) :
    Prop where
  coherent : m.Coherent owner
  settled : m.Settled
  owned : ∀ t, owner t = o ↔ lo ≤ t
  low : lo ≤ m.slots.size
  bodyless : (m.function o).body = none
  registered : ∀ p ∈ m.registry, p.2 < m.functions.size ∧ (m.function p.2).body ≠ none
  flagged : m.Flagged

namespace Working

variable {owner : SlotId → FunctionId} {o : FunctionId}

/-- Where functions and names are the same, only what the slots hold has to be looked at. -/
theorem of_grown (h : m.Working owner o lo) (hn : Grown lo m n) (hc : n.Coherent owner)
    (hflagged : n.Flagged) : n.Working owner o lo where
  coherent := hc
  settled f := by
    rw [hn.function]
    exact h.settled f
  owned := h.owned
  low := Nat.le_trans h.low hn.size
  bodyless := by rw [hn.function, h.bodyless]
  registered p hp := by
    rw [hn.registry] at hp
    rw [hn.functions, hn.function]
    exact h.registered p hp
  flagged := hflagged

theorem allocate (h : m.Working owner o lo) {s : Slot} (hs : s.content = .uninitialized) :
    (m.allocate s).Working owner o lo := by
  refine h.of_grown (.allocate h.low s) (h.coherent.allocate hs ?_) (h.flagged.allocate hs)
  rw [(h.owned _).2 h.low, h.bodyless]

end Working

/-! ## Resolved expressions -/

/-- A binding has the kind of its slot, which comes from the kind of its initializer when calls have
given kinds. -/
def FitsGiven (m : Memory) (answer : FunctionId → Except Fault Kind) (d : Declaration Expr) :
    Prop :=
  (m.slot d.slot).kind = d.kind ∧ ∃ declared inferred,
    Typing.kindGiven m answer d.initializer = .ok inferred ∧
      Resolution.settleKind d.name declared inferred = .ok d.kind

abbrev Fits (m : Memory) (d : Declaration Expr) : Prop :=
  m.FitsGiven m.answer d

theorem Fits.grown {d : Declaration Expr} (hd : m.Fits d) (h : Grown lo m n)
    (hslot : d.slot < m.slots.size) (hi : d.initializer.SlotsIn (· < m.slots.size)) : n.Fits d := by
  rcases hd with ⟨hkind, declared, inferred, hinferred, hsettle⟩
  exact ⟨(h.kind hslot).trans hkind, declared, inferred, (h.kindGiven hi).trans hinferred, hsettle⟩

/-- What is marked as dependent has a reason, and what has one is marked: a slot, an initializer, an
argument or a function without a body. -/
def Marked (m : Memory) : Expr → Prop
  | .variable r => r.dependent = (m.slot r.slot).dependent
  | .assign targets _ => ∀ r ∈ targets, r.dependent = (m.slot r.slot).dependent
  | .call _ f arguments dependent =>
      dependent = true ↔ (m.function f).body = none ∨ ∃ a ∈ arguments, a.isDependent = true
  | .letIn declarations _ => ∀ d ∈ declarations,
      d.dependent = d.initializer.isDependent ∧ (m.slot d.slot).dependent = d.dependent
  | _ => True

/-- Marks stay right when the storage grows, since no flag and no body changes. -/
theorem Marked.grown {p : Expr} (hp : m.Marked p) (h : Grown lo m n)
    (hs : ∀ t ∈ p.ownSlots, t < m.slots.size) : n.Marked p := by
  cases p with
  | «variable» r => exact hp.trans (h.dependent (hs r.slot (List.mem_singleton.2 rfl))).symm
  | assign ts e =>
      intro r hr
      exact (hp r hr).trans (h.dependent (hs r.slot (List.mem_map_of_mem hr))).symm
  | call name f es dependent =>
      simp only [Marked, h.function]
      exact hp
  | letIn ds b =>
      intro d hd
      have hslot : d.slot < m.slots.size := hs d.slot (List.mem_map_of_mem hd)
      exact ⟨(hp d hd).1, (h.dependent hslot).trans (hp d hd).2⟩
  | _ => trivial

/-- Marks that are right but may be too many: a call may be marked without a reason, as recursive
calls are once the function has its body. -/
def Honest (m : Memory) : Expr → Prop
  | .variable r => r.dependent = (m.slot r.slot).dependent
  | .assign targets _ => ∀ r ∈ targets, r.dependent = (m.slot r.slot).dependent
  | .call _ _ arguments dependent => dependent = false → ∀ a ∈ arguments, a.isDependent = false
  | .letIn declarations _ => ∀ d ∈ declarations,
      d.dependent = d.initializer.isDependent ∧ (m.slot d.slot).dependent = d.dependent
  | _ => True

/-- Marks that are exact are right. -/
theorem Marked.honest {p : Expr} (h : m.Marked p) : m.Honest p := by
  cases p with
  | call name f es dependent =>
      intro hfalse a ha
      by_contra ha'
      have hmarked : dependent = true := h.2 (.inr ⟨a, ha, by simpa using ha'⟩)
      cases hmarked.symm.trans hfalse
  | _ => exact h

/-- Only the flags of slots matter. -/
theorem Honest.congr {p : Expr} (h : m.Honest p)
    (hflags : ∀ t ∈ p.ownSlots, (n.slot t).dependent = (m.slot t).dependent) : n.Honest p := by
  cases p with
  | «variable» r => exact h.trans (hflags r.slot (List.mem_singleton.2 rfl)).symm
  | assign ts e =>
      intro r hr
      exact (h r hr).trans (hflags r.slot (List.mem_map_of_mem hr)).symm
  | letIn ds b =>
      intro d hd
      exact ⟨(h d hd).1, (hflags d.slot (List.mem_map_of_mem hd)).trans (h d hd).2⟩
  | _ => exact h

/-- The slots of dependent bindings are flagged. -/
theorem flags_of_honest {e : Expr} (h : e.Every m.Honest) : e.Binds m.Flags := by
  refine h.imp fun p hp d hd hdependent => ?_
  cases p with
  | letIn ds b => exact (hp d hd).2.trans hdependent
  | _ => cases hd

/-- All parts of an expression that is not dependent are not. -/
theorem independent_parts {e : Expr} (h : e.Every m.Honest) (he : e.isDependent = false) :
    e.Every (·.isDependent = false) := by
  -- A call and a binding record their flag instead of computing it: there honesty says that the
  -- flag covers the parts.
  induction e using Expr.induction with
  | literal v => exact Expr.every_literal.2 he
  | declaration name f => exact Expr.every_declaration.2 he
  | read r => exact Expr.every_variable.2 he
  | unary op e ih => exact Expr.every_unary.2 ⟨he, ih (Expr.every_unary.1 h).2 he⟩
  | print e ih => exact Expr.every_print.2 ⟨he, ih (Expr.every_print.1 h).2 he⟩
  | binary op l r ihl ihr =>
      rcases Expr.every_binary.1 h with ⟨-, hl, hr⟩
      rcases Bool.or_eq_false_iff.1 he with ⟨hel, her⟩
      exact Expr.every_binary.2 ⟨he, ihl hl hel, ihr hr her⟩
  | assign ts e ih =>
      exact Expr.every_assign.2 ⟨he, ih (Expr.every_assign.1 h).2 (Bool.or_eq_false_iff.1 he).1⟩
  | call name f es dependent ih =>
      rcases Expr.every_call.1 h with ⟨hown, hes⟩
      exact Expr.every_call.2 ⟨he, fun a ha => ih a ha (hes a ha) (hown he a ha)⟩
  | conditional c t e ihc iht ihe =>
      rcases Expr.every_conditional.1 h with ⟨-, hc, ht, he'⟩
      rcases Bool.or_eq_false_iff.1 he with ⟨hct, hee⟩
      rcases Bool.or_eq_false_iff.1 hct with ⟨hec, het⟩
      exact Expr.every_conditional.2 ⟨he, ihc hc hec, iht ht het, ihe he' hee⟩
  | letIn ds b ihd ihb =>
      rcases Expr.every_letIn.1 h with ⟨hown, hinits, hb⟩
      rcases Bool.or_eq_false_iff.1 he with ⟨heds, heb⟩
      refine Expr.every_letIn.2 ⟨he, fun d hd => ihd d hd (hinits d hd) ?_, ihb hb heb⟩
      exact (hown d hd).1.symm.trans (by simpa using List.any_eq_false.1 heds d hd)

/-- It binds no dependent variables. -/
theorem independent_binds {e : Expr} (h : e.Every m.Honest) (he : e.isDependent = false) :
    e.Binds (·.dependent = false) := by
  refine (independent_parts h he).imp fun p hp d hd => ?_
  cases p with
  | letIn ds b => simpa using List.any_eq_false.1 (Bool.or_eq_false_iff.1 hp).1 d hd
  | _ => cases hd

/-- It uses no slots that are flagged. -/
theorem independent_slots {e : Expr} (h : e.Every m.Honest) (he : e.isDependent = false) :
    e.SlotsIn fun t => (m.slot t).dependent = false := by
  refine (h.and ((independent_parts h he).and (independent_binds h he))).imp ?_
  rintro p ⟨hhonest, hp, hbinds⟩ t ht
  cases p with
  | «variable» r =>
      cases List.mem_singleton.1 ht
      exact hhonest.symm.trans hp
  | assign ts e =>
      rcases List.mem_map.1 ht with ⟨r, hr, rfl⟩
      rw [← hhonest r hr]
      simpa using List.any_eq_false.1 (Bool.or_eq_false_iff.1 hp).2 r hr
  | letIn ds b =>
      rcases List.mem_map.1 ht with ⟨d, hd, rfl⟩
      exact (hhonest d hd).2.trans (hbinds d hd)
  | _ => cases ht

def fixed (m : Memory) (Γ : Set SlotId) : Set SlotId :=
  {t | t ∈ Γ ∧ (m.slot t).dependent = false}

/-- What is known of each part of an expression whose names have been resolved. -/
structure Sound (owner : SlotId → FunctionId) (o : FunctionId) (m : Memory) (p : Expr) : Prop where
  slots : ∀ t ∈ p.ownSlots, owner t = o ∧ t < m.slots.size
  bindings : ∀ d ∈ p.ownDeclarations, d.initializer.SlotsIn (· < d.slot) ∧ m.Fits d
  callees : ∀ f ∈ p.ownCallees, f < m.functions.size
  plain : ∀ name f, p ≠ .declaration name f
  marked : m.Marked p

/-- All names of an expression have been resolved, and its variables are in `Γ`. -/
structure Resolved (owner : SlotId → FunctionId) (o : FunctionId) (Γ : Set SlotId) (m : Memory)
    (e : Expr) : Prop where
  every : e.Every (m.Sound owner o)
  inScope : e.Scoped Γ

namespace Resolved

variable {owner : SlotId → FunctionId} {o : FunctionId} {Γ : Set SlotId} {e : Expr}

theorem here (h : m.Resolved owner o Γ e) : e.Local owner o :=
  ⟨h.every.imp fun _ hp t ht => (hp.slots t ht).1, h.every.imp fun _ hp d hd =>
    (hp.bindings d hd).1⟩

theorem slots (h : m.Resolved owner o Γ e) : e.SlotsIn (· < m.slots.size) :=
  h.every.imp fun _ hp t ht => (hp.slots t ht).2

theorem calls (h : m.Resolved owner o Γ e) : e.Calls (· < m.functions.size) :=
  h.every.imp fun _ hp => hp.callees

theorem fits (h : m.Resolved owner o Γ e) : e.Binds m.Fits :=
  h.every.imp fun _ hp d hd => (hp.bindings d hd).2

theorem honest (h : m.Resolved owner o Γ e) : e.Every m.Honest :=
  h.every.imp fun _ hp => hp.marked.honest

/-- The slots of dependent bindings were flagged when they were added. -/
theorem flags (h : m.Resolved owner o Γ e) : e.Binds m.Flags :=
  flags_of_honest h.honest

/-- Resolved expressions stay resolved when the storage grows. -/
theorem grown (he : m.Resolved owner o Γ e) (h : Grown lo m n) : n.Resolved owner o Γ e := by
  refine ⟨fun p hp => ⟨fun t ht => ?_, fun d hd => ?_, ?_, (he.every p hp).plain, ?_⟩, he.inScope⟩
  · exact ((he.every p hp).slots t ht).imp id fun hlt => Nat.lt_of_lt_of_le hlt h.size
  · have hslot : d.slot < m.slots.size := he.slots p hp _ (Expr.slot_mem_ownSlots hd)
    refine ((he.every p hp).bindings d hd).imp id fun hfits => hfits.grown h hslot ?_
    exact Expr.Every.part he.slots (Expr.mem_parts_trans (Expr.initializer_mem_parts hd) hp)
  · rw [h.functions]
    exact (he.every p hp).callees
  · exact (he.every p hp).marked.grown h (he.slots p hp)

/-- Bindings one after the other, the later ones in the scope of the earlier ones. -/
theorem independent_bindings {ds : List (Declaration Expr)}
    (hmarked : ∀ d ∈ ds, d.dependent = d.initializer.isDependent ∧
      (m.slot d.slot).dependent = d.dependent)
    (hinitializer : ∀ d ∈ ds, ∀ Δ, d.initializer.Scoped Δ →
      (∀ t ∈ Δ, (m.slot t).dependent = false) → d.initializer.isDependent = false)
    (hΓ : ∀ t ∈ Γ, (m.slot t).dependent = false) (hscope : Expr.ScopedBindings Γ ds) :
    ∀ d ∈ ds, d.dependent = false ∧ ∃ Δ, d.initializer.Scoped Δ ∧
      ∀ t ∈ Δ, (m.slot t).dependent = false := by
  induction ds generalizing Γ with
  | nil => exact nofun
  | cons d ds ih =>
      rw [List.forall_mem_cons] at hmarked hinitializer ⊢
      have hd : d.dependent = false := hmarked.1.1.trans (hinitializer.1 Γ hscope.1 hΓ)
      have hslot : (m.slot d.slot).dependent = false := hmarked.1.2.trans hd
      refine ⟨⟨hd, Γ, hscope.1, hΓ⟩, ih hmarked.2 hinitializer.2 ?_ hscope.2⟩
      rintro t (rfl | ht)
      · exact hslot
      · exact hΓ t ht

/-- Nothing is dependent if no variable in force is and all functions have bodies. -/
theorem independent (h : m.Resolved owner o Γ e)
    (hbody : ∀ f < m.functions.size, (m.function f).body ≠ none)
    (hΓ : ∀ t ∈ Γ, (m.slot t).dependent = false) :
    e.isDependent = false ∧ e.Binds (·.dependent = false) := by
  rcases h with ⟨hevery, hscope⟩
  induction e using Expr.induction generalizing Γ with
  | literal v => exact ⟨rfl, Expr.every_literal.2 nofun⟩
  | declaration name f => exact ⟨rfl, Expr.every_declaration.2 nofun⟩
  | read r =>
      have hmark : r.dependent = (m.slot r.slot).dependent := hevery.self.marked
      exact ⟨hmark.trans (hΓ r.slot hscope), Expr.every_variable.2 nofun⟩
  | unary op e ih =>
      rcases ih hΓ (Expr.every_unary.1 hevery).2 hscope with ⟨he, hb⟩
      exact ⟨he, Expr.every_unary.2 ⟨nofun, hb⟩⟩
  | print e ih =>
      rcases ih hΓ (Expr.every_print.1 hevery).2 hscope with ⟨he, hb⟩
      exact ⟨he, Expr.every_print.2 ⟨nofun, hb⟩⟩
  | binary op l r ihl ihr =>
      rcases Expr.every_binary.1 hevery with ⟨-, hl, hr⟩
      rcases ihl hΓ hl hscope.1 with ⟨hl', hbl⟩
      rcases ihr hΓ hr hscope.2 with ⟨hr', hbr⟩
      exact ⟨by simp [Expr.isDependent, hl', hr'], Expr.every_binary.2 ⟨nofun, hbl, hbr⟩⟩
  | assign ts e ih =>
      rcases Expr.every_assign.1 hevery with ⟨hown, he⟩
      rcases ih hΓ he hscope.2 with ⟨he', hb⟩
      have hts : ∀ r ∈ ts, r.dependent = false := fun r hr =>
        (hown.marked r hr).trans (hΓ r.slot (hscope.1 r hr))
      refine ⟨?_, Expr.every_assign.2 ⟨nofun, hb⟩⟩
      simpa [Expr.isDependent, he'] using hts
  | call name f es dependent ih =>
      rcases Expr.every_call.1 hevery with ⟨hown, hes⟩
      have hih := fun a ha => ih a ha hΓ (hes a ha) (Expr.scopedAll_iff.1 hscope a ha)
      refine ⟨?_, Expr.every_call.2 ⟨nofun, fun a ha => (hih a ha).2⟩⟩
      cases hd : dependent with
      | false => rfl
      | true =>
          -- The reason for the mark would be a function without a body or a dependent argument.
          rcases hown.marked.1 hd with hnone | ⟨a, ha, hdependent⟩
          · exact absurd hnone (hbody f (hown.callees f (List.mem_singleton.2 rfl)))
          · rw [(hih a ha).1] at hdependent
            cases hdependent
  | conditional c t e ihc iht ihe =>
      rcases Expr.every_conditional.1 hevery with ⟨-, hc, ht, he⟩
      rcases ihc hΓ hc hscope.1 with ⟨hc', hbc⟩
      rcases iht hΓ ht hscope.2.1 with ⟨ht', hbt⟩
      rcases ihe hΓ he hscope.2.2 with ⟨he', hbe⟩
      have hindependent : (Expr.conditional c t e).isDependent = false := by
        simp [Expr.isDependent, hc', ht', he']
      exact ⟨hindependent, Expr.every_conditional.2 ⟨nofun, hbc, hbt, hbe⟩⟩
  | letIn ds b ihd ihb =>
      rcases Expr.every_letIn.1 hevery with ⟨hown, hinits, hb⟩
      have hds := independent_bindings hown.marked
        (fun d hd Δ hscoped hΔ => (ihd d hd hΔ (hinits d hd) hscoped).1) hΓ hscope.1
      -- Bindings are independent, and so are the slots that the body may read.
      have hbodyScope : ∀ t ∈ Γ ∪ {t | ∃ d ∈ ds, d.slot = t}, (m.slot t).dependent = false := by
        rintro t (ht | ⟨d, hd, rfl⟩)
        · exact hΓ t ht
        · exact (hown.marked d hd).2.trans (hds d hd).1
      rcases ihb hbodyScope hb hscope.2 with ⟨hb', hbb⟩
      refine ⟨?_, Expr.every_letIn.2 ⟨fun d hd => (hds d hd).1, fun d hd => ?_, hbb⟩⟩
      · simpa [Expr.isDependent, hb'] using fun d hd => (hds d hd).1
      · rcases (hds d hd).2 with ⟨Δ, hscoped, hΔ⟩
        exact (ihd d hd hΔ (hinits d hd) hscoped).2

/-- An expression that is not dependent only uses what is not: slots that are not flagged, functions
with bodies, and bindings whose initializers are not dependent. -/
theorem fixed (h : m.Resolved owner o Γ e) (he : e.isDependent = false) :
    e.Scoped (m.fixed Γ) ∧ e.Calls (fun f => (m.function f).body ≠ none) ∧
      e.Binds (·.dependent = false) := by
  refine ⟨h.inScope.restrict (independent_slots h.honest he) fun t ht hflag => ⟨ht, hflag⟩, ?_,
    independent_binds h.honest he⟩
  refine (h.every.and (independent_parts h.honest he)).imp ?_
  rintro p ⟨hsound, hp⟩ f hf hnone
  cases p with
  | call name g es dependent =>
      cases List.mem_singleton.1 hf
      -- A call of a function without a body would be marked.
      have hmarked : dependent = true := hsound.marked.2 (.inl hnone)
      cases hmarked.symm.trans hp
  | _ => cases hf

end Resolved
end Memory

namespace Resolution

variable {owner : SlotId → FunctionId} {o : FunctionId} {lo : Nat} {m : Memory} {α β : Type}

/-! ## Steps -/

/-- From the storage `m` the action lets the storage grow, however it ends, and never gives up. -/
def Steps (owner : SlotId → FunctionId) (o : FunctionId) (lo : Nat) (m : Memory) (x : Resolution α)
    (Q : α → Memory → Prop) : Prop :=
  Triple (· = m) x (fun a n => m.Grown lo n ∧ n.Working owner o lo ∧ Q a n)
    (fun r n => r ≠ .static .endless ∧ m.Grown lo n)

namespace Steps

variable {Q : α → Memory → Prop}

theorem pure {a : α} (hm : m.Working owner o lo) (ha : Q a m) :
    Steps owner o lo m (Pure.pure a) Q := by
  rintro _ rfl
  exact ⟨.refl _, hm, ha⟩

theorem throw {r : Rejection} (hr : r ≠ .static .endless) :
    Steps owner o lo m (MonadExcept.throw r) Q := by
  rintro _ rfl
  exact ⟨hr, .refl _⟩

theorem get_bind {f : Memory → Resolution α} (h : Steps owner o lo m (f m) Q) :
    Steps owner o lo m (get >>= f) Q := by
  rintro _ rfl
  exact h _ rfl

theorem bind {R : β → Memory → Prop} {x : Resolution α} {f : α → Resolution β}
    (hx : Steps owner o lo m x Q)
    (hf : ∀ a n, m.Grown lo n → n.Working owner o lo → Q a n → Steps owner o lo n (f a) R) :
    Steps owner o lo m (x >>= f) R := by
  refine Triple.bind hx fun a n hn => ?_
  refine (hf a n hn.1 hn.2.1 hn.2.2).weaken_at rfl ?_ ?_ n rfl
  · exact fun b k hk => ⟨hn.1.trans hk.1, hk.2⟩
  · exact fun r k hk => ⟨hk.1, hn.1.trans hk.2⟩

theorem ofExcept {r : Except Rejection α} (hm : m.Working owner o lo)
    (hok : ∀ a, r = .ok a → Q a m) (herror : ∀ e, r = .error e → e ≠ .static .endless) :
    Steps owner o lo m (Effect.ofExcept r) Q := by
  apply Triple.ofExcept
  · rintro a _ ha rfl
    exact ⟨.refl _, hm, hok a ha⟩
  · rintro e _ he rfl
    exact ⟨herror e he, .refl _⟩

theorem mono {R : α → Memory → Prop} {x : Resolution α} (h : Steps owner o lo m x Q)
    (hQR : ∀ a n, m.Grown lo n → Q a n → R a n) : Steps owner o lo m x R :=
  h.weaken (fun _ h => h) (fun a n hn => ⟨hn.1, hn.2.1, hQR a n hn.1 hn.2.2⟩) fun _ _ h => h

theorem modify {f : Memory → Memory} {Q : PUnit → Memory → Prop} (hg : m.Grown lo (f m))
    (hw : (f m).Working owner o lo) (hq : Q ⟨⟩ (f m)) :
    Steps owner o lo m (modify f) Q := by
  rintro _ rfl
  exact ⟨hg, hw, hq⟩

end Steps
end Resolution
end LineLang
