import LineLang.Proofs.Session.Valid

/-!
# Reading an instruction

What reading an instruction gives and does to the storage between instructions: an expression whose
names are resolved and some slots for it, or one more function, which is complete.

- `Resolution.draftWith_drafted`          : a function and its body
- `Resolution.declareFunctionWith_added`  : the declaration of a function
- `Resolution.parse_outcome`              : an instruction
-/

namespace LineLang

open Effect Typing

namespace Memory

variable {m n : Memory} {f : FunctionId} {F : Function}

/-- A function without a body adds none. -/
theorem function_push_of_body (hF : F.body = none) {b : Expr}
    (h : (({ m with functions := m.functions.push F } : Memory).function f).body = some b) :
    ({ m with functions := m.functions.push F } : Memory).function f = m.function f := by
  have hlt := lt_size_of_body h
  rw [Array.size_push] at hlt
  rcases Nat.eq_or_lt_of_le (Nat.le_of_lt_succ hlt) with rfl | hlt
  · rw [function_push_self, hF] at h
    cases h
  · exact function_push_of_lt hlt

/-- A function without a body is added to the storage of the instruction. -/
theorem Working.push {owner : SlotId → FunctionId} {lo : Nat}
    (h : m.Working owner m.functions.size lo) (hF : F.body = none) :
    ({ m with functions := m.functions.push F } : Memory).Working owner m.functions.size lo where
  coherent := by
    refine ⟨h.coherent.deferred, fun f b hb => ?_, fun f b hb => ?_, fun f b hb => ?_⟩
    · rw [function_push_of_body hF hb] at hb
      exact h.coherent.body f b hb
    · have hf := function_push_of_body hF hb
      rw [hf] at hb ⊢
      exact h.coherent.frame f b hb
    · have hf := function_push_of_body hF hb
      rw [hf] at hb ⊢
      exact h.coherent.parameters f b hb
  settled f hk := by
    by_contra hb
    rcases Option.ne_none_iff_exists.1 hb with ⟨b, hb⟩
    rw [function_push_of_body hF hb.symm] at hk hb
    rw [h.settled f hk] at hb
    cases hb
  owned := h.owned
  low := h.low
  bodyless := by rw [function_push_self, hF]
  registered p hp := by
    rcases h.registered p hp with ⟨hlt, hbody⟩
    rw [Array.size_push, function_push_of_lt hlt]
    exact ⟨Nat.lt_succ_of_lt hlt, hbody⟩
  flagged := h.flagged

structure Opened (m n : Memory) : Prop where
  above : Extends m n
  registry : n.registry = m.registry
  count : n.functions.size = m.functions.size + 1

theorem Opened.grown (h : Opened m n) {k : Memory} (hk : Grown m.slots.size n k) : Opened m k where
  above := h.above.grown hk
  registry := hk.registry.trans h.registry
  count := by rw [hk.functions, h.count]

theorem Opened.modifyFunction (h : Opened m n) (g : Function → Function) :
    Opened m (n.modifyFunction m.functions.size g) where
  above := .of_forall h.above.size_slots (fun t ht => h.above.slot ht)
    (by rw [size_modifyFunction]; exact h.above.size_functions)
    (fun f hf => (function_modify_of_ne (Nat.ne_of_lt hf)).trans (h.above.function hf))
  registry := h.registry
  count := by rw [size_modifyFunction, h.count]

end Memory

namespace Resolution

variable {owner : SlotId → FunctionId} {o : FunctionId} {lo : Nat} {m : Memory}

/-! ## Declaring a function -/

/-- Each parameter gets a new slot that takes any value. -/
theorem allocateParameters_steps (hm : m.Working owner o lo) (function : String)
    (seen ps : List String) :
    Steps owner o lo m (Memory.allocateParameters function seen ps) fun _ n =>
      n.slots.size = m.slots.size + ps.length ∧
        ∀ t, m.slots.size ≤ t → t < n.slots.size →
          (n.slot t).kind = .dynamic ∧ (n.slot t).dependent = true := by
  induction ps generalizing m seen with
  | nil => exact Steps.pure hm ⟨rfl, fun t hle hlt => absurd hlt (Nat.not_lt_of_le hle)⟩
  | cons p ps ih =>
      unfold Memory.allocateParameters
      split
      · exact Steps.throw nofun
      · have hg : m.Grown lo (m.allocate (.parameter p)) := .allocate hm.low _
        refine Steps.bind (Steps.modify (Q := fun _ n => n = m.allocate (.parameter p)) hg
          (hm.allocate rfl) rfl) ?_
        rintro _ _ - hw rfl
        refine (ih hw (p :: seen)).mono fun _ n hn ⟨hsize, hkind⟩ => ⟨?_, fun t hle hlt => ?_⟩
        · rw [hsize, Memory.size_allocate, List.length_cons]
          omega
        · rw [Memory.size_allocate] at hkind
          rcases Nat.eq_or_lt_of_le hle with rfl | hlt'
          · rw [hn.kind (by simp), hn.dependent (by simp), Memory.slot_allocate_self]
            exact ⟨rfl, rfl⟩
          · exact hkind t hlt' hlt

/-- A function without a body is added, with slots for its parameters. -/
theorem declare_opened (hm : m.Working owner m.functions.size m.slots.size) (name : String)
    (parameters : List String) :
    Triple (· = m) (Memory.declare name parameters)
      (fun id n => id = m.functions.size ∧ m.Opened n ∧
        n.Working owner m.functions.size m.slots.size ∧
        n.slots.size = m.slots.size + parameters.length ∧
        (∀ t, m.slots.size ≤ t → t < n.slots.size →
          (n.slot t).kind = .dynamic ∧ (n.slot t).dependent = true) ∧
        n.function id = { name, parameters, frameStart := m.slots.size, frameEnd := n.slots.size })
      (fun r n => r ≠ .static .endless ∧ m.Extends n ∧ n.registry = m.registry) := by
  refine Triple.get_bind fun s hs => ?_
  simp only [hs]
  refine Triple.bind ((allocateParameters_steps hm name [] parameters).weaken (fun _ h => h)
    (fun _ _ h => h) fun r n h => ⟨h.1, h.2.extends, h.2.registry⟩) fun _ => ?_
  rintro n ⟨hg, hw, hsize, hkind⟩
  let F : Function := { name, parameters, frameStart := m.slots.size, frameEnd := n.slots.size }
  let k : Memory := { n with functions := n.functions.push F }
  have hcount : n.functions.size = m.functions.size := by rw [hg.functions]
  -- Parameters take new slots and the function a new place: nothing old is touched.
  have hopened : m.Opened k := by
    refine ⟨.of_forall hg.size hg.slot ?_ fun f hf => ?_, hg.registry, ?_⟩
    · show m.functions.size ≤ (n.functions.push F).size
      rw [Array.size_push, hcount]
      exact Nat.le_succ _
    · rw [Memory.function_push_of_lt (hcount ▸ hf), hg.function]
    · show (n.functions.push F).size = _
      rw [Array.size_push, hcount]
  have hwork : k.Working owner m.functions.size m.slots.size := by
    rw [← hcount] at hw ⊢
    exact hw.push rfl
  exact ⟨hcount, hopened, hwork, hsize, hkind, Memory.function_push_self⟩

end Resolution

/-! ## Attaching the body -/

namespace Memory

/-- The body of a function has been resolved in the storage `n`, but the function does not have it
yet. -/
structure Drafted (owner : SlotId → FunctionId) (m n : Memory) (name : String)
    (parameters : List String) (e : Expr) : Prop where
  opened : m.Opened n
  working : n.Working owner m.functions.size m.slots.size
  size : m.slots.size + parameters.length ≤ n.slots.size
  kinds : ∀ t, m.slots.size ≤ t → t < m.slots.size + parameters.length → (n.slot t).kind = .dynamic
  function : ∃ frameEnd, n.function m.functions.size =
    { name, parameters, frameStart := m.slots.size, frameEnd }
  resolved : n.Resolved owner m.functions.size
    {t | t ∈ List.range' m.slots.size parameters.length} e

namespace Drafted

variable {owner : SlotId → FunctionId} {m n : Memory} {name : String} {parameters : List String}
variable {e : Expr} {k : Option Kind} {o : Bool}

/-- The function with its body, while its kind is computed. -/
theorem function_during (h : Drafted owner m n name parameters e) :
    ((n.attach m.functions.size e).during m.functions.size 0 k o).function m.functions.size =
      { name, parameters, frameStart := m.slots.size, frameEnd := n.slots.size, body := some e,
        returnKind := k, overflowed := o, depth := 0 } := by
  have hlt : m.functions.size < n.functions.size := by
    rw [h.opened.count]
    exact Nat.lt_succ_self _
  rcases h.function with ⟨frameEnd, hf⟩
  rw [attach, during, modifyFunction_modifyFunction, function_modify_self hlt, hf]

theorem function_of_ne {f : FunctionId} (hf : f ≠ m.functions.size) :
    ((n.attach m.functions.size e).during m.functions.size 0 k o).function f = n.function f := by
  rw [function_during_of_ne hf, attach, function_modify_of_ne hf]

/-- Once the body is attached, all kinds but that of the new function are known. -/
theorem declaring (h : Drafted owner m n name parameters e) :
    Declaring (n.attach m.functions.size e) m.functions.size e := by
  have hlt : m.functions.size < n.functions.size := by
    rw [h.opened.count]
    exact Nat.lt_succ_self _
  rcases h.function with ⟨frameEnd, hf⟩
  have hself :=
    function_modify_self (g := fun f => { f with body := some e, frameEnd := n.slots.size }) hlt
  rw [hf] at hself
  refine ⟨by simpa [attach] using hlt, ?_, ?_, ?_, ?_, fun f hne hk => ?_⟩
  iterate 4 rw [attach, hself]
  rw [attach, function_modify_of_ne hne] at hk ⊢
  exact h.working.settled f hk

/-- The body keeps to the slots that were added for it. -/
theorem coherent (h : Drafted owner m n name parameters e) :
    ((n.attach m.functions.size e).during m.functions.size 0 k o).Coherent owner := by
  have hw := h.working
  refine ⟨hw.coherent.deferred, fun f b hb => ?_, fun f b hb => ?_, fun f b hb => ?_⟩
  all_goals by_cases hf : f = m.functions.size
  · subst hf
    rw [h.function_during] at hb
    cases hb
    exact ⟨h.resolved.here, h.resolved.slots⟩
  · rw [function_of_ne hf] at hb
    exact hw.coherent.body f b hb
  · subst hf
    rw [h.function_during]
    intro t ht hlt
    have hlo := (hw.owned t).1 ht
    have hlt' : Nat.succ t ≤ n.slots.size := hlt
    -- The frame was widened to all slots added since the declaration began.
    simp only [Function.frame, List.mem_range'_1]
    omega
  · rw [function_of_ne hf] at hb ⊢
    exact hw.coherent.frame f b hb
  · subst hf
    rw [h.function_during]
    intro t ht
    exact (hw.owned t).2 (List.mem_range'_1.1 ht).1
  · rw [function_of_ne hf] at hb ⊢
    exact hw.coherent.parameters f b hb

theorem opened_during (h : Drafted owner m n name parameters e) :
    m.Opened ((n.attach m.functions.size e).during m.functions.size 0 k o) :=
  (h.opened.modifyFunction _).modifyFunction _

/-- A function whose declaration has a kind is complete. -/
theorem complete {a : Kind} (h : Drafted owner m n name parameters e)
    (ha : nested (n.attach m.functions.size e) m.functions.size e callLimit = .ok a) :
    ((n.attach m.functions.size e).during m.functions.size 0 (some a) false).CompleteWith
      m.functions.size e a := by
  have hself := h.function_during (k := some a) (o := false)
  refine ⟨by rw [hself], by rw [hself], by rw [hself], by rw [hself], ?_,
    h.resolved.slots, ?_, ?_, ?_, ?_⟩
  · rw [hself]
    intro t ht
    rcases List.mem_range'_1.1 ht with ⟨hle, hlt⟩
    exact ⟨Nat.lt_of_lt_of_le hlt h.size, h.kinds t hle hlt⟩
  · refine Expr.Every.imp h.resolved.calls fun p hp f hf => ?_
    have hlt : f < n.functions.size := hp f hf
    rw [h.opened.count] at hlt
    exact Nat.le_of_lt_succ hlt
  · rw [hself]
    exact h.resolved.inScope
  · -- A few levels below the limit the kind no longer changes, so the body has it as well.
    rw [← nested_fixed (n := 125) ha]
    refine kindGiven_congr (fun p _ t _ => rfl) fun p _ f _ => ⟨?_, ?_⟩
    · by_cases hf : f = m.functions.size
      · subst hf
        rw [answer, hself, answering, if_pos rfl]
        rfl
      · rw [answering, if_neg hf, answer, answer, function_during_of_ne hf]
    · exact (Entered.sameKinds h.declaring.lt ⟨some a, false, rfl⟩).2 f
  · -- While the body was resolved, the function itself had no kind.
    intro p hp d hd
    rcases h.resolved.fits p hp d hd with ⟨hkind, declared, inferred, hinferred, hsettle⟩
    refine ⟨hkind, declared, inferred, ?_, hsettle⟩
    rw [← hinferred]
    refine kindGiven_congr (fun p _ t _ => rfl) fun p _ f _ => ?_
    by_cases hf : f = m.functions.size
    · subst hf
      rcases h.function with ⟨frameEnd, hdraft⟩
      rw [hself, answering, if_pos rfl, answer, hdraft]
      exact ⟨rfl, fun _ => rfl⟩
    · simp only [answering, hf, if_false, answer, function_of_ne hf, implies_true, and_self]

/-- With its kind remembered, the new function is complete like the others. -/
theorem furnished {a : Kind} (h : Drafted owner m n name parameters e) (hm : m.Furnished)
    (howners : ∀ t < m.slots.size, owner t < m.functions.size)
    (ha : nested (n.attach m.functions.size e) m.functions.size e callLimit = .ok a) :
    ((n.attach m.functions.size e).during m.functions.size 0 (some a) false).Furnished where
  complete f hf := by
    rw [h.opened_during.count] at hf
    rcases Nat.eq_or_lt_of_le (Nat.le_of_lt_succ hf) with rfl | hlt
    · exact ⟨e, a, h.complete ha⟩
    · rcases hm.complete f hlt with ⟨b, k, hc⟩
      exact ⟨b, k, hc.extends h.opened_during.above hlt⟩
  owners := by
    refine ⟨owner, h.coherent, fun t _ => ?_⟩
    rw [h.opened_during.count]
    rcases Nat.lt_or_ge t m.slots.size with hlt | hge
    · exact Nat.lt_succ_of_lt (howners t hlt)
    · rw [(h.working.owned t).2 hge]
      exact Nat.lt_succ_self _
  flagged := h.working.flagged

end Drafted
end Memory

/-! ## Instructions -/

namespace Memory

/-- An expression has been read, and there are slots for it. -/
structure Staged (owner : SlotId → FunctionId) (m n : Memory) (e : Expr) : Prop where
  grown : m.Grown m.slots.size n
  working : n.Working owner m.functions.size m.slots.size
  resolved : n.Resolved owner m.functions.size ∅ e

/-- A function has been added that is complete but not known by name. -/
structure Added (m n : Memory) (name : String) : Prop where
  opened : m.Opened n
  named : (n.function m.functions.size).name = name
  furnished : n.Furnished
  fresh : m.lookup? name = none
  frame : (n.function m.functions.size).frame =
    List.range' m.slots.size (n.slots.size - m.slots.size)
  parameters : (n.function m.functions.size).parameterSlots <+: (n.function m.functions.size).frame
  plain : ∀ b, (n.function m.functions.size).body = some b →
    b.Every fun p => ∀ name f, p ≠ .declaration name f

end Memory

namespace Resolution

variable {m : Memory}

theorem declarationRejection_ne_endless {name : String} {fault : Fault} (h : fault ≠ .endless) :
    declarationRejection name fault ≠ .static .endless := by
  cases fault with
  | endless => exact absurd rfl h
  | _ => exact nofun

/-- A function whose declaration has a kind has been added. -/
theorem drafted_added {owner : SlotId → FunctionId} {n : Memory} {name : String}
    {parameters : List String} {e : Expr} {a : Kind} (h : m.Drafted owner n name parameters e)
    (hm : m.Furnished) (howners : ∀ t < m.slots.size, owner t < m.functions.size)
    (hname : m.lookup? name = none)
    (ha : nested (n.attach m.functions.size e) m.functions.size e callLimit = .ok a) :
    m.Added ((n.attach m.functions.size e).during m.functions.size 0 (some a) false) name := by
  have hself := h.function_during (k := some a) (o := false)
  refine ⟨h.opened_during, by rw [hself], h.furnished hm howners ha, hname,
    by rw [hself]; rfl, ?_, ?_⟩
  · -- The parameters were declared first.
    rw [hself]
    have hsize := h.size
    refine ⟨List.range' (m.slots.size + parameters.length)
      (n.slots.size - m.slots.size - parameters.length), ?_⟩
    simp only [Function.parameterSlots, Function.frame, List.range'_append_1]
    congr 1
    omega
  · rw [hself]
    rintro b ⟨⟩
    exact h.resolved.every.imp fun p hp => hp.plain

/-- Attaching the body and computing the kind either completes the function or fails. -/
theorem attach_added {owner : SlotId → FunctionId} {n : Memory} {name : String}
    {parameters : List String} {e : Expr} (h : m.Drafted owner n name parameters e)
    (hm : m.Furnished) (howners : ∀ t < m.slots.size, owner t < m.functions.size)
    (hname : m.lookup? name = none) :
    Triple (· = n) (do
        modify (·.attach m.functions.size e)
        let _ ← Effect.mapError (declarationRejection name) (declarationKind m.functions.size)
        return Expr.declaration name m.functions.size : Resolution Expr)
      (fun e n => e = .declaration name m.functions.size ∧ m.Added n name)
      (fun r n => r ≠ .static .endless ∧ m.Extends n ∧ n.registry = m.registry) := by
  refine Triple.bind (R := fun _ k => k = n.attach m.functions.size e)
    (Triple.modify (by rintro _ rfl; rfl)) fun _ => ?_
  refine Triple.bind (R := fun _ k => m.Added k name) ?_ fun _ =>
    Triple.pure fun k hk => ⟨rfl, hk⟩
  refine Triple.mapError ((declarationKind_nested h.declaring).weaken (fun _ h => h) ?_ ?_)
  · rintro a _ ⟨ha, rfl⟩
    exact drafted_added h hm howners hname ha
  · rintro fault _ ⟨hfault, k, o, rfl⟩
    refine ⟨declarationRejection_ne_endless ?_, h.opened_during.above, h.opened_during.registry⟩
    rintro rfl
    exact nested_ne_endless _ hfault

/-- The slots of parameters are in force in the body. -/
theorem slots_zip {parameters : List String} {slots : List SlotId}
    {declaring : Option (String × FunctionId)} (h : parameters.length = slots.length) :
    (Scope.mk (parameters.zip slots) declaring).slots = {t | t ∈ slots} := by
  ext t
  constructor
  · rintro ⟨name, hn⟩
    exact (List.of_mem_zip hn).2
  · intro ht
    rcases List.getElem_of_mem ht with ⟨i, hi, rfl⟩
    refine ⟨parameters.get ⟨i, h ▸ hi⟩, ?_⟩
    have hz := List.getElem_mem (l := parameters.zip slots) (n := i) (by simpa [h] using hi)
    simpa using hz

/-- The scope in which the body of a function is read. -/
theorem within_parameters {owner : SlotId → FunctionId} {n : Memory} {name : String}
    {parameters : List String} (hopened : m.Opened n)
    (hw : n.Working owner m.functions.size m.slots.size)
    (hsize : n.slots.size = m.slots.size + parameters.length) :
    Scope.Within m.slots.size n ⟨parameters.zip (List.range' m.slots.size parameters.length),
      some (name, m.functions.size)⟩ := by
  refine ⟨fun t ht => ?_, ?_⟩
  · rw [slots_zip (by simp)] at ht
    rcases List.mem_range'_1.1 ht with ⟨hle, hlt⟩
    exact ⟨hle, hsize ▸ hlt⟩
  · rintro _ _ ⟨⟩
    rw [hopened.count]
    exact ⟨Nat.lt_succ_self _, hw.bodyless⟩

/-- The body of a function is resolved in the storage to which the function was added. -/
theorem draftWith_drafted {owner : SlotId → FunctionId}
    (hwork : m.Working owner m.functions.size m.slots.size) (name : String)
    (parameters : List String) {body : Phrase} (hbody : body.RejectsOnly Rejection.Syntactic) :
    Triple (· = m) (draftWith fill name parameters body)
      (fun r n => r.1 = m.functions.size ∧ m.Drafted owner n name parameters r.2)
      (fun r n => r ≠ .static .endless ∧ m.Extends n ∧ n.registry = m.registry) := by
  refine Triple.bind (declare_opened hwork name parameters) fun id n₁ => ?_
  rintro ⟨rfl, hopened, hw, hsize, hkinds, hfun⟩
  have hslots : (n₁.function m.functions.size).parameterSlots =
      List.range' m.slots.size parameters.length := by
    rw [hfun]
    rfl
  let scope : Scope := ⟨parameters.zip (List.range' m.slots.size parameters.length),
    some (name, m.functions.size)⟩
  have hscope : scope.slots = {t | t ∈ List.range' m.slots.size parameters.length} :=
    slots_zip (by simp)
  -- Only the parameters are in force when the body is read.
  have hwithin : scope.Within m.slots.size n₁ := within_parameters hopened hw hsize
  refine Triple.get_bind (P := (· = n₁)) (fun s hs => ?_) n₁ rfl
  subst hs
  rw [hslots]
  refine Triple.bind ((resolveWith_steps fill_steps hbody hw hwithin).weaken (fun _ h => h)
    (fun _ _ h => h) fun r n h => ⟨h.1, (hopened.grown h.2).above, (hopened.grown h.2).registry⟩)
      fun e => Triple.pure fun n₂ => ?_
  rintro ⟨hg, hw₂, he⟩
  -- Reading the body only added slots, so the parameters are as they were declared.
  refine ⟨rfl, hopened.grown hg, hw₂, hsize ▸ hg.size, fun t hle hlt => ?_, ?_, hscope ▸ he⟩
  · rw [← hsize] at hlt
    rw [hg.kind hlt, (hkinds t hle hlt).1]
  · exact ⟨_, (hg.function _).trans hfun⟩

theorem declareFunctionWith_added (hm : m.Furnished) (hr : ∀ p ∈ m.registry, p.2 < m.functions.size)
    {name : String} (hname : m.lookup? name = none) (parameters : List String) {body : Phrase}
    (hbody : body.RejectsOnly Rejection.Syntactic) :
    Triple (· = m) (declareFunctionWith fill name parameters body)
      (fun e n => e = .declaration name m.functions.size ∧ m.Added n name)
      (fun r n => r ≠ .static .endless ∧ m.Extends n ∧ n.registry = m.registry) := by
  rcases hm.working hr with ⟨owner, hwork, howners⟩
  refine Triple.bind (draftWith_drafted hwork name parameters hbody) ?_
  rintro ⟨id, e⟩ n ⟨rfl, hdraft⟩
  exact attach_added hdraft hm howners hname n rfl

/-- Outside of functions no variable is in force. -/
theorem slots_empty : ({} : Scope).slots = ∅ := by
  ext t
  simp [Scope.slots]

theorem within_empty (m : Memory) : ({} : Scope).Within m.slots.size m := by
  refine ⟨fun t ht => ?_, nofun⟩
  rw [slots_empty] at ht
  cases ht

/-- Reading an expression, however the slots of its variables are filled. -/
theorem resolveWith_staged {fill : Declaration Expr → Resolution Unit} {owner : SlotId → FunctionId}
    (hfill : Fills owner m.functions.size m.slots.size fill)
    (hw : m.Working owner m.functions.size m.slots.size) {p : Phrase}
    (hp : p.RejectsOnly Rejection.Syntactic) :
    Triple (· = m) (resolveWith fill {} p) (fun e n => m.Staged owner n e)
      (fun r n => r ≠ .static .endless ∧ m.Extends n ∧ n.registry = m.registry) := by
  refine (resolveWith_steps hfill hp hw (within_empty m)).weaken (fun _ h => h) (fun e n h => ?_)
    fun r n h => ?_
  · exact ⟨h.1, h.2.1, slots_empty ▸ h.2.2⟩
  · exact ⟨h.1, h.2.extends, h.2.registry⟩

section

variable {fill : Declaration Expr → Resolution Unit} {name : String}

/-- A name that is taken is refused before anything is read. -/
theorem ofInstructionWith_defined {definition : Except Rejection (List String × Phrase)}
    {id : FunctionId} (hname : m.lookup? name = some id) :
    ofInstructionWith fill (.declaration name definition) m =
      .error (.static (.alreadyDefined name)) m := by
  have hdefined : (m.lookup? name).isSome = true := by simp [hname]
  show (if (m.lookup? name).isSome = true then throw (.static (.alreadyDefined name))
    else _ : Resolution Expr) m = _
  rw [if_pos hdefined]
  rfl

theorem ofInstructionWith_declaration (hname : m.lookup? name = none)
    (definition : Except Rejection (List String × Phrase)) :
    ofInstructionWith fill (.declaration name definition) m =
      (Effect.ofExcept definition >>= fun (parameters, body) =>
        declareFunctionWith fill name parameters body : Resolution Expr) m := by
  have hfree : ¬ (m.lookup? name).isSome = true := by simp [hname]
  show (if (m.lookup? name).isSome = true then throw (.static (.alreadyDefined name))
    else _ : Resolution Expr) m = _
  rw [if_neg hfree]

end

/-- Reading an instruction gives an expression or adds a function. If it fails, what it added can be
released. -/
theorem parse_outcome (hm : m.Valid) (ts : List Token) :
    Triple (· = m) (parse ts)
      (fun e n => (∃ owner, m.Staged owner n e) ∨
        ∃ name, e = .declaration name m.functions.size ∧ m.Added n name)
      (fun r n => r ≠ .static .endless ∧ m.Extends n ∧ n.registry = m.registry) := by
  have hreads := Instruction.rejectsOnly_ofTokens ts
  unfold parse parseWith
  cases hi : Instruction.ofTokens ts with
  | rejected r =>
      rw [hi] at hreads
      exact Triple.throw fun _ h => ⟨hreads _, h ▸ .refl m, h ▸ rfl⟩
  | expression phrase =>
      rw [hi] at hreads
      rcases hm.working hm.registered with ⟨owner, hw, -⟩
      exact (resolveWith_staged fill_steps hw hreads).weaken (fun _ h => h)
        (fun e n h => .inl ⟨owner, h⟩) fun _ _ h => h
  | declaration name definition =>
      rw [hi] at hreads
      refine Triple.get_bind fun s hs => ?_
      subst hs
      split
      · exact Triple.throw fun _ h => ⟨nofun, h ▸ .refl _, h ▸ rfl⟩
      · next hname =>
          cases definition with
          | error r => exact fun _ h => ⟨hreads _, h ▸ .refl _, h ▸ rfl⟩
          | ok p =>
              rcases p with ⟨parameters, body⟩
              refine (declareFunctionWith_added hm.toFurnished hm.registered (by simpa using hname)
                parameters hreads).weaken (fun _ h => h) (fun e n h => ?_) fun _ _ h => h
              exact .inr ⟨name, h⟩

end Resolution
end LineLang
