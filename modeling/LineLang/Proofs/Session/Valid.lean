import LineLang.Proofs.Resolution.Phrases
import LineLang.Proofs.Typing.Precision

/-!
# Storage between instructions

Between instructions every function of the storage is complete: it has a body whose names are
resolved, and a kind that its body has when calls of the function itself are given that kind. Every
slot belongs to one of the functions.

- `Memory.CompleteWith`   : what is known of a function with its body and kind
- `Memory.Complete`       : all functions are complete
- `Memory.Furnished`      : besides, every slot belongs to one
- `Memory.Valid`          : besides, exactly the functions of the storage are known by name, in
  order
- `Memory.Furnished.working`  : the storage is ready for an instruction
-/

namespace LineLang

open Typing

namespace Memory

variable {m n : Memory} {f : FunctionId} {b : Expr} {k : Kind}

/-- A function that may be called. -/
structure CompleteWith (m : Memory) (f : FunctionId) (b : Expr) (k : Kind) : Prop where
  body : (m.function f).body = some b
  returnKind : (m.function f).returnKind = some k
  overflowed : (m.function f).overflowed = false
  depth : (m.function f).depth = 0
  parameters : ∀ t ∈ (m.function f).parameterSlots, t < m.slots.size ∧ (m.slot t).kind = .dynamic
  slots : b.SlotsIn (· < m.slots.size)
  calls : b.Calls (· ≤ f)
  inScope : b.Scoped {t | t ∈ (m.function f).parameterSlots}
  kind : kindGiven m m.answer b = .ok k
  /-- The bindings got their kinds when nothing was known of calls of the function itself. -/
  fits : b.Binds (m.FitsGiven (m.answering f (.ok .dynamic)))

def Complete (m : Memory) : Prop :=
  ∀ f < m.functions.size, ∃ b k, m.CompleteWith f b k

/-- Every function is complete, every slot belongs to a function, and flags are right. -/
structure Furnished (m : Memory) : Prop where
  complete : m.Complete
  owners : ∃ owner, m.Coherent owner ∧ ∀ t < m.slots.size, owner t < m.functions.size
  flagged : m.Flagged

/-- Besides, exactly the functions of the storage are known by name, in their order. -/
structure Valid (m : Memory) : Prop extends Furnished m where
  registry : m.registry = (List.range m.functions.size).map fun f => ((m.function f).name, f)

/-! ## Growth -/

theorem kindGiven_extends (h : Extends m n) {e : Expr} (hs : e.SlotsIn (· < m.slots.size))
    (hc : e.Calls (· < m.functions.size)) {answer answer' : FunctionId → Except Fault Kind}
    (ha : ∀ f < m.functions.size, answer' f = answer f) :
    kindGiven n answer' e = kindGiven m answer e := by
  apply kindGiven_congr
  · exact Expr.Every.imp hs fun p hp t ht => congrArg (·.kind) (h.slot (hp t ht))
  · exact Expr.Every.imp hc fun p hp f hf =>
      ⟨ha f (hp f hf), fun count => by rw [h.function (hp f hf)]⟩

theorem answer_extends (h : Extends m n) (hf : f < m.functions.size) : n.answer f = m.answer f := by
  rw [answer, answer, h.function hf]

theorem CompleteWith.calls_lt (hf : m.CompleteWith f b k) (hlt : f < m.functions.size) :
    b.Calls (· < m.functions.size) :=
  Expr.Every.imp hf.calls fun _ hp g hg => Nat.lt_of_le_of_lt (hp g hg) hlt

/-- A function stays complete when others are added. -/
theorem CompleteWith.extends (hf : m.CompleteWith f b k) (h : Extends m n)
    (hlt : f < m.functions.size) : n.CompleteWith f b k := by
  have hfun := h.function hlt
  -- A complete function calls itself and earlier functions only, and those are unchanged.
  have hcalls := hf.calls_lt hlt
  refine ⟨?_, ?_, ?_, ?_, ?_, ?_, hf.calls, ?_, ?_, fun p hp d hd => ?_⟩
  · rw [hfun, hf.body]
  · rw [hfun, hf.returnKind]
  · rw [hfun, hf.overflowed]
  · rw [hfun, hf.depth]
  · rw [hfun]
    intro t ht
    rcases hf.parameters t ht with ⟨hsize, hkind⟩
    exact ⟨Nat.lt_of_lt_of_le hsize h.size_slots, by rw [h.slot hsize, hkind]⟩
  · exact Expr.Every.imp hf.slots fun p hp t ht => Nat.lt_of_lt_of_le (hp t ht) h.size_slots
  · rw [hfun]
    exact hf.inScope
  · rw [kindGiven_extends h hf.slots hcalls fun g hg => answer_extends h hg, hf.kind]
  · -- Functions that were there before have the slots and the kinds that they had.
    rcases hf.fits p hp d hd with ⟨hkind, declared, inferred, hinferred, hsettle⟩
    have hi := Expr.mem_parts_trans (Expr.initializer_mem_parts hd) hp
    have hslot := hf.slots p hp d.slot (Expr.slot_mem_ownSlots hd)
    refine ⟨by rw [h.slot hslot, hkind], declared, inferred, ?_, hsettle⟩
    rw [kindGiven_extends h (Expr.Every.part hf.slots hi) (Expr.Every.part hcalls hi) ?_, hinferred]
    intro g hg
    simp only [answering, answer_extends h hg]

/-! ## Ready for an instruction -/

/-- Owners may be changed where there are no slots. -/
theorem Coherent.congr {owner owner' : SlotId → FunctionId} (h : m.Coherent owner)
    (howner : ∀ t < m.slots.size, owner' t = owner t)
    (hparameters : ∀ f b, (m.function f).body = some b →
      ∀ t ∈ (m.function f).parameterSlots, t < m.slots.size) : m.Coherent owner' := by
  have hlocal : ∀ {e : Expr} {o : FunctionId}, e.Local owner o → e.SlotsIn (· < m.slots.size) →
      e.Local owner' o := fun he hs =>
    ⟨fun p hp t ht => (howner t (hs p hp t ht)).trans (he.slots p hp t ht), he.ordered⟩
  refine ⟨fun t e ht => ?_, fun f b hb => ?_, fun f b hb t ht hlt => ?_, fun f b hb t ht => ?_⟩
  · have hlt := lt_size_of_dependent ht
    rcases h.deferred t e ht with ⟨he, hs⟩
    refine ⟨?_, hs⟩
    rw [howner t hlt]
    exact hlocal he (Expr.Every.imp hs fun p hp u hu => Nat.lt_trans (hp u hu) hlt)
  · exact ⟨hlocal (h.body f b hb).1 (h.body f b hb).2, (h.body f b hb).2⟩
  · rw [howner t hlt] at ht
    exact h.frame f b hb t ht hlt
  · rw [howner t (hparameters f b hb t ht)]
    exact h.parameters f b hb t ht

namespace Complete

theorem of_body (h : m.Complete) (hb : (m.function f).body = some b) :
    ∃ k, m.CompleteWith f b k := by
  rcases h f (lt_size_of_body hb) with ⟨b', k, hc⟩
  rw [hc.body] at hb
  cases hb
  exact ⟨k, hc⟩

/-- No call is active. -/
theorem depth (h : m.Complete) (f : FunctionId) : (m.function f).depth = 0 := by
  by_cases hf : f < m.functions.size
  · rcases h f hf with ⟨b, k, hc⟩
    exact hc.depth
  · rw [function_of_size_le (Nat.le_of_not_lt hf), Function.absent]

/-- Every complete function has its kind remembered. -/
theorem settled (h : m.Complete) : m.Settled := by
  intro f hk
  cases hb : (m.function f).body with
  | none => rfl
  | some b =>
      rcases h.of_body hb with ⟨k, hf⟩
      rw [hf.returnKind] at hk
      cases hk

end Complete

/-- The slots of an instruction come after those of the functions. -/
theorem Furnished.working (h : m.Furnished) (hr : ∀ p ∈ m.registry, p.2 < m.functions.size) :
    ∃ owner, m.Working owner m.functions.size m.slots.size ∧
      ∀ t < m.slots.size, owner t < m.functions.size := by
  rcases h.owners with ⟨owner, hcoherent, howners⟩
  let owner' : SlotId → FunctionId := fun t => if t < m.slots.size then owner t else
    m.functions.size
  have hold : ∀ t < m.slots.size, owner' t = owner t := fun t ht => if_pos ht
  refine ⟨owner',
    ⟨?_, h.complete.settled, fun t => ⟨fun ht => ?_, fun ht => ?_⟩, Nat.le_refl _, ?_, ?_,
    h.flagged⟩, fun t ht => by rw [hold t ht]; exact howners t ht⟩
  · refine hcoherent.congr hold fun f b hb t ht => ?_
    rcases h.complete.of_body hb with ⟨k, hf⟩
    exact (hf.parameters t ht).1
  · apply Nat.le_of_not_lt
    intro hlt
    exact Nat.ne_of_lt (howners t hlt) ((hold t hlt).symm.trans ht)
  · exact if_neg (Nat.not_lt_of_le ht)
  · rw [function_of_size_le (Nat.le_refl _), Function.absent]
  · intro p hp
    rcases h.complete p.2 (hr p hp) with ⟨b, k, hc⟩
    refine ⟨hr p hp, ?_⟩
    rw [hc.body]
    exact nofun

theorem Valid.registered (h : m.Valid) : ∀ p ∈ m.registry, p.2 < m.functions.size := by
  rw [h.registry]
  intro p hp
  rcases List.mem_map.1 hp with ⟨f, hf, rfl⟩
  exact List.mem_range.1 hf

theorem Valid.lookup_lt (h : m.Valid) {name : String} {id : FunctionId}
    (hid : m.lookup? name = some id) : id < m.functions.size := by
  rcases List.lookup_eq_some_iff.1 hid with ⟨l₁, l₂, hl, -⟩
  exact h.registered (name, id) (by simp [hl])

/-- A new session has no functions. -/
theorem valid_empty : Valid {} where
  complete _ hf := absurd hf (Nat.not_lt_zero _)
  owners := by
    refine ⟨fun _ => 0, ⟨fun t e ht => ?_, fun f b hb => ?_, fun f b hb => ?_, fun f b hb => ?_⟩,
      fun t ht => absurd ht (Nat.not_lt_zero t)⟩
    · exact absurd (lt_size_of_dependent ht) (Nat.not_lt_zero _)
    all_goals exact absurd (lt_size_of_body hb) (Nat.not_lt_zero _)
  flagged _ _ ht := absurd (lt_size_of_dependent ht) (Nat.not_lt_zero _)
  registry := rfl

end Memory
end LineLang
