import LineLang.Proofs.Renaming.Expr
import LineLang.Proofs.Typing.Declaration

/-!
# Storages with other handles

One storage is found in another one, with other handles: what is known of a slot or a function is
known of the slot or function that its handle is renamed to. The next handles are renamed to the
next handles, so that this stays true when both storages grow in the same way. What the slots hold
is left open.

- `Function.Renamed`            : a function and its copy
- `Memory.Renamed`              : a storage found in another one
- `Memory.Renamed.allocate`, `Memory.Renamed.push`, `Memory.Renamed.modifyFunction`  : both grow
- `Typing.kindGiven_rename`     : kinds do not hang on handles
- `Typing.nested_rename`        : nor does the kind of a function being declared
-/

namespace LineLang

/-- A function and its copy with other handles. -/
structure Function.Renamed (ρ : Renaming) (F F' : Function) : Prop where
  name : F'.name = F.name
  parameters : F'.parameters = F.parameters
  slots : F'.parameterSlots = F.parameterSlots.map ρ.slot
  body : F'.body = F.body.map (·.rename ρ)
  returnKind : F'.returnKind = F.returnKind

theorem Function.Renamed.checkArity {ρ : Renaming} {F F' : Function} (h : F.Renamed ρ F')
    (count : Nat) : F'.checkArity count = F.checkArity count := by
  simp only [Function.checkArity, h.name, h.parameters]

theorem Function.renamed_absent {ρ : Renaming} : Function.absent.Renamed ρ .absent :=
  ⟨rfl, rfl, rfl, rfl, rfl⟩

namespace Memory

/-- The storage `m` is found in `m'` with other handles. Functions with names in `N` are known by
them in both or in neither. -/
structure Renamed (ρ : Renaming) (N : Set String) (m m' : Memory) : Prop where
  nextSlot : ∀ i, ρ.slot (m.slots.size + i) = m'.slots.size + i
  nextFunction : ∀ i, ρ.function (m.functions.size + i) = m'.functions.size + i
  shape : ∀ t, (m'.slot (ρ.slot t)).shape = (m.slot t).shape
  function : ∀ f, (m.function f).Renamed ρ (m'.function (ρ.function f))
  lookup : ∀ name ∈ N, m'.lookup? name = (m.lookup? name).map ρ.function

namespace Renamed

variable {ρ : Renaming} {N : Set String} {m m' n n' : Memory}

theorem kind (h : m.Renamed ρ N m') (t : SlotId) : (m'.slot (ρ.slot t)).kind = (m.slot t).kind :=
  congrArg (·.kind) (h.shape t)

theorem name (h : m.Renamed ρ N m') (t : SlotId) : (m'.slot (ρ.slot t)).name = (m.slot t).name :=
  congrArg (·.name) (h.shape t)

theorem dependent (h : m.Renamed ρ N m') (t : SlotId) :
    (m'.slot (ρ.slot t)).dependent = (m.slot t).dependent :=
  congrArg (·.dependent) (h.shape t)

theorem slot_size (h : m.Renamed ρ N m') : ρ.slot m.slots.size = m'.slots.size :=
  h.nextSlot 0

theorem function_size (h : m.Renamed ρ N m') : ρ.function m.functions.size = m'.functions.size :=
  h.nextFunction 0

/-- Slots that are there are renamed to slots that are there: all others are taken by the ones to
come. -/
theorem slot_lt (h : m.Renamed ρ N m') {t : SlotId} (ht : t < m.slots.size) :
    ρ.slot t < m'.slots.size := by
  by_contra hle
  rcases Nat.exists_eq_add_of_le (Nat.le_of_not_lt hle) with ⟨i, hi⟩
  rw [ρ.slot_injective (hi.trans (h.nextSlot i).symm)] at ht
  exact Nat.not_lt.2 (Nat.le_add_right _ i) ht

theorem function_lt (h : m.Renamed ρ N m') {f : FunctionId} (hf : f < m.functions.size) :
    ρ.function f < m'.functions.size := by
  by_contra hle
  rcases Nat.exists_eq_add_of_le (Nat.le_of_not_lt hle) with ⟨i, hi⟩
  rw [ρ.function_injective (hi.trans (h.nextFunction i).symm)] at hf
  exact Nat.not_lt.2 (Nat.le_add_right _ i) hf

theorem answer (h : m.Renamed ρ N m') (f : FunctionId) : m'.answer (ρ.function f) = m.answer f := by
  rw [Memory.answer, Memory.answer, (h.function f).returnKind]

theorem answering (h : m.Renamed ρ N m') {id : FunctionId} {r : Except Fault Kind}
    (f : FunctionId) : m'.answering (ρ.function id) r (ρ.function f) = m.answering id r f := by
  simp only [Memory.answering, ρ.function_injective.eq_iff, h.answer]

/-- Slots to come are renamed in order. -/
theorem range (h : m.Renamed ρ N m') (k : Nat) :
    List.range' m'.slots.size k = (List.range' m.slots.size k).map ρ.slot := by
  rw [List.range'_eq_map_range, List.range'_eq_map_range, List.map_map]
  exact List.map_congr_left fun i _ => (h.nextSlot i).symm

/-! ## Growth -/

/-- What slots hold does not matter. -/
theorem unchanged (h : m.Renamed ρ N m') {S S' : SlotId → Prop} (hn : m.UnchangedOutside S n)
    (hn' : m'.UnchangedOutside S' n') : n.Renamed ρ N n' where
  nextSlot i := by
    rw [hn.size, hn'.size]
    exact h.nextSlot i
  nextFunction i := by
    rw [hn.functions, hn'.functions]
    exact h.nextFunction i
  shape t := by
    rw [hn.shape, hn'.shape]
    exact h.shape t
  function f := by
    rw [hn.function, hn'.function]
    exact h.function f
  lookup name hname := by
    simp only [Memory.lookup?, hn.registry, hn'.registry]
    exact h.lookup name hname

theorem replace (h : m.Renamed ρ N m') (t t' : SlotId) (c c' : Content) :
    (m.replace t c).Renamed ρ N (m'.replace t' c') := by
  have hleft : m.UnchangedOutside (fun _ => True) (m.replace t c) := .replace trivial c
  have hright : m'.UnchangedOutside (fun _ => True) (m'.replace t' c') := .replace trivial c'
  exact h.unchanged hleft hright

/-- A new slot on both sides, each with the next handle. -/
theorem allocate (h : m.Renamed ρ N m') (s : Slot) :
    (m.allocate s).Renamed ρ N (m'.allocate s) where
  nextSlot i := by
    rw [size_allocate, size_allocate, Nat.add_assoc, h.nextSlot, Nat.add_assoc]
  nextFunction := h.nextFunction
  shape t := by
    by_cases ht : t = m.slots.size
    · rw [ht, h.slot_size, slot_allocate_self, slot_allocate_self]
    · have ht' : ρ.slot t ≠ m'.slots.size := by
        rw [← h.slot_size]
        exact ρ.slot_injective.ne ht
      rw [slot_allocate_of_ne ht, slot_allocate_of_ne ht']
      exact h.shape t
  function := h.function
  lookup := h.lookup

/-- A new function on both sides, each with the next handle. -/
theorem push (h : m.Renamed ρ N m') {F F' : Function} (hF : F.Renamed ρ F') :
    ({ m with functions := m.functions.push F } : Memory).Renamed ρ N
      { m' with functions := m'.functions.push F' } where
  nextSlot := h.nextSlot
  nextFunction i := by
    show ρ.function ((m.functions.push F).size + i) = (m'.functions.push F').size + i
    rw [Array.size_push, Array.size_push, Nat.add_assoc, h.nextFunction, Nat.add_assoc]
  shape := h.shape
  function f := by
    by_cases hf : f = m.functions.size
    · subst hf
      rw [h.function_size, function_push_self, function_push_self]
      exact hF
    · have hf' : ρ.function f ≠ m'.functions.size := by
        rw [← h.function_size]
        exact ρ.function_injective.ne hf
      rw [function_push_of_ne hf, function_push_of_ne hf']
      exact h.function f
  lookup := h.lookup

/-- A function and its copy change in the same way. -/
theorem modifyFunction (h : m.Renamed ρ N m') {id : FunctionId} (hid : id < m.functions.size)
    {g g' : Function → Function}
    (hg : (g (m.function id)).Renamed ρ (g' (m'.function (ρ.function id)))) :
    (m.modifyFunction id g).Renamed ρ N (m'.modifyFunction (ρ.function id) g') where
  nextSlot := h.nextSlot
  nextFunction i := by
    rw [size_modifyFunction, size_modifyFunction]
    exact h.nextFunction i
  shape := h.shape
  function f := by
    by_cases hf : f = id
    · subst hf
      rw [function_modify_self hid, function_modify_self (h.function_lt hid)]
      exact hg
    · rw [function_modify_of_ne hf, function_modify_of_ne (ρ.function_injective.ne hf)]
      exact h.function f
  lookup := h.lookup

theorem attach (h : m.Renamed ρ N m') {id : FunctionId} (hid : id < m.functions.size) (e : Expr) :
    (m.attach id e).Renamed ρ N (m'.attach (ρ.function id) (e.rename ρ)) := by
  have hf := h.function id
  exact h.modifyFunction hid ⟨hf.name, hf.parameters, hf.slots, rfl, hf.returnKind⟩

/-- A new function becomes known by the same name in both. -/
theorem register (h : m.Renamed ρ N m') (name : String) (id : FunctionId) :
    ({ m with registry := m.registry ++ [(name, id)] } : Memory).Renamed ρ N
      { m' with registry := m'.registry ++ [(name, ρ.function id)] } where
  nextSlot := h.nextSlot
  nextFunction := h.nextFunction
  shape := h.shape
  function := h.function
  lookup other hother := by
    have hold := h.lookup other hother
    simp only [Memory.lookup?, List.lookup_append] at hold ⊢
    rw [hold]
    cases m.registry.lookup other with
    | some f => rfl
    | none =>
        simp only [Option.map_none, Option.none_or, List.lookup_cons, List.lookup_nil]
        split <;> rfl

end Renamed
end Memory

/-! ## Kinds -/

namespace Typing

variable {ρ : Renaming} {N : Set String} {m m' : Memory}

/-- The kinds of targets do not depend on their handles. -/
theorem assignmentKind_rename (h : m.Renamed ρ N m') (ts : List Reference) (kind : Kind) :
    assignmentKind m' (ts.map (·.rename ρ)) kind = assignmentKind m ts kind := by
  have hcheck : ∀ common, checkTargets m' common (ts.map (·.rename ρ)) =
      checkTargets m common ts := by
    induction ts with
    | nil => exact fun _ => rfl
    | cons t ts ih =>
        intro common
        have hkind : (m'.slot (t.rename ρ).slot).kind = (m.slot t.slot).kind := h.kind t.slot
        simp only [List.map_cons, checkTargets, hkind, ih]
        rfl
  simp only [assignmentKind, hcheck]

/-- Kinds do not hang on handles. -/
theorem kindGiven_rename (h : m.Renamed ρ N m') {answer answer' : FunctionId → Except Fault Kind}
    (hanswer : ∀ f, answer' (ρ.function f) = answer f) (e : Expr) :
    kindGiven m' answer' (e.rename ρ) = kindGiven m answer e := by
  induction e using Expr.induction with
  | literal v | declaration name f => rfl
  | read r => exact congrArg Except.ok (h.kind r.slot)
  | unary op e ih | print e ih => simp only [Expr.rename, kindGiven, ih]
  | binary op l r ihl ihr => simp only [Expr.rename, kindGiven, ihl, ihr]
  | conditional c t e ihc iht ihe => simp only [Expr.rename, kindGiven, ihc, iht, ihe]
  | assign ts e ih => simp only [Expr.rename, kindGiven, ih, assignmentKind_rename h]
  | call name f es dependent ih =>
      have hes : argumentsGiven m' answer' (es.map (Expr.rename ρ)) =
          argumentsGiven m answer es := by
        induction es with
        | nil => rfl
        | cons e es ihes =>
            rw [List.forall_mem_cons] at ih
            simp only [List.map_cons, argumentsGiven, ih.1, ihes ih.2]
      simp only [Expr.rename, kindGiven, Expr.renameAll_eq, hes, hanswer, (h.function f).checkArity,
        List.length_map]
  | letIn ds b ihd ihb =>
      have hds : declarationsGiven m' answer' (ds.map (Declaration.rename ρ)) =
          declarationsGiven m answer ds := by
        induction ds with
        | nil => rfl
        | cons d ds ihds =>
            rw [List.forall_mem_cons] at ihd
            rcases d with ⟨name, slot, kind, initializer, dependent⟩
            have hi : kindGiven m' answer' (initializer.rename ρ) = kindGiven m answer
              initializer := ihd.1
            simp only [List.map_cons, Declaration.rename, declarationsGiven, hi, ihds ihd.2]
      simp only [Expr.rename, kindGiven, Expr.renameBindings_eq, hds, ihb]

/-- Nor does the kind of a function that is being declared. -/
theorem nested_rename (h : m.Renamed ρ N m') (id : FunctionId) (b : Expr) (n : Nat) :
    nested m' (ρ.function id) (b.rename ρ) n = nested m id b n := by
  induction n with
  | zero => simp only [nested, (h.function id).name]
  | succ n ih =>
      rw [nested_succ, nested_succ, ih]
      exact kindGiven_rename h h.answering b

end Typing
end LineLang
