import LineLang.Memory

/-!
# Laws of the storage

What the changes of the storage do to each slot and each function.

- `Memory.UnchangedOutside`  : two storages that differ in the contents of some slots only
- `Memory.Extends`           : a storage to which slots and functions were added
- `Memory.restore_eq`        : releasing what was added gives the storage back
-/

namespace LineLang

def Slot.shape (s : Slot) : Slot :=
  { s with content := .uninitialized }

theorem Slot.eq_of_shape {s t : Slot} (h : s.shape = t.shape) (hc : s.content = t.content) :
    s = t := by
  cases s
  cases t
  simp_all [shape]

namespace Memory

variable {m n k : Memory} {i t : SlotId} {c : Content}

/-! ## Slots -/

theorem slot_of_size_le (h : m.slots.size ≤ t) : m.slot t = .absent := by
  simp [slot, Array.getElem?_eq_none h]

theorem lt_size_of_dependent {e : Expr} (h : m.content t = .dependent e) : t < m.slots.size := by
  apply Nat.lt_of_not_le
  intro hle
  rw [content, slot_of_size_le hle] at h
  cases h

@[simp] theorem size_replace : (m.replace i c).slots.size = m.slots.size := by
  simp [replace]

theorem slot_replace_of_ne (h : t ≠ i) : (m.replace i c).slot t = m.slot t := by
  simp [slot, replace, Array.getElem?_modify, h.symm]

theorem slot_replace_self (h : i < m.slots.size) :
    (m.replace i c).slot i = { m.slot i with content := c } := by
  simp [slot, replace, Array.getElem_modify, h]

/-- Filling a slot does not change its name, its kind or its flag. -/
@[simp] theorem shape_replace : ((m.replace i c).slot t).shape = (m.slot t).shape := by
  by_cases h : t = i
  · subst h
    by_cases ht : t < m.slots.size
    · rw [slot_replace_self ht]
      rfl
    · rw [slot_of_size_le (by simpa using ht), slot_of_size_le (by simpa using ht)]
  · rw [slot_replace_of_ne h]

theorem content_replace_of_ne (h : t ≠ i) : (m.replace i c).content t = m.content t := by
  simp only [content, slot_replace_of_ne h]

theorem content_replace_self (h : i < m.slots.size) : (m.replace i c).content i = c := by
  simp only [content, slot_replace_self h]

/-- What a slot holds after one slot was changed: the new content in that slot, or the old one. -/
theorem content_replace (m : Memory) (i t : SlotId) (c : Content) :
    (m.replace i c).content t = m.content t ∨ t = i ∧ (m.replace i c).content t = c := by
  by_cases h : t = i
  · subst h
    by_cases ht : t < m.slots.size
    · exact .inr ⟨rfl, content_replace_self ht⟩
    · have hs := slot_of_size_le (m := m) (by simpa using ht)
      have hr := slot_of_size_le (m := m.replace t c) (t := t) (by simpa using ht)
      exact .inl (by simp only [content, hs, hr])
  · exact .inl (content_replace_of_ne h)

theorem write_ok {v : Value} (h : m.write i v = .ok n) :
    n = m.replace i (.value v) ∧ (m.slot i).kind.accepts v.kind := by
  unfold write Value.expectKind at h
  split at h
  · next ha => exact ⟨(Except.ok.inj h).symm, ha⟩
  · cases h

theorem write_error {v : Value} {fault : Fault} (h : m.write i v = .error fault) :
    fault = .kindMismatch (.variable (m.slot i).name) (m.slot i).kind v.kind := by
  unfold write Value.expectKind at h
  split at h
  · cases h
  · exact (Except.error.inj h).symm

theorem slot_allocate_of_ne {s : Slot} (h : t ≠ m.slots.size) :
    (m.allocate s).slot t = m.slot t := by
  simp [slot, allocate, Array.getElem?_push, h]

theorem slot_allocate_of_lt {s : Slot} (h : t < m.slots.size) :
    (m.allocate s).slot t = m.slot t :=
  slot_allocate_of_ne (Nat.ne_of_lt h)

theorem slot_allocate_self {s : Slot} : (m.allocate s).slot m.slots.size = s := by
  simp [slot, allocate]

@[simp] theorem size_allocate {s : Slot} : (m.allocate s).slots.size = m.slots.size + 1 := by
  simp [allocate]

/-- Two storages with the same slots, one by one, have the same slots. -/
theorem slots_ext (hsize : m.slots.size = n.slots.size) (h : ∀ t, m.slot t = n.slot t) :
    m.slots = n.slots := by
  apply Array.ext hsize
  intro i hm hn
  have hi := h i
  simpa [slot, hm, hn] using hi

/-! ## Changes that spare some slots -/

/-- Only slots in `S` differ, and only in what they hold. -/
structure UnchangedOutside (S : SlotId → Prop) (m n : Memory) : Prop where
  functions : n.functions = m.functions
  registry : n.registry = m.registry
  size : n.slots.size = m.slots.size
  shape : ∀ t, (n.slot t).shape = (m.slot t).shape
  content : ∀ t, ¬ S t → n.content t = m.content t

namespace UnchangedOutside

variable {S T : SlotId → Prop}

theorem refl (m : Memory) : UnchangedOutside S m m :=
  ⟨rfl, rfl, rfl, fun _ => rfl, fun _ _ => rfl⟩

/-- Two changes one after the other. -/
theorem trans (h : UnchangedOutside S m n) (h' : UnchangedOutside S n k) :
    UnchangedOutside S m k where
  functions := h'.functions.trans h.functions
  registry := h'.registry.trans h.registry
  size := h'.size.trans h.size
  shape t := (h'.shape t).trans (h.shape t)
  content t ht := (h'.content t ht).trans (h.content t ht)

theorem symm (h : UnchangedOutside S m n) : UnchangedOutside S n m where
  functions := h.functions.symm
  registry := h.registry.symm
  size := h.size.symm
  shape t := (h.shape t).symm
  content t ht := (h.content t ht).symm

theorem mono (h : UnchangedOutside S m n) (hST : ∀ t, S t → T t) : UnchangedOutside T m n :=
  { h with content := fun t ht => h.content t fun hs => ht (hST t hs) }

/-- A slot in `S` is filled. -/
theorem replace (hi : S i) (c : Content) : UnchangedOutside S m (m.replace i c) where
  functions := rfl
  registry := rfl
  size := size_replace
  shape _ := shape_replace
  content _ ht := content_replace_of_ne fun h => ht (h ▸ hi)

/-- The same slot is added to both. -/
theorem allocate (h : UnchangedOutside S m n) (s : Slot) :
    UnchangedOutside S (m.allocate s) (n.allocate s) := by
  have hslot : ∀ t, (n.allocate s).slot t = (m.allocate s).slot t ∨
      (n.allocate s).slot t = n.slot t ∧ (m.allocate s).slot t = m.slot t := by
    intro t
    by_cases ht : t = m.slots.size
    · refine .inl ?_
      rw [ht, slot_allocate_self, ← h.size, slot_allocate_self]
    · exact .inr ⟨slot_allocate_of_ne (h.size ▸ ht), slot_allocate_of_ne ht⟩
  refine ⟨h.functions, h.registry, ?_, fun t => ?_, fun t ht => ?_⟩
  · rw [size_allocate, size_allocate, h.size]
  · rcases hslot t with heq | ⟨hn, hm⟩
    · rw [heq]
    · rw [hn, hm, h.shape]
  · rcases hslot t with heq | ⟨hn, hm⟩
    · rw [Memory.content, Memory.content, heq]
    · rw [Memory.content, Memory.content, hn, hm]
      exact h.content t ht

theorem function (h : UnchangedOutside S m n) (f : FunctionId) : n.function f = m.function f := by
  simp only [Memory.function, h.functions]

theorem slot (h : UnchangedOutside S m n) (ht : ¬ S t) : n.slot t = m.slot t :=
  Slot.eq_of_shape (h.shape t) (h.content t ht)

/-- If the spared slots hold what they held, nothing has changed. -/
theorem eq (h : UnchangedOutside S m n) (hS : ∀ t, S t → n.content t = m.content t) : n = m := by
  have hslots : n.slots = m.slots := by
    apply slots_ext h.size
    intro t
    by_cases ht : S t
    · exact Slot.eq_of_shape (h.shape t) (hS t ht)
    · exact h.slot ht
  have hf := h.functions
  have hr := h.registry
  cases m
  cases n
  simp_all

end UnchangedOutside

/-! ## Saving and putting back -/

/-- Putting back changes no other slots than those that were saved. -/
theorem unchangedOutside_putBack {S : SlotId → Prop} (saved : List (SlotId × Content))
    (h : ∀ p ∈ saved, S p.1) (m : Memory) : UnchangedOutside S m (m.putBack saved) := by
  induction saved with
  | nil => exact .refl m
  | cons p saved ih =>
      rw [List.forall_mem_cons] at h
      exact (ih h.2).trans (.replace h.1 p.2)

/-- A slot that was saved holds again what it held then. -/
theorem content_putBack_save {ids : List SlotId} (ht : t ∈ ids) (hsize : t < m.slots.size) :
    (m.putBack (n.save ids)).content t = n.content t := by
  induction ids with
  | nil => exact absurd ht List.not_mem_nil
  | cons i ids ih =>
      have hrest := unchangedOutside_putBack (S := fun _ => True) (n.save ids)
        (fun _ _ => trivial) m
      have hput : m.putBack (n.save (i :: ids)) =
          (m.putBack (n.save ids)).replace i (n.content i) := rfl
      rw [hput]
      by_cases h : t = i
      · subst h
        exact content_replace_self (hrest.size ▸ hsize)
      · rw [content_replace_of_ne h]
        exact ih ((List.mem_cons.1 ht).resolve_left h)

/-! ## Functions -/

theorem function_modify_of_ne {f id : FunctionId} {g : Function → Function} (h : f ≠ id) :
    (m.modifyFunction id g).function f = m.function f := by
  simp [function, modifyFunction, Array.getElem?_modify, h.symm]

theorem function_modify_self {id : FunctionId} {g : Function → Function}
    (h : id < m.functions.size) : (m.modifyFunction id g).function id = g (m.function id) := by
  simp [function, modifyFunction, Array.getElem_modify, h]

theorem function_of_size_le {id : FunctionId} (h : m.functions.size ≤ id) :
    m.function id = .absent := by
  simp [function, Array.getElem?_eq_none h]

theorem lt_size_of_body {id : FunctionId} {b : Expr} (h : (m.function id).body = some b) :
    id < m.functions.size := by
  apply Nat.lt_of_not_le
  intro hle
  rw [function_of_size_le hle] at h
  cases h

theorem functions_ext (hsize : m.functions.size = n.functions.size)
    (h : ∀ f, m.function f = n.function f) : m.functions = n.functions := by
  apply Array.ext hsize
  intro i hm hn
  have hi := h i
  simpa [function, hm, hn] using hi

@[simp] theorem slots_modifyFunction {id : FunctionId} {g : Function → Function} :
    (m.modifyFunction id g).slots = m.slots := rfl

theorem function_push_of_ne {f : FunctionId} {F : Function} (h : f ≠ m.functions.size) :
    ({ m with functions := m.functions.push F } : Memory).function f = m.function f := by
  simp [function, Array.getElem?_push, h]

theorem function_push_of_lt {f : FunctionId} {F : Function} (h : f < m.functions.size) :
    ({ m with functions := m.functions.push F } : Memory).function f = m.function f :=
  function_push_of_ne (Nat.ne_of_lt h)

theorem function_push_self {F : Function} :
    ({ m with functions := m.functions.push F } : Memory).function m.functions.size = F := by
  simp [function]

@[simp] theorem size_modifyFunction {id : FunctionId} {g : Function → Function} :
    (m.modifyFunction id g).functions.size = m.functions.size := by
  simp [modifyFunction]

@[simp] theorem slot_modifyFunction {id : FunctionId} {g : Function → Function} :
    (m.modifyFunction id g).slot t = m.slot t := rfl

/-- Two changes of one function are a single one. -/
theorem modifyFunction_modifyFunction {id : FunctionId} {g g' : Function → Function} :
    (m.modifyFunction id g).modifyFunction id g' = m.modifyFunction id fun f => g' (g f) := by
  have h : ((m.modifyFunction id g).modifyFunction id g').functions =
      (m.modifyFunction id fun f => g' (g f)).functions := by
    apply functions_ext (by simp)
    intro f
    by_cases hf : f = id
    · subst hf
      by_cases hs : f < m.functions.size
      · rw [function_modify_self (by simpa using hs), function_modify_self hs,
          function_modify_self hs]
      · rw [function_of_size_le (by simpa using hs), function_of_size_le (by simpa using hs)]
    · rw [function_modify_of_ne hf, function_modify_of_ne hf, function_modify_of_ne hf]
  have hs : ((m.modifyFunction id g).modifyFunction id g').slots = m.slots := rfl
  unfold modifyFunction at h ⊢
  simpa using h

/-- A change that leaves the function as it is leaves the storage as it is. -/
theorem modifyFunction_eq_self {id : FunctionId} {g : Function → Function}
    (h : g (m.function id) = m.function id) : m.modifyFunction id g = m := by
  have hf : (m.modifyFunction id g).functions = m.functions := by
    apply functions_ext (by simp)
    intro f
    by_cases hfid : f = id
    · subst hfid
      by_cases hs : f < m.functions.size
      · rw [function_modify_self hs, h]
      · rw [function_of_size_le (by simpa using hs), function_of_size_le (by simpa using hs)]
    · rw [function_modify_of_ne hfid]
  unfold modifyFunction at hf ⊢
  simp only at hf
  rw [hf]

theorem enter_ok {id : FunctionId} (h : m.enter id = .ok n) :
    (m.function id).depth < callLimit ∧
      n = m.modifyFunction id fun f => { f with depth := f.depth + 1 } := by
  unfold enter at h
  split at h
  · cases h
  · next hd => exact ⟨Nat.lt_of_not_le hd, (Except.ok.inj h).symm⟩

theorem enter_error {id : FunctionId} {fault : Fault} (h : m.enter id = .error fault) :
    callLimit ≤ (m.function id).depth ∧ fault = .stackOverflow (m.function id).name := by
  unfold enter at h
  split at h
  · next hd => exact ⟨hd, (Except.error.inj h).symm⟩
  · cases h

/-- Leaving undoes entering. -/
theorem leave_enter {id : FunctionId} (h : m.enter id = .ok n) : n.leave id = m := by
  rw [(enter_ok h).2, leave, modifyFunction_modifyFunction]
  exact modifyFunction_eq_self rfl

/-! ## Growth -/

/-- Slots and functions were added, and all that was there before is as it was. -/
structure Extends (m n : Memory) : Prop where
  slots : m.slots.toList <+: n.slots.toList
  functions : m.functions.toList <+: n.functions.toList

namespace Extends

theorem refl (m : Memory) : Extends m m :=
  ⟨List.prefix_rfl, List.prefix_rfl⟩

theorem trans (h : Extends m n) (h' : Extends n k) : Extends m k :=
  ⟨h.slots.trans h'.slots, h.functions.trans h'.functions⟩

theorem size_slots (h : Extends m n) : m.slots.size ≤ n.slots.size := by
  simpa using h.slots.length_le

theorem size_functions (h : Extends m n) : m.functions.size ≤ n.functions.size := by
  simpa using h.functions.length_le

theorem slot (h : Extends m n) (ht : t < m.slots.size) : n.slot t = m.slot t := by
  have hget := h.slots.getElem (i := t) (by simpa using ht)
  simp only [Array.getElem_toList] at hget
  simp [Memory.slot, ht, Nat.lt_of_lt_of_le ht h.size_slots, hget]

theorem function (h : Extends m n) {f : FunctionId} (hf : f < m.functions.size) :
    n.function f = m.function f := by
  have hget := h.functions.getElem (i := f) (by simpa using hf)
  simp only [Array.getElem_toList] at hget
  simp [Memory.function, hf, Nat.lt_of_lt_of_le hf h.size_functions, hget]

/-- It is enough that each slot and each function is as it was. -/
theorem of_forall (hsize : m.slots.size ≤ n.slots.size)
    (hslot : ∀ t < m.slots.size, n.slot t = m.slot t) (hcount : m.functions.size ≤ n.functions.size)
    (hfunction : ∀ f < m.functions.size, n.function f = m.function f) : Extends m n := by
  refine ⟨List.prefix_iff_getElem.2 ⟨by simpa using hsize, fun i hi => ?_⟩,
    List.prefix_iff_getElem.2 ⟨by simpa using hcount, fun i hi => ?_⟩⟩
  · have hi' : i < m.slots.size := by simpa using hi
    have h := hslot i hi'
    simpa [Memory.slot, hi', Nat.lt_of_lt_of_le hi' hsize] using h.symm
  · have hi' : i < m.functions.size := by simpa using hi
    have h := hfunction i hi'
    simpa [Memory.function, hi', Nat.lt_of_lt_of_le hi' hcount] using h.symm

end Extends

theorem take_of_prefix {α : Type} {a b : Array α} (h : a.toList <+: b.toList) :
    b.take a.size = a := by
  apply Array.toList_inj.1
  simpa using (List.prefix_iff_eq_take.1 h).symm

/-- Releasing what was added gives the storage back. -/
theorem restore_eq (h : Extends m n) (hr : n.registry = m.registry) :
    n.restore m.checkpoint = m := by
  have hs := take_of_prefix h.slots
  have hf := take_of_prefix h.functions
  cases m
  cases n
  simp_all [restore, checkpoint]

end Memory
end LineLang
