import LineLang.Proofs.Evaluation.Bound

/-!
# Flags of slots

A slot that holds an initializer is flagged as dependent. Reading a slot follows what it holds, so
the initializers inside an initializer matter as well.

- `Memory.Flags`      : the slot of a binding is flagged if the binding is dependent
- `Memory.Flagged`    : slots that hold initializers are flagged
- `Evaluation.evaluateWithin_flagged`, `Evaluation.evaluate_flagged`  : evaluation keeps them so
-/

namespace LineLang

open Effect

namespace Memory

variable {m n : Memory} {i : SlotId} {c : Content} {d : Declaration Expr}

def Flags (m : Memory) (d : Declaration Expr) : Prop :=
  d.dependent = true → (m.slot d.slot).dependent = true

/-- A slot that holds an initializer is flagged, and so are the slots that the initializer may fill
with initializers. -/
def Flagged (m : Memory) : Prop :=
  ∀ t e, m.content t = .dependent e → (m.slot t).dependent = true ∧ e.Binds m.Flags

theorem lt_size_of_flag (h : (m.slot i).dependent = true) : i < m.slots.size := by
  apply Nat.lt_of_not_le
  intro hle
  rw [slot_of_size_le hle] at h
  cases h

theorem Flags.mono (h : m.Flags d)
    (hslot : ∀ t, (m.slot t).dependent = true → (n.slot t).dependent = true) : n.Flags d :=
  fun hd => hslot d.slot (h hd)

/-- No flag is lost, and no initializer is new. -/
theorem Flagged.mono (h : m.Flagged)
    (hslot : ∀ t, (m.slot t).dependent = true → (n.slot t).dependent = true)
    (hcontent : ∀ t e, n.content t = .dependent e → m.content t = .dependent e) : n.Flagged := by
  intro t e ht
  rcases h t e (hcontent t e ht) with ⟨hflag, hbinds⟩
  exact ⟨hslot t hflag, hbinds.imp fun _ hp d hd => (hp d hd).mono hslot⟩

theorem dependent_of_shape {t : SlotId} (h : (n.slot t).shape = (m.slot t).shape) :
    (n.slot t).dependent = (m.slot t).dependent :=
  congrArg (·.dependent) h

/-- An initializer may only be left in a flagged slot. -/
theorem Flagged.replace (h : m.Flagged)
    (hc : ∀ e, c = .dependent e → (m.slot i).dependent = true ∧ e.Binds m.Flags) :
    (m.replace i c).Flagged := by
  have hslot : ∀ t, (m.slot t).dependent = true → ((m.replace i c).slot t).dependent = true :=
    fun t ht => (dependent_of_shape shape_replace).trans ht
  -- What a slot holds was there before, or it is the new content.
  intro t e ht
  have hold : (m.slot t).dependent = true ∧ e.Binds m.Flags := by
    rcases content_replace m i t c with h' | ⟨rfl, h'⟩
    · exact h t e (h' ▸ ht)
    · exact hc e (h' ▸ ht)
  exact ⟨hslot t hold.1, hold.2.imp fun _ hp d hd => (hp d hd).mono hslot⟩

/-- A new slot holds nothing yet. -/
theorem Flagged.allocate (h : m.Flagged) {s : Slot} (hs : s.content = .uninitialized) :
    (m.allocate s).Flagged := by
  refine h.mono (fun t ht => ?_) fun t e ht => ?_
  · rw [slot_allocate_of_lt (lt_size_of_flag ht), ht]
  · have hle : t < m.slots.size + 1 := size_allocate ▸ lt_size_of_dependent ht
    rcases Nat.eq_or_lt_of_le (Nat.le_of_lt_succ hle) with rfl | hlt
    · rw [content, slot_allocate_self, hs] at ht
      cases ht
    · rwa [content, slot_allocate_of_lt hlt] at ht

end Memory

namespace Evaluation

variable {owner : SlotId → FunctionId} {o : FunctionId} {m : Memory} {e : Expr}

/-- Evaluation keeps the flags right at every depth if it does when stored expressions are
followed. -/
theorem safe_flagged {n : Nat}
    (hfollow : ∀ {mode : Mode} {e : Expr}, e.Local owner o → e.SlotsIn (· < m.slots.size) →
      e.Binds m.Flags →
      Keeps (fun _ => True) (fun s => Confined owner o m s ∧ s.memory.Flagged)
        (evaluateWithin n mode e)) :
    Safe (evaluateWithin n) (fun _ => True) (fun s => Confined owner o m s ∧ s.memory.Flagged)
      (fun t => owner t = o ∧ t < m.slots.size)
      (fun d => (d.initializer.Local owner o ∧ d.initializer.SlotsIn (· < d.slot)) ∧
        m.Flags d ∧ d.initializer.Binds m.Flags) := by
  -- The flags of slots never change, so they can be compared with those at the start.
  have hback : ∀ s, Confined owner o m s →
      ∀ t, (s.memory.slot t).dependent = (m.slot t).dependent :=
    fun s hs t => Memory.dependent_of_shape (hs.2.shape t)
  refine ⟨fun _ _ => trivial, ?_, ?_, ?_, ?_, ?_⟩
  · rintro mode r ⟨hown, hlt⟩
    apply Triple.get_bind
    intro s hs
    refine Triple.weaken (P := fun s => Confined owner o m s ∧ s.memory.Flagged) ?_
      (by rintro _ rfl; exact hs) (fun _ _ h => h) fun _ _ h => h
    cases hc : s.memory.content r.slot with
    | uninitialized => exact Keeps.throw trivial
    | value v => exact Keeps.pure
    | dependent i =>
        rcases hs.1.1.deferred r.slot i hc with ⟨hlocal, hslots⟩
        rw [hown] at hlocal
        refine hfollow hlocal (hslots.imp fun p hp t ht => Nat.lt_trans (hp t ht) hlt) ?_
        exact (hs.2 r.slot i hc).2.imp fun p hp d hd =>
          (hp d hd).mono fun t ht => (hback s hs.1 t).symm.trans ht
  · intro t v ht
    apply triple_write
    · intro s hs _
      refine ⟨⟨hs.1.1.replace nofun, hs.1.2.trans ?_⟩, hs.2.replace nofun⟩
      exact Memory.UnchangedOutside.replace (S := (owner · = o)) ht.1 _
    · exact fun s _ _ _ hs => ⟨trivial, hs⟩
  · intro d hd hslot hdependent
    apply Triple.modify
    intro s hs
    refine ⟨(defer_confined (G := fun _ => True) hslot.1 hd.1.1 hd.1.2).of_ok hs.1 rfl, ?_⟩
    have hmono : ∀ t, (m.slot t).dependent = true → (s.memory.slot t).dependent = true :=
      fun t ht => (hback s hs.1 t).trans ht
    apply hs.2.replace
    rintro _ ⟨⟩
    exact ⟨hmono _ (hd.2.1 hdependent), hd.2.2.imp fun p hp d hd => (hp d hd).mono hmono⟩
  · exact fun text => Triple.modify fun _ hs => hs
  · -- A call leaves the storage as it was, so what its body does to the flags does not matter.
    intro mode id count arguments harguments
    refine callWith_keeps (fun _ _ => trivial) (fun s hs => hs.1) ?_ harguments ?_
    · intro s t hst hs
      simpa only [Confined, hst] using hs
    · intro s b k hs hbody hk
      have hlocal := hs.1.1.body id b (by rw [hs.1.2.function id, hbody])
      have hks : k.slots.size = s.memory.slots.size := by
        rw [(Memory.enter_ok hk).2]
        rfl
      exact (evaluateWithin_keeps n hlocal.1 hlocal.2 (Nat.le_of_eq hks.symm)).weaken
        (fun _ h => h) (fun _ _ h => h) fun _ _ h => ⟨trivial, h.2⟩

/-- Evaluation keeps the flags right, besides being confined. -/
theorem evaluateWithin_flagged (n : Nat) {mode : Mode} (he : e.Local owner o)
    (hb : e.SlotsIn (· < m.slots.size)) (hflags : e.Binds m.Flags) :
    Keeps (fun _ => True) (fun s => Confined owner o m s ∧ s.memory.Flagged)
      (evaluateWithin n mode e) := by
  induction n generalizing mode e with
  | zero => exact Keeps.throw trivial
  | succ n ih =>
      have hslots : e.SlotsIn fun t => owner t = o ∧ t < m.slots.size :=
        Expr.Every.imp (he.slots.and hb) fun p hp t ht => ⟨hp.1 t ht, hp.2 t ht⟩
      refine evaluateWith_keeps (safe_flagged ih) hslots (fun p hp d hd => ?_) mode
      have hi := Expr.mem_parts_trans (Expr.initializer_mem_parts hd) hp
      exact ⟨he.binds p hp d hd, hflags p hp d hd, Expr.Every.part hflags hi⟩

/-- Bindings keep the flags right. -/
theorem bindWith_flagged (n : Nat) (mode : Mode) {ds : List (Declaration Expr)}
    (hds : ∀ d ∈ ds, (owner d.slot = o ∧ d.slot < m.slots.size) ∧
      (d.initializer.Local owner o ∧ d.initializer.SlotsIn (· < d.slot)) ∧ m.Flags d ∧
        d.initializer.Binds m.Flags) :
    Keeps (fun _ => True) (fun s => Confined owner o m s ∧ s.memory.Flagged)
      (bindWith (evaluateWithin n) mode ds) := by
  refine bindWith_keeps (safe_flagged (evaluateWithin_flagged n)) mode (fun d hd mode => ?_)
    (fun d hd => (hds d hd).1) fun d hd => (hds d hd).2
  rcases hds d hd with ⟨⟨-, hlt⟩, ⟨hlocal, hslots⟩, -, hflags⟩
  exact evaluateWithin_flagged (n + 1) hlocal
    (hslots.imp fun p hp t ht => Nat.lt_trans (hp t ht) hlt) hflags

/-- Evaluation leaves initializers in flagged slots only. -/
theorem evaluate_flagged (mode : Mode) (he : e.Local owner o) (hb : e.SlotsIn (· < m.slots.size))
    (hflags : e.Binds m.Flags) :
    Triple (fun s => s.memory = m ∧ m.Coherent owner ∧ m.Flagged) (evaluate mode e)
      (fun _ s => s.memory.Flagged) (fun _ s => s.memory.Flagged) := by
  apply Triple.get_bind
  rintro s ⟨rfl, hs, hflagged⟩
  refine (evaluateWithin_flagged _ he hb hflags).weaken ?_ (fun _ _ h => h.2) fun _ _ h => h.2.2
  rintro _ rfl
  exact ⟨⟨hs, .refl _⟩, hflagged⟩

end Evaluation
end LineLang
