import LineLang.Proofs.Activation.Records
import LineLang.Proofs.Evaluation.Bound

/-!
# Shared slots and records

The slots of a function are shared by all its calls. Evaluation over them gives what evaluation in
records gives, because each call puts back what it found, and because an expression only reads slots
that were set by the same call.

- `Activation.Matches`   : two actions, one on each kind of state, that come to the same
- `Activation.Agrees`    : the slots of the current owner hold what the record holds
- `Activation.evaluateWithin_follows`  : the two evaluators come to the same
- `Activation.evaluate_both`           : and so does the one over two storages that agree with one
  record
-/

namespace LineLang

open Effect

namespace Record

variable {r : Record} {t u : SlotId} {c : Content}

def filled (r : Record) : Set SlotId :=
  {t | r t ≠ .uninitialized}

theorem filled_put (hc : c ≠ .uninitialized) : (r.put t c).filled = insert t r.filled := by
  ext u
  by_cases h : u = t
  · subst h
    simp [filled, put_self, hc]
  · simp [filled, put_of_ne h, h]

end Record

namespace Activation

/-! ## Actions that come to the same -/

/-- Two outcomes are the same value in states related by `Q`, or the same fault after printing the
same. -/
inductive SameOutcome {α : Type} (Q : α → Machine → Activation → Prop) :
    EStateM.Result Fault Machine α → EStateM.Result Fault Activation α → Prop
  | ok {v : α} {s : Machine} {a : Activation} : Q v s a → SameOutcome Q (.ok v s) (.ok v a)
  | error {fault : Fault} {s : Machine} {a : Activation} : s.printed = a.printed →
      SameOutcome Q (.error fault s) (.error fault a)

theorem SameOutcome.imp {α : Type} {Q Q' : α → Machine → Activation → Prop}
    {r : EStateM.Result Fault Machine α} {r' : EStateM.Result Fault Activation α}
    (h : SameOutcome Q r r') (hQ : ∀ v s a, Q v s a → Q' v s a) : SameOutcome Q' r r' := by
  cases h with
  | ok hq => exact .ok (hQ _ _ _ hq)
  | error hprinted => exact .error hprinted

/-- Two outcomes that are the same as a third are the same as each other. -/
theorem SameOutcome.join {α : Type} {Q Q' : α → Machine → Activation → Prop}
    {r r' : EStateM.Result Fault Machine α} {q : EStateM.Result Fault Activation α}
    (h : SameOutcome Q r q) (h' : SameOutcome Q' r' q) :
    (∃ v s s' a, r = .ok v s ∧ r' = .ok v s' ∧ Q v s a ∧ Q' v s' a) ∨
      ∃ fault s s', r = .error fault s ∧ r' = .error fault s' ∧ s.printed = s'.printed := by
  cases h with
  | ok hq =>
      cases h' with
      | ok hq' => exact .inl ⟨_, _, _, _, rfl, rfl, hq, hq'⟩
  | error hprinted =>
      cases h' with
      | error hprinted' => exact .inr ⟨_, _, _, rfl, rfl, hprinted.trans hprinted'.symm⟩

def Matches {α : Type} (R : Machine → Activation → Prop) (x : Evaluation α) (y : Action α)
    (Q : α → Machine → Activation → Prop) : Prop :=
  ∀ s a, R s a → SameOutcome Q (x s) (y a)

namespace Matches

variable {α β : Type} {R : Machine → Activation → Prop} {Q : α → Machine → Activation → Prop}

theorem pure {v : α} (h : ∀ s a, R s a → Q v s a) : Matches R (Pure.pure v) (Pure.pure v) Q :=
  fun s a hs => .ok (h s a hs)

theorem throw {fault : Fault} (h : ∀ s a, R s a → s.printed = a.printed) :
    Matches R (MonadExcept.throw fault : Evaluation α) (MonadExcept.throw fault) Q :=
  fun s a hs => .error (h s a hs)

/-- One action after another. -/
theorem bind {P : β → Machine → Activation → Prop} {x : Evaluation α} {y : Action α}
    {f : α → Evaluation β} {g : α → Action β} (hx : Matches R x y Q)
    (hf : ∀ v, Matches (Q v) (f v) (g v) P) : Matches R (x >>= f) (y >>= g) P := by
  intro s a hs
  have h := hx s a hs
  generalize hr : x s = r at h
  generalize hr' : y a = r' at h
  cases h with
  | ok hq =>
      rw [bind_ok hr, bind_ok hr']
      exact hf _ _ _ hq
  | error hprinted =>
      rw [bind_error hr, bind_error hr']
      exact .error hprinted

theorem get_bind {f : Machine → Evaluation α} {g : Activation → Action α}
    (h : ∀ s a, R s a → Matches (fun s' a' => s' = s ∧ a' = a) (f s) (g a) Q) :
    Matches R (get >>= f) (get >>= g) Q :=
  fun s a hs => h s a hs s a ⟨rfl, rfl⟩

theorem ofExcept {r : Except Fault α} (hprinted : ∀ s a, R s a → s.printed = a.printed)
    (hok : ∀ v s a, r = .ok v → R s a → Q v s a) :
    Matches R (Effect.ofExcept r) (Effect.ofExcept r) Q := by
  intro s a hs
  cases r with
  | ok v => exact .ok (hok v s a rfl hs)
  | error fault => exact .error (hprinted s a hs)

theorem weaken {R' : Machine → Activation → Prop} {Q' : α → Machine → Activation → Prop}
    {x : Evaluation α} {y : Action α} (h : Matches R x y Q) (hR : ∀ s a, R' s a → R s a)
    (hQ : ∀ v s a, Q v s a → Q' v s a) : Matches R' x y Q' :=
  fun s a hs => (h s a (hR s a hs)).imp hQ

theorem assume {p : Prop} {x : Evaluation α} {y : Action α} (h : p → Matches R x y Q) :
    Matches (fun s a => p ∧ R s a) x y Q :=
  fun s a hs => h hs.1 s a hs.2

end Matches

/-! ## Slots that hold what the record holds -/

/-- The functions of the storage may be called: their parameters are slots before `bound` that take
any value, and their bodies only use what they set. -/
structure Callable (m : Memory) (bound : Nat) : Prop where
  parameters : ∀ f b, (m.function f).body = some b →
    ∀ t ∈ (m.function f).parameterSlots, t < bound ∧ (m.slot t).kind = .dynamic
  inScope : ∀ f b, (m.function f).body = some b →
    b.Scoped {t | t ∈ (m.function f).parameterSlots}

theorem Callable.mono {m : Memory} {bound bound' : Nat} (h : Callable m bound)
    (hle : bound ≤ bound') : Callable m bound' where
  parameters f b hb t ht :=
    (h.parameters f b hb t ht).imp (fun hlt => Nat.lt_of_lt_of_le hlt hle) id
  inScope := h.inScope

/-- The machine is in a call of `o`, inside live calls of some functions, and the slots of `o` hold
what the record holds. The variables in `Γ` have been set. The machine has the first `bound` slots
of `m`. -/
structure Agrees (owner : SlotId → FunctionId) (m : Memory) (bound : Nat) (o : FunctionId)
    (live : List FunctionId) (Γ : Set SlotId) (s : Machine) (a : Activation) : Prop where
  printed : s.printed = a.printed
  size : s.memory.slots.size = bound
  shape : ∀ t < bound, (s.memory.slot t).shape = (m.slot t).shape
  functions : ∀ f, s.memory.function f = { m.function f with depth := live.count f }
  coherent : s.memory.Coherent owner
  record : ∀ t ∈ a.record.filled, t < bound ∧ owner t = o ∧ s.memory.content t = a.record t
  deferred : ∀ t e, a.record t = .dependent e → e.Scoped a.record.filled
  inForce : Γ ⊆ a.record.filled

namespace Agrees

variable {owner : SlotId → FunctionId} {m : Memory} {bound : Nat} {o : FunctionId}
variable {live : List FunctionId} {Γ Δ : Set SlotId} {s : Machine} {a : Activation}

theorem mono (h : Agrees owner m bound o live Δ s a) (hΓ : Γ ⊆ Δ) :
    Agrees owner m bound o live Γ s a :=
  { h with inForce := hΓ.trans h.inForce }

theorem kind (h : Agrees owner m bound o live Γ s a) {t : SlotId} (ht : t < bound) :
    (s.memory.slot t).kind = (m.slot t).kind :=
  congrArg (·.kind) (h.shape t ht)

theorem name (h : Agrees owner m bound o live Γ s a) {t : SlotId} (ht : t < bound) :
    (s.memory.slot t).name = (m.slot t).name :=
  congrArg (·.name) (h.shape t ht)

/-- Both sides set a slot of the current owner. -/
theorem put (h : Agrees owner m bound o live Γ s a) {t : SlotId} (ht : t < bound) (ho : owner t = o)
    {c : Content} (hc : c ≠ .uninitialized)
    (he : ∀ e, c = .dependent e → e.Local owner o ∧ e.SlotsIn (· < t) ∧ e.Scoped a.record.filled) :
    Agrees owner m bound o live (insert t Γ) { s with memory := s.memory.replace t c }
      { a with record := a.record.put t c } where
  printed := h.printed
  size := by rw [Memory.size_replace, h.size]
  shape u hu := by rw [Memory.shape_replace, h.shape u hu]
  functions := h.functions
  coherent := by
    refine h.coherent.replace fun e hce => ?_
    rw [ho]
    exact ⟨(he e hce).1, (he e hce).2.1⟩
  record u hu := by
    -- The slot itself holds what was put; every other slot that counts was set before.
    by_cases hut : u = t
    · subst hut
      refine ⟨ht, ho, ?_⟩
      exact (Memory.content_replace_self (h.size ▸ ht)).trans Record.put_self.symm
    · rw [Record.filled_put hc] at hu
      rcases h.record u (hu.resolve_left hut) with ⟨hlt, hown, hcontent⟩
      refine ⟨hlt, hown, ?_⟩
      calc
        (s.memory.replace t c).content u = s.memory.content u := Memory.content_replace_of_ne hut
        _ = a.record u := hcontent
        _ = a.record.put t c u := (Record.put_of_ne hut).symm
  deferred u e hue := by
    have hput : a.record.put t c u = .dependent e := hue
    rw [Record.filled_put hc]
    by_cases hut : u = t
    · subst hut
      rw [Record.put_self] at hput
      exact (he e hput).2.2.mono (Set.subset_insert _ _)
    · rw [Record.put_of_ne hut] at hput
      exact (h.deferred u e hput).mono (Set.subset_insert _ _)
  inForce := by
    rw [Record.filled_put hc]
    exact Set.insert_subset_insert h.inForce

end Agrees

/-! ## Actions on one record -/

section Actions

variable {owner : SlotId → FunctionId} {m : Memory} {bound : Nat} {o : FunctionId}
variable {live : List FunctionId} {Γ : Set SlotId}

/-- A value is stored or refused on both sides, since the slot has one kind. -/
theorem write_matches {t : SlotId} {v : Value} (ht : t < bound) (ho : owner t = o) :
    Matches (Agrees owner m bound o live Γ) (Evaluation.write t v) (write m t v)
      fun _ => Agrees owner m bound o live (insert t Γ) := by
  intro s a h
  have hput := h.put (c := .value v) ht ho nofun nofun
  -- The kind and the name of a slot are the same on both sides, and so is the fault.
  by_cases hv : (m.slot t).kind.accepts v.kind
  · have hs :
        Evaluation.write t v s = .ok () { s with memory := s.memory.replace t (.value v) } := by
      apply update_ok
      simp only [Memory.write, Value.expectKind, h.kind ht, hv, if_true]
      rfl
    have ha : write m t v a = .ok () { a with record := a.record.put t (.value v) } := by
      apply update_ok
      simp only [Value.expectKind, hv, if_true]
      rfl
    rw [hs, ha]
    exact .ok hput
  · let fault : Fault := .kindMismatch (.variable (m.slot t).name) (m.slot t).kind v.kind
    have hs : Evaluation.write t v s = .error fault s := by
      apply update_error
      simp only [Memory.write, Value.expectKind, h.kind ht, h.name ht, hv]
      rfl
    have ha : write m t v a = .error fault a := by
      apply update_error
      simp only [Value.expectKind, hv]
      rfl
    rw [hs, ha]
    exact .error h.printed

/-- The targets are written from left to right on both sides. -/
theorem writeTargets_matches {targets : List Reference} {v : Value}
    (ht : ∀ t ∈ targets, t.slot < bound ∧ owner t.slot = o) :
    Matches (Agrees owner m bound o live Γ) (Evaluation.writeTargets v targets)
      (writeTargets m v targets) fun _ => Agrees owner m bound o live Γ := by
  induction targets with
  | nil => exact Matches.pure fun _ _ h => h
  | cons t ts ih =>
      rw [List.forall_mem_cons] at ht
      -- A target is in force already, so nothing new comes into force.
      refine Matches.bind (write_matches ht.1.1 ht.1.2) fun _ => ?_
      exact (ih ht.2).weaken (fun _ _ h => h.mono (Set.subset_insert _ _)) fun _ _ _ h => h

theorem defer_matches {t : SlotId} {e : Expr} (ht : t < bound) (ho : owner t = o)
    (he : e.Local owner o) (hlt : e.SlotsIn (· < t)) (hΓ : e.Scoped Γ) :
    Matches (Agrees owner m bound o live Γ) (Evaluation.defer t e) (defer t e)
      fun _ => Agrees owner m bound o live (insert t Γ) := by
  intro s a h
  refine .ok (h.put ht ho nofun ?_)
  rintro _ ⟨⟩
  exact ⟨he, hlt, hΓ.mono h.inForce⟩

theorem ofExcept_matches {α : Type} (r : Except Fault α) :
    Matches (Agrees owner m bound o live Γ) (Effect.ofExcept r) (Effect.ofExcept r)
      fun _ => Agrees owner m bound o live Γ :=
  Matches.ofExcept (fun _ _ h => h.printed) fun _ _ _ _ h => h

theorem emit_matches {text : String} :
    Matches (Agrees owner m bound o live Γ) (Evaluation.emit text) (emit text)
      fun _ => Agrees owner m bound o live Γ := by
  intro s a h
  exact .ok { h with printed := congrArg (·.push text) h.printed }

/-- How the two evaluators follow stored expressions comes to the same, and the one over shared
slots keeps to the slots of the owner. -/
structure Follows (owner : SlotId → FunctionId) (m : Memory) (bound : Nat)
    (follow : Evaluation.Follow) (follow' : Follow) : Prop where
  same : ∀ {o live Γ mode e}, e.Local owner o → e.SlotsIn (· < bound) → e.Scoped Γ →
    Matches (Agrees owner m bound o live Γ) (follow mode e) (follow' live mode e)
      fun _ => Agrees owner m bound o live Γ
  confined : ∀ {o n mode e}, e.Local owner o → e.SlotsIn (· < n.slots.size) →
    Keeps (fun _ => True) (Evaluation.Confined owner o n) (follow mode e)

variable {follow : Evaluation.Follow} {follow' : Follow} {mode : Mode}

/-- A variable in force holds the same on both sides. Its initializer is evaluated in the scope of
all that has been set by then. -/
theorem read_matches (hfollow : Follows owner m bound follow follow') {r : Reference}
    (hr : r.slot ∈ Γ) :
    Matches (Agrees owner m bound o live Γ) (Evaluation.readWith follow mode r)
      (readWith follow' live mode r) fun _ => Agrees owner m bound o live Γ := by
  refine Matches.get_bind fun s a h => ?_
  rcases h.record r.slot (h.inForce hr) with ⟨hlt, ho, hcontent⟩
  rw [hcontent]
  cases hc : a.record r.slot with
  | uninitialized => exact absurd hc (h.inForce hr)
  | value v =>
      refine Matches.pure ?_
      rintro _ _ ⟨rfl, rfl⟩
      exact h
  | dependent e =>
      rcases h.coherent.deferred r.slot e (hcontent.trans hc) with ⟨hlocal, hslots⟩
      rw [ho] at hlocal
      have hbound : e.SlotsIn (· < bound) :=
        Expr.Every.imp hslots fun p hp t ht => Nat.lt_trans (hp t ht) hlt
      -- The scope in which it was deferred is part of what has been set since.
      have hscoped := h.deferred r.slot e hc
      refine (hfollow.same hlocal hbound hscoped).weaken ?_ fun _ _ _ h' => h'.mono h.inForce
      rintro _ _ ⟨rfl, rfl⟩
      exact { h with inForce := subset_rfl }

/-! ## Calls -/

/-- A call starts with nothing set and is one more live call of its function. -/
theorem Agrees.enter {s : Machine} {a : Activation} (h : Agrees owner m bound o live Γ s a)
    {id : FunctionId} {n : Memory} (hid : id < s.memory.functions.size)
    (hn : s.memory.enter id = .ok n) :
    Agrees owner m bound id (id :: live) ∅ { s with memory := n } { a with record := .empty } where
  printed := h.printed
  size := by rw [(Memory.enter_ok hn).2, Memory.slots_modifyFunction, h.size]
  shape t ht := by rw [(Memory.enter_ok hn).2, Memory.slot_modifyFunction, h.shape t ht]
  functions f := by
    rw [(Memory.enter_ok hn).2]
    by_cases hf : f = id
    · subst hf
      rw [Memory.function_modify_self hid, h.functions, List.count_cons_self]
    · rw [Memory.function_modify_of_ne hf, h.functions, List.count_cons_of_ne (Ne.symm hf)]
  coherent := by
    rw [(Memory.enter_ok hn).2]
    exact h.coherent.modifyDepth
  record _ ht := absurd rfl ht
  deferred _ _ := nofun
  inForce := Set.empty_subset _

/-- Slots that take any value are set on both sides. -/
theorem Agrees.writeAll {s : Machine} {a : Activation} (h : Agrees owner m bound o live Γ s a)
    {pairs : List (SlotId × Value)}
    (hp : ∀ p ∈ pairs, (p.1 < bound ∧ (m.slot p.1).kind = .dynamic) ∧ owner p.1 = o) :
    ∃ s', Evaluation.writeAll pairs s = .ok () s' ∧
      Agrees owner m bound o live (Γ ∪ {t | t ∈ pairs.map (·.1)}) s'
        { a with record := a.record.bind pairs } := by
  induction pairs generalizing s a Γ with
  | nil => exact ⟨s, rfl, h.mono (by simp)⟩
  | cons p pairs ih =>
      rw [List.forall_mem_cons] at hp
      have hput := h.put (c := .value p.2) hp.1.1.1 hp.1.2 nofun nofun
      have hwrite : Evaluation.write p.1 p.2 s =
          .ok () { s with memory := s.memory.replace p.1 (.value p.2) } := by
        apply update_ok
        simp only [Memory.write, Value.expectKind, h.kind hp.1.1.1, hp.1.1.2, Kind.accepts]
        rfl
      rcases ih hput hp.2 with ⟨s', hs', hagrees⟩
      refine ⟨s', (bind_ok hwrite).trans hs', hagrees.mono ?_⟩
      rintro t (ht | ht)
      · exact .inl (.inr ht)
      · rcases List.mem_cons.1 ht with rfl | ht
        · exact .inl (.inl rfl)
        · exact .inr ht

/-- A call returns to the storage and the record that it was made from. -/
theorem Agrees.returned {s t : Machine} {a : Activation} (h : Agrees owner m bound o live Γ s a)
    (hmemory : t.memory = s.memory) :
    Agrees owner m bound o live Γ t { a with printed := t.printed } where
  printed := rfl
  size := hmemory ▸ h.size
  shape := hmemory ▸ h.shape
  functions := hmemory ▸ h.functions
  coherent := hmemory ▸ h.coherent
  record := hmemory ▸ h.record
  deferred := h.deferred
  inForce := h.inForce

/-- A call whose parameters have been set does what its body does, and then restores. -/
theorem asCall_inFrame {s s' : Machine} {id : FunctionId} {f : Function} {n : Memory}
    {values : List Value} {body : Evaluation Value} (hn : s.memory.enter id = .ok n)
    (hs' : Evaluation.writeAll (f.parameterSlots.zip values) { s with memory := n } = .ok () s') :
    Evaluation.asCall id (Evaluation.inFrame f values body) s =
      ensuring (Evaluation.onMemory fun k => Memory.leave id (Memory.putBack (n.save f.frame) k))
        body s' := by
  have henter : update (fun s : Machine => do return { s with memory := ← s.memory.enter id }) s =
      .ok () { s with memory := n } := by
    apply update_ok
    simp only [hn]
    rfl
  have hbody : (Evaluation.writeAll (f.parameterSlots.zip values) >>= fun _ => body)
      { s with memory := n } = body s' := bind_ok hs'
  unfold Evaluation.asCall
  rw [bind_ok henter]
  show ensuring _ (ensuring _ (_ >>= fun _ => body)) { s with memory := n } = _
  simp only [ensuring, hbody]
  cases body s' <;> rfl

theorem asCall_overflow {s : Machine} {id : FunctionId} {fault : Fault} {body : Evaluation Value}
    (h : s.memory.enter id = .error fault) : Evaluation.asCall id body s = .error fault s := by
  refine bind_error (update_error ?_)
  rw [h]
  rfl

/-- A call that is not too deep sets its parameters in the slots of the function and in a new
record. -/
theorem Agrees.call {s : Machine} {a : Activation} (h : Agrees owner m bound o live Γ s a)
    (hm : Callable m bound) {id : FunctionId} {b : Expr} {n : Memory} {values : List Value}
    (hb : (m.function id).body = some b) (hn : s.memory.enter id = .ok n)
    (hlen : values.length = (m.function id).parameters.length) :
    ∃ s', Evaluation.writeAll ((m.function id).parameterSlots.zip values) { s with memory := n } =
        .ok () s' ∧
      Agrees owner m bound id (id :: live) {t | t ∈ (m.function id).parameterSlots} s'
        { a with record := Record.empty.bind ((m.function id).parameterSlots.zip values) } := by
  have hf := h.functions id
  have hbody : (s.memory.function id).body = some b := by rw [hf, hb]
  have hparameters : ∀ p ∈ (m.function id).parameterSlots.zip values,
      (p.1 < bound ∧ (m.slot p.1).kind = .dynamic) ∧ owner p.1 = id := by
    intro p hp
    have hslot := (List.of_mem_zip hp).1
    refine ⟨hm.parameters id b hb p.1 hslot, ?_⟩
    exact h.coherent.parameters id b hbody p.1 (hf ▸ hslot)
  -- There is a value for every parameter, so all of them are in force.
  have hslots : ∅ ∪ {t | t ∈ ((m.function id).parameterSlots.zip values).map (·.1)} =
      {t | t ∈ (m.function id).parameterSlots} := by
    rw [Set.empty_union, List.map_fst_zip]
    simp only [Function.parameterSlots, List.length_range', hlen, Nat.le_refl]
  rcases (h.enter (Memory.lt_size_of_body hbody) hn).writeAll hparameters with ⟨s', hs', hcallee⟩
  rw [hslots] at hcallee
  exact ⟨s', hs', hcallee⟩

/-- The body of a function runs in its slots as it runs in a new record. -/
theorem body_matches (hfollow : Follows owner m bound follow follow') (hm : Callable m bound)
    {id : FunctionId} {b : Expr} {values : List Value} (hb : (m.function id).body = some b)
    (hlen : values.length = (m.function id).parameters.length) :
    Matches (Agrees owner m bound o live Γ)
      (Evaluation.asCall id
        (Evaluation.inFrame { m.function id with depth := live.count id } values (follow mode b)))
      (if callLimit ≤ live.count id then throw (.stackOverflow (m.function id).name)
        else inRecord (Record.empty.bind ((m.function id).parameterSlots.zip values))
          (follow' (id :: live) mode b))
      fun _ => Agrees owner m bound o live Γ := by
  intro s a h
  have hf := h.functions id
  have hbody : (s.memory.function id).body = some b := by rw [hf, hb]
  by_cases hlimit : callLimit ≤ live.count id
  · -- As many calls are counted as there are records alive.
    have henter : s.memory.enter id = .error (.stackOverflow (m.function id).name) := by
      simp only [Memory.enter, hf, hlimit, if_true]
    rw [if_pos hlimit, asCall_overflow henter]
    exact .error h.printed
  · have henter : s.memory.enter id =
        .ok (s.memory.modifyFunction id fun f => { f with depth := f.depth + 1 }) := by
      simp only [Memory.enter, hf, hlimit, if_false]
    rw [if_neg hlimit]
    rcases h.call hm hb henter hlen with ⟨s', hs', hcallee⟩
    -- Inside, the two evaluators agree on the body; outside, the call has left no trace.
    rcases h.coherent.body id b hbody with ⟨hlocal, hbound⟩
    have hsame : SameOutcome (fun _ => Agrees owner m bound id (id :: live) _) (follow mode b s')
        (follow' (id :: live) mode b
          { a with record := Record.empty.bind ((m.function id).parameterSlots.zip values) }) :=
      hfollow.same hlocal (h.size ▸ hbound) (hm.inScope id b hb) s' _ hcallee
    have hunchanged : Keeps (fun _ => True) (fun t => t.memory = s.memory)
        (Evaluation.asCall id
          (Evaluation.inFrame (s.memory.function id) values (follow mode b))) := by
      apply Evaluation.asCall_unchanged (fun _ _ => trivial) h.coherent hbody
      intro n hn
      apply hfollow.confined hlocal
      rwa [(Memory.enter_ok hn).2, Memory.slots_modifyFunction]
    have hrestored := hunchanged s rfl
    rw [hf] at hrestored
    rw [asCall_inFrame (f := { m.function id with depth := live.count id }) henter hs']
      at hrestored ⊢
    unfold ensuring at hrestored ⊢
    unfold inRecord
    revert hsame hrestored
    generalize follow mode b s' = r
    generalize follow' (id :: live) mode b _ = r'
    intro hsame hrestored
    cases hsame with
    | ok hq =>
        have hback := h.returned hrestored
        exact .ok (hq.printed ▸ hback)
    | error hprinted => exact .error hprinted

/-- A call has the same outcome over shared slots and in a record of its own. -/
theorem call_matches (hfollow : Follows owner m bound follow follow') (hm : Callable m bound)
    {id : FunctionId} {count : Nat} {arguments : Evaluation (List Value)}
    {arguments' : Action (List Value)}
    (harguments : Matches (Agrees owner m bound o live Γ) arguments arguments'
      fun vs s a => vs.length = count ∧ Agrees owner m bound o live Γ s a) :
    Matches (Agrees owner m bound o live Γ) (Evaluation.callWith follow mode id count arguments)
      (callWith m follow' live mode id count arguments') fun _ =>
        Agrees owner m bound o live Γ := by
  intro s a h
  -- The function is looked up before the arguments are evaluated, and they leave it as it is.
  rw [Evaluation.callWith_lookup, h.functions id]
  have harity :
      Matches (Agrees owner m bound o live Γ) (Effect.ofExcept ((m.function id).checkArity count))
        (Effect.ofExcept ((m.function id).checkArity count))
        fun _ s a => (m.function id).parameters.length = count ∧
          Agrees owner m bound o live Γ s a := by
    refine Matches.ofExcept (fun _ _ h => h.printed) fun _ s a hok h => ⟨?_, h⟩
    by_contra hne
    rw [Function.checkArity, if_neg hne] at hok
    cases hok
  refine Matches.bind harity (fun _ => Matches.assume fun hcount => ?_) s a h
  refine Matches.bind harguments fun values => Matches.assume fun hlen => ?_
  cases hb : (m.function id).body with
  | none => exact Matches.throw fun _ _ h => h.printed
  | some b => exact body_matches hfollow hm hb (hlen.trans hcount.symm)

/-! ## One level of evaluation -/

/-- Operands in a list agree if each of them does. There are as many values as operands. -/
theorem argumentsWith_matches {es : List Expr}
    (hes : ∀ e ∈ es, Matches (Agrees owner m bound o live Γ)
      (Evaluation.evaluateWith follow .probe e)
      (evaluateWith m follow' live .probe e) fun _ => Agrees owner m bound o live Γ) :
    Matches (Agrees owner m bound o live Γ) (Evaluation.argumentsWith follow es)
      (argumentsWith m follow' live es)
      fun vs s a => vs.length = es.length ∧ Agrees owner m bound o live Γ s a := by
  -- From left to right, each in the state that the ones before it leave.
  induction es with
  | nil => exact Matches.pure fun _ _ h => ⟨rfl, h⟩
  | cons e es ih =>
      rw [List.forall_mem_cons] at hes
      refine Matches.bind hes.1 fun v => Matches.bind (ih hes.2) fun vs => Matches.pure ?_
      intro s a h
      exact ⟨congrArg (· + 1) h.1, h.2⟩

/-- Bindings agree if their initializers do. They come into force one by one. -/
theorem bindWith_matches {ds : List (Declaration Expr)}
    (hds : ∀ d ∈ ds, ∀ Γ, d.initializer.Scoped Γ → Matches (Agrees owner m bound o live Γ)
      (Evaluation.evaluateWith follow mode d.initializer)
      (evaluateWith m follow' live mode d.initializer) fun _ => Agrees owner m bound o live Γ)
    (hlocal : ∀ d ∈ ds, d.initializer.Local owner o ∧ d.initializer.SlotsIn (· < d.slot))
    (hslot : ∀ d ∈ ds, d.slot < bound ∧ owner d.slot = o)
    (hΓ : Expr.ScopedBindings Γ ds) :
    Matches (Agrees owner m bound o live Γ) (Evaluation.bindWith follow mode ds)
      (bindWith m follow' live mode ds)
      fun _ => Agrees owner m bound o live (Γ ∪ {t | ∃ d ∈ ds, d.slot = t}) := by
  induction ds generalizing Γ with
  | nil => exact Matches.pure fun _ _ h => h.mono (by simp)
  | cons d ds ih =>
      rw [List.forall_mem_cons] at hds hlocal hslot
      have hrest := ih hds.2 hlocal.2 hslot.2 hΓ.2
      -- The slots of the rest together with this one are those of all the declarations.
      have hall : Matches (Agrees owner m bound o live (insert d.slot Γ))
          (Evaluation.bindWith follow mode ds) (bindWith m follow' live mode ds)
          fun _ => Agrees owner m bound o live (Γ ∪ {t | ∃ d' ∈ d :: ds, d'.slot = t}) := by
        refine hrest.weaken (fun _ _ h => h) fun _ s a h => h.mono ?_
        rintro t (ht | ⟨d', hd', rfl⟩)
        · exact .inl (.inr ht)
        · rcases List.mem_cons.1 hd' with rfl | hd'
          · exact .inl (.inl rfl)
          · exact .inr ⟨d', hd', rfl⟩
      rcases d with ⟨name, slot, kind, initializer, dependent⟩
      cases dependent with
      | true =>
          refine Matches.bind ?_ fun _ => hall
          exact defer_matches hslot.1.1 hslot.1.2 hlocal.1.1 hlocal.1.2 hΓ.1
      | false =>
          refine Matches.bind (hds.1 Γ hΓ.1) fun v => ?_
          exact Matches.bind (write_matches hslot.1.1 hslot.1.2) fun _ => hall

/-- One level of evaluation agrees if what it follows does. -/
theorem evaluateWith_matches (hfollow : Follows owner m bound follow follow')
    (hm : Callable m bound) {e : Expr} (hS : e.SlotsIn fun t => t < bound ∧ owner t = o)
    (hD : e.Binds fun d => d.initializer.Local owner o ∧ d.initializer.SlotsIn (· < d.slot))
    (hΓ : e.Scoped Γ) :
    Matches (Agrees owner m bound o live Γ) (Evaluation.evaluateWith follow mode e)
      (evaluateWith m follow' live mode e) fun _ => Agrees owner m bound o live Γ := by
  induction e using Expr.induction generalizing mode Γ with
  | literal v => exact Matches.pure fun _ _ h => h
  | read r => exact read_matches hfollow hΓ
  | declaration name f => exact Matches.pure fun _ _ h => h
  | unary op e ih =>
      simp only [Expr.SlotsIn, Expr.Binds, Expr.every_unary] at hS hD
      exact Matches.bind (ih hS.2 hD.2 hΓ) fun v => ofExcept_matches (op.apply v)
  | binary op l r ihl ihr =>
      simp only [Expr.SlotsIn, Expr.Binds, Expr.every_binary] at hS hD
      refine Matches.bind (ihl hS.2.1 hD.2.1 hΓ.1) fun v => ?_
      refine Matches.bind (ofExcept_matches (op.decided? v)) fun d => ?_
      cases d with
      | some w => exact Matches.pure fun _ _ h => h
      | none =>
          exact Matches.bind (ihr hS.2.2 hD.2.2 hΓ.2) fun w => ofExcept_matches (op.apply v w)
  | assign ts e ih =>
      simp only [Expr.SlotsIn, Expr.Binds, Expr.every_assign] at hS hD
      refine Matches.bind (ih hS.2 hD.2 hΓ.2) fun v => ?_
      cases mode with
      | run =>
          refine Matches.bind (writeTargets_matches ?_) fun _ => Matches.pure fun _ _ h => h
          exact fun t ht => hS.1 t.slot (List.mem_map_of_mem ht)
      | probe => exact Matches.pure fun _ _ h => h
  | call name f as dependent ih =>
      simp only [Expr.SlotsIn, Expr.Binds, Expr.every_call] at hS hD
      -- Arguments are evaluated in the caller's record, the body in one of its own.
      apply call_matches hfollow hm
      apply argumentsWith_matches
      intro a ha
      exact ih a ha (hS.2 a ha) (hD.2 a ha) (Expr.scopedAll_iff.1 hΓ a ha)
  | print e ih =>
      simp only [Expr.SlotsIn, Expr.Binds, Expr.every_print] at hS hD
      refine Matches.bind (ih hS.2 hD.2 hΓ) fun v => ?_
      cases mode with
      | run => exact Matches.bind emit_matches fun _ => Matches.pure fun _ _ h => h
      | probe => exact Matches.pure fun _ _ h => h
  | letIn ds b ihd ihb =>
      simp only [Expr.SlotsIn, Expr.Binds, Expr.every_letIn] at hS hD
      refine Matches.bind (bindWith_matches ?_ hD.1 ?_ hΓ.1) fun _ => ?_
      · intro d hd Δ hΔ
        exact ihd d hd (hS.2.1 d hd) (hD.2.1 d hd) hΔ
      · exact fun d hd => hS.1 d.slot (List.mem_map_of_mem hd)
      · -- What the bindings brought into force stays set, but is out of scope again.
        refine (ihb hS.2.2 hD.2.2 hΓ.2).weaken (fun _ _ h => h) fun _ _ _ h => ?_
        exact h.mono Set.subset_union_left
  | conditional c t e ihc iht ihe =>
      simp only [Expr.SlotsIn, Expr.Binds, Expr.every_conditional] at hS hD
      refine Matches.bind (ihc hS.2.1 hD.2.1 hΓ.1) fun v => ?_
      refine Matches.bind (ofExcept_matches (v.asBoolean .condition)) fun b => ?_
      cases b with
      | true => exact iht hS.2.2.1 hD.2.2.1 hΓ.2.1
      | false => exact ihe hS.2.2.2 hD.2.2.2 hΓ.2.2

/-- Both evaluators follow stored expressions to the same depth, so they agree at every depth. -/
theorem evaluateWithin_follows (hm : Callable m bound) (n : Nat) :
    Follows owner m bound (Evaluation.evaluateWithin n) (evaluateWithin m n) := by
  induction n with
  | zero =>
      refine ⟨fun _ _ _ => ?_, Evaluation.evaluateWithin_confined 0⟩
      exact Matches.throw fun _ _ h => h.printed
  | succ n ih =>
      refine ⟨fun he hb hΓ => evaluateWith_matches ih hm ?_ he.binds hΓ,
        Evaluation.evaluateWithin_confined (n + 1)⟩
      exact Expr.Every.imp (hb.and he.slots) fun p hp t ht => ⟨hp.1 t ht, hp.2 t ht⟩

/-- Over two storages that agree with one record an expression has the same outcome. One of them may
have more slots. -/
theorem evaluate_both {bound' : Nat} {n k : Memory} {a : Activation} {e : Expr}
    (hm : Callable m bound) (hle : bound ≤ bound')
    (hn : Agrees owner m bound o [] Γ { memory := n } a)
    (hk : Agrees owner m bound' o [] Γ { memory := k } a) (he : e.Local owner o)
    (hb : e.SlotsIn (· < bound)) (hΓ : e.Scoped Γ) (mode : Mode) :
    (∃ v s s' a', Evaluation.evaluate mode e { memory := n } = .ok v s ∧
      Evaluation.evaluate mode e { memory := k } = .ok v s' ∧
        Agrees owner m bound o [] Γ s a' ∧ Agrees owner m bound' o [] Γ s' a') ∨
      ∃ fault s s', Evaluation.evaluate mode e { memory := n } = .error fault s ∧
        Evaluation.evaluate mode e { memory := k } = .error fault s' ∧ s.printed = s'.printed := by
  have hb' : e.SlotsIn (· < bound') :=
    Expr.Every.imp hb fun p hp t ht => Nat.lt_of_lt_of_le (hp t ht) hle
  have hsize : n.slots.size = bound := hn.size
  have hsize' : k.slots.size = bound' := hk.size
  -- Both are followed as deep as the one with more slots may have to be.
  let depth := max (Evaluation.depthBound n) (Evaluation.depthBound k)
  have hneq : Evaluation.evaluateWithin depth mode e { memory := n } =
      Evaluation.evaluate mode e { memory := n } :=
    Evaluation.evaluateWithin_eq_evaluate hn.coherent he (hsize ▸ hb) (Nat.le_max_left _ _)
  have hkeq : Evaluation.evaluateWithin depth mode e { memory := k } =
      Evaluation.evaluate mode e { memory := k } :=
    Evaluation.evaluateWithin_eq_evaluate hk.coherent he (hsize' ▸ hb') (Nat.le_max_right _ _)
  rw [← hneq, ← hkeq]
  have hfollows : Follows owner m bound _ _ := evaluateWithin_follows hm depth
  have hfollows' : Follows owner m bound' _ _ := evaluateWithin_follows (hm.mono hle) depth
  exact (hfollows.same he hb hΓ _ _ hn).join (hfollows'.same he hb' hΓ _ _ hk)

end Actions

end Activation
end LineLang
