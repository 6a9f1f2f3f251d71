import LineLang.Evaluation
import LineLang.Proofs.Effect
import LineLang.Proofs.Expr
import LineLang.Proofs.Memory
import LineLang.Proofs.Operator

/-!
# Ownership of slots

Every slot belongs to one function, or to the instruction that is carried out. An expression only
touches slots of its owner, and a call puts back the slots of the function, so that evaluation
changes nothing that belongs to others.

- `Expr.Local`                     : an expression that keeps to the slots of one owner
- `Memory.Coherent`                : what is stored respects the owners of the slots
- `Evaluation.evaluateWith_keeps`  : what one level of evaluation keeps
- `Evaluation.asCall_unchanged`    : a call leaves the storage as it was
-/

namespace LineLang

open Effect

/-! ## Expressions of one owner -/

namespace Expr

/-- All slots belong to `o`, and an initializer only uses slots before its own. -/
structure Local (owner : SlotId → FunctionId) (o : FunctionId) (e : Expr) : Prop where
  slots : e.SlotsIn (owner · = o)
  ordered : e.Binds fun d => d.initializer.SlotsIn (· < d.slot)

theorem Local.part {owner : SlotId → FunctionId} {o : FunctionId} {e p : Expr}
    (h : e.Local owner o) (hp : p ∈ e.parts) : p.Local owner o :=
  ⟨Every.part h.slots hp, Every.part h.ordered hp⟩

/-- Initializers have the same owner. -/
theorem Local.binds {owner : SlotId → FunctionId} {o : FunctionId} {e : Expr}
    (h : e.Local owner o) :
    e.Binds fun d => d.initializer.Local owner o ∧ d.initializer.SlotsIn (· < d.slot) :=
  fun p hp d hd => ⟨(h.part hp).part (initializer_mem_parts hd), h.ordered p hp d hd⟩

end Expr

/-! ## Coherent storage -/

namespace Memory

/-- Initializers in slots and bodies of functions keep to the slots of their owners, and the frame
of a function covers what belongs to it. -/
structure Coherent (owner : SlotId → FunctionId) (m : Memory) : Prop where
  deferred : ∀ t e, m.content t = .dependent e →
    e.Local owner (owner t) ∧ e.SlotsIn (· < t)
  body : ∀ f b, (m.function f).body = some b →
    b.Local owner f ∧ b.SlotsIn (· < m.slots.size)
  frame : ∀ f b, (m.function f).body = some b →
    ∀ t, owner t = f → t < m.slots.size → t ∈ (m.function f).frame
  parameters : ∀ f b, (m.function f).body = some b →
    ∀ t ∈ (m.function f).parameterSlots, owner t = f

namespace Coherent

variable {owner : SlotId → FunctionId} {m : Memory} {i : SlotId}

/-- An initializer may be left in a slot if it keeps to older slots of the same owner. -/
theorem replace {c : Content} (h : m.Coherent owner)
    (hc : ∀ e, c = .dependent e → e.Local owner (owner i) ∧ e.SlotsIn (· < i)) :
    (m.replace i c).Coherent owner where
  deferred t e ht := by
    rcases content_replace m i t c with h' | ⟨rfl, h'⟩
    · exact h.deferred t e (h' ▸ ht)
    · exact hc e (h' ▸ ht)
  body f b hb := by simpa using h.body f b hb
  frame f b hb t ht hs := h.frame f b hb t ht (by simpa using hs)
  parameters f b hb := h.parameters f b hb

/-- The owners only have to do with slots, bodies and frames. -/
theorem of_same {n : Memory} (h : m.Coherent owner) (hslots : n.slots = m.slots)
    (hf : ∀ f, (n.function f).body = (m.function f).body ∧
      (n.function f).frame = (m.function f).frame ∧
      (n.function f).parameterSlots = (m.function f).parameterSlots) : n.Coherent owner := by
  have hslot : ∀ t, n.slot t = m.slot t := fun t => by simp only [Memory.slot, hslots]
  refine ⟨fun t e ht => ?_, fun f b hb => ?_, fun f b hb => ?_, fun f b hb => ?_⟩
  · rw [content, hslot] at ht
    exact h.deferred t e ht
  · rw [(hf f).1] at hb
    rw [hslots]
    exact h.body f b hb
  · rw [(hf f).1] at hb
    rw [hslots, (hf f).2.1]
    exact h.frame f b hb
  · rw [(hf f).1] at hb
    rw [(hf f).2.2]
    exact h.parameters f b hb

/-- Counting calls does not matter to the owners. -/
theorem modifyDepth {id : FunctionId} {g : Function → Nat} (h : m.Coherent owner) :
    (m.modifyFunction id fun f => { f with depth := g f }).Coherent owner := by
  refine h.of_same rfl fun f => ?_
  by_cases hid : f = id
  · subst hid
    by_cases hs : f < m.functions.size
    · rw [function_modify_self hs]
      exact ⟨rfl, rfl, rfl⟩
    · rw [function_of_size_le (by simpa using hs), function_of_size_le (by simpa using hs)]
      exact ⟨rfl, rfl, rfl⟩
  · rw [function_modify_of_ne hid]
    exact ⟨rfl, rfl, rfl⟩

end Coherent
end Memory

/-! ## One level of evaluation -/

namespace Evaluation

variable {follow : Follow} {G : Fault → Prop} {I : Machine → Prop}
variable {S : SlotId → Prop} {D : Declaration Expr → Prop}

/-- Evaluation touches the machine in five ways only. Each of them keeps `I` on slots in `S` and on
bindings in `D`, and fails only with `G`. -/
structure Safe (follow : Follow) (G : Fault → Prop) (I : Machine → Prop) (S : SlotId → Prop)
    (D : Declaration Expr → Prop) : Prop where
  fault : ∀ fault, fault ≠ .endless → G fault
  read : ∀ mode r, S r.slot → Keeps G I (readWith follow mode r)
  write : ∀ t v, S t → Keeps G I (write t v)
  defer : ∀ d, D d → S d.slot → d.dependent = true → Keeps G I (defer d.slot d.initializer)
  emit : ∀ text, Keeps G I (emit text)
  call : ∀ mode id count arguments, Keeps G I arguments →
    Keeps G I (callWith follow mode id count arguments)

/-- Writing is safe for each of the targets. -/
theorem writeTargets_keeps (h : Safe follow G I S D) (v : Value) {targets : List Reference}
    (ht : ∀ t ∈ targets, S t.slot) : Keeps G I (writeTargets v targets) := by
  induction targets with
  | nil => exact Keeps.pure
  | cons t ts ih =>
      rw [List.forall_mem_cons] at ht
      exact Keeps.bind (h.write t.slot v ht.1) fun _ => ih ht.2

/-- Arguments one after another. -/
theorem argumentsWith_keeps {arguments : List Expr}
    (h : ∀ a ∈ arguments, ∀ mode, Keeps G I (evaluateWith follow mode a)) :
    Keeps G I (argumentsWith follow arguments) := by
  induction arguments with
  | nil => exact Keeps.pure
  | cons a as ih =>
      rw [List.forall_mem_cons] at h
      exact Keeps.bind (h.1 .probe) fun _ => Keeps.bind (ih h.2) fun _ => Keeps.pure

/-- Bindings one after another, each filled at once or left for later. -/
theorem bindWith_keeps (h : Safe follow G I S D) (mode : Mode) {ds : List (Declaration Expr)}
    (hds : ∀ d ∈ ds, ∀ mode, Keeps G I (evaluateWith follow mode d.initializer))
    (hS : ∀ d ∈ ds, S d.slot) (hD : ∀ d ∈ ds, D d) : Keeps G I (bindWith follow mode ds) := by
  induction ds with
  | nil => exact Keeps.pure
  | cons d ds ih =>
      rw [List.forall_mem_cons] at hds hS hD
      have hrest := ih hds.2 hS.2 hD.2
      rcases d with ⟨name, slot, kind, initializer, dependent⟩
      cases dependent with
      | true => exact Keeps.bind (h.defer _ hD.1 hS.1 rfl) fun _ => hrest
      | false =>
          exact Keeps.bind (hds.1 mode) fun v => Keeps.bind (h.write slot v hS.1) fun _ => hrest

/-- What the five ways keep, evaluation keeps. -/
theorem evaluateWith_keeps (h : Safe follow G I S D) {e : Expr} (hS : e.SlotsIn S)
    (hD : e.Binds D) (mode : Mode) : Keeps G I (evaluateWith follow mode e) := by
  -- Operators do not touch the machine, and their faults are all allowed.
  have hop : ∀ fault : Fault, fault.OfOperator → G fault :=
    fun fault hf => h.fault fault hf.ne_endless
  induction e using Expr.induction generalizing mode with
  | literal v => exact Keeps.pure
  | read r => exact h.read mode r (hS.self r.slot (List.mem_singleton.2 rfl))
  | declaration name f => exact Keeps.pure
  | unary op e ih =>
      simp only [Expr.SlotsIn, Expr.Binds, Expr.every_unary] at hS hD
      simp only [evaluateWith]
      refine Keeps.bind (ih hS.2 hD.2 mode) fun v => Keeps.ofExcept fun fault hf => hop fault ?_
      have hm := op.apply_meets v
      rw [hf] at hm
      exact hm
  | binary op l r ihl ihr =>
      simp only [Expr.SlotsIn, Expr.Binds, Expr.every_binary] at hS hD
      simp only [evaluateWith]
      refine Keeps.bind (ihl hS.2.1 hD.2.1 mode) fun v => ?_
      refine Keeps.bind (Keeps.ofExcept fun fault hf => hop fault (op.decided?_error hf)) ?_
      intro d
      cases d with
      | some w => exact Keeps.pure
      | none =>
          refine Keeps.bind (ihr hS.2.2 hD.2.2 mode) fun w => Keeps.ofExcept fun fault hf => ?_
          have hm := op.apply_meets v w
          rw [hf] at hm
          exact hop fault hm
  | assign ts e ih =>
      simp only [Expr.SlotsIn, Expr.Binds, Expr.every_assign] at hS hD
      simp only [evaluateWith]
      refine Keeps.bind (ih hS.2 hD.2 mode) fun v => ?_
      cases mode with
      | run =>
          have hts : ∀ t ∈ ts, S t.slot := fun t ht => hS.1 t.slot (List.mem_map_of_mem ht)
          exact Keeps.bind (writeTargets_keeps h v hts) fun _ => Keeps.pure
      | probe => exact Keeps.pure
  | call name f as dependent ih =>
      simp only [Expr.SlotsIn, Expr.Binds, Expr.every_call] at hS hD
      simp only [evaluateWith]
      apply h.call
      apply argumentsWith_keeps
      intro a ha mode
      exact ih a ha (hS.2 a ha) (hD.2 a ha) mode
  | print e ih =>
      simp only [Expr.SlotsIn, Expr.Binds, Expr.every_print] at hS hD
      simp only [evaluateWith]
      refine Keeps.bind (ih hS.2 hD.2 mode) fun v => ?_
      cases mode with
      | run => exact Keeps.bind (h.emit v.display) fun _ => Keeps.pure
      | probe => exact Keeps.pure
  | letIn ds b ihd ihb =>
      simp only [Expr.SlotsIn, Expr.Binds, Expr.every_letIn] at hS hD
      simp only [evaluateWith]
      refine Keeps.bind ?_ fun _ => ihb hS.2.2 hD.2.2 mode
      apply bindWith_keeps h mode
      · intro d hd mode
        exact ihd d hd (hS.2.1 d hd) (hD.2.1 d hd) mode
      · exact fun d hd => hS.1 d.slot (List.mem_map_of_mem hd)
      · exact hD.1
  | conditional c t e ihc iht ihe =>
      simp only [Expr.SlotsIn, Expr.Binds, Expr.every_conditional] at hS hD
      simp only [evaluateWith]
      refine Keeps.bind (ihc hS.2.1 hD.2.1 mode) fun v => ?_
      refine Keeps.bind (Keeps.ofExcept fun fault hf => hop fault (Value.asBoolean_error hf))
        fun b => ?_
      cases b with
      | true => exact iht hS.2.2.1 hD.2.2.1 mode
      | false => exact ihe hS.2.2.2 hD.2.2.2 mode

/-! ## Calls -/

/-- A value is stored where the kind of the slot accepts it. Otherwise nothing changes. -/
theorem triple_write {P : Machine → Prop} {Q : Unit → Machine → Prop} {E : Fault → Machine → Prop}
    {t : SlotId} {v : Value}
    (hok : ∀ s, P s → (s.memory.slot t).kind.accepts v.kind →
      Q () { s with memory := s.memory.replace t (.value v) })
    (herror : ∀ s site expected received, P s → E (.kindMismatch site expected received) s) :
    Triple P (write t v) Q E := by
  apply Triple.update
  · intro s s' hs h
    cases hw : s.memory.write t v with
    | ok n =>
        rw [hw] at h
        cases h
        rcases Memory.write_ok hw with ⟨rfl, ha⟩
        exact hok s hs ha
    | error fault =>
        rw [hw] at h
        cases h
  · intro s fault hs h
    cases hw : s.memory.write t v with
    | ok n =>
        rw [hw] at h
        cases h
    | error fault' =>
        rw [hw] at h
        cases h
        rw [Memory.write_error hw]
        exact herror s _ _ _ hs

theorem writeAll_keeps {pairs : List (SlotId × Value)}
    (h : ∀ p ∈ pairs, Keeps G I (write p.1 p.2)) : Keeps G I (writeAll pairs) := by
  induction pairs with
  | nil => exact Keeps.pure
  | cons p pairs ih =>
      rw [List.forall_mem_cons] at h
      exact Keeps.bind h.1 fun _ => ih h.2

/-- The storage is coherent and, but for the slots of `o`, the one that evaluation started from. -/
def Confined (owner : SlotId → FunctionId) (o : FunctionId) (m : Memory) (s : Machine) : Prop :=
  s.memory.Coherent owner ∧ m.UnchangedOutside (owner · = o) s.memory

/-- Writing to a slot of the owner is confined to that owner. -/
theorem write_confined {owner : SlotId → FunctionId} {o : FunctionId} {m : Memory} {t : SlotId}
    {v : Value} (hG : ∀ fault, fault ≠ .endless → G fault) (ht : owner t = o) :
    Keeps G (Confined owner o m) (write t v) := by
  apply triple_write
  · intro s hs _
    refine ⟨hs.1.replace nofun, hs.2.trans ?_⟩
    exact Memory.UnchangedOutside.replace (S := (owner · = o)) ht _
  · intro s site expected received hs
    exact ⟨hG _ nofun, hs⟩

/-- Whatever was done to the slots of an owner, putting back a frame that covers them undoes it. -/
theorem putBack_of_confined {owner : SlotId → FunctionId} {o : FunctionId} {m : Memory}
    {frame : List SlotId} {s : Machine} (hframe : ∀ t, owner t = o → t < m.slots.size → t ∈ frame)
    (hs : Confined owner o m s) : Memory.putBack (m.save frame) s.memory = m := by
  -- Outside of the owner's slots and the frame, neither the actions nor putting back changed
  -- anything.
  have hput : m.UnchangedOutside (fun t => owner t = o ∨ t ∈ frame)
      (Memory.putBack (m.save frame) s.memory) := by
    apply (hs.2.mono fun _ => .inl).trans
    apply Memory.unchangedOutside_putBack
    intro p hp
    rcases List.mem_map.1 hp with ⟨t, ht, rfl⟩
    exact .inr ht
  apply hput.eq
  intro t ht
  by_cases hlt : t < m.slots.size
  · apply Memory.content_putBack_save _ (hs.2.size ▸ hlt)
    rcases ht with ht | ht
    · exact hframe t ht hlt
    · exact ht
  · -- There is no such slot on either side.
    have h₁ := Memory.slot_of_size_le (m := m) (Nat.le_of_not_lt hlt)
    have h₂ := Memory.slot_of_size_le (hput.size ▸ Nat.le_of_not_lt hlt)
    simp only [Memory.content, h₁, h₂]

/-- Entering a call succeeds below the limit and leaves the storage alone otherwise. -/
theorem triple_enter {m : Memory} {id : FunctionId} :
    Triple (fun s : Machine => s.memory = m)
      (Effect.update fun s => do return { s with memory := ← s.memory.enter id })
      (fun _ s => m.enter id = .ok s.memory) (fun fault s => fault ≠ .endless ∧ s.memory = m) := by
  apply Triple.update
  · intro s s' hs h
    subst hs
    cases he : s.memory.enter id with
    | ok n =>
        rw [he] at h
        cases h
        rfl
    | error fault =>
        rw [he] at h
        cases h
  · intro s fault hs h
    subst hs
    cases he : s.memory.enter id with
    | ok n =>
        rw [he] at h
        cases h
    | error fault' =>
        rw [he] at h
        cases h
        rw [(Memory.enter_error he).2]
        exact ⟨nofun, rfl⟩

/-- A call leaves the storage as it was, if the body is confined to the slots of the function. -/
theorem asCall_unchanged {owner : SlotId → FunctionId} {m : Memory} {id : FunctionId} {b : Expr}
    {values : List Value} {body : Evaluation Value} (hG : ∀ fault, fault ≠ .endless → G fault)
    (hm : m.Coherent owner) (hb : (m.function id).body = some b)
    (hbody : ∀ n, m.enter id = .ok n → Keeps G (Confined owner id n) body) :
    Keeps G (fun s => s.memory = m) (asCall id (inFrame (m.function id) values body)) := by
  refine Triple.bind (triple_enter.weaken (fun _ h => h) (fun _ _ h => h)
    fun fault _ h => ⟨hG fault h.1, h.2⟩) fun _ => Triple.ensuring ?_
  apply Triple.get_bind
  intro s hs
  have hn : s.memory.Coherent owner := by
    rw [(Memory.enter_ok hs).2]
    exact hm.modifyDepth
  have hsize : s.memory.slots.size = m.slots.size := by
    rw [(Memory.enter_ok hs).2]
    rfl
  have hrun : Keeps G (Confined owner id s.memory)
      (writeAll ((m.function id).parameterSlots.zip values) >>= fun _ => body) := by
    refine Keeps.bind (writeAll_keeps fun p hp => ?_) fun _ => hbody s.memory hs
    exact write_confined hG (hm.parameters id b hb p.1 (List.of_mem_zip hp).1)
  -- The frame is put back and the call is no longer counted, on success and on failure alike.
  have hback : ∀ t, Confined owner id s.memory t →
      Memory.leave id (Memory.putBack (s.memory.save (m.function id).frame) t.memory) = m := by
    intro t ht
    rw [putBack_of_confined (fun x hx hlt => hm.frame id b hb x hx (hsize ▸ hlt)) ht,
      Memory.leave_enter hs]
  apply Triple.ensuring
  apply hrun.weaken
  · rintro _ rfl
    exact ⟨hn, .refl _⟩
  · exact fun _ t ht => hback t ht
  · exact fun fault t ht => ⟨ht.1, hback t ht.2⟩

/-- The function is looked up before the arguments are evaluated. -/
theorem callWith_lookup {mode : Mode} {id : FunctionId} {count : Nat}
    {arguments : Evaluation (List Value)} {s : Machine} :
    callWith follow mode id count arguments s =
      (ofExcept ((s.memory.function id).checkArity count) >>= fun _ =>
        arguments >>= fun vs =>
          match (s.memory.function id).body with
          | none => throw (.incomplete (s.memory.function id).name)
          | some b => asCall id (inFrame (s.memory.function id) vs (follow mode b))) s :=
  rfl

/-- A call keeps what its arguments keep of the storage, because the storage is the same again after
it. -/
theorem callWith_keeps {owner : SlotId → FunctionId} {o : FunctionId} {m : Memory} {mode : Mode}
    {id : FunctionId} {count : Nat} {arguments : Evaluation (List Value)}
    (hG : ∀ fault, fault ≠ .endless → G fault) (hI : ∀ s, I s → Confined owner o m s)
    (hmemory : ∀ s t : Machine, t.memory = s.memory → I s → I t) (harguments : Keeps G I arguments)
    (hbody : ∀ (s : Machine) b n, I s → (m.function id).body = some b →
      s.memory.enter id = .ok n → Keeps G (Confined owner id n) (follow mode b)) :
    Keeps G I (callWith follow mode id count arguments) := by
  apply Triple.get_bind
  intro s₀ hs₀
  have hid : s₀.memory.function id = m.function id := (hI s₀ hs₀).2.function id
  refine Triple.weaken (P := I) ?_ ?_ (fun _ _ h => h) fun _ _ h => h
  · refine Keeps.bind (Keeps.ofExcept fun fault hf => ?_) fun _ =>
      Keeps.bind harguments fun values => ?_
    · unfold Function.checkArity at hf
      split at hf <;> cases hf
      exact hG _ nofun
    · rw [hid]
      cases hb : (m.function id).body with
      | none => exact Keeps.throw (hG _ nofun)
      | some b =>
          intro s hs
          have hfun := (hI s hs).2.function id
          have hbs : (s.memory.function id).body = some b := by rw [hfun, hb]
          -- Whatever the body does to the storage is undone when the call returns.
          have hcall : Keeps G (fun t => t.memory = s.memory)
              (asCall id (inFrame (s.memory.function id) values (follow mode b))) :=
            asCall_unchanged hG (hI s hs).1 hbs fun n hn => hbody s b n hs hb hn
          rw [hfun] at hcall
          exact hcall.weaken (fun _ h => h)
            (fun _ t (ht : t.memory = s.memory) => hmemory s t ht hs)
            (fun _ t ht => ⟨ht.1, hmemory s t ht.2 hs⟩) s rfl
  · rintro _ rfl
    exact hs₀

end Evaluation
end LineLang
