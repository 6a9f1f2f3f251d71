import LineLang.Proofs.Evaluation.Repetition

/-!
# Evaluation on machines that are alike

Two machines hold the same in some slots and anything in the others, and they need not have the same
number of slots. An expression is evaluated on both in the same mode. If the variables in force are
among the slots that hold the same, both come to the same, and the slots still hold the same
afterwards.

- `Memory.Alike`          : two storages that hold the same in some slots
- `Machine.Alike`         : two machines that have printed the same and have such storages
- `Machine.InStep`        : two outcomes that are the same, on such machines
- `Machine.InStepAt`      : the same, by the forms of expressions
- `Moment.Orderly.inStep` : an expression comes to the same on both
-/

namespace LineLang

open Effect Evaluation

/-! ## Storages -/

/-- The storages have the same functions, and the slots in `S` have the same names and kinds in
both. The slots in `A` hold the same. Parameters are in `S`. -/
structure Memory.Alike (S A : Set SlotId) (m n : Memory) : Prop where
  functions : n.functions = m.functions
  within : ∀ x ∈ S ∪ A, x < m.slots.size ∧ x < n.slots.size
  shape : ∀ x ∈ S, (n.slot x).shape = (m.slot x).shape
  content : ∀ x ∈ A, n.content x = m.content x
  parameters : ∀ f b, (m.function f).body = some b → ∀ x ∈ (m.function f).parameterSlots, x ∈ S

namespace Memory.Alike

variable {S A B : Set SlotId} {m n k l : Memory}

theorem function (h : Alike S A m n) (f : FunctionId) : n.function f = m.function f := by
  rw [Memory.function, Memory.function, h.functions]

theorem mono (h : Alike S A m n) (hBA : B ⊆ A) : Alike S B m n :=
  { h with
    within := fun x hx => h.within x (Set.union_subset_union_right S hBA hx)
    content := fun x hx => h.content x (hBA hx) }

/-- A slot is filled on both sides, in the same way if it is to hold the same. -/
theorem replace (h : Alike S A m n) {i : SlotId} {c c' : Content}
    (hB : ∀ x ∈ B, x = i ∧ i ∈ S ∨ x ∈ A) (hc : i ∈ B → c' = c) :
    Alike S B (m.replace i c) (n.replace i c') := by
  have hwithin : ∀ x ∈ S ∪ B, x < m.slots.size ∧ x < n.slots.size := by
    rintro x (hx | hx)
    · exact h.within x (.inl hx)
    · rcases hB x hx with ⟨rfl, hi⟩ | hA
      · exact h.within x (.inl hi)
      · exact h.within x (.inr hA)
  refine ⟨h.functions, fun x hx => ?_, fun x hx => ?_, fun x hx => ?_, h.parameters⟩
  · rw [size_replace, size_replace]
    exact hwithin x hx
  · rw [shape_replace, shape_replace, h.shape x hx]
  · by_cases hxi : x = i
    · subst hxi
      rcases hwithin x (.inr hx) with ⟨hm, hn⟩
      rw [content_replace_self hm, content_replace_self hn, hc hx]
    · rw [content_replace_of_ne hxi, content_replace_of_ne hxi]
      exact h.content x ((hB x hx).resolve_left fun hi => hxi hi.1)

/-- Slots that were saved on both sides are put back. -/
theorem putBack (h : Alike S A m n) (h' : Alike S A k l) (ids : List SlotId) :
    Alike S A (k.putBack (m.save ids)) (l.putBack (n.save ids)) := by
  induction ids with
  | nil => exact h'
  | cons i ids ih => exact ih.replace (fun x hx => .inr hx) (h.content i)

/-- Functions are changed in the same way, but neither their bodies nor their parameters. -/
theorem modifyFunction (h : Alike S A m n) {id : FunctionId} {g : Function → Function}
    (hg : ∀ f, (g f).body = f.body ∧ (g f).parameterSlots = f.parameterSlots) :
    Alike S A (m.modifyFunction id g) (n.modifyFunction id g) where
  functions := by simp only [Memory.modifyFunction, h.functions]
  within := h.within
  shape := h.shape
  content := h.content
  parameters f b := by
    have hsame : ((m.modifyFunction id g).function f).body = (m.function f).body ∧
        ((m.modifyFunction id g).function f).parameterSlots = (m.function f).parameterSlots := by
      by_cases hf : f = id
      · subst hf
        by_cases hlt : f < m.functions.size
        · rw [function_modify_self hlt]
          exact hg _
        · have hsize := Nat.le_of_not_lt hlt
          rw [function_of_size_le hsize, function_of_size_le (by simpa using hsize)]
          exact ⟨rfl, rfl⟩
      · rw [function_modify_of_ne hf]
        exact ⟨rfl, rfl⟩
    rw [hsame.1, hsame.2]
    exact h.parameters f b

/-- The limit on calls is reached on both sides or on neither. -/
theorem enter (h : Alike S A m n) (id : FunctionId) :
    (∃ fault, m.enter id = .error fault ∧ n.enter id = .error fault) ∨
      ∃ k l, m.enter id = .ok k ∧ n.enter id = .ok l ∧ Alike S A k l := by
  unfold Memory.enter
  rw [h.function id]
  split
  · exact .inl ⟨_, rfl, rfl⟩
  · exact .inr ⟨_, _, rfl, rfl, h.modifyFunction fun f => ⟨rfl, rfl⟩⟩

/-- A value is stored on both sides or refused on both. -/
theorem write (h : Alike S A m n) {i : SlotId} (hi : i ∈ S) (v : Value) :
    (∃ fault, m.write i v = .error fault ∧ n.write i v = .error fault) ∨
      ∃ k l, m.write i v = .ok k ∧ n.write i v = .ok l ∧ Alike S (insert i A) k l := by
  have hkind : (n.slot i).kind = (m.slot i).kind := congrArg (·.kind) (h.shape i hi)
  have hname : (n.slot i).name = (m.slot i).name := congrArg (·.name) (h.shape i hi)
  unfold Memory.write Value.expectKind
  rw [hkind, hname]
  split
  · exact .inr
      ⟨_, _, rfl, rfl, h.replace (fun x hx => hx.imp_left fun heq => ⟨heq, hi⟩) fun _ => rfl⟩
  · exact .inl ⟨_, rfl, rfl⟩

end Memory.Alike

/-! ## Machines -/

namespace Machine

variable {α β : Type} {S A B C : Set SlotId} {s s' t t' : Machine}

structure Alike (S A : Set SlotId) (s t : Machine) : Prop where
  memory : s.memory.Alike S A t.memory
  printed : t.printed = s.printed

/-- Two outcomes are the same. After a value the slots in `A` hold the same, after a fault those in
`B`. -/
abbrev InStep (S A B : Set SlotId) (r r' : EStateM.Result Fault Machine α) : Prop :=
  Agree (fun a t b t' => a = b ∧ Alike S A t t') (Alike S B) r r'

namespace Alike

theorem mono (h : Alike S A s t) (hBA : B ⊆ A) : Alike S B s t :=
  ⟨h.memory.mono hBA, h.printed⟩

theorem withMemory (h : Alike S A s t) {m n : Memory} (hmn : m.Alike S B n) :
    Alike S B { s with memory := m } { t with memory := n } :=
  ⟨hmn, h.printed⟩

end Alike

namespace InStep

theorem mono {r r' : EStateM.Result Fault Machine α} {A' B' : Set SlotId} (h : InStep S A B r r')
    (hA : A' ⊆ A) (hB : B' ⊆ B) : InStep S A' B' r r' :=
  h.imp (fun _ _ _ _ hq => ⟨hq.1, hq.2.mono hA⟩) fun _ _ he => he.mono hB

theorem bind {x y : Evaluation α} {f g : α → Evaluation β} (hx : InStep S A B (x s) (y s'))
    (hf : ∀ a t t', x s = .ok a t → Alike S A t t' → InStep S C B (f a t) (g a t')) :
    InStep S C B ((x >>= f) s) ((y >>= g) s') :=
  Agree.bind_same hx hf

theorem pure (h : Alike S A s s') (a : α) :
    InStep S A B ((Pure.pure a : Evaluation α) s) ((Pure.pure a : Evaluation α) s') :=
  .ok ⟨rfl, h⟩

theorem ofExcept (h : Alike S A s s') (hBA : B ⊆ A) (r : Except Fault α) :
    InStep S A B (Effect.ofExcept r s) (Effect.ofExcept r s') :=
  Agree.ofExcept (fun _ _ => ⟨rfl, h⟩) (h.mono hBA)

theorem ensuring {x y : Evaluation α} {after after' : Machine → Machine}
    (hx : InStep S A A (x s) (y s'))
    (hafter : ∀ t t', Alike S A t t' → Alike S B (after t) (after' t')) :
    InStep S B B (Effect.ensuring after x s) (Effect.ensuring after' y s') :=
  Agree.ensuring hx (fun _ _ _ _ hq => ⟨hq.1, hafter _ _ hq.2⟩) hafter

end InStep

namespace Alike

/-- A change of the storage succeeds on both sides or fails on both. -/
theorem update (h : Alike S A s s') (g : Memory → Except Fault Memory)
    (hg : (∃ fault, g s.memory = .error fault ∧ g s'.memory = .error fault) ∨
      ∃ k l, g s.memory = .ok k ∧ g s'.memory = .ok l ∧ k.Alike S B l) :
    InStep S B A (Effect.update (fun s : Machine => do return { s with memory := ← g s.memory }) s)
      (Effect.update (fun s : Machine => do return { s with memory := ← g s.memory }) s') :=
  update_agree h (hg.imp_right fun ⟨k, l, hs, hs', hkl⟩ => ⟨k, l, hs, hs', h.withMemory hkl⟩)

/-- A slot that is written holds the same on both sides. -/
theorem write (h : Alike S A s s') {i : SlotId} (hi : i ∈ S) (v : Value) :
    InStep S (insert i A) A (Evaluation.write i v s) (Evaluation.write i v s') :=
  h.update (·.write i v) (h.memory.write hi v)

theorem defer (h : Alike S A s s') {i : SlotId} (hi : i ∈ S) (e : Expr) :
    InStep S (insert i A) B (Evaluation.defer i e s) (Evaluation.defer i e s') :=
  .ok ⟨rfl,
    h.withMemory (h.memory.replace (fun _ hx => hx.imp_left fun heq => ⟨heq, hi⟩) fun _ => rfl)⟩

/-- Slots that are set to the same values hold the same from then on. -/
theorem writeAll (h : Alike S A s s') {pairs : List (SlotId × Value)}
    (hpairs : ∀ p ∈ pairs, p.1 ∈ S) :
    InStep S (A ∪ {x | x ∈ pairs.map Prod.fst}) A (Evaluation.writeAll pairs s)
      (Evaluation.writeAll pairs s') := by
  induction pairs generalizing A s s' with
  | nil => exact .pure (h.mono (by simp)) ()
  | cons p pairs ih =>
      rw [List.forall_mem_cons] at hpairs
      refine InStep.bind (h.write hpairs.1 p.2) fun _ t t' _ ht =>
        (ih ht hpairs.2).mono ?_ (Set.subset_insert _ _)
      rintro x (hx | hx)
      · exact .inl (.inr hx)
      · rcases List.mem_cons.1 hx with rfl | hx
        · exact .inl (.inl rfl)
        · exact .inr hx

/-- A value is accepted by a target on both machines or on neither. -/
theorem writeTargets (h : Alike S A s s') (v : Value) {ts : List Reference}
    (hts : ∀ r ∈ ts, r.slot ∈ S) :
    InStep S A A (Evaluation.writeTargets v ts s) (Evaluation.writeTargets v ts s') := by
  induction ts generalizing s s' with
  | nil => exact .pure h ()
  | cons r rs ih =>
      rw [List.forall_mem_cons] at hts
      refine InStep.bind ((h.write hts.1 v).mono (Set.subset_insert _ _) subset_rfl)
        fun _ t t' _ ht => ?_
      exact ih ht hts.2

/-- A function is called on both machines. Its parameters hold the same, and its frame is put
back. -/
theorem call (h : Alike S A s s') {id : FunctionId} {f : Function} {vs : List Value}
    {x y : Evaluation Value} (hparameters : ∀ t ∈ f.parameterSlots, t ∈ S)
    (hbody : ∀ k u u', s.memory.enter id = .ok k →
      Evaluation.writeAll (f.parameterSlots.zip vs) { s with memory := k } = .ok () u →
      Alike S (A ∪ {t | t ∈ (f.parameterSlots.zip vs).map Prod.fst}) u u' →
        InStep S A A (x u) (y u')) :
    InStep S A A (asCall id (inFrame f vs x) s) (asCall id (inFrame f vs y) s') := by
  refine InStep.bind (h.update (·.enter id) (h.memory.enter id)) fun _ t t' ht halike => ?_
  rcases ok_of_bind (of_update_ok ht) with ⟨k, hk, hend⟩
  cases hend
  refine InStep.ensuring (A := A) ?_ fun u u' hu =>
    hu.withMemory (hu.memory.modifyFunction fun f => ⟨rfl, rfl⟩)
  -- What each machine puts back was saved on the same machine.
  show InStep S A A
    (Effect.ensuring (onMemory (Memory.putBack (k.save f.frame)))
      (Evaluation.writeAll (f.parameterSlots.zip vs) >>= fun _ => x) { s with memory := k })
    (Effect.ensuring (onMemory (Memory.putBack (t'.memory.save f.frame)))
      (Evaluation.writeAll (f.parameterSlots.zip vs) >>= fun _ => y) t')
  refine InStep.ensuring (A := A) ?_ fun u u' hu =>
    hu.withMemory (halike.memory.putBack hu.memory f.frame)
  have hpairs : ∀ p ∈ f.parameterSlots.zip vs, p.1 ∈ S :=
    fun p hp => hparameters _ (List.of_mem_zip hp).1
  exact InStep.bind (halike.writeAll hpairs) fun _ u u' hu hu' => hbody k u u' hk hu hu'

/-- Bindings are filled in the same way one after the other, if each initializer comes to the
same. -/
theorem bindings {n : Nat} {mode : Mode} {ds ds' : List (Declaration Expr)}
    (hds : bindWith (evaluateWithin n) mode ds s = .ok () t) (ht : Alike S (inForce A ds) t t')
    (hslots : ∀ d ∈ ds', d.slot ∈ S)
    (hinitializer : ∀ ds₁ d ds₂ u u', ds ++ ds' = ds₁ ++ d :: ds₂ →
      bindWith (evaluateWithin n) mode ds₁ s = .ok () u → Alike S (inForce A ds₁) u u' →
        InStep S (inForce A ds₁) A (evaluateWithin (n + 1) mode d.initializer u)
          (evaluateWithin (n + 1) mode d.initializer u')) :
    InStep S (inForce A (ds ++ ds')) A (bindWith (evaluateWithin n) mode ds' t)
      (bindWith (evaluateWithin n) mode ds' t') := by
  induction ds' generalizing ds t t' with
  | nil =>
      rw [List.append_nil]
      exact .pure ht ()
  | cons d ds' ih =>
      rw [List.forall_mem_cons] at hslots
      have hone : InStep S (inForce A (ds ++ [d])) A (bindOne (evaluateWithin n) mode d t)
          (bindOne (evaluateWithin n) mode d t') := by
        rw [← insert_inForce]
        unfold bindOne
        split
        -- An initializer that is left in its slot is the same on both machines.
        · exact ht.defer hslots.1 d.initializer
        · refine InStep.bind (hinitializer ds d ds' t t' rfl hds ht) fun v u u' _ hu => ?_
          exact (hu.write hslots.1 v).mono subset_rfl Set.subset_union_left
      have hsplit : ds ++ d :: ds' = ds ++ [d] ++ ds' := by simp
      rw [bindWith_cons, hsplit]
      rw [hsplit] at hinitializer
      refine InStep.bind hone fun _ u u' hu halike => ih ?_ halike hslots.2 hinitializer
      rw [bindWith_append hds, bindWith_cons, bind_ok hu]
      rfl

end Alike
end Machine

/-! ## Expressions -/

open Machine

/-- The expression comes to the same on two machines that are alike, wherever the variables in force
hold the same. -/
def Machine.InStepAt (owner : SlotId → FunctionId) (P : Expr → Prop) (S : Set SlotId) (n : Nat)
    (e : Expr) : Prop :=
  ∀ ⦃A Γ : Set SlotId⦄ ⦃mode : Mode⦄ ⦃s t : Machine⦄, Moment.Orderly owner P Γ ⟨n, mode, e, s⟩ →
    Alike S A s t → (∀ x ∈ Γ, x ∈ S → x ∈ A) →
      InStep S A A (evaluateWithin n mode e s) (evaluateWithin n mode e t)

namespace Machine.InStepAt

variable {owner : SlotId → FunctionId} {P : Expr → Prop} {S : Set SlotId} {n : Nat} {e : Expr}

/-- A slot in force holds the same on both machines, so that the same is read or followed. -/
theorem read (hP : ∀ p, P p → ∀ x ∈ p.ownSlots, x ∈ S) (r : Reference)
    (hstored : ∀ e, InStepAt owner P S n e) : InStepAt owner P S (n + 1) (.variable r) := by
  intro A Γ mode s t h hst hΓ
  have hr : r.slot ∈ A :=
    hΓ r.slot (h.sees (.read ⟨r, rfl, rfl⟩)) (hP _ h.every.self _ (List.mem_singleton.2 rfl))
  show InStep S A A (readWith (evaluateWithin n) mode r s) (readWith (evaluateWithin n) mode r t)
  rw [readWith_apply, readWith_apply, hst.memory.content _ hr]
  cases hc : s.memory.content r.slot with
  | uninitialized => exact .error hst
  | value v => exact .pure hst v
  | dependent i => exact hstored i (h.step (.deferred hc) rfl (.inl rfl)) hst hΓ

/-- The left operand decides on both machines or on neither. -/
theorem binary (op : BinaryOperator) {l r : Expr} (hl : InStepAt owner P S (n + 1) l)
    (hr : InStepAt owner P S (n + 1) r) : InStepAt owner P S (n + 1) (.binary op l r) := by
  intro A Γ mode s t h hst hΓ
  refine InStep.bind (hl (h.operand .left) hst hΓ) fun v u u' hv hu => ?_
  refine InStep.bind (.ofExcept hu subset_rfl (op.decided? v)) fun d w w' hd hw => ?_
  rcases of_ofExcept_ok hd with ⟨hundecided, rfl⟩
  cases d with
  | some w => exact .pure hw w
  | none =>
      have hright := h.step (.right hv hundecided) rfl (.inl rfl)
      exact InStep.bind (hr hright hw hΓ) fun w u u' _ hu => .ofExcept hu subset_rfl _

theorem assign (hP : ∀ p, P p → ∀ x ∈ p.ownSlots, x ∈ S) (ts : List Reference)
    (he : InStepAt owner P S (n + 1) e) : InStepAt owner P S (n + 1) (.assign ts e) := by
  intro A Γ mode s t h hst hΓ
  refine InStep.bind (he (h.operand .assigned) hst hΓ) fun v u u' _ hu => ?_
  cases mode with
  | probe => exact .pure hu v
  | run =>
      have hts : ∀ r ∈ ts, r.slot ∈ S := fun r hr => hP _ h.every.self _ (List.mem_map_of_mem hr)
      exact InStep.bind (hu.writeTargets v hts) fun _ w w' _ hw => .pure hw v

/-- In the body of a call nothing is in force but the parameters, and these have just been set. -/
theorem call (name : String) (f : FunctionId) {es : List Expr} (dependent : Bool)
    (hstored : ∀ e, InStepAt owner P S n e) (hes : ∀ e ∈ es, InStepAt owner P S (n + 1) e) :
    InStepAt owner P S (n + 1) (.call name f es dependent) := by
  intro A Γ mode s t h hst hΓ
  rw [Moment.evaluateWithin_call, Moment.evaluateWithin_call, hst.memory.function f]
  refine InStep.bind (.ofExcept hst subset_rfl _) fun _ u u' harity hu => ?_
  rcases of_ofExcept_ok harity with ⟨harity, rfl⟩
  have harguments : InStep S A A (argumentsWith (evaluateWithin n) es u)
      (argumentsWith (evaluateWithin n) es u') := by
    refine arguments_agree hu ?_
    rintro es₁ e es₂ vs w w' rfl hvs hw
    exact hes e (by simp) (h.step (.argument harity hvs) rfl (.inr rfl)) hw hΓ
  refine InStep.bind harguments fun vs w w' hvs hw => ?_
  cases hb : (u.memory.function f).body with
  | none => exact .error hw
  | some b =>
      refine hw.call (hu.memory.parameters f b hb) fun k z z' hk hz halike => ?_
      have hbody := hstored b (h.body harity hvs hb hk hz) halike fun x hx _ => .inr ?_
      · exact hbody.mono Set.subset_union_left Set.subset_union_left
      · show x ∈ ((u.memory.function f).parameterSlots.zip vs).map Prod.fst
        rwa [map_fst_parameters harity hvs]

/-- A binding holds the same as soon as it is in force. -/
theorem letIn (hP : ∀ p, P p → ∀ x ∈ p.ownSlots, x ∈ S) {ds : List (Declaration Expr)} {b : Expr}
    (hds : ∀ d ∈ ds, InStepAt owner P S (n + 1) d.initializer)
    (hb : InStepAt owner P S (n + 1) b) : InStepAt owner P S (n + 1) (.letIn ds b) := by
  intro A Γ mode s t h hst hΓ
  have hslots : ∀ d ∈ ds, d.slot ∈ S := fun d hd => hP _ h.every.self _ (List.mem_map_of_mem hd)
  have hforce : ∀ ds₁ : List (Declaration Expr), ∀ x ∈ inForce Γ ds₁, x ∈ S → x ∈ inForce A ds₁ :=
    fun ds₁ x hx hS => hx.imp_left fun hx => hΓ x hx hS
  have hbindings : InStep S (inForce A ds) A (bindWith (evaluateWithin n) mode ds s)
      (bindWith (evaluateWithin n) mode ds t) := by
    have hnone : bindWith (evaluateWithin n) mode [] s = .ok () s := rfl
    have hstart : Alike S (inForce A []) s t := hst.mono (by simp)
    refine Alike.bindings hnone hstart hslots ?_
    rintro ds₁ d ds₂ u u' hsplit hu halike
    rw [List.nil_append] at hsplit
    subst hsplit
    have hinitializer := hds d (by simp) (h.initializer hu) halike (hforce ds₁)
    exact hinitializer.mono subset_rfl Set.subset_union_left
  refine InStep.bind hbindings fun _ u u' hbound hu => ?_
  exact (hb (h.inside hbound) hu (hforce ds)).mono Set.subset_union_left Set.subset_union_left

/-- Both machines take the same branch, since the condition comes to the same. -/
theorem conditional {c a e : Expr} (hc : InStepAt owner P S (n + 1) c)
    (ha : InStepAt owner P S (n + 1) a) (he : InStepAt owner P S (n + 1) e) :
    InStepAt owner P S (n + 1) (.conditional c a e) := by
  intro A Γ mode s t h hst hΓ
  refine InStep.bind (hc (h.operand .condition) hst hΓ) fun v u u' hvalue hu => ?_
  refine InStep.bind (.ofExcept hu subset_rfl (v.asBoolean .condition)) fun d w w' hd hw => ?_
  rcases of_ofExcept_ok hd with ⟨hv, rfl⟩
  cases d with
  | true => exact ha (h.step (.consequent hvalue hv) rfl (.inl rfl)) hw hΓ
  | false => exact he (h.step (.alternative hvalue hv) rfl (.inl rfl)) hw hΓ

end Machine.InStepAt

/-- Every expression goes in step on the two machines, at any depth. -/
theorem inStepAt {owner : SlotId → FunctionId} {P : Expr → Prop} {S : Set SlotId}
    (hP : ∀ p, P p → ∀ x ∈ p.ownSlots, x ∈ S) (n : Nat) (e : Expr) : InStepAt owner P S n e := by
  -- Stored expressions are followed to a smaller depth, and operands are evaluated at the same one.
  induction n generalizing e with
  | zero => exact fun _ _ _ _ _ _ hst _ => .error hst
  | succ n ihn =>
      induction e using Expr.induction with
      | literal v => exact fun _ _ _ _ _ _ hst _ => .pure hst v
      | declaration name f => exact fun _ _ _ _ _ _ hst _ => .pure hst Value.void
      | read r => exact .read hP r ihn
      | unary op e ih =>
          intro A Γ mode s t h hst hΓ
          refine InStep.bind (ih (h.operand .unary) hst hΓ) ?_
          exact fun v u u' _ hu => .ofExcept hu subset_rfl _
      | binary op l r ihl ihr => exact .binary op ihl ihr
      | assign ts e ih => exact .assign hP ts ih
      | call name f es dependent ih => exact .call name f dependent ihn ih
      | print e ih =>
          intro A Γ mode s t h hst hΓ
          refine InStep.bind (ih (h.operand .printed) hst hΓ) fun v u u' _ hu => ?_
          cases mode with
          | probe => exact .pure hu v
          | run => exact .ok ⟨rfl, hu.memory, congrArg (Array.push · v.display) hu.printed⟩
      | letIn ds b ihd ihb => exact .letIn hP ihd ihb
      | conditional c a e ihc iha ihe => exact .conditional ihc iha ihe

/-- An expression comes to the same on two machines that are alike, if the variables in force hold
the same. -/
theorem Moment.Orderly.inStep {owner : SlotId → FunctionId} {P : Expr → Prop} {S A Γ : Set SlotId}
    {n : Nat} {mode : Mode} {e : Expr} {s t : Machine} (hP : ∀ p, P p → ∀ x ∈ p.ownSlots, x ∈ S)
    (h : Orderly owner P Γ ⟨n, mode, e, s⟩) (hst : Alike S A s t) (hΓ : ∀ x ∈ Γ, x ∈ S → x ∈ A) :
    InStep S A A (evaluateWithin n mode e s) (evaluateWithin n mode e t) :=
  inStepAt hP n e h hst hΓ

end LineLang
