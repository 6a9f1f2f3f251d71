import LineLang.Proofs.Evaluation.Calls

/-!
# Carrying out and asking

An expression is carried out on one machine and only asked for its value on another. The second
machine prints nothing and stores no assigned value. The two evaluations go the same way until a
slot is read that was assigned on the first machine, unless it was bound again since.

- `Pairing`            : what the two machines may hold in a slot
- `Machine.Apart`      : two machines whose storages differ in some slots only
- `Machine.Parallel`   : two outcomes that are the same, on such machines
- `Moment.Leaves`      : a slot holds an assigned value after the evaluation
- `Moment.Sees`        : what a slot holds before the evaluation is read
- `Moment.ReadsBack`   : an assigned value is read
- `Moment.Steady`      : none is, and none is refused
- `Machine.ParallelAt` : an expression goes the same way on both, by the forms of expressions
- `evaluateWithin_parallel`  : the two modes come to the same
-/

namespace LineLang

open Effect Evaluation

/-! ## Changes on both sides -/

/-- What the two sides may hold in a slot. The same is always allowed. -/
structure Pairing where
  allows : SlotId → Content → Content → Prop
  same : ∀ t c, allows t c c

def Pairing.free : Pairing :=
  ⟨fun _ _ _ => True, fun _ _ => trivial⟩

/-- Where the sides differ, each of them holds what its storage does. -/
def Pairing.between (m n : Memory) : Pairing where
  allows t c c' := c' = c ∨ c = m.content t ∧ c' = n.content t
  same _ _ := .inl rfl

/-- Only slots in `S` differ, only in what they hold, and only as it is allowed. -/
structure Memory.Paired (K : Pairing) (S : SlotId → Prop) (m n : Memory) : Prop
    extends Memory.UnchangedOutside S m n where
  allowed : ∀ t, K.allows t (m.content t) (n.content t)

namespace Memory.Paired

variable {K : Pairing} {S T : SlotId → Prop} {m n k l : Memory}

theorem mono (h : Paired K S m n) (hST : ∀ t, S t → T t) : Paired K T m n :=
  ⟨h.toUnchangedOutside.mono hST, h.allowed⟩

theorem between (h : m.UnchangedOutside S n) : Paired (.between m n) S m n :=
  ⟨h, fun _ => .inr ⟨rfl, rfl⟩⟩

/-- A slot is filled on both sides, in the same way unless it is spared. -/
theorem replace (h : Paired K S m n) {i : SlotId} {c c' : Content} (hT : ∀ t, t ≠ i → S t → T t)
    (hc : ¬ T i → c' = c) (hK : K.allows i c c') : Paired K T (m.replace i c) (n.replace i c') := by
  -- Either the slot is filled on both sides, or there is no such slot on either.
  have hself : (m.replace i c).content i = c ∧ (n.replace i c').content i = c' ∨
      (n.replace i c').content i = (m.replace i c).content i := by
    by_cases hlt : i < m.slots.size
    · exact .inl ⟨content_replace_self hlt, content_replace_self (h.size ▸ hlt)⟩
    · have hm : (m.replace i c).slots.size ≤ i := by simpa using hlt
      have hn : (n.replace i c').slots.size ≤ i := by simpa [h.size] using hlt
      exact .inr (by rw [Memory.content, Memory.content, slot_of_size_le hm, slot_of_size_le hn])
  refine ⟨⟨h.functions, h.registry, ?_, fun t => ?_, fun t ht => ?_⟩, fun t => ?_⟩
  · rw [size_replace, size_replace, h.size]
  · rw [shape_replace, shape_replace, h.shape]
  · by_cases hti : t = i
    · subst hti
      rcases hself with ⟨hm, hn⟩ | heq
      · rw [hm, hn, hc ht]
      · exact heq
    · rw [content_replace_of_ne hti, content_replace_of_ne hti, h.content t fun hs =>
        ht (hT t hti hs)]
  · by_cases hti : t = i
    · subst hti
      rcases hself with ⟨hm, hn⟩ | heq
      · rw [hm, hn]
        exact hK
      · rw [heq]
        exact K.same t _
    · rw [content_replace_of_ne hti, content_replace_of_ne hti]
      exact h.allowed t

/-- Slots that were saved on both sides are put back. They differ afterwards where they differed
then. -/
theorem putBack (h : Paired K S m n) (h' : Paired K T k l) (ids : List SlotId) :
    Paired K (fun t => t ∈ ids ∧ S t ∨ t ∉ ids ∧ T t) (k.putBack (m.save ids))
      (l.putBack (n.save ids)) := by
  induction ids with
  | nil => exact h'.mono fun t ht => .inr ⟨List.not_mem_nil, ht⟩
  | cons i ids ih =>
      refine ih.replace (fun t hti ht => ?_) (fun hi => ?_) (h.allowed i)
      · simpa [hti] using ht
      · exact h.content i fun hs => hi (.inl ⟨by simp, hs⟩)

/-- The same change of a function on both sides. -/
theorem modifyFunction (h : Paired K S m n) (id : FunctionId) (g : Function → Function) :
    Paired K S (m.modifyFunction id g) (n.modifyFunction id g) where
  functions := by simp only [Memory.modifyFunction, h.functions]
  registry := h.registry
  size := h.size
  shape := h.shape
  content := h.content
  allowed := h.allowed

/-- The limit on calls is reached on both sides or on neither. -/
theorem enter (h : Paired K S m n) (id : FunctionId) :
    (∃ fault, m.enter id = .error fault ∧ n.enter id = .error fault) ∨
      ∃ k l, m.enter id = .ok k ∧ n.enter id = .ok l ∧ Paired K S k l := by
  unfold Memory.enter
  rw [h.function id]
  split
  · exact .inl ⟨_, rfl, rfl⟩
  · exact .inr ⟨_, _, rfl, rfl, h.modifyFunction id _⟩

/-- A value is stored on both sides or refused on both. -/
theorem write (h : Paired K S m n) (i : SlotId) (v : Value) :
    (∃ fault, m.write i v = .error fault ∧ n.write i v = .error fault) ∨
      ∃ k l, m.write i v = .ok k ∧ n.write i v = .ok l ∧ Paired K (fun t => S t ∧ t ≠ i) k l := by
  have hkind : (n.slot i).kind = (m.slot i).kind := congrArg (·.kind) (h.shape i)
  have hname : (n.slot i).name = (m.slot i).name := congrArg (·.name) (h.shape i)
  unfold Memory.write Value.expectKind
  rw [hkind, hname]
  split
  · exact .inr ⟨_, _, rfl, rfl, h.replace (fun _ hti ht => ⟨ht, hti⟩) (fun _ => rfl) (K.same i _)⟩
  · exact .inl ⟨_, rfl, rfl⟩

end Memory.Paired

/-! ## Two machines -/

namespace Effect

variable {ε σ α : Type} {Q : α → σ → α → σ → Prop} {E : σ → σ → Prop} {r r' : EStateM.Result ε σ α}

/-- Two runs that come to the same value have the same outcome. -/
theorem Agree.outcome_eq (h : Agree Q E r r') (hQ : ∀ a s b t, Q a s b t → a = b) :
    outcome r = outcome r' := by
  cases h with
  | ok hq => exact congrArg Except.ok (hQ _ _ _ _ hq)
  | error _ => rfl

/-- What holds of the states of both runs, however they end. -/
theorem Agree.final (h : Agree Q E r r') {P : σ → σ → Prop} (hQ : ∀ a s b t, Q a s b t → P s t)
    (hE : ∀ s t, E s t → P s t) : P (final r) (final r') := by
  cases h with
  | ok hq => exact hQ _ _ _ _ hq
  | error he => exact hE _ _ he

end Effect

namespace Evaluation

variable {R E : Machine → Machine → Prop} {s s' : Machine}

/-- A change of the storage succeeds on two machines or fails on both. -/
theorem update_agree {g : Memory → Except Fault Memory} (hE : E s s')
    (hg : (∃ fault, g s.memory = .error fault ∧ g s'.memory = .error fault) ∨
      ∃ k l, g s.memory = .ok k ∧ g s'.memory = .ok l ∧
        R { s with memory := k } { s' with memory := l }) :
    Agree (fun a t b t' => a = b ∧ R t t') E
      (Effect.update (fun s : Machine => do return { s with memory := ← g s.memory }) s)
      (Effect.update (fun s : Machine => do return { s with memory := ← g s.memory }) s') := by
  rcases hg with ⟨fault, hs, hs'⟩ | ⟨k, l, hs, hs', hR⟩
  · rw [update_error (e := fault) (by rw [hs]; rfl), update_error (e := fault) (by rw [hs']; rfl)]
    exact .error hE
  · rw [update_ok (t := { s with memory := k }) (by rw [hs]; rfl),
      update_ok (t := { s' with memory := l }) (by rw [hs']; rfl)]
    exact .ok ⟨rfl, hR⟩

/-- Arguments come to the same one after the other, if each does after the ones before it. -/
theorem arguments_agree {f : Follow} {es : List Expr} (h : R s s')
    (hes : ∀ es₁ e es₂ vs t t', es = es₁ ++ e :: es₂ → argumentsWith f es₁ s = .ok vs t → R t t' →
      Agree (fun a u b u' => a = b ∧ R u u') E (evaluateWith f .probe e t)
        (evaluateWith f .probe e t')) :
    Agree (fun a u b u' => a = b ∧ R u u') E (argumentsWith f es s) (argumentsWith f es s') := by
  induction es generalizing s s' with
  | nil => exact .ok ⟨rfl, h⟩
  | cons e es ih =>
      refine Agree.bind_same (hes [] e es [] s s' rfl rfl h) fun v t t' hv ht => ?_
      have hrest : Agree (fun a u b u' => a = b ∧ R u u') E (argumentsWith f es t)
          (argumentsWith f es t') := by
        refine ih ht ?_
        rintro es₁ e' es₂ vs u u' rfl hvs hu
        exact hes (e :: es₁) e' es₂ (v :: vs) u u' rfl ((bind_ok hv).trans (bind_ok hvs)) hu
      exact Agree.bind_same hrest fun vs u u' _ hu => .ok ⟨rfl, hu⟩

end Evaluation

namespace Machine

variable {α β : Type} {K : Pairing} {A B C : Set SlotId} {texts : Array String}
variable {s s' t t' : Machine}

/-- The storages differ in what slots in `A` hold, and in nothing else. The second machine has
printed `texts`, and so has the first, perhaps with more after it. -/
structure Apart (K : Pairing) (A : Set SlotId) (texts : Array String) (s s' : Machine) : Prop where
  memory : s.memory.Paired K (· ∈ A) s'.memory
  silent : s'.printed = texts
  printed : texts.toList <+: s.printed.toList

/-- Two outcomes are the same. After a value the machines are apart by `A`, after a fault by `B`. -/
abbrev Parallel (K : Pairing) (A B : Set SlotId) (texts : Array String)
    (r r' : EStateM.Result Fault Machine α) : Prop :=
  Agree (fun a t b t' => a = b ∧ Apart K A texts t t') (Apart K B texts) r r'

namespace Apart

theorem refl (K : Pairing) (A : Set SlotId) (s : Machine) : Apart K A s.printed s s :=
  ⟨⟨.refl _, fun t => K.same t _⟩, rfl, List.prefix_rfl⟩

theorem mono (h : Apart K A texts s s') (hAB : A ⊆ B) : Apart K B texts s s' :=
  { h with memory := h.memory.mono hAB }

/-- The storages are changed on both sides. -/
theorem withMemory (h : Apart K A texts s s') {m m' : Memory} (hm : m.Paired K (· ∈ B) m') :
    Apart K B texts { s with memory := m } { s' with memory := m' } :=
  ⟨hm, h.silent, h.printed⟩

end Apart

namespace Parallel

theorem mono {r r' : EStateM.Result Fault Machine α} {A' B' : Set SlotId}
    (h : Parallel K A B texts r r') (hA : A ⊆ A') (hB : B ⊆ B') : Parallel K A' B' texts r r' :=
  h.imp (fun _ _ _ _ hq => ⟨hq.1, hq.2.mono hA⟩) fun _ _ he => he.mono hB

theorem bind {x y : Evaluation α} {f g : α → Evaluation β} (hx : Parallel K A B texts (x s) (y s'))
    (hf : ∀ a t t', x s = .ok a t → Apart K A texts t t' → Parallel K C B texts (f a t) (g a t')) :
    Parallel K C B texts ((x >>= f) s) ((y >>= g) s') :=
  Agree.bind_same hx hf

theorem pure (h : Apart K A texts s s') (a : α) :
    Parallel K A B texts ((Pure.pure a : Evaluation α) s) ((Pure.pure a : Evaluation α) s') :=
  .ok ⟨rfl, h⟩

theorem ofExcept (h : Apart K A texts s s') (hAB : A ⊆ B) (r : Except Fault α) :
    Parallel K A B texts (Effect.ofExcept r s) (Effect.ofExcept r s') :=
  Agree.ofExcept (fun _ _ => ⟨rfl, h⟩) (h.mono hAB)

theorem ensuring {x y : Evaluation α} {after after' : Machine → Machine}
    (hx : Parallel K A A texts (x s) (y s'))
    (hafter : ∀ t t', Apart K A texts t t' → Apart K B texts (after t) (after' t')) :
    Parallel K B B texts (Effect.ensuring after x s) (Effect.ensuring after' y s') :=
  Agree.ensuring hx (fun _ _ _ _ hq => ⟨hq.1, hafter _ _ hq.2⟩) hafter

end Parallel

/-! ## Actions on both machines -/

namespace Apart

/-- A change of the storage succeeds on both sides or fails on both. -/
theorem update (h : Apart K A texts s s') (g : Memory → Except Fault Memory)
    (hg : (∃ fault, g s.memory = .error fault ∧ g s'.memory = .error fault) ∨
      ∃ k l, g s.memory = .ok k ∧ g s'.memory = .ok l ∧ k.Paired K (· ∈ B) l) :
    Parallel K B A texts
      (Effect.update (fun s : Machine => do return { s with memory := ← g s.memory }) s)
      (Effect.update (fun s : Machine => do return { s with memory := ← g s.memory }) s') :=
  update_agree h (hg.imp_right fun ⟨k, l, hs, hs', hkl⟩ => ⟨k, l, hs, hs', h.withMemory hkl⟩)

/-- A slot that is written holds the same on both sides. -/
theorem write (h : Apart K A texts s s') (i : SlotId) (v : Value) :
    Parallel K (A \ {i}) A texts (Evaluation.write i v s) (Evaluation.write i v s') :=
  h.update (·.write i v) (h.memory.write i v)

/-- After slots were set to the same values they no longer differ. -/
theorem writeAll (h : Apart K A texts s s') (pairs : List (SlotId × Value)) :
    Parallel K (A \ {t | t ∈ pairs.map Prod.fst}) A texts (Evaluation.writeAll pairs s)
      (Evaluation.writeAll pairs s') := by
  induction pairs generalizing A s s' with
  | nil =>
      have hA : A ⊆ A \ {t | t ∈ ([] : List (SlotId × Value)).map Prod.fst} :=
        fun t ht => ⟨ht, List.not_mem_nil⟩
      exact .pure (h.mono hA) ()
  | cons p pairs ih =>
      refine Parallel.bind (h.write p.1 p.2) fun _ t t' _ ht => (ih ht).mono ?_ fun _ hx => hx.1
      rintro t ⟨⟨htA, hne⟩, hrest⟩
      refine ⟨htA, fun hmem => ?_⟩
      rcases List.mem_cons.1 hmem with rfl | hmem
      · exact hne rfl
      · exact hrest hmem

theorem defer (h : Apart K A texts s s') (i : SlotId) (e : Expr) :
    Parallel K (A \ {i}) B texts (Evaluation.defer i e s) (Evaluation.defer i e s') :=
  .ok ⟨rfl, h.withMemory (h.memory.replace (fun _ hti ht => ⟨ht, hti⟩) (fun _ => rfl) (K.same i _))⟩

/-- Only the first machine stores an assigned value. -/
theorem assigned (h : Apart K A texts s s') {ts : List Reference} (v : Value)
    (hA : ∀ t ∈ ts, t.slot ∈ A) (hK : ∀ t ∈ ts, ∀ c c', K.allows t.slot c c')
    (hv : ∀ t ∈ ts, (s.memory.slot t.slot).kind.accepts v.kind = true) :
    ∃ t, writeTargets v ts s = .ok () t ∧ Apart K A texts t s' := by
  induction ts generalizing s with
  | nil => exact ⟨s, rfl, h⟩
  | cons r rs ih =>
      rw [List.forall_mem_cons] at hA hK hv
      let u : Machine := { s with memory := s.memory.replace r.slot (.value v) }
      have hwrite : Evaluation.write r.slot v s = .ok () u := by
        apply update_ok
        simp only [Memory.write, Value.expectKind, hv.1, if_true]
        rfl
      have hback : u.memory.UnchangedOutside (· ∈ A) s.memory :=
        (Memory.UnchangedOutside.replace (S := (· ∈ A)) hA.1 _).symm
      have hallowed : ∀ t, K.allows t (u.memory.content t) (s'.memory.content t) := by
        intro t
        rcases Memory.content_replace s.memory r.slot t (.value v) with heq | ⟨rfl, -⟩
        · rw [heq]
          exact h.memory.allowed t
        · exact hK.1 _ _
      have hu : Apart K A texts u s' :=
        ⟨⟨hback.trans h.memory.toUnchangedOutside, hallowed⟩, h.silent, h.printed⟩
      -- The kinds of slots are what they were.
      have hkinds : ∀ t ∈ rs, (u.memory.slot t.slot).kind.accepts v.kind = true := by
        intro t ht
        have hkind : (u.memory.slot t.slot).kind = (s.memory.slot t.slot).kind :=
          congrArg (·.kind) Memory.shape_replace
        rw [hkind]
        exact hv.2 t ht
      rcases ih hu hA.2 hK.2 hkinds with ⟨t, ht, hapart⟩
      exact ⟨t, (bind_ok hwrite).trans ht, hapart⟩

/-- A function is called on both machines. Its parameters hold the same, and its frame is put
back. -/
theorem call (h : Apart K A texts s s') {id : FunctionId} {f : Function} {vs : List Value}
    {x y : Evaluation Value}
    (hbody : ∀ k u u', s.memory.enter id = .ok k →
      Evaluation.writeAll (f.parameterSlots.zip vs) { s with memory := k } = .ok () u →
      Apart K (A \ {t | t ∈ (f.parameterSlots.zip vs).map Prod.fst}) texts u u' →
        Parallel K (A ∪ B) (A ∪ B) texts (x u) (y u')) :
    Parallel K (A ∪ {t | t ∈ B ∧ t ∉ f.frame}) (A ∪ {t | t ∈ B ∧ t ∉ f.frame}) texts
      (asCall id (inFrame f vs x) s) (asCall id (inFrame f vs y) s') := by
  have hentered := (h.update (·.enter id) (h.memory.enter id)).mono subset_rfl
    (Set.subset_union_left (t := {t | t ∈ B ∧ t ∉ f.frame}))
  refine Parallel.bind hentered fun _ t t' ht hapart => ?_
  rcases ok_of_bind (of_update_ok ht) with ⟨k, hk, hend⟩
  cases hend
  refine Parallel.ensuring (A := A ∪ {t | t ∈ B ∧ t ∉ f.frame}) ?_
    fun u u' hu => hu.withMemory (hu.memory.modifyFunction id _)
  -- What each machine puts back was saved on the same machine.
  show Parallel K _ _ texts
    (Effect.ensuring (onMemory (Memory.putBack (k.save f.frame)))
      (Evaluation.writeAll (f.parameterSlots.zip vs) >>= fun _ => x) { s with memory := k })
    (Effect.ensuring (onMemory (Memory.putBack (t'.memory.save f.frame)))
      (Evaluation.writeAll (f.parameterSlots.zip vs) >>= fun _ => y) t')
  refine Parallel.ensuring (A := A ∪ B) ?_ fun u u' hu => ?_
  · refine Parallel.bind ((hapart.writeAll _).mono subset_rfl Set.subset_union_left)
      fun _ u u' hu hu' => ?_
    exact hbody k u u' hk hu hu'
  · refine hu.withMemory ((hapart.memory.putBack hu.memory f.frame).mono ?_)
    rintro t (⟨-, ht⟩ | ⟨hframe, ht | ht⟩)
    · exact .inl ht
    · exact .inl ht
    · exact .inr ⟨ht, hframe⟩

end Apart
end Machine

/-! ## Assigned slots -/

namespace Moment

def Assigns (q : Moment) (t : SlotId) : Prop :=
  q.mode = .run ∧ ∃ ts e, q.expr = .assign ts e ∧ ∃ r ∈ ts, r.slot = t

def Reads (q : Moment) (t : SlotId) : Prop :=
  ∃ r, q.expr = .variable r ∧ r.slot = t

def Refuses (q : Moment) : Prop :=
  q.mode = .run ∧ ∃ ts e v u, q.expr = .assign ts e ∧
    evaluateWithin q.depth .run e q.machine = .ok v u ∧
    ∃ r ∈ ts, (u.memory.slot r.slot).kind.accepts v.kind = false

/-- The slots that are put back after a step inside: the frame of a function, after its body. -/
def undone (p q : Moment) : List SlotId :=
  match p.expr with
  | .call _ f _ _ => if q.depth < p.depth then (p.machine.memory.function f).frame else []
  | _ => []

/-- The slot is assigned during the evaluation, and not put back before its end. -/
inductive Leaves : Moment → SlotId → Prop
  | assigned {q t} : q.Assigns t → Leaves q t
  | step {p q t} : p.Leads q → t ∉ p.undone q → Leaves q t → Leaves p t

/-- What the slot holds before the evaluation is read: no binding and no call has filled it
before. -/
inductive Sees : Moment → SlotId → Prop
  | read {q t} : q.Reads t → Sees q t
  | step {p q t} : p.Leads q → p.expr.ownDeclarations = [] →
      (p.expr.ownCallees = [] ∨ q.depth = p.depth) → Sees q t → Sees p t
  | body {n mode name f es dependent s vs t k u b x}
      (harity : (s.memory.function f).checkArity es.length = .ok ())
      (hes : argumentsWith (evaluateWithin n) es s = .ok vs t)
      (hb : (s.memory.function f).body = some b) (hk : t.memory.enter f = .ok k)
      (hu : writeAll ((s.memory.function f).parameterSlots.zip vs)
        { t with memory := k } = .ok () u) (hx : x ∉ (s.memory.function f).parameterSlots) :
      Sees ⟨n, mode, b, u⟩ x → Sees ⟨n + 1, mode, .call name f es dependent, s⟩ x
  | initializer {n mode ds d ds' b s t x} (hds : bindWith (evaluateWithin n) mode ds s = .ok () t)
      (hd : d.dependent = false) (hx : ∀ d' ∈ ds, d'.slot ≠ x) :
      Sees ⟨n + 1, mode, d.initializer, t⟩ x → Sees ⟨n + 1, mode, .letIn (ds ++ d :: ds') b, s⟩ x
  | inside {n mode ds b s t x} (hds : bindWith (evaluateWithin n) mode ds s = .ok () t)
      (hx : ∀ d ∈ ds, d.slot ≠ x) :
      Sees ⟨n + 1, mode, b, t⟩ x → Sees ⟨n + 1, mode, .letIn ds b, s⟩ x

/-- Of two moments inside the first, one is over when the other begins. Arguments are left out,
since they assign nothing. -/
inductive Precedes : Moment → Moment → Moment → Prop
  | right {n mode op l r s v t} (hl : evaluateWithin (n + 1) mode l s = .ok v t)
      (hundecided : op.decided? v = .ok none) :
      Precedes ⟨n + 1, mode, .binary op l r, s⟩ ⟨n + 1, mode, l, s⟩ ⟨n + 1, mode, r, t⟩
  | consequent {n mode c a e s v t} (hc : evaluateWithin (n + 1) mode c s = .ok v t)
      (hv : v.asBoolean .condition = .ok true) :
      Precedes ⟨n + 1, mode, .conditional c a e, s⟩ ⟨n + 1, mode, c, s⟩ ⟨n + 1, mode, a, t⟩
  | alternative {n mode c a e s v t} (hc : evaluateWithin (n + 1) mode c s = .ok v t)
      (hv : v.asBoolean .condition = .ok false) :
      Precedes ⟨n + 1, mode, .conditional c a e, s⟩ ⟨n + 1, mode, c, s⟩ ⟨n + 1, mode, e, t⟩
  | initializer {n mode ds d ds' d' ds'' b s t t'}
      (hds : bindWith (evaluateWithin n) mode ds s = .ok () t)
      (hd : d.dependent = false)
      (hds' : bindWith (evaluateWithin n) mode (ds ++ d :: ds') s = .ok () t')
      (hd' : d'.dependent = false) :
      Precedes ⟨n + 1, mode, .letIn (ds ++ d :: ds' ++ d' :: ds'') b, s⟩
      ⟨n + 1, mode, d.initializer, t⟩ ⟨n + 1, mode, d'.initializer, t'⟩
  | inside {n mode ds d ds' b s t t'} (hds : bindWith (evaluateWithin n) mode ds s = .ok () t)
      (hd : d.dependent = false)
      (hds' : bindWith (evaluateWithin n) mode (ds ++ d :: ds') s = .ok () t') :
      Precedes ⟨n + 1, mode, .letIn (ds ++ d :: ds') b, s⟩ ⟨n + 1, mode, d.initializer, t⟩
        ⟨n + 1, mode, b, t'⟩

/-- What comes first is itself a moment inside. -/
theorem Precedes.first {p a b : Moment} (h : p.Precedes a b) : p.Leads a := by
  cases h with
  | right => exact .left
  | consequent | alternative => exact .condition
  | initializer hds hd =>
      rw [List.append_assoc, List.cons_append]
      exact .initializer hds hd
  | inside hds hd => exact .initializer hds hd

/-- One part assigns a slot, and what it holds then is read by a later part. -/
def ReadsBack (p : Moment) : Prop :=
  ∃ a b t, p.Precedes a b ∧ a.Leaves t ∧ b.Sees t

/-- Assigned values are not read back at any moment, and none is refused. -/
def Steady (p : Moment) : Prop :=
  ∀ q, p.Reaches q → ¬ q.ReadsBack ∧ ¬ q.Refuses

theorem Steady.leads {p q : Moment} (h : p.Steady) (hq : p.Leads q) : q.Steady :=
  fun q' hq' => h q' (.head hq hq')

/-- Whatever is asked for its value only asks for values. -/
theorem Leads.probe {p q : Moment} (h : p.Leads q) (hp : p.mode = .probe) : q.mode = .probe := by
  cases h with
  | argument => rfl
  | _ => exact hp

theorem Reaches.probe {p q : Moment} (h : p.Reaches q) (hp : p.mode = .probe) :
    q.mode = .probe := by
  induction h with
  | refl => exact hp
  | tail _ hleads ih => exact hleads.probe ih

/-- What is assigned after the evaluation was assigned at some moment. -/
theorem Leaves.assigns {p : Moment} {t : SlotId} (h : p.Leaves t) :
    ∃ q, p.Reaches q ∧ q.Assigns t := by
  induction h with
  | assigned hq => exact ⟨_, .refl, hq⟩
  | step hleads _ _ ih =>
      rcases ih with ⟨q, hq, hassigns⟩
      exact ⟨q, .head hleads hq, hassigns⟩

theorem not_assigns_of_probe {p : Moment} (hp : p.mode = .probe) (q : Moment) (t : SlotId)
    (hq : p.Reaches q) : ¬ q.Assigns t := by
  rintro ⟨hrun, -⟩
  rw [Reaches.probe hq hp] at hrun
  cases hrun

/-- Slots that differ before the evaluation, or are left assigned by it. -/
def stale (A : Set SlotId) (p : Moment) : Set SlotId :=
  A ∪ {t | p.Leaves t}

theorem subset_stale {A : Set SlotId} {p : Moment} : A ⊆ stale A p :=
  Set.subset_union_left

/-- Nothing is left assigned if nothing is assigned. -/
theorem stale_unassigned {A : Set SlotId} {p : Moment} (h : ∀ q t, p.Reaches q → ¬ q.Assigns t) :
    stale A p ⊆ A := by
  refine Set.union_subset subset_rfl fun t ht => ?_
  rcases Leaves.assigns ht with ⟨q, hq, hassigns⟩
  exact absurd hassigns (h q t hq)

theorem stale_probe {A : Set SlotId} {p : Moment} (hp : p.mode = .probe) : stale A p ⊆ A :=
  stale_unassigned (not_assigns_of_probe hp)

/-- Unless it is the body of a call, what a part leaves assigned the whole does. -/
theorem Leads.stale_subset {A B : Set SlotId} {p q : Moment} (h : p.Leads q)
    (hp : p.expr.ownCallees = []) (hA : A ⊆ stale B p) : stale A q ⊆ stale B p := by
  refine Set.union_subset hA fun t ht => .inr (Leaves.step h ?_ ht)
  unfold undone
  split
  · next hcall =>
      rw [hcall] at hp
      cases hp
  · exact List.not_mem_nil

/-- The evaluation is steady and sees none of the slots, and slots that it assigns may hold
anything. -/
structure Blind (K : Pairing) (A : Set SlotId) (p : Moment) : Prop where
  unseen : ∀ t ∈ A, ¬ p.Sees t
  steady : p.Steady
  free : ∀ q t, p.Reaches q → q.Assigns t → ∀ c c', K.allows t c c'

namespace Blind

variable {K : Pairing} {A : Set SlotId} {p q a b : Moment}

/-- Where nothing is assigned, nothing is read back and nothing is refused. -/
theorem of_unassigned (h : ∀ q t, p.Reaches q → ¬ q.Assigns t) (hA : ∀ t ∈ A, ¬ p.Sees t) :
    Blind K A p where
  unseen := hA
  steady q hq := by
    refine ⟨?_, ?_⟩
    · rintro ⟨a, b, t, hab, hleaves, -⟩
      rcases hleaves.assigns with ⟨r, hr, hassigns⟩
      have hleads : q.Leads a := hab.first
      exact h r t (hq.trans (.head hleads hr)) hassigns
    · rintro ⟨hrun, ts, e, v, u, hexpr, -, r, hr, -⟩
      exact h q r.slot hq ⟨hrun, ts, e, hexpr, r, hr, rfl⟩
  free q t hq hassigns := absurd hassigns (h q t hq)

theorem of_probe (hp : p.mode = .probe) (hA : ∀ t ∈ A, ¬ p.Sees t) : Blind K A p :=
  of_unassigned (not_assigns_of_probe hp) hA

/-- A part may be evaluated when the slots it does not see differ. -/
theorem part (h : Blind K A p) {B : Set SlotId} (hq : p.Leads q) (hB : ∀ t ∈ B, ¬ q.Sees t) :
    Blind K B q :=
  ⟨hB, h.steady.leads hq, fun q' t hq' => h.free q' t (.head hq hq')⟩

theorem operand (h : Blind K A p) (hq : p.Leads q) (hlet : p.expr.ownDeclarations = [])
    (hcall : p.expr.ownCallees = [] ∨ q.depth = p.depth) : Blind K A q :=
  h.part hq fun t ht hs => h.unseen t ht (.step hq hlet hcall hs)

/-- A later part does not see what an earlier one left assigned. -/
theorem next (h : Blind K A p) (hab : p.Precedes a b) (hb : p.Leads b)
    (hlet : p.expr.ownDeclarations = []) (hcall : p.expr.ownCallees = []) :
    Blind K (stale A a) b := by
  refine h.part hb ?_
  rintro t (ht | ht) hs
  · exact h.unseen t ht (.step hb hlet (.inl hcall) hs)
  · exact (h.steady p .refl).1 ⟨a, b, t, hab, ht, hs⟩

end Blind

/-! ### Bindings -/

section Bindings

variable {K : Pairing} {A : Set SlotId} {n : Nat} {mode : Mode} {s t : Machine}
variable {ds ds' : List (Declaration Expr)} {d : Declaration Expr} {b : Expr}

/-- Slots that may differ after some bindings: those that did before and were not bound, and those
that an initializer left assigned. -/
def unsettled (A : Set SlotId) (n : Nat) (mode : Mode) (s : Machine)
    (ds : List (Declaration Expr)) : Set SlotId :=
  {t | t ∈ A ∧ (∀ d ∈ ds, d.slot ≠ t) ∨ ∃ ds₁ d ds₂ u, ds = ds₁ ++ d :: ds₂ ∧
    bindWith (evaluateWithin n) mode ds₁ s = .ok () u ∧ d.dependent = false ∧
      Leaves ⟨n + 1, mode, d.initializer, u⟩ t}

/-- One more slot is bound. -/
theorem unsettled_snoc : unsettled A n mode s ds \ {d.slot} ⊆ unsettled A n mode s (ds ++ [d]) := by
  rintro t ⟨⟨htA, hne⟩ | ⟨ds₁, d', ds₂, u, rfl, hu, hd', hleaves⟩, ht⟩
  · refine .inl ⟨htA, fun d' hd' => ?_⟩
    rcases List.mem_append.1 hd' with hd' | hd'
    · exact hne d' hd'
    · rw [List.mem_singleton.1 hd']
      exact fun heq => ht heq.symm
  · exact .inr ⟨ds₁, d', ds₂ ++ [d], u, by simp, hu, hd', hleaves⟩

theorem unsettled_subset_stale :
    unsettled A n mode s ds ⊆ stale A ⟨n + 1, mode, .letIn (ds ++ ds') b, s⟩ := by
  rintro t (⟨ht, -⟩ | ⟨ds₁, d, ds₂, u, rfl, hu, hd, ht⟩)
  · exact .inl ht
  · rw [List.append_assoc, List.cons_append]
    exact (Leads.initializer hu hd).stale_subset (A := A) rfl subset_stale (.inr ht)

/-- An initializer does not see what the ones before it left assigned. -/
theorem Blind.initializer (h : Blind K A ⟨n + 1, mode, .letIn (ds ++ d :: ds') b, s⟩)
    (hds : bindWith (evaluateWithin n) mode ds s = .ok () t) (hd : d.dependent = false) :
    Blind K (unsettled A n mode s ds) ⟨n + 1, mode, d.initializer, t⟩ := by
  refine h.part (.initializer hds hd) ?_
  rintro x (⟨hx, hne⟩ | ⟨ds₁, d', ds₂, u, rfl, hu, hd', hx⟩) hs
  · exact h.unseen x hx (.initializer hds hd hne hs)
  · exact (h.steady _ .refl).1 ⟨_, _, x, .initializer hu hd' hds hd, hx, hs⟩

theorem Blind.inside (h : Blind K A ⟨n + 1, mode, .letIn ds b, s⟩)
    (hds : bindWith (evaluateWithin n) mode ds s = .ok () t) :
    Blind K (unsettled A n mode s ds) ⟨n + 1, mode, b, t⟩ := by
  refine h.part (.inside hds) ?_
  rintro x (⟨hx, hne⟩ | ⟨ds₁, d, ds₂, u, rfl, hu, hd, hx⟩) hs
  · exact h.unseen x hx (.inside hds hne hs)
  · exact (h.steady _ .refl).1 ⟨_, _, x, .inside hu hd hds, hx, hs⟩

end Bindings
end Moment

/-! ## Sequences -/

namespace Evaluation

variable {follow : Follow} {mode : Mode} {s t : Machine}

/-- There is a value for every argument. -/
theorem argumentsWith_length {es : List Expr} {vs : List Value}
    (h : argumentsWith follow es s = .ok vs t) : vs.length = es.length := by
  induction es generalizing s vs with
  | nil =>
      cases h
      rfl
  | cons e es ih =>
      rcases of_bind_ok h with ⟨v, u, -, h⟩
      rcases of_bind_ok h with ⟨ws, w, hws, h⟩
      cases h
      have hlength := ih hws
      simp [hlength]

/-- Every parameter is set. -/
theorem map_fst_parameters {f : Function} {es : List Expr} {vs : List Value}
    (harity : f.checkArity es.length = .ok ()) (hes : argumentsWith follow es s = .ok vs t) :
    (f.parameterSlots.zip vs).map Prod.fst = f.parameterSlots := by
  have hcount : f.parameters.length = es.length := by
    unfold Function.checkArity at harity
    split at harity
    · assumption
    · cases harity
  apply List.map_fst_zip
  rw [argumentsWith_length hes, Function.parameterSlots, List.length_range', hcount]

/-- Bindings can be filled in two goes. -/
theorem bindWith_append {ds ds' : List (Declaration Expr)}
    (h : bindWith follow mode ds s = .ok () t) :
    bindWith follow mode (ds ++ ds') s = bindWith follow mode ds' t := by
  induction ds generalizing s with
  | nil =>
      cases h
      rfl
  | cons d ds ih =>
      rw [bindWith_cons] at h
      rcases of_bind_ok h with ⟨_, u, hu, h⟩
      rw [List.cons_append, bindWith_cons, bind_ok hu]
      exact ih h

end Evaluation

open Moment

namespace Machine

variable {K : Pairing} {A B : Set SlotId} {texts : Array String} {s s' : Machine} {n : Nat}
variable {mode : Mode}

/-- Bindings are filled in the same way one after the other, if each initializer comes to the
same. -/
theorem Apart.bindings {ds ds' : List (Declaration Expr)} {t t' : Machine}
    (hds : bindWith (evaluateWithin n) mode ds s = .ok () t)
    (ht : Apart K (unsettled A n mode s ds) texts t t')
    (hB : ∀ ds₁ ds₂, ds ++ ds' = ds₁ ++ ds₂ → unsettled A n mode s ds₁ ⊆ B)
    (hinitializer : ∀ ds₁ d ds₂ u u', ds ++ ds' = ds₁ ++ d :: ds₂ →
      bindWith (evaluateWithin n) mode ds₁ s = .ok () u → d.dependent = false →
        Apart K (unsettled A n mode s ds₁) texts u u' →
          Parallel K (stale (unsettled A n mode s ds₁) ⟨n + 1, mode, d.initializer, u⟩) B texts
            (evaluateWithin (n + 1) mode d.initializer u)
              (evaluateWithin (n + 1) .probe d.initializer u')) :
    Parallel K (unsettled A n mode s (ds ++ ds')) B texts (bindWith (evaluateWithin n) mode ds' t)
      (bindWith (evaluateWithin n) .probe ds' t') := by
  induction ds' generalizing ds t t' with
  | nil =>
      rw [List.append_nil]
      exact .pure ht ()
  | cons d ds' ih =>
      have hsplit : ds ++ d :: ds' = ds ++ [d] ++ ds' := by simp
      have hone : Parallel K (unsettled A n mode s (ds ++ [d])) B texts
          (bindOne (evaluateWithin n) mode d t) (bindOne (evaluateWithin n) .probe d t') := by
        unfold bindOne
        split
        -- An initializer that is left in its slot is the same on both machines.
        · exact Parallel.mono (ht.defer (B := B) d.slot d.initializer) unsettled_snoc subset_rfl
        · next hd =>
            have hdependent : d.dependent = false := by simpa using hd
            refine Parallel.bind (hinitializer ds d ds' t t' rfl hds hdependent ht)
              fun v u u' _ hu => ?_
            refine (hu.write d.slot v).mono ?_ ?_
            · rintro x ⟨hx | hx, hne⟩
              · exact unsettled_snoc ⟨hx, hne⟩
              · exact .inr ⟨ds, d, [], t, rfl, hds, hdependent, hx⟩
            · rintro x (hx | hx)
              · exact hB ds (d :: ds') rfl hx
              · exact hB (ds ++ [d]) ds' hsplit (.inr ⟨ds, d, [], t, rfl, hds, hdependent, hx⟩)
      rw [bindWith_cons, bindWith_cons, hsplit]
      rw [hsplit] at hB hinitializer
      refine Parallel.bind hone fun _ u u' hu hapart => ih ?_ hapart hB hinitializer
      rw [bindWith_append hds, bindWith_cons, bind_ok hu]
      rfl

end Machine

/-! ## Expressions -/

open Machine

/-- The body of a call does not see what the parameters held before. -/
theorem Moment.Blind.body {K : Pairing} {A : Set SlotId} {n : Nat} {mode : Mode} {name : String}
    {f : FunctionId} {es : List Expr} {dependent : Bool} {s t u : Machine} {vs : List Value}
    {k : Memory} {b : Expr} (h : Blind K A ⟨n + 1, mode, .call name f es dependent, s⟩)
    (harity : (s.memory.function f).checkArity es.length = .ok ())
    (hes : argumentsWith (evaluateWithin n) es s = .ok vs t)
    (hb : (s.memory.function f).body = some b) (hk : t.memory.enter f = .ok k)
    (hu : writeAll ((s.memory.function f).parameterSlots.zip vs)
      { t with memory := k } = .ok () u) :
    Blind K (A \ {x | x ∈ ((s.memory.function f).parameterSlots.zip vs).map Prod.fst})
      ⟨n, mode, b, u⟩ := by
  refine h.part (.body harity hes hb hk hu) ?_
  rintro x ⟨hx, hparameter⟩ hs
  refine h.unseen x hx (.body harity hes hb hk hu (fun hmem => hparameter ?_) hs)
  show x ∈ ((s.memory.function f).parameterSlots.zip vs).map Prod.fst
  rwa [map_fst_parameters harity hes]

namespace Moment

/-- The slots in which the two machines may differ inside a call of `f`, beside those in which they
differed before: all of the frame, and what the call leaves assigned. -/
def inside (f : Function) (p : Moment) : Set SlotId :=
  {x | x ∈ f.frame ∨ p.Leaves x}

theorem union_inside_subset_stale {A : Set SlotId} {f : Function} {p : Moment} :
    A ∪ {x | x ∈ inside f p ∧ x ∉ f.frame} ⊆ stale A p :=
  Set.union_subset_union_right A fun _ hx => hx.1.resolve_left hx.2

/-- What the body leaves assigned outside the frame, the call does. -/
theorem stale_body_subset_inside (A : Set SlotId) (mode : Mode) (name : String) (dependent : Bool)
    {n : Nat} {f : FunctionId} {es : List Expr} {s t u : Machine} {vs : List Value} {k : Memory}
    {b : Expr} (harity : (s.memory.function f).checkArity es.length = .ok ())
    (hes : argumentsWith (evaluateWithin n) es s = .ok vs t)
    (hb : (s.memory.function f).body = some b) (hk : t.memory.enter f = .ok k)
    (hu : writeAll ((s.memory.function f).parameterSlots.zip vs)
      { t with memory := k } = .ok () u) :
    stale (A \ {x | x ∈ ((s.memory.function f).parameterSlots.zip vs).map Prod.fst})
        ⟨n, mode, b, u⟩ ⊆
      A ∪ inside (s.memory.function f) ⟨n + 1, mode, .call name f es dependent, s⟩ := by
  refine Set.union_subset_union (fun x hx => hx.1) fun x hx => ?_
  refine or_iff_not_imp_left.2 fun hframe => .step (.body harity hes hb hk hu) ?_ hx
  simpa [undone] using hframe

end Moment

/-- Carrying the expression out or asking for its value on one machine, and asking for its value on
the other, comes to the same wherever the evaluation is blind to the slots that differ. -/
def Machine.ParallelAt (K : Pairing) (texts : Array String) (n : Nat) (e : Expr) : Prop :=
  ∀ ⦃A : Set SlotId⦄ ⦃mode : Mode⦄ ⦃s s' : Machine⦄, Apart K A texts s s' →
    Blind K A ⟨n, mode, e, s⟩ →
      Parallel K (stale A ⟨n, mode, e, s⟩) (stale A ⟨n, mode, e, s⟩) texts
        (evaluateWithin n mode e s) (evaluateWithin n .probe e s')

namespace Machine.ParallelAt

variable {K : Pairing} {texts : Array String} {n m : Nat} {e : Expr}

/-- A part that is evaluated first leaves nothing assigned that the whole does not. -/
theorem first {A : Set SlotId} {p : Moment} {mode : Mode} {s s' : Machine}
    (he : ParallelAt K texts n e) (h : Apart K A texts s s') (hblind : Blind K A p)
    (hleads : Leads p ⟨n, mode, e, s⟩) (hlet : p.expr.ownDeclarations = [])
    (hcall : p.expr.ownCallees = []) :
    Parallel K (stale A p) (stale A p) texts (evaluateWithin n mode e s)
      (evaluateWithin n .probe e s') := by
  have hstale := hleads.stale_subset (A := A) hcall subset_stale
  exact Parallel.mono (he h (hblind.operand hleads hlet (.inl hcall))) hstale hstale

/-- A part that is evaluated after another one does not see what that one left assigned. -/
theorem next {A : Set SlotId} {p q : Moment} {mode : Mode} {s s' : Machine}
    (he : ParallelAt K texts n e) (h : Apart K (stale A q) texts s s') (hblind : Blind K A p)
    (hprecedes : p.Precedes q ⟨n, mode, e, s⟩) (hleads : Leads p ⟨n, mode, e, s⟩)
    (hlet : p.expr.ownDeclarations = []) (hcall : p.expr.ownCallees = []) :
    Parallel K (stale A p) (stale A p) texts (evaluateWithin n mode e s)
      (evaluateWithin n .probe e s') := by
  have hearlier := hprecedes.first.stale_subset (A := A) hcall subset_stale
  have hstale := hleads.stale_subset hcall hearlier
  exact Parallel.mono (he h (hblind.next hprecedes hleads hlet hcall)) hstale hstale

theorem zero : ParallelAt K texts 0 e :=
  fun _ _ _ _ h _ => .error (h.mono subset_stale)

theorem literal (v : Value) : ParallelAt K texts (n + 1) (.literal v) :=
  fun _ _ _ _ h _ => .pure (h.mono subset_stale) v

theorem declaration (name : String) (f : FunctionId) :
    ParallelAt K texts (n + 1) (.declaration name f) :=
  fun _ _ _ _ h _ => .pure (h.mono subset_stale) Value.void

/-- A slot that is read is seen, so that both machines hold the same there. -/
theorem read (r : Reference) (hstored : ∀ e, ParallelAt K texts n e) :
    ParallelAt K texts (n + 1) (.variable r) := by
  intro A mode s s' h hblind
  have hr : r.slot ∉ A := fun hr => hblind.unseen _ hr (.read ⟨r, rfl, rfl⟩)
  have hcontent : s'.memory.content r.slot = s.memory.content r.slot := h.memory.content _ hr
  show Parallel K _ _ texts (readWith (evaluateWithin n) mode r s)
    (readWith (evaluateWithin n) .probe r s')
  rw [readWith_apply, readWith_apply, hcontent]
  cases hc : s.memory.content r.slot with
  | uninitialized => exact .error (h.mono subset_stale)
  | value v => exact .pure (h.mono subset_stale) v
  | dependent e => exact (hstored e).first h hblind (.deferred hc) rfl rfl

theorem unary (op : UnaryOperator) (he : ParallelAt K texts (n + 1) e) :
    ParallelAt K texts (n + 1) (.unary op e) := by
  intro A mode s s' h hblind
  refine Parallel.bind (he.first h hblind .operand rfl rfl) ?_
  exact fun v t t' _ ht => .ofExcept ht subset_rfl _

/-- The right operand is evaluated on machines that differ in what the left one left assigned. -/
theorem binary (op : BinaryOperator) {l r : Expr} (hl : ParallelAt K texts (n + 1) l)
    (hr : ParallelAt K texts (n + 1) r) : ParallelAt K texts (n + 1) (.binary op l r) := by
  intro A mode s s' h hblind
  have hleft : Leads ⟨n + 1, mode, .binary op l r, s⟩ ⟨n + 1, mode, l, s⟩ := .left
  have hstale := hleft.stale_subset (A := A) rfl subset_stale
  have hoperand := hl h (hblind.operand hleft rfl (.inl rfl))
  refine Parallel.bind (Parallel.mono hoperand subset_rfl hstale) fun v t t' hv ht => ?_
  refine Parallel.bind (.ofExcept ht hstale (op.decided? v)) fun d u u' hd hu => ?_
  rcases of_ofExcept_ok hd with ⟨hundecided, rfl⟩
  cases d with
  | some w => exact .pure (hu.mono hstale) w
  | none =>
      have hright := hr.next hu hblind (.right hv hundecided) (.right hv hundecided) rfl rfl
      exact Parallel.bind hright fun w u u' _ hu => .ofExcept hu subset_rfl _

/-- Only the first machine stores the value. From then on the slots of the targets may differ. -/
theorem assign (ts : List Reference) (he : ParallelAt K texts (n + 1) e) :
    ParallelAt K texts (n + 1) (.assign ts e) := by
  intro A mode s s' h hblind
  refine Parallel.bind (he.first h hblind .assigned rfl rfl) fun v t t' hv ht => ?_
  cases mode with
  | probe => exact .pure ht v
  | run =>
      have hslots : ∀ r ∈ ts, r.slot ∈ stale A ⟨n + 1, .run, .assign ts e, s⟩ := fun r hr =>
        .inr (.assigned ⟨rfl, ts, e, rfl, r, hr, rfl⟩)
      have hfree : ∀ r ∈ ts, ∀ c c', K.allows r.slot c c' := fun r hr =>
        hblind.free _ r.slot .refl ⟨rfl, ts, e, rfl, r, hr, rfl⟩
      -- The probe does not write, so it is the steadiness of the run that rules out a refused
      -- write.
      have hkinds : ∀ r ∈ ts, (t.memory.slot r.slot).kind.accepts v.kind = true := by
        intro r hr
        by_contra hne
        exact (hblind.steady _ .refl).2 ⟨rfl, ts, e, v, t, rfl, hv, r, hr, by simpa using hne⟩
      rcases ht.assigned v hslots hfree hkinds with ⟨u, hu, hapart⟩
      have hstored : (writeTargets v ts >>= fun _ => (pure v : Evaluation Value)) t = .ok v u :=
        bind_ok hu
      show Parallel K _ _ texts
        ((writeTargets v ts >>= fun _ => (pure v : Evaluation Value)) t) (.ok v t')
      rw [hstored]
      exact .ok ⟨rfl, hapart⟩

/-- Only the first machine prints. -/
theorem print (he : ParallelAt K texts (n + 1) e) : ParallelAt K texts (n + 1) (.print e) := by
  intro A mode s s' h hblind
  refine Parallel.bind (he.first h hblind .printed rfl rfl) fun v t t' _ ht => ?_
  cases mode with
  | probe => exact .pure ht v
  | run =>
      refine .ok ⟨rfl, ht.memory, ht.silent, ht.printed.trans ?_⟩
      simp

/-- Arguments are only asked for their values on both machines, so that they assign nothing. -/
theorem arguments {A : Set SlotId} {mode : Mode} {name : String} {f : FunctionId}
    {es : List Expr} {dependent : Bool} {s s' : Machine}
    (hes : ∀ e ∈ es, ParallelAt K texts (n + 1) e) (h : Apart K A texts s s')
    (hblind : Blind K A ⟨n + 1, mode, .call name f es dependent, s⟩)
    (harity : (s.memory.function f).checkArity es.length = .ok ()) :
    Parallel K A A texts (argumentsWith (evaluateWithin n) es s)
      (argumentsWith (evaluateWithin n) es s') := by
  refine arguments_agree h ?_
  rintro es₁ e es₂ vs u u' rfl hvs hu
  have hleads : Leads ⟨n + 1, mode, .call name f (es₁ ++ e :: es₂) dependent, s⟩
      ⟨n + 1, .probe, e, u⟩ := .argument harity hvs
  have hargument := hes e (by simp) hu (hblind.operand hleads rfl (.inr rfl))
  exact Parallel.mono hargument (stale_probe rfl) (stale_probe rfl)

/-- What the body leaves assigned in the frame is put back on both machines when the call ends. -/
theorem call (name : String) (f : FunctionId) {es : List Expr} (dependent : Bool)
    (hstored : ∀ e, ParallelAt K texts n e) (hes : ∀ e ∈ es, ParallelAt K texts (n + 1) e) :
    ParallelAt K texts (n + 1) (.call name f es dependent) := by
  intro A mode s s' h hblind
  rw [Moment.evaluateWithin_call, Moment.evaluateWithin_call, h.memory.function f]
  refine Parallel.bind (.ofExcept h subset_stale _) fun _ t t' harity ht => ?_
  rcases of_ofExcept_ok harity with ⟨harity, rfl⟩
  have harguments := arguments hes ht hblind harity
  refine Parallel.bind (harguments.mono subset_rfl subset_stale) fun vs u u' hvs hu => ?_
  cases hb : (t.memory.function f).body with
  | none => exact .error (hu.mono subset_stale)
  | some b =>
      have hstale := union_inside_subset_stale (A := A) (f := t.memory.function f)
        (p := ⟨n + 1, mode, .call name f es dependent, t⟩)
      refine Parallel.mono (hu.call fun k w w' hk hw hapart => ?_) hstale hstale
      have hbody := hstored b hapart (hblind.body harity hvs hb hk hw)
      have hinside := stale_body_subset_inside A mode name dependent harity hvs hb hk hw
      exact Parallel.mono hbody hinside hinside

/-- The slots of earlier bindings have been filled in the same way, whatever they held. -/
theorem letIn {ds : List (Declaration Expr)} {b : Expr}
    (hds : ∀ d ∈ ds, ParallelAt K texts (n + 1) d.initializer)
    (hb : ParallelAt K texts (n + 1) b) : ParallelAt K texts (n + 1) (.letIn ds b) := by
  intro A mode s s' h hblind
  have hstart : Apart K (unsettled A n mode s []) texts s s' :=
    h.mono fun x hx => .inl ⟨hx, by simp⟩
  -- What may be stale after some of the bindings may be stale during the whole.
  have hsubset : ∀ ds₁ ds₂, [] ++ ds = ds₁ ++ ds₂ →
      unsettled A n mode s ds₁ ⊆ stale A ⟨n + 1, mode, .letIn ds b, s⟩ := by
    rintro ds₁ ds₂ hsplit
    rw [List.nil_append] at hsplit
    rw [hsplit]
    exact unsettled_subset_stale
  have hbindings : Parallel K (unsettled A n mode s ds) (stale A ⟨n + 1, mode, .letIn ds b, s⟩)
      texts (bindWith (evaluateWithin n) mode ds s) (bindWith (evaluateWithin n) .probe ds s') := by
    have hnone : bindWith (evaluateWithin n) mode [] s = .ok () s := rfl
    refine Apart.bindings hnone hstart hsubset ?_
    rintro ds₁ d ds₂ u u' hsplit hu hd hapart
    rw [List.nil_append] at hsplit
    subst hsplit
    have hinitializer := hds d (by simp) hapart (hblind.initializer hu hd)
    refine Parallel.mono hinitializer subset_rfl ?_
    exact (Leads.initializer hu hd).stale_subset rfl (hsubset ds₁ (d :: ds₂) rfl)
  refine Parallel.bind hbindings fun _ t t' hbound ht => ?_
  have hstale := (Leads.inside (b := b) hbound).stale_subset rfl (hsubset ds [] (by simp))
  exact Parallel.mono (hb ht (hblind.inside hbound)) hstale hstale

/-- Both machines take the same branch, since they agree on the condition. -/
theorem conditional {c a e : Expr} (hc : ParallelAt K texts (n + 1) c)
    (ha : ParallelAt K texts (n + 1) a) (he : ParallelAt K texts (n + 1) e) :
    ParallelAt K texts (n + 1) (.conditional c a e) := by
  intro A mode s s' h hblind
  have hcondition : Leads ⟨n + 1, mode, .conditional c a e, s⟩ ⟨n + 1, mode, c, s⟩ := .condition
  have hstale := hcondition.stale_subset (A := A) rfl subset_stale
  have hfirst := hc h (hblind.operand hcondition rfl (.inl rfl))
  refine Parallel.bind (Parallel.mono hfirst subset_rfl hstale) fun v t t' hvalue ht => ?_
  refine Parallel.bind (.ofExcept ht hstale (v.asBoolean .condition)) fun d u u' hd hu => ?_
  rcases of_ofExcept_ok hd with ⟨hv, rfl⟩
  cases d with
  | true => exact ha.next hu hblind (.consequent hvalue hv) (.consequent hvalue hv) rfl rfl
  | false => exact he.next hu hblind (.alternative hvalue hv) (.alternative hvalue hv) rfl rfl

end Machine.ParallelAt

/-- The two modes come to the same for every expression, at any depth. -/
theorem parallelAt (K : Pairing) (texts : Array String) (n : Nat) (e : Expr) :
    ParallelAt K texts n e := by
  -- Stored expressions are followed to a smaller depth, and operands are evaluated at the same one.
  induction n generalizing e with
  | zero => exact .zero
  | succ n ihn =>
      induction e using Expr.induction with
      | literal v => exact .literal v
      | declaration name f => exact .declaration name f
      | read r => exact .read r ihn
      | unary op e ih => exact .unary op ih
      | binary op l r ihl ihr => exact .binary op ihl ihr
      | assign ts e ih => exact .assign ts ih
      | call name f es dependent ih => exact .call name f dependent ihn ih
      | print e ih => exact .print ih
      | letIn ds b ihd ihb => exact .letIn ihd ihb
      | conditional c a e ihc iha ihe => exact .conditional ihc iha ihe

/-- An expression is carried out or asked for its value on one machine and asked for its value on
the other. If the evaluation is blind to the slots that differ, it comes to the same. -/
theorem evaluateWithin_parallel {K : Pairing} {A : Set SlotId} {texts : Array String} {n : Nat}
    {mode : Mode} {e : Expr} {s s' : Machine} (h : Apart K A texts s s')
    (hblind : Blind K A ⟨n, mode, e, s⟩) :
    Parallel K (stale A ⟨n, mode, e, s⟩) (stale A ⟨n, mode, e, s⟩) texts (evaluateWithin n mode e s)
      (evaluateWithin n .probe e s') :=
  parallelAt K texts n e h hblind

end LineLang
