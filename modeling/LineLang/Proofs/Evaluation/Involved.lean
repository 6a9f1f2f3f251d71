import LineLang.Proofs.Evaluation.Modes

/-!
# What an evaluation can come across

An expression involves its parts, the initializers left in the slots that it reads and the bodies of
the functions that it calls, and all that these involve. Evaluation stores no expression but such
ones, so that it never comes to any other.

- `Memory.Involves`             : all that an expression involves
- `Memory.Within`               : a storage that holds nothing else
- `evaluateWithin_within`       : evaluation keeps to it
- `Moment.Reaches.involves`     : so do all moments
- `Moment.blind_of_unassigned`  : where no assignment is involved, none matters
-/

namespace LineLang

open Effect Evaluation

namespace Memory

/-- The expression itself and its parts, initializers in slots that are read, bodies of functions
that are called, and so on. -/
inductive Involves (m : Memory) (e : Expr) : Expr → Prop
  | self : Involves m e e
  | part {p q} : Involves m e p → q ∈ p.parts → Involves m e q
  | deferred {r q} : Involves m e (.variable r) → m.content r.slot = .dependent q → Involves m e q
  | body {name f es dependent b} : Involves m e (.call name f es dependent) →
      (m.function f).body = some b → Involves m e b

def storedAll (check : Expr → Bool) (m : Memory) : Bool :=
  m.functions.toList.all (fun f => f.body.all fun b => b.parts.all check) &&
    m.slots.toList.all fun s => match s.content with
      | .dependent e => e.parts.all check
      | _ => true

/-- The check was made of the body of every function. -/
theorem storedAll_body {m : Memory} {check : Expr → Bool} (hm : m.storedAll check = true)
    {f : FunctionId} {b : Expr} (hb : (m.function f).body = some b) : b.parts.all check = true := by
  rw [storedAll, Bool.and_eq_true, List.all_eq_true, List.all_eq_true] at hm
  have hlt := lt_size_of_body hb
  have hfunction : m.function f ∈ m.functions.toList := by simp [function, hlt]
  have hcheck := hm.1 _ hfunction
  rwa [hb] at hcheck

/-- It was made of every initializer that is left in a slot. -/
theorem storedAll_deferred {m : Memory} {check : Expr → Bool} (hm : m.storedAll check = true)
    {t : SlotId} {e : Expr} (he : m.content t = .dependent e) : e.parts.all check = true := by
  rw [storedAll, Bool.and_eq_true, List.all_eq_true, List.all_eq_true] at hm
  have hlt := lt_size_of_dependent he
  have hslot : m.slot t ∈ m.slots.toList := by simp [slot, hlt]
  have hcheck := hm.2 _ hslot
  rw [Memory.content] at he
  rwa [he] at hcheck

/-- What holds of the parts of the expression and of all that is stored holds of all that is
involved. -/
theorem Involves.all {m : Memory} {e q : Expr} {check : Expr → Bool} (h : m.Involves e q)
    (hm : m.storedAll check = true) (he : e.parts.all check = true) : q.parts.all check = true := by
  induction h with
  | self => exact he
  | part _ hq ih =>
      rw [List.all_eq_true] at ih ⊢
      exact fun p hp => ih p (Expr.mem_parts_trans hp hq)
  | deferred _ hc _ => exact storedAll_deferred hm hc
  | body _ hb _ => exact storedAll_body hm hb

/-- The bodies of functions are those of `m`, and slots that are read only hold what is involved. -/
structure Within (m : Memory) (e : Expr) (k : Memory) : Prop where
  bodies : ∀ f, (k.function f).body = (m.function f).body
  contents : ∀ r q, m.Involves e (.variable r) → k.content r.slot = .dependent q → m.Involves e q

namespace Within

variable {m k l : Memory} {e : Expr}

theorem refl (m : Memory) (e : Expr) : m.Within e m :=
  ⟨fun _ => rfl, fun _ _ hr hc => .deferred hr hc⟩

theorem replace (h : m.Within e k) {i : SlotId} {c : Content}
    (hc : ∀ r q, m.Involves e (.variable r) → r.slot = i → c = .dependent q → m.Involves e q) :
    m.Within e (k.replace i c) := by
  refine ⟨h.bodies, fun r q hr hq => ?_⟩
  rcases content_replace k i r.slot c with heq | ⟨hi, heq⟩
  · exact h.contents r q hr (heq ▸ hq)
  · exact hc r q hr hi (heq ▸ hq)

/-- Slots that are put back held nothing else before. -/
theorem putBack (h : m.Within e k) (h' : m.Within e l) (ids : List SlotId) :
    m.Within e (l.putBack (k.save ids)) := by
  induction ids with
  | nil => exact h'
  | cons i ids ih =>
      refine ih.replace ?_
      rintro r q hr rfl hq
      exact h.contents r q hr hq

/-- Counting calls does not matter. -/
theorem modifyDepth (h : m.Within e k) (id : FunctionId) (g : Function → Nat) :
    m.Within e (k.modifyFunction id fun f => { f with depth := g f }) := by
  refine ⟨fun f => ?_, h.contents⟩
  rw [← h.bodies f]
  by_cases hf : f = id
  · subst hf
    by_cases hs : f < k.functions.size
    · rw [function_modify_self hs]
    · rw [function_of_size_le (by simpa using hs), function_of_size_le (by simpa using hs)]
  · rw [function_modify_of_ne hf]

end Within
end Memory

/-! ## Actions -/

namespace Evaluation

variable {m : Memory} {e : Expr} {n : Nat} {mode : Mode}

/-- A stored value involves nothing. -/
theorem write_within {i : SlotId} {v : Value} :
    Keeps (fun _ => True) (fun s => m.Within e s.memory) (write i v) := by
  apply triple_write
  · intro s hs _
    exact hs.replace fun r q _ _ hq => by cases hq
  · intro s site expected received hs
    exact ⟨trivial, hs⟩

theorem writeTargets_within {v : Value} {ts : List Reference} :
    Keeps (fun _ => True) (fun s => m.Within e s.memory) (writeTargets v ts) := by
  induction ts with
  | nil => exact Keeps.pure
  | cons t ts ih => exact Keeps.bind write_within fun _ => ih

theorem writeAll_within {pairs : List (SlotId × Value)} :
    Keeps (fun _ => True) (fun s => m.Within e s.memory) (writeAll pairs) :=
  writeAll_keeps fun _ _ => write_within

/-- A call keeps to what is involved, if its body does. -/
theorem asCall_within {id : FunctionId} {f : Function} {vs : List Value} {x : Evaluation Value}
    (hx : Keeps (fun _ => True) (fun s => m.Within e s.memory) x) :
    Keeps (fun _ => True) (fun s => m.Within e s.memory) (asCall id (inFrame f vs x)) := by
  have hentered : Keeps (fun _ => True) (fun s : Machine => m.Within e s.memory)
      (Effect.update fun s => do return { s with memory := ← s.memory.enter id }) := by
    apply Triple.update
    · intro s t hs ht
      rcases ok_of_bind ht with ⟨k, hk, hend⟩
      cases hend
      rw [(Memory.enter_ok hk).2]
      exact hs.modifyDepth id _
    · exact fun s fault hs _ => ⟨trivial, hs⟩
  refine Keeps.bind hentered fun _ => Triple.ensuring ?_
  refine Triple.get_bind fun s hs => Triple.ensuring ?_
  have hrun : Keeps (fun _ => True) (fun s => m.Within e s.memory)
      (writeAll (f.parameterSlots.zip vs) >>= fun _ => x) :=
    Keeps.bind writeAll_within fun _ => hx
  -- The frame is put back and the call is no longer counted, on success and on failure alike.
  have hback : ∀ t : Machine, m.Within e t.memory →
      m.Within e (Memory.leave id (Memory.putBack (s.memory.save f.frame) t.memory)) :=
    fun t ht => (hs.putBack ht f.frame).modifyDepth id _
  refine hrun.weaken_at hs (fun _ t ht => hback t ht) fun _ t ht => ⟨trivial, hback t ht.2⟩

/-- Initializers that are left in slots are parts of the expression. -/
theorem bindWith_within {ds : List (Declaration Expr)}
    (hds : ∀ d ∈ ds, m.Involves e d.initializer ∧
      Keeps (fun _ => True) (fun s => m.Within e s.memory)
        (evaluateWithin (n + 1) mode d.initializer)) :
    Keeps (fun _ => True) (fun s => m.Within e s.memory) (bindWith (evaluateWithin n) mode ds) := by
  induction ds with
  | nil => exact Keeps.pure
  | cons d ds ih =>
      rw [List.forall_mem_cons] at hds
      rw [bindWith_cons]
      refine Keeps.bind ?_ fun _ => ih hds.2
      unfold bindOne
      split
      · refine Triple.modify fun s hs => hs.replace fun r q _ _ hq => ?_
        cases hq
        exact hds.1.1
      · exact Keeps.bind hds.1.2 fun v => write_within

end Evaluation

/-! ## Expressions -/

open Memory

/-- Evaluation of what is involved stores nothing but what is involved. -/
theorem evaluateWithin_within {m : Memory} {e p : Expr} (n : Nat) (mode : Mode)
    (hp : m.Involves e p) :
    Keeps (fun _ => True) (fun s => m.Within e s.memory) (evaluateWithin n mode p) := by
  -- Stored expressions are followed to a smaller depth, operands to the same one: hence the
  -- induction on the depth, and inside it the one on the expression.
  induction n generalizing mode p with
  | zero => exact Keeps.throw trivial
  | succ n ihn =>
      induction p using Expr.induction generalizing mode with
      | literal v | declaration name f => exact Keeps.pure
      | read r =>
          refine Triple.get_bind fun s hs => Triple.weaken (P := fun s => m.Within e s.memory) ?_
            (by rintro _ rfl; exact hs) (fun _ _ h => h) fun _ _ h => h
          cases hc : s.memory.content r.slot with
          | uninitialized => exact Keeps.throw trivial
          | value v => exact Keeps.pure
          | dependent q => exact ihn mode (hs.contents r q hp hc)
      | unary op p ih =>
          refine Keeps.bind (ih mode (hp.part ?_)) fun v => Keeps.ofExcept fun _ _ => trivial
          simp [Expr.parts, Expr.mem_parts_self]
      | binary op l r ihl ihr =>
          refine Keeps.bind (ihl mode (hp.part ?_)) fun v => ?_
          · simp [Expr.parts, Expr.mem_parts_self]
          · refine Keeps.bind (Keeps.ofExcept fun _ _ => trivial) fun d => ?_
            cases d with
            | some w => exact Keeps.pure
            | none =>
                refine Keeps.bind (ihr mode (hp.part ?_)) fun w => Keeps.ofExcept fun _ _ => trivial
                simp [Expr.parts, Expr.mem_parts_self]
      | assign ts p ih =>
          refine Keeps.bind (ih mode (hp.part ?_)) fun v => ?_
          · simp [Expr.parts, Expr.mem_parts_self]
          · cases mode with
            | run => exact Keeps.bind writeTargets_within fun _ => Keeps.pure
            | probe => exact Keeps.pure
      | call name f es dependent ih =>
          have hes : Keeps (fun _ => True) (fun s => m.Within e s.memory)
              (argumentsWith (evaluateWithin n) es) := by
            refine argumentsWith_keeps fun a ha mode => ih a ha mode (hp.part ?_)
            exact List.mem_cons_of_mem _ (Expr.mem_partsOfAll.2 ⟨a, ha, Expr.mem_parts_self a⟩)
          refine Triple.get_bind fun s hs => Triple.weaken (P := fun s => m.Within e s.memory) ?_
            (by rintro _ rfl; exact hs) (fun _ _ h => h) fun _ _ h => h
          refine Keeps.bind (Keeps.ofExcept fun _ _ => trivial) fun _ => Keeps.bind hes fun vs => ?_
          cases hb : (s.memory.function f).body with
          | none => exact Keeps.throw trivial
          | some b =>
              -- The body is the one that the function had at the start.
              rw [hs.bodies f] at hb
              exact asCall_within (ihn mode (.body hp hb))
      | print p ih =>
          refine Keeps.bind (ih mode (hp.part ?_)) fun v => ?_
          · simp [Expr.parts, Expr.mem_parts_self]
          · cases mode with
            | run => exact Keeps.bind (Triple.modify fun _ hs => hs) fun _ => Keeps.pure
            | probe => exact Keeps.pure
      | letIn ds b ihd ihb =>
          have hds : ∀ d ∈ ds, m.Involves e d.initializer := fun d hd =>
            hp.part (Expr.initializer_mem_parts (p := .letIn ds b) hd)
          refine Keeps.bind (bindWith_within fun d hd => ⟨hds d hd, ihd d hd mode (hds d hd)⟩)
            fun _ => ?_
          refine ihb mode (hp.part ?_)
          simp [Expr.parts, Expr.mem_parts_self]
      | conditional c a b ihc iha ihb =>
          refine Keeps.bind (ihc mode (hp.part ?_)) fun v => ?_
          · simp [Expr.parts, Expr.mem_parts_self]
          · refine Keeps.bind (Keeps.ofExcept fun _ _ => trivial) fun d => ?_
            cases d with
            | true => exact iha mode (hp.part (by simp [Expr.parts, Expr.mem_parts_self]))
            | false => exact ihb mode (hp.part (by simp [Expr.parts, Expr.mem_parts_self]))

theorem argumentsWith_within {m : Memory} {e : Expr} (n : Nat) {es : List Expr}
    (hes : ∀ a ∈ es, m.Involves e a) :
    Keeps (fun _ => True) (fun s => m.Within e s.memory) (argumentsWith (evaluateWithin n) es) :=
  argumentsWith_keeps fun a ha mode => evaluateWithin_within (n + 1) mode (hes a ha)

namespace Moment

/-- The next moments are of expressions that are involved, on machines that hold nothing else. -/
theorem Leads.involves {m : Memory} {e : Expr} {p q : Moment} (h : p.Leads q)
    (hp : m.Involves e p.expr) (hm : m.Within e p.machine.memory) :
    m.Involves e q.expr ∧ m.Within e q.machine.memory := by
  cases h with
  | operand | left | assigned | printed | condition =>
      exact ⟨hp.part (by simp [Expr.parts, Expr.mem_parts_self]), hm⟩
  | @right n mode op l r s v t hl hundecided =>
      have hleft : m.Involves e l := hp.part (by simp [Expr.parts, Expr.mem_parts_self])
      exact ⟨hp.part (by simp [Expr.parts, Expr.mem_parts_self]),
        (evaluateWithin_within (n + 1) mode hleft).of_ok hm hl⟩
  | @consequent n mode c a b s v t hc hv | @alternative n mode c a b s v t hc hv =>
      have hcondition : m.Involves e c := hp.part (by simp [Expr.parts, Expr.mem_parts_self])
      exact ⟨hp.part (by simp [Expr.parts, Expr.mem_parts_self]),
        (evaluateWithin_within (n + 1) mode hcondition).of_ok hm hc⟩
  | @argument n mode name f es a es' dependent s vs t harity hes =>
      have hpart : ∀ a' ∈ es ++ a :: es', m.Involves e a' := fun a' ha' =>
        hp.part (List.mem_cons_of_mem _ (Expr.mem_partsOfAll.2 ⟨a', ha', Expr.mem_parts_self a'⟩))
      refine ⟨hpart a (by simp), (argumentsWith_within n fun a' ha' => ?_).of_ok hm hes⟩
      exact hpart a' (List.mem_append_left _ ha')
  | @body n mode name f es dependent s vs t k u b harity hes hb hk hu =>
      have hpart : ∀ a ∈ es, m.Involves e a := fun a ha =>
        hp.part (List.mem_cons_of_mem _ (Expr.mem_partsOfAll.2 ⟨a, ha, Expr.mem_parts_self a⟩))
      have ht : m.Within e t.memory := (argumentsWith_within n hpart).of_ok hm hes
      refine ⟨hp.body ((hm.bodies f).symm.trans hb), ?_⟩
      refine writeAll_within.of_ok (s := { t with memory := k }) ?_ hu
      -- Entering a call changes its depth and nothing else.
      rw [(enter_ok hk).2]
      exact ht.modifyDepth f _
  | @initializer n mode ds d ds' b s t hds hd =>
      have hpart : ∀ d' ∈ ds ++ d :: ds', m.Involves e d'.initializer := fun d' hd' =>
        hp.part (Expr.initializer_mem_parts (p := .letIn (ds ++ d :: ds') b) hd')
      refine ⟨hpart d (by simp), (bindWith_within fun d' hd' => ?_).of_ok hm hds⟩
      have hinvolved := hpart d' (List.mem_append_left _ hd')
      exact ⟨hinvolved, evaluateWithin_within (n + 1) mode hinvolved⟩
  | @inside n mode ds b s t hds =>
      refine ⟨hp.part (by simp [Expr.parts, Expr.mem_parts_self]),
        (bindWith_within fun d hd => ?_).of_ok hm hds⟩
      have hinvolved : m.Involves e d.initializer :=
        hp.part (Expr.initializer_mem_parts (p := .letIn ds b) hd)
      exact ⟨hinvolved, evaluateWithin_within (n + 1) mode hinvolved⟩
  | deferred he => exact ⟨hm.contents _ _ hp he, hm⟩

/-- An evaluation only comes to what its expression involves. -/
theorem Reaches.involves {p q : Moment} (h : p.Reaches q) :
    p.machine.memory.Involves p.expr q.expr := by
  have hq : p.machine.memory.Involves p.expr q.expr ∧
      p.machine.memory.Within p.expr q.machine.memory := by
    induction h with
    | refl => exact ⟨.self, .refl _ _⟩
    | tail _ hleads ih => exact hleads.involves ih.1 ih.2
  exact hq.1

/-- Where no assignment is involved, nothing is left assigned and nothing is refused. -/
theorem blind_of_unassigned {p : Moment}
    (h : ∀ ts v, ¬ p.machine.memory.Involves p.expr (.assign ts v)) (K : Pairing) :
    p.Blind K ∅ ∧ stale ∅ p = ∅ := by
  have hassigns : ∀ q t, p.Reaches q → ¬ q.Assigns t := by
    rintro q t hq ⟨-, ts, v, hexpr, -⟩
    exact h ts v (hexpr ▸ Reaches.involves hq)
  refine ⟨.of_unassigned hassigns fun t ht => absurd ht (Set.notMem_empty t), ?_⟩
  exact Set.eq_empty_of_subset_empty (stale_unassigned hassigns)

end Moment
end LineLang
