import LineLang.Proofs.Evaluation.Ownership
import Mathlib.Algebra.Ring.Nat

/-!
# The bound on stored expressions

Evaluation follows bodies of functions and initializers in slots. An initializer only leads to slots
before its own, and every function has a limited number of calls, so that a chain of stored
expressions ends. The bound that evaluation is given is larger than any such chain.

- `Memory.reserve`                     : the number of calls that may still be made active
- `Evaluation.evaluateWithin_keeps`    : evaluation is confined to the slots of its owner, and ends
- `Evaluation.evaluateWithin_mono`     : a larger bound gives the same answer
- `Evaluation.evaluate_confined`, `Evaluation.evaluateWithin_eq_evaluate`  : the same for `evaluate`
-/

namespace LineLang

open Effect

/-! ## Calls that may still be made -/

def Function.reserve (f : Function) : Nat :=
  callLimit - f.depth

/-- A sum changes by what its one changed term changes. -/
theorem sum_map_modify {α : Type} (w : α → Nat) (g : α → α) {l : List α} {i : Nat} {a : α}
    (h : l[i]? = some a) : ((l.modify i g).map w).sum + w a = (l.map w).sum + w (g a) := by
  induction l generalizing i with
  | nil => simp at h
  | cons b l ih =>
      cases i with
      | zero =>
          cases h
          simp only [List.modify_zero_cons, List.map_cons, List.sum_cons]
          omega
      | succ i =>
          have hi := ih (i := i) (by simpa using h)
          simp only [List.modify_succ_cons, List.map_cons, List.sum_cons]
          omega

namespace Memory

def reserve (m : Memory) : Nat :=
  (m.functions.toList.map Function.reserve).sum

/-- No more calls are in reserve than the limit allows for each function. -/
theorem reserve_le (m : Memory) : m.reserve ≤ callLimit * m.functions.size := by
  have h : ∀ l : List Function, (l.map Function.reserve).sum ≤ callLimit * l.length := by
    intro l
    induction l with
    | nil => simp
    | cons f l ih =>
        simp only [List.map_cons, List.sum_cons, List.length_cons, Nat.mul_succ]
        have hf : f.reserve ≤ callLimit := Nat.sub_le _ _
        omega
  simpa [reserve] using h m.functions.toList

/-- Each call that is entered takes one from the reserve. -/
theorem reserve_enter {m n : Memory} {id : FunctionId} (hid : id < m.functions.size)
    (h : m.enter id = .ok n) : n.reserve + 1 = m.reserve := by
  rcases enter_ok h with ⟨hd, rfl⟩
  have hget : m.functions.toList[id]? = some (m.function id) := by
    simp [function, hid]
  have hsum := sum_map_modify Function.reserve (fun f => { f with depth := f.depth + 1 }) hget
  simp only [reserve, modifyFunction, Array.toList_modify]
  simp only [Function.reserve] at hsum ⊢
  omega

end Memory

namespace Evaluation

variable {owner : SlotId → FunctionId} {o : FunctionId} {m : Memory}

/-- Leaving an initializer in a slot of the owner is confined to that owner. -/
theorem defer_confined {G : Fault → Prop} {d : Declaration Expr} (hd : owner d.slot = o)
    (hlocal : d.initializer.Local owner o) (hlt : d.initializer.SlotsIn (· < d.slot)) :
    Keeps G (Confined owner o m) (defer d.slot d.initializer) := by
  apply Triple.modify
  intro s hs
  refine ⟨hs.1.replace ?_, hs.2.trans ?_⟩
  · rintro e ⟨⟩
    exact ⟨hd ▸ hlocal, hlt⟩
  · exact Memory.UnchangedOutside.replace (S := (owner · = o)) hd _

/-- The fault does not mean that evaluation gave up, if the bound `n` covers, for each call in
reserve, all initializers that the call may follow. -/
def NotEndless (m : Memory) (b n : Nat) (fault : Fault) : Prop :=
  m.reserve * (m.slots.size + 1) + b < n → fault ≠ .endless

/-- An initializer in a slot leads to smaller slots, so the same reserve is enough. -/
theorem readWith_keeps {n b : Nat} {mode : Mode} {r : Reference} (hown : owner r.slot = o)
    (hrb : r.slot < b) (hfollow : ∀ {i : Expr}, i.Local owner o → i.SlotsIn (· < r.slot) →
      Keeps (NotEndless m r.slot n) (Confined owner o m) (evaluateWithin n mode i)) :
    Keeps (NotEndless m b (n + 1)) (Confined owner o m) (readWith (evaluateWithin n) mode r) := by
  apply Triple.get_bind
  intro s hs
  refine Triple.weaken (P := Confined owner o m) ?_ (by rintro _ rfl; exact hs)
    (fun _ _ h => h) fun _ _ h => h
  cases hc : s.memory.content r.slot with
  | uninitialized => exact Keeps.throw fun _ => nofun
  | value v => exact Keeps.pure
  | dependent i =>
      rcases hs.1.deferred r.slot i hc with ⟨hlocal, hlt⟩
      rw [hown] at hlocal
      have hrb' : Nat.succ r.slot ≤ b := hrb
      refine (hfollow hlocal hlt).weaken (fun _ h => h) (fun _ _ h => h) ?_
      exact fun fault _ h => ⟨fun hn => h.1 (by omega), h.2⟩

/-- A body may use all slots, but it has one call less in reserve. -/
theorem body_keeps {n b : Nat} {mode : Mode} {id : FunctionId} {s : Machine} {body : Expr}
    {k : Memory} (hs : Confined owner o m s) (hbody : (m.function id).body = some body)
    (hk : s.memory.enter id = .ok k) (hfollow : body.Local owner id →
      body.SlotsIn (· < k.slots.size) →
        Keeps (NotEndless k k.slots.size n) (Confined owner id k) (evaluateWithin n mode body)) :
    Keeps (NotEndless m b (n + 1)) (Confined owner id k) (evaluateWithin n mode body) := by
  have hid : id < s.memory.functions.size := by
    rw [hs.2.functions]
    exact Memory.lt_size_of_body hbody
  have hks : k.slots.size = m.slots.size := by
    rw [(Memory.enter_ok hk).2]
    exact hs.2.size
  have hreserve : k.reserve + 1 = m.reserve := by
    rw [Memory.reserve_enter hid hk]
    simp only [Memory.reserve, hs.2.functions]
  have hlocal := hs.1.body id body (by rw [hs.2.function id, hbody])
  have hslots : body.SlotsIn (· < k.slots.size) := by
    rw [hks, ← hs.2.size]
    exact hlocal.2
  refine (hfollow hlocal.1 hslots).weaken (fun _ h => h) (fun _ _ h => h) ?_
  refine fun fault _ h => ⟨fun hn => h.1 ?_, h.2⟩
  have hmul : (k.reserve + 1) * (m.slots.size + 1) =
      k.reserve * (m.slots.size + 1) + (m.slots.size + 1) := Nat.succ_mul _ _
  rw [hks]
  rw [← hreserve, hmul] at hn
  omega

/-- Evaluation is confined to the slots of its owner. It does not give up if the bound is large
enough. -/
theorem evaluateWithin_keeps (n : Nat) {mode : Mode} {e : Expr} {b : Nat} (he : e.Local owner o)
    (hb : e.SlotsIn (· < b)) (hsize : b ≤ m.slots.size) :
    Keeps (NotEndless m b n) (Confined owner o m) (evaluateWithin n mode e) := by
  induction n generalizing mode e b o m with
  | zero => exact Keeps.throw fun h => absurd h (Nat.not_lt_zero _)
  | succ n ih =>
      have hG : ∀ fault, fault ≠ .endless → NotEndless m b (n + 1) fault := fun _ h _ => h
      have hsafe : Safe (evaluateWithin n) (NotEndless m b (n + 1)) (Confined owner o m)
          (fun t => owner t = o ∧ t < b)
          (fun d => d.initializer.Local owner o ∧ d.initializer.SlotsIn (· < d.slot)) := by
        refine ⟨hG, ?_, ?_, ?_, ?_, ?_⟩
        · rintro mode r ⟨hown, hrb⟩
          refine readWith_keeps hown hrb fun hlocal hlt => ih hlocal hlt ?_
          exact Nat.le_trans (Nat.le_of_lt hrb) hsize
        · intro t v ht
          exact write_confined hG ht.1
        · intro d hd hslot _
          exact defer_confined hslot.1 hd.1 hd.2
        · intro text
          exact Triple.modify fun _ hs => hs
        · intro mode id count arguments harguments
          refine callWith_keeps hG (fun _ h => h) ?_ harguments ?_
          · intro s t hst hs
            simpa only [Confined, hst] using hs
          · intro s body k hs hbody hk
            exact body_keeps hs hbody hk fun hlocal hslots => ih hlocal hslots (Nat.le_refl _)
      have hslots : e.SlotsIn fun t => owner t = o ∧ t < b :=
        Expr.Every.imp (he.slots.and hb) fun p hp t ht => ⟨hp.1 t ht, hp.2 t ht⟩
      exact evaluateWith_keeps hsafe hslots he.binds mode

/-- Evaluation is confined to the slots of its owner, whatever the bound is. -/
theorem evaluateWithin_confined (n : Nat) {mode : Mode} {e : Expr} (he : e.Local owner o)
    (hb : e.SlotsIn (· < m.slots.size)) :
    Keeps (fun _ => True) (Confined owner o m) (evaluateWithin n mode e) :=
  (evaluateWithin_keeps n he hb (Nat.le_refl _)).weaken (fun _ h => h) (fun _ _ h => h)
    fun _ _ h => ⟨trivial, h.2⟩

/-! ## Larger bounds -/

/-- Evaluation does the same where stored expressions are followed better. -/
theorem evaluateWith_approximates {f g : Follow}
    (h : ∀ mode e, Approximates .endless (f mode e) (g mode e)) (mode : Mode) (e : Expr) :
    Approximates .endless (evaluateWith f mode e) (evaluateWith g mode e) := by
  induction e using Expr.induction generalizing mode with
  | literal v | declaration name f => exact Approximates.refl _
  | read r =>
      refine Approximates.bind (Approximates.refl _) fun s => ?_
      cases s.memory.content r.slot with
      | uninitialized | value v => exact Approximates.refl _
      -- Only here and in the bodies of functions do the two follow anything differently.
      | dependent i => exact h mode i
  | unary op e ih =>
      simp only [evaluateWith]
      exact Approximates.bind (ih mode) fun v => Approximates.refl _
  | binary op l r ihl ihr =>
      simp only [evaluateWith]
      refine Approximates.bind (ihl mode) fun v => ?_
      refine Approximates.bind (Approximates.refl _) fun d => ?_
      cases d with
      | some w => exact Approximates.refl _
      | none => exact Approximates.bind (ihr mode) fun w => Approximates.refl _
  | assign ts e ih =>
      simp only [evaluateWith]
      exact Approximates.bind (ih mode) fun v => Approximates.refl _
  | print e ih =>
      simp only [evaluateWith]
      exact Approximates.bind (ih mode) fun v => Approximates.refl _
  | call name id as dependent ih =>
      have hargs : Approximates .endless (argumentsWith f as) (argumentsWith g as) := by
        induction as with
        | nil => exact Approximates.refl _
        | cons a as ihas =>
            rw [List.forall_mem_cons] at ih
            refine Approximates.bind (ih.1 .probe) fun v => ?_
            exact Approximates.bind (ihas ih.2) fun vs => Approximates.refl _
      simp only [evaluateWith]
      refine Approximates.bind (Approximates.refl _) fun s => ?_
      refine Approximates.bind (Approximates.refl _) fun _ => Approximates.bind hargs fun vs => ?_
      cases (s.memory.function id).body with
      | none => exact Approximates.refl _
      | some b =>
          refine Approximates.bind (Approximates.refl _) fun _ => Approximates.ensuring ?_
          refine Approximates.bind (Approximates.refl _) fun s => Approximates.ensuring ?_
          exact Approximates.bind (Approximates.refl _) fun _ => h mode b
  | letIn ds b ihd ihb =>
      have hbind : Approximates .endless (bindWith f mode ds) (bindWith g mode ds) := by
        induction ds with
        | nil => exact Approximates.refl _
        | cons d ds ihds =>
            rw [List.forall_mem_cons] at ihd
            rcases d with ⟨name, slot, kind, initializer, dependent⟩
            cases dependent with
            | true => exact Approximates.bind (Approximates.refl _) fun _ => ihds ihd.2
            | false =>
                refine Approximates.bind (ihd.1 mode) fun v => ?_
                exact Approximates.bind (Approximates.refl _) fun _ => ihds ihd.2
      simp only [evaluateWith]
      exact Approximates.bind hbind fun _ => ihb mode
  | conditional c t e ihc iht ihe =>
      simp only [evaluateWith]
      refine Approximates.bind (ihc mode) fun v =>
        Approximates.bind (Approximates.refl _) fun b => ?_
      cases b with
      | true => exact iht mode
      | false => exact ihe mode

/-- With a larger bound evaluation does the same, unless it gave up before. -/
theorem evaluateWithin_mono {n k : Nat} (h : n ≤ k) (mode : Mode) (e : Expr) :
    Approximates .endless (evaluateWithin n mode e) (evaluateWithin k mode e) := by
  induction n generalizing k mode e with
  | zero => exact fun s => .inr ⟨s, rfl⟩
  | succ n ih =>
      cases k with
      | zero => exact absurd h (Nat.not_succ_le_zero n)
      | succ k => exact evaluateWith_approximates (ih (Nat.le_of_succ_le_succ h)) mode e

/-! ## The bound of a machine -/

/-- The bound that is used is large enough for a storage of this size. -/
theorem reserve_lt_depthBound (m : Memory) :
    m.reserve * (m.slots.size + 1) + m.slots.size < depthBound m := by
  have h := Nat.mul_le_mul_right (m.slots.size + 1) m.reserve_le
  have hb : depthBound m =
      callLimit * m.functions.size * (m.slots.size + 1) + callLimit * (m.slots.size + 1) := by
    rw [depthBound, Nat.mul_succ callLimit, Nat.add_mul]
  have hlimit : callLimit * (m.slots.size + 1) = 128 * (m.slots.size + 1) := rfl
  omega

variable {e : Expr}

/-- Evaluation is confined to the slots of its owner, and ends. -/
theorem evaluate_confined (mode : Mode) (he : e.Local owner o) (hb : e.SlotsIn (· < m.slots.size)) :
    Triple (fun s => s.memory = m ∧ m.Coherent owner) (evaluate mode e)
      (fun _ s => Confined owner o m s)
        (fun fault s => fault ≠ .endless ∧ Confined owner o m s) := by
  apply Triple.get_bind
  rintro s ⟨rfl, hs⟩
  refine (evaluateWithin_keeps _ he hb (Nat.le_refl _)).weaken ?_ (fun _ _ h => h) ?_
  · rintro _ rfl
    exact ⟨hs, .refl _⟩
  · exact fun fault t h => ⟨h.1 (reserve_lt_depthBound _), h.2⟩

/-- A declaration is done once it has been read. Evaluating it changes nothing. -/
theorem evaluate_declaration (mode : Mode) (name : String) (f : FunctionId) (s : Machine) :
    evaluate mode (.declaration name f) s = .ok .void s := by
  have hpos : depthBound s.memory ≠ 0 := Nat.ne_zero_of_lt (reserve_lt_depthBound s.memory)
  rcases Nat.exists_eq_succ_of_ne_zero hpos with ⟨n, hn⟩
  show evaluateWithin (depthBound s.memory) mode _ s = _
  rw [hn]
  rfl

/-- A larger bound gives the same answer. -/
theorem evaluateWithin_eq_evaluate {s : Machine} {mode : Mode} (hs : s.memory.Coherent owner)
    (he : e.Local owner o) (hb : e.SlotsIn (· < s.memory.slots.size)) {n : Nat}
    (hn : depthBound s.memory ≤ n) : evaluateWithin n mode e s = evaluate mode e s := by
  rcases evaluateWithin_mono hn mode e s with h | ⟨t, h⟩
  · exact h.symm
  · exact absurd rfl ((evaluate_confined mode he hb).of_error (s := s) ⟨rfl, hs⟩ h).1

end Evaluation
end LineLang
