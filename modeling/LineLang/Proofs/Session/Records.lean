import LineLang.Proofs.Activation.Simulation
import LineLang.Proofs.Session.Reachable

/-!
# Sessions and activation records

Between instructions no call is live and every function is complete, so evaluation can start from
shared slots and from an empty record alike. Whatever is read in a session then has the same value
in both, and prints the same.

- `Memory.Ready`                : an expression that has been read can be evaluated
- `Activation.agrees_start`     : an empty record agrees with the storage before any call
- `Session.evaluate_activation` : evaluation over shared slots is evaluation in records
-/

namespace LineLang

open Effect

namespace Memory

variable {owner : SlotId → FunctionId} {o : FunctionId} {m n : Memory} {e : Expr}

/-- Slots of an instruction do not matter to the functions. -/
theorem Staged.complete (h : m.Staged owner n e) (hm : m.Complete) : n.Complete := by
  intro f hf
  rw [h.grown.functions] at hf
  rcases hm f hf with ⟨b, k, hc⟩
  exact ⟨b, k, hc.extends h.grown.extends hf⟩

/-- An expression that has been read can be evaluated: its variables are its own, and all functions
may be called. -/
structure Ready (owner : SlotId → FunctionId) (o : FunctionId) (m : Memory) (e : Expr) : Prop where
  complete : m.Complete
  coherent : m.Coherent owner
  here : e.Local owner o
  slots : e.SlotsIn (· < m.slots.size)
  inScope : e.Scoped ∅

/-- What has been read from a complete storage can be evaluated. -/
theorem Staged.ready (h : m.Staged owner n e) (hm : m.Complete) :
    n.Ready owner m.functions.size e where
  complete := h.complete hm
  coherent := h.working.coherent
  here := h.resolved.here
  slots := h.resolved.slots
  inScope := h.resolved.inScope

/-- Evaluation does not give up. -/
theorem Ready.ne_endless (h : m.Ready owner o e) (mode : Mode) (printed : Array String)
    (t : Machine) : Evaluation.evaluate mode e { memory := m, printed } ≠ .error .endless t := by
  intro ht
  have hconfined := Evaluation.evaluate_confined mode h.here h.slots
  exact (hconfined.of_error ⟨rfl, h.coherent⟩ ht).1 rfl

/-- Going deeper than the bound that is used gives the same. -/
theorem Ready.evaluateWithin_eq (h : m.Ready owner o e) {n : Nat} (hn : Evaluation.depthBound m ≤ n)
    (mode : Mode) (printed : Array String) :
    Evaluation.evaluateWithin n mode e { memory := m, printed } =
      Evaluation.evaluate mode e { memory := m, printed } :=
  Evaluation.evaluateWithin_eq_evaluate h.coherent h.here h.slots hn

theorem Added.ready {name : String} {id : FunctionId} (h : m.Added n name) :
    ∃ owner, n.Ready owner id (.declaration name id) := by
  rcases h.furnished.owners with ⟨owner, hcoherent, -⟩
  refine ⟨owner, h.furnished.complete, hcoherent, ⟨?_, ?_⟩, ?_, trivial⟩
  all_goals simp [Expr.SlotsIn, Expr.Binds, Expr.ownSlots, Expr.ownDeclarations]

end Memory

namespace Activation

variable {owner : SlotId → FunctionId} {m : Memory} {o : FunctionId} {e : Expr}

/-- Complete functions may be called. -/
theorem callable_of_complete (h : m.Complete) : Callable m m.slots.size where
  parameters f b hb := by
    rcases h.of_body hb with ⟨k, hc⟩
    exact hc.parameters
  inScope f b hb := by
    rcases h.of_body hb with ⟨k, hc⟩
    exact hc.inScope

/-- Before any call, nothing is live and nothing has been set. Another storage with the same
functions and slots of the same kinds will do as well. -/
theorem agrees_start {k : Memory} (h : m.Complete) (hk : k.Coherent owner)
    (hfunctions : k.functions = m.functions)
    (hshape : ∀ t < k.slots.size, (k.slot t).shape = (m.slot t).shape) (printed : Array String) :
    Agrees owner m k.slots.size o [] ∅ { memory := k, printed } { printed } where
  printed := rfl
  size := rfl
  shape := hshape
  functions f := by
    have hdepth := h.depth f
    rw [List.count_nil, ← hdepth, Memory.function, hfunctions, Memory.function]
  coherent := hk
  record _ ht := absurd rfl ht
  deferred _ _ := nofun
  inForce := Set.empty_subset _

/-- What has been read comes to the same over shared slots and in records. -/
theorem evaluateWithin_same (h : m.Ready owner o e) (n : Nat) (mode : Mode)
    (printed : Array String) :
    SameOutcome (fun _ => Agrees owner m m.slots.size o [] ∅)
      (Evaluation.evaluateWithin n mode e { memory := m, printed })
      (evaluateWithin m n [] mode e { printed }) := by
  have hfollows : Follows owner m m.slots.size _ _ :=
    evaluateWithin_follows (callable_of_complete h.complete) n
  have hstart : Agrees owner m m.slots.size o [] ∅ { memory := m, printed } { printed } :=
    agrees_start h.complete h.coherent rfl (fun _ _ => rfl) printed
  exact hfollows.same h.here h.slots h.inScope _ _ hstart

end Activation

namespace Session

theorem parse_ready {m n : Memory} (hm : m.Valid) {ts : List Token} {e : Expr}
    (hp : parse ts m = .ok e n) : ∃ owner o, n.Ready owner o e := by
  rcases (Resolution.parse_outcome hm ts).of_ok rfl hp with ⟨owner, h⟩ | ⟨name, rfl, h⟩
  · exact ⟨owner, _, h.ready hm.complete⟩
  · rcases h.ready with ⟨owner, hready⟩
    exact ⟨owner, _, hready⟩

/-- Evaluating what was read in a session, in either mode, gives an answer other than giving up. It
is the same value or the same fault, with the same texts printed, as evaluation in which every call
has a record of its own, however much deeper that one is allowed to follow stored expressions. -/
theorem evaluate_activation {s : Session} (hs : Reachable s) {ts : List Token} {e : Expr}
    {m : Memory} (hp : parse ts s.memory = .ok e m) (mode : Mode) (printed : Array String) :
    (∀ t, Evaluation.evaluate mode e { memory := m, printed } ≠ .error .endless t) ∧
    ∀ n, Evaluation.depthBound m ≤ n →
      Activation.SameOutcome (fun _ t a => t.printed = a.printed)
        (Evaluation.evaluate mode e { memory := m, printed })
        (Activation.evaluateWithin m n [] mode e { printed }) := by
  rcases parse_ready hs.valid hp with ⟨owner, o, h⟩
  refine ⟨h.ne_endless mode printed, fun n hn => ?_⟩
  -- Both evaluators are compared at the same depth, which for the shared slots makes no difference.
  rw [← h.evaluateWithin_eq hn mode printed]
  exact (Activation.evaluateWithin_same h n mode printed).imp fun _ _ _ hagrees => hagrees.printed

def keeping : Session :=
  (submit {} "function keep(b) => let kept = b in if (b) keep(false) | kept else kept").session

def keepingCall : List Token :=
  [.word "print", .symbol .openParen, .word "keep", .symbol .openParen, .boolean true,
    .symbol .closeParen, .symbol .closeParen]

theorem reachable_keeping : Reachable keeping :=
  .submit .start _

theorem keepingCall_runs : (match parse keepingCall keeping.memory with
    | .ok e m =>
        match Evaluation.evaluate .run e { memory := m } with
        | .ok v t => decide (v = .boolean true ∧ t.printed = #["true"])
        | .error _ _ => false
    | .error _ _ => false) = true := by
  decide +kernel

/-- The inner call has set the slot that the variable depends on, and still the outer call reads
what it was given. -/
theorem evaluate_activation_keeping :
    Reachable keeping ∧ ∃ e m, parse keepingCall keeping.memory = .ok e m ∧
      ∀ n, Evaluation.depthBound m ≤ n → ∃ a : Activation,
        Activation.evaluateWithin m n [] .run e {} = .ok (.boolean true) a ∧
          a.printed = #["true"] := by
  have hrun := keepingCall_runs
  refine ⟨reachable_keeping, ?_⟩
  cases hp : parse keepingCall keeping.memory with
  | error r m =>
      rw [hp] at hrun
      cases hrun
  | ok e m =>
      rw [hp] at hrun
      refine ⟨e, m, rfl, fun n hn => ?_⟩
      have hsame := (evaluate_activation reachable_keeping hp .run #[]).2 n hn
      dsimp only at hrun
      revert hrun hsame
      generalize Evaluation.evaluate .run e { memory := m } = r
      generalize Activation.evaluateWithin m n [] .run e {} = r'
      intro hrun hsame
      cases hsame with
      | ok hprinted =>
          rcases of_decide_eq_true hrun with ⟨rfl, htrue⟩
          exact ⟨_, rfl, hprinted.symm.trans htrue⟩
      | error _ => cases hrun

end Session
end LineLang
