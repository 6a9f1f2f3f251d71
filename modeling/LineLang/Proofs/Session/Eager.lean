import LineLang.Proofs.Evaluation.Eager
import LineLang.Proofs.Session.Probing

/-!
# Calls whose initializers are evaluated at once

Where nothing is assigned and nothing is printed, a call of a function of a session has the value
that the reference evaluator gives it, which evaluates every initializer once. It has it in both
modes.

- `Expr.quiet`, `Memory.CallsTo`    : neither assignment nor print, and which functions a function
  calls
- `Session.Reachable.orderly_call`  : a call made from outside stands among no variables
- `Session.lazy_lets_agree`         : what is evaluated at once is what is found later
-/

namespace LineLang

open Effect Evaluation Moment

/-! ## Functions that only compute -/

def Expr.quiet : Expr → Bool
  | .assign _ _ => false
  | .print _ => false
  | _ => true

namespace Memory

variable {m : Memory} {f g : FunctionId} {b : Expr}

def CallsTo (m : Memory) (f g : FunctionId) : Prop :=
  ∃ b, (m.function f).body = some b ∧ ∃ p ∈ b.parts, g ∈ p.ownCallees

/-- A part that neither assigns nor prints, and that only calls functions which `f` leads to. -/
structure QuietBelow (m : Memory) (f : FunctionId) (e : Expr) : Prop where
  quiet : e.quiet = true
  callees : ∀ g ∈ e.ownCallees, Relation.ReflTransGen m.CallsTo f g

/-- The bodies of the functions which `f` leads to have such parts only. -/
theorem quietBelow_body
    (hquiet : ∀ g b, Relation.ReflTransGen m.CallsTo f g → (m.function g).body = some b →
      ∀ p ∈ b.parts, p.quiet = true) (hg : Relation.ReflTransGen m.CallsTo f g)
    (hb : (m.function g).body = some b) : b.Every (m.QuietBelow f) := by
  intro p hp
  exact ⟨hquiet g b hg hb p hp, fun k hk => hg.tail ⟨b, hb, p, hp, hk⟩⟩

end Memory

/-! ## Calls made from outside -/

namespace Session

/-- A call made between instructions stands among no variables, and so does all that it leads to. -/
theorem Reachable.orderly_call {s : Session} (hs : Reachable s) {P : Expr → Prop}
    (hbodies : s.memory.BodiesPlaced P) {f : FunctionId} {values : List Value}
    (hliteral : ∀ v, P (.literal v)) (hcall : P (.call "" f (values.map .literal) false))
    (printed : Array String) :
    ∃ owner, s.memory.Ready owner f (.call "" f (values.map .literal) false) ∧
      Orderly owner P ∅
        ⟨0, .probe, .call "" f (values.map .literal) false, { memory := s.memory, printed }⟩ := by
  rcases hs.valid.working hs.valid.registered with ⟨owner, hworking, -⟩
  have hready : s.memory.Ready owner f (.call "" f (values.map .literal) false) :=
    hs.valid.complete.ready_call hworking.coherent "" values
  have howned : Owned owner f
      ⟨0, .probe, .call "" f (values.map .literal) false, { memory := s.memory, printed }⟩ := by
    refine ⟨hready.coherent, hready.here, hready.slots, fun g => ?_⟩
    rw [hs.valid.complete.depth g]
    exact Nat.zero_le callLimit
  -- The arguments are literals, so the call allots no slots and has none in force.
  refine ⟨owner, hready, ⟨f, howned⟩, ⟨0, 0, ⟨?_, ?_, ?_, ?_⟩, ?_⟩, hbodies⟩
  · exact Expr.every_call_literals hliteral hcall
  · exact hready.inScope.mono (Set.empty_subset _)
  · have hnone : (Expr.call "" f (values.map .literal) false).allotted = [] := by
      rw [Expr.allotted, Expr.allottedInAll_eq, List.flatMap_eq_nil_iff]
      intro e he
      rcases List.mem_map.1 he with ⟨v, -, rfl⟩
      rfl
    rw [hnone]
    exact .nil
  · exact fun t ht => absurd ht (Set.notMem_empty t)
  · exact fun t ht => absurd ht (Set.notMem_empty t)

/-- Take any function of any session such that neither its body nor the body of any function it
leads to contains an assignment or a print, and any values. If the call has a value when every
initializer of a `let` is evaluated once, as the `let` is entered, then the call has the same value,
in both modes, when dependent initializers are left in slots and evaluated each time they are
read. -/
theorem lazy_lets_agree {s : Session} (hs : Reachable s) (f : FunctionId)
    (hquiet : ∀ g b, Relation.ReflTransGen s.memory.CallsTo f g →
      (s.memory.function g).body = some b → ∀ p ∈ b.parts, p.quiet = true)
    (values : List Value) (depth : Nat) (v : Value)
    (hv : Eager.call depth s.memory f values = .ok v) (mode : Mode) (printed : Array String) :
    ∃ t, Evaluation.call mode f (values.map .literal)
      { memory := s.memory, printed } = .ok v t := by
  let call : Expr := .call "" f (values.map .literal) false
  let start : Machine := { memory := s.memory, printed }
  let bound : Nat := depthBound s.memory
  have hbodies : s.memory.BodiesPlaced (s.memory.QuietBelow f) := by
    refine hs.arranged.bodiesPlaced fun name g es dependent b hg hb => ?_
    exact Memory.quietBelow_body hquiet (hg.callees g (List.mem_singleton_self g)) hb
  have hliteral : ∀ w, s.memory.QuietBelow f (.literal w) :=
    fun w => ⟨rfl, by simp [Expr.ownCallees]⟩
  have hcall : s.memory.QuietBelow f call :=
    ⟨rfl, by simp [call, Expr.ownCallees, Relation.ReflTransGen.refl]⟩
  rcases hs.orderly_call hbodies hliteral hcall printed with ⟨owner, hready, horderly⟩
  have hmirrors : Machine.Mirrors owner (s.memory.QuietBelow f) s.memory (fun _ => none) ∅ start :=
    ⟨.refl _, fun t ht => absurd ht (Set.notMem_empty t)⟩
  rcases Eager.evaluateWithin_found depth call horderly hmirrors hv with ⟨t, k, hk⟩
  -- The value is found to some depth, and the bound that is used is deep enough for any value.
  have hprobe : evaluateWithin (bound + 1) .probe call start = .ok v t :=
    calc evaluateWithin (bound + 1) .probe call start
        = evaluate .probe call start := hready.evaluateWithin_eq (Nat.le_succ bound) .probe printed
      _ = evaluateWithin (max k bound + 1) .probe call start :=
          (hready.evaluateWithin_eq (Nat.le_succ_of_le (Nat.le_max_right k bound))
            .probe printed).symm
      _ = .ok v t := hk (max k bound) (Nat.le_max_left k bound)
  cases mode with
  | probe => exact ⟨t, hprobe⟩
  | run =>
      -- Nothing is assigned at any moment, so that the modes agree.
      have hunassigned : ∀ q t, Reaches ⟨bound + 1, .run, call, start⟩ q → ¬ q.Assigns t := by
        rintro q t hq ⟨-, ts, e, hexpr, -⟩
        rcases (horderly.asked (bound + 1) .run).reaches hq with ⟨Δ, hthere⟩
        have hquiet := hthere.every.self.quiet
        rw [hexpr] at hquiet
        cases hquiet
      have hblind : Blind .free ∅ ⟨bound + 1, .run, call, start⟩ :=
        .of_unassigned hunassigned fun t ht => absurd ht (Set.notMem_empty t)
      have hsame := (evaluateWithin_parallel (.refl .free ∅ start) hblind).outcome_eq
        fun _ _ _ _ hq => hq.1
      have houtcome : outcome (evaluateWithin (bound + 1) .run call start) = .ok v := by
        rw [hsame, hprobe]
        rfl
      exact ok_of_outcome houtcome

/-- The variable `kept` is read after the call in between has set the parameter it depends on. -/
theorem lazy_lets_agree_keeping :
    keeping.memory.lookup? "keep" = some 0 ∧
      (∀ g b, Relation.ReflTransGen keeping.memory.CallsTo 0 g →
        (keeping.memory.function g).body = some b → ∀ p ∈ b.parts, p.quiet = true) ∧
      Eager.call 3 keeping.memory 0 [.boolean true] = .ok (.boolean true) ∧
      ∀ mode printed, ∃ t,
        Evaluation.call mode 0 [.literal (.boolean true)] { memory := keeping.memory, printed } =
          .ok (.boolean true) t := by
  obtain ⟨hregistered, hstored, hv⟩ : keeping.memory.lookup? "keep" = some 0 ∧
      keeping.memory.storedAll Expr.quiet = true ∧
      Eager.call 3 keeping.memory 0 [.boolean true] = .ok (.boolean true) := by
    decide +kernel
  have hquiet : ∀ g b, Relation.ReflTransGen keeping.memory.CallsTo 0 g →
      (keeping.memory.function g).body = some b → ∀ p ∈ b.parts, p.quiet = true :=
    fun g b _ hb => List.all_eq_true.1 (Memory.storedAll_body hstored hb)
  refine ⟨hregistered, hquiet, hv, fun mode printed => ?_⟩
  exact lazy_lets_agree reachable_keeping 0 hquiet [.boolean true] 3 (.boolean true) hv mode printed

end Session
end LineLang
