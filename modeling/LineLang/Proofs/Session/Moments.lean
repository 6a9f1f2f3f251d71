import LineLang.Proofs.Resolution.Opening
import LineLang.Proofs.Session.Soundness

/-!
# Moments of an instruction

An instruction starts evaluations at two times: while it is read, for initializers that are asked
for their values, and afterwards for the expression as a whole. Each of them starts in a record,
which is empty unless variables are in force that got their values before.

- `Reading.Starts`            : the phrase of an instruction is about to be read
- `Session.Evaluates`         : the evaluations of an instruction, with their records
- `Session.Evaluates.holds`   : each record holds what the slots hold
- `Session.Evaluates.tracked` : every moment on the way belongs to a call
-/

namespace LineLang

open Effect Resolution Activation

/-- The phrase of an instruction is about to be read. For the body of a function this is after the
function was added, with its parameters in force. -/
inductive Reading.Starts (m : Memory) (ts : List Token) : Reading → Prop
  | expression {p} (hts : Instruction.ofTokens ts = .expression p) : Starts m ts ⟨{}, p, m⟩
  | declaration {name parameters body id n}
      (hts : Instruction.ofTokens ts = .declaration name (.ok (parameters, body)))
      (hname : m.lookup? name = none) (hid : Memory.declare name parameters m = .ok id n) :
      Starts m ts ⟨⟨parameters.zip (n.function id).parameterSlots, some (name, id)⟩, body, n⟩

/-- The evaluations that an instruction starts, and the records in which it starts them: the
expression is carried out once it has a kind, and before that initializers were asked for their
values. -/
inductive Session.Evaluates (m : Memory) (ts : List Token) : Moment → Record → Prop
  | run {e n k n'} (hp : parse ts m = .ok e n) (hplain : ∀ name id, e ≠ .declaration name id)
      (hkind : Typing.kindOf e n = .ok k n') :
      Evaluates m ts ⟨Evaluation.depthBound n', .run, e, { memory := n' }⟩ .empty
  | probe {r : Reading} {scope : Scope} {e n} (hr : r.Starts m ts) (hprobes : r.Probes scope e n) :
      Evaluates m ts (.probing e n) (scope.record n)

namespace Memory

variable {m n : Memory}

theorem Complete.body_ne_none (h : m.Complete) {f : FunctionId} (hf : f < m.functions.size) :
    (m.function f).body ≠ none := by
  rcases h f hf with ⟨b, k, hc⟩
  rw [hc.body]
  exact nofun

/-- All functions of a complete storage may be called. -/
theorem Complete.prepared (h : m.Complete) : Prepared m m.slots.size where
  toCallable := callable_of_complete h
  grounded f b hb := by
    rcases h.of_body hb with ⟨k, hc⟩
    have hcalls := hc.calls_lt (lt_size_of_body hb)
    exact ⟨Expr.Every.imp hcalls fun p hp g hg => h.body_ne_none (hp g hg), fun hm =>
      hm.keeping f b hb⟩

/-- Between instructions nothing is in force. -/
theorem Valid.open_empty (hm : m.Valid) {owner : SlotId → FunctionId}
    (hw : m.Working owner m.functions.size m.slots.size) : ({} : Scope).Open owner m m where
  working := hw
  within := within_empty m
  filled t ht := by
    rcases ht with ⟨ht, -⟩
    rw [slots_empty] at ht
    cases ht
  above := .refl m
  registry := rfl
  bodies _ _ hb := lt_size_of_body hb
  prepared := hm.complete.prepared
  idle := hm.complete.depth

/-- While the body of a function is read, its parameters are in force, and all of them are
dependent. -/
theorem Valid.open_parameters (hm : m.Valid) {owner : SlotId → FunctionId}
    (hw : m.Working owner m.functions.size m.slots.size) {name : String} {parameters : List String}
    {id : FunctionId} (hid : Memory.declare name parameters m = .ok id n) :
    Scope.Open owner m ⟨parameters.zip (n.function id).parameterSlots, some (name, id)⟩ n := by
  rcases (declare_opened hw name parameters).of_ok rfl hid with
    ⟨rfl, hopened, hn, hsize, hslots, hfunction⟩
  have hparameters : (n.function m.functions.size).parameterSlots =
      List.range' m.slots.size parameters.length := by
    rw [hfunction]
    rfl
  rw [hparameters]
  -- The function being declared is the last one, and it has no body yet.
  have hbodies : ∀ f b, (n.function f).body = some b → f < m.functions.size := by
    intro f b hb
    have hlt := lt_size_of_body hb
    rw [hopened.count] at hlt
    refine Nat.lt_of_le_of_ne (Nat.le_of_lt_succ hlt) ?_
    rintro rfl
    rw [hn.bodyless] at hb
    cases hb
  refine ⟨hn, within_parameters hopened hn hsize, ?_, hopened.above, hopened.registry, hbodies,
    ?_, fun f => ?_⟩
  · rintro t ⟨ht, hdependent⟩
    rw [slots_zip (by simp)] at ht
    rcases List.mem_range'_1.1 ht with ⟨hle, hlt⟩
    cases (hslots t hle (hsize ▸ hlt)).2.symm.trans hdependent
  · refine hm.complete.prepared.mono hopened.above.size_slots (fun t ht => ?_) (fun f b hb => ?_)
      fun f hf => ?_
    · rw [hopened.above.slot ht]
    · exact hopened.above.function (hbodies f b hb)
    · rcases Option.ne_none_iff_exists'.1 hf with ⟨b, hb⟩
      rw [hopened.above.function (lt_size_of_body hb)]
      exact hf
  · rcases Nat.lt_trichotomy f m.functions.size with hlt | rfl | hgt
    · rw [hopened.above.function hlt]
      exact hm.complete.depth f
    · rw [hfunction]
    · rw [function_of_size_le (by rw [hopened.count]; exact hgt)]
      rfl

end Memory

/-- What is known of the phrase of an instruction. -/
theorem Reading.Starts.open {m : Memory} {ts : List Token} {r : Reading} (h : r.Starts m ts)
    (hm : m.Valid) : ∃ owner, r.Open owner m := by
  have hreads := Instruction.rejectsOnly_ofTokens ts
  rcases hm.working hm.registered with ⟨owner, hw, -⟩
  refine ⟨owner, ?_⟩
  cases h with
  | expression hts =>
      rw [hts] at hreads
      exact ⟨hm.open_empty hw, hreads⟩
  | declaration hts hname hid =>
      rw [hts] at hreads
      exact ⟨hm.open_parameters hw hid, hreads⟩

namespace Session.Evaluates

variable {m : Memory} {ts : List Token} {p q : Moment} {r : Record}

/-- The record in which an evaluation starts holds what the slots hold, and all functions that it
calls are complete. -/
theorem holds (h : Evaluates m ts p r) (hm : m.Valid) :
    ∃ owner Γ, Holds owner p.machine.memory p.machine.memory.slots.size m.functions.size [] Γ
        { record := r } p ∧
      Prepared p.machine.memory p.machine.memory.slots.size ∧
      (m.WrittenKindsInferred → p.machine.memory.Reliable) := by
  cases h with
  | @run e n k n' hp hplain hkind =>
      rcases (parse_outcome hm ts).of_ok rfl hp with ⟨owner, hstaged⟩ | ⟨name, rfl, -⟩
      · rw [Typing.kindOf_eq hstaged.working.settled] at hkind
        rcases of_ofExcept_ok hkind with ⟨-, rfl⟩
        have hcomplete := hstaged.complete hm.complete
        have hready := hstaged.ready hm.complete
        refine ⟨owner, ∅, ?_, hcomplete.prepared, hstaged.reliable hm.complete⟩
        refine ⟨agrees_start hcomplete hready.coherent rfl (fun _ _ => rfl) #[],
          Record.grounded_empty,
          hready.here, hready.slots, hready.inScope, ?_, fun _ => hstaged.keeping hm.complete⟩
        exact Expr.Every.imp hstaged.resolved.calls fun p hp g hg =>
          hcomplete.body_ne_none (hp g hg)
      · exact absurd rfl (hplain name _)
  | @probe r scope e n hr hprobes =>
      rcases hr.open hm with ⟨owner, hopen⟩
      rcases hopen.probes hprobes with ⟨hscope, hresolved, hindependent⟩
      refine ⟨owner, _, hscope.holds hresolved hindependent _ _, hscope.prepared, fun hw => ?_⟩
      exact hm.complete.reliable_above hw hscope.above hscope.bodies

/-- Every moment on the way belongs to a call, whose record holds what the slots hold. -/
theorem tracked (h : Evaluates m ts p r) (hm : m.Valid) (hq : p.Reaches q) :
    ∃ owner, Tracked owner p.machine.memory p.machine.memory.slots.size q := by
  rcases h.holds hm with ⟨owner, Γ, hholds, hprepared, -⟩
  exact ⟨owner, Tracked.reaches ⟨_, _, _, _, hholds⟩ hprepared hq⟩

/-- Evaluation over shared slots comes to the same as evaluation in records. -/
theorem same_outcome (h : Evaluates m ts p r) (hm : m.Valid) :
    SameOutcome (fun _ t a => t.printed = a.printed) p.outcome
      (evaluateWithin p.machine.memory p.depth [] p.mode p.expr { record := r }) := by
  rcases h.holds hm with ⟨owner, Γ, hholds, hprepared, -⟩
  have hfollows : Follows owner p.machine.memory p.machine.memory.slots.size _ _ :=
    evaluateWithin_follows hprepared.toCallable p.depth
  have hsame : SameOutcome (fun _ => Agrees owner _ _ m.functions.size [] Γ) p.outcome
      (evaluateWithin p.machine.memory p.depth [] p.mode p.expr { record := r }) :=
    hfollows.same hholds.here hholds.slots hholds.inScope _ _ hholds.agrees
  exact hsame.imp fun _ _ _ hagrees => hagrees.printed

end Session.Evaluates
end LineLang
