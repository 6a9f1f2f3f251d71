import LineLang.Proofs.Evaluation.Calls
import LineLang.Proofs.Session.Moments

/-!
# Calls in a session

Whatever call is made at some moment of an instruction, with whatever outcome, it leaves the storage
as its arguments left it, and no function ever has more active calls than allowed.

- `Session.Evaluates.owned`        : what is known at every moment of an instruction
- `Session.calls_leave_no_trace`   : the storage after a call
-/

namespace LineLang

open Effect Evaluation Activation

namespace Session

variable {m : Memory} {ts : List Token} {p q : Moment} {r : Record}

/-- At every moment of an instruction the expression has an owner, and calls are within their
limit. -/
theorem Evaluates.owned (h : Evaluates m ts p r) (hm : m.Valid) (hq : p.Reaches q) :
    ∃ owner o, q.Owned owner o := by
  rcases h.holds hm with ⟨owner, Γ, hholds, -, -⟩
  have hstart : p.Owned owner m.functions.size := by
    refine ⟨hholds.agrees.coherent, hholds.here, hholds.slots, fun f => ?_⟩
    rw [hholds.agrees.functions f]
    -- No call is active when an evaluation starts.
    exact Nat.zero_le _
  exact ⟨owner, hstart.reaches hq⟩

/-- Take any moment of any session at which the arguments of a call are about to be evaluated, and
let them be passed to any function, in either mode and with any bound on how deep stored expressions
are followed. However the call ends, every function has as many active calls as before, and at no
moment on the way more than 128. The storage is the one in which the evaluation of the arguments
ended or, if their number is wrong, the one in which the call began. -/
theorem calls_leave_no_trace {s : Session} (hs : Reachable s) (hp : Evaluates s.memory ts p r)
    (hq : p.Reaches q) {name : String} {callee : FunctionId} {es : List Expr} {dependent : Bool}
    (hcall : q.expr = .call name callee es dependent) (f : FunctionId) (mode : Mode) (depth : Nat) :
    let arguments := argumentsWith (evaluateWithin depth) es
    let after :=
      (final (callWith (evaluateWithin depth) mode f es.length arguments q.machine)).memory
    (∀ g, (after.function g).depth = (q.machine.memory.function g).depth) ∧
    (∀ q', Moment.Reaches ⟨depth + 1, mode, .call name f es dependent, q.machine⟩ q' →
      ∀ g, (q'.machine.memory.function g).depth ≤ 128) ∧
    after = match (q.machine.memory.function f).checkArity es.length with
      | .ok () => (final (arguments q.machine)).memory
      | .error _ => q.machine.memory := by
  rcases hp.owned hs.valid hq with ⟨owner, o, howned⟩
  rcases q with ⟨n, mode', e, machine⟩
  cases hcall
  refine ⟨fun g => ?_, fun q' hq' => ?_, howned.call_final f depth mode⟩
  · exact congrArg (·.depth) (howned.call_function f depth mode g)
  · rcases (howned.otherCall name f dependent).reaches hq' with ⟨o', howned'⟩
    exact howned'.limited

/-- The call inside the `let` is reached and has the right number of arguments. -/
theorem fallingCall_runs : (match parse fallingCall falling.memory with
    | .ok (.letIn ds (.call name f es dependent)) n =>
        match Typing.kindOf (.letIn ds (.call name f es dependent)) n with
        | .ok _ n' =>
            match evaluate .run (.letIn ds (.call name f es dependent)) { memory := n' },
              (n'.function f).checkArity es.length with
            | .ok _ _, .ok () => true
            | _, _ => false
        | .error _ _ => false
    | _ => false) = true := by
  decide +kernel

/-- A call inside a `let` that leads to further calls of the same function. -/
theorem calls_leave_no_trace_falling :
    Reachable falling ∧ ∃ p r q name f es dependent, Evaluates falling.memory fallingCall p r ∧
      p.Reaches q ∧ q.expr = .call name f es dependent ∧
      (q.machine.memory.function f).checkArity es.length = .ok () ∧
      ∀ mode depth, (final (callWith (evaluateWithin depth) mode f es.length
          (argumentsWith (evaluateWithin depth) es) q.machine)).memory =
        (final (argumentsWith (evaluateWithin depth) es q.machine)).memory := by
  have hrun := fallingCall_runs
  refine ⟨reachable_falling, ?_⟩
  split at hrun
  · next ds name f es dependent n hparse =>
      split at hrun
      · next k n' hkind =>
          split at hrun
          · next v t hv harity =>
              have hevaluates := Evaluates.run hparse nofun hkind
              have houtcome : evaluateWithin (depthBound n') .run _ { memory := n' } = .ok v t := hv
              -- Only that the depth is positive matters from here on, and a run to depth zero has
              -- no outcome.
              generalize depthBound n' = depth at hevaluates houtcome
              cases depth with
              | zero => cases houtcome
              | succ depth =>
                  rcases Moment.inside_of_ok houtcome with ⟨u, hinside, -⟩
                  have hreaches := Relation.ReflTransGen.single hinside
                  rcases hevaluates.tracked reachable_falling.valid hreaches with
                    ⟨_, _, _, _, _, hholds⟩
                  have harity' : (u.memory.function f).checkArity es.length = .ok () := by
                    rw [hholds.agrees.functions f]
                    exact harity
                  refine ⟨_, _, _, name, f, es, dependent, hevaluates, hreaches, rfl, harity', ?_⟩
                  intro mode depth
                  have htrace :=
                    calls_leave_no_trace reachable_falling hevaluates hreaches rfl f mode depth
                  rw [htrace.2.2, harity']
          · cases hrun
      · cases hrun
  · cases hrun

end Session
end LineLang
