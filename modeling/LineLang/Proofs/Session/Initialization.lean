import LineLang.Proofs.Session.Moments
import LineLang.Proofs.Session.Termination

/-!
# Nothing is used before it is there

Initializers are evaluated while an instruction is read, when parameters hold nothing and the
function being declared has no body. They are only evaluated if they are not dependent, and then
everything that they use is there. So no line fails because a variable or a function was used too
early.

- `Cause.Premature`                     : an instruction failed for this reason
- `Session.Evaluates.not_premature`     : at no moment something is used too early
- `Session.parse_not_premature`         : reading an instruction does not fail for this reason
- `Session.execute_not_premature`       : nor does carrying it out
- `Session.initialized_before_use`      : no line does, in any session
-/

namespace LineLang

open Effect Resolution Activation

/-- Something was used too early, before the instruction ran or while it did. -/
def Cause.Premature : Cause → Prop
  | .rejected r => r.Premature
  | .failed fault => fault.Premature

theorem Typing.declarationKind_apply {id : FunctionId} {m : Memory} : declarationKind id m =
    (match (m.function id).body with
      | none => throw (.incomplete (m.function id).name)
      | some b => do
          Effect.update (·.enter id)
          let kind ← Effect.ensuring (Memory.leave id) (kindOf b)
          modify (Memory.setReturnKind id kind)
          return kind : Typing Kind) m :=
  rfl

/-- A function that has its body is not used too early while its kind is computed. -/
theorem Typing.declarationKind_not_premature {id : FunctionId} {m n : Memory} {b : Expr}
    {fault : Fault} (hb : (m.function id).body = some b)
    (h : declarationKind id m = .error fault n) : ¬ fault.Premature := by
  rw [declarationKind_apply, hb] at h
  rcases of_bind_error h with henter | ⟨_, k, -, hrest⟩
  · rw [(Memory.enter_error (of_update_error henter)).2]
    exact False.elim
  · rcases of_bind_error hrest with hkind | ⟨_, l, -, hend⟩
    · rcases of_ensuring_error hkind with ⟨l, hkind⟩
      exact kindOf_not_premature hkind
    · cases hend

/-- A function may have a parameter twice, which is another fault. -/
theorem Memory.declare_not_premature {name : String} {parameters : List String} {m n : Memory}
    {r : Rejection} (h : Memory.declare name parameters m = .error r n) : ¬ r.Premature := by
  have hallocate : ∀ (seen ps : List String) (k : Memory),
      allocateParameters name seen ps k = .error r n → ¬ r.Premature := by
    intro seen ps
    induction ps generalizing seen with
    | nil => exact nofun
    | cons p ps ih =>
        intro k hk
        unfold allocateParameters at hk
        split at hk
        · cases hk
          exact id
        · exact ih (p :: seen) _ hk
  unfold Memory.declare at h
  rcases of_bind_error h with hget | ⟨_, k, -, hrest⟩
  · cases hget
  · rcases of_bind_error hrest with hparameters | ⟨_, l, -, hend⟩
    · exact hallocate [] parameters k hparameters
    · cases hend

namespace Session

variable {m n : Memory} {ts : List Token}

/-- At no moment of an instruction something is used before it is there. -/
theorem Evaluates.not_premature {p q : Moment} {r : Record} (h : Evaluates m ts p r) (hm : m.Valid)
    (hq : p.Reaches q) : ¬ q.Premature := by
  rcases h.tracked hm hq with ⟨owner, o, live, Γ, a, hholds⟩
  exact hholds.not_premature

theorem Evaluates.not_rash {p : Moment} {r : Record} (h : Evaluates m ts p r) (hm : m.Valid) :
    ¬ p.Rash := by
  rintro ⟨q, hq, hpremature⟩
  exact h.not_premature hm hq hpremature

theorem starts_not_rash {r : Reading} (h : r.Starts m ts) (hm : m.Valid) : ¬ r.Rash := by
  rintro ⟨scope, e, k, hprobes, hrash⟩
  exact (Evaluates.probe h hprobes).not_rash hm hrash

/-- Declaring a function does not fail for this reason: reading its body does not, and its kind is
computed when it has a body. -/
theorem declareFunctionWith_not_premature {name : String} {parameters : List String} {body : Phrase}
    {r : Rejection} (hm : m.Valid)
    (hts : Instruction.ofTokens ts = .declaration name (.ok (parameters, body)))
    (hname : m.lookup? name = none)
    (h : declareFunctionWith fill name parameters body m = .error r n) : ¬ r.Premature := by
  intro hr
  have hreads := Instruction.rejectsOnly_ofTokens ts
  rw [hts] at hreads
  rcases hm.working hm.registered with ⟨owner, hw, -⟩
  -- Either the draft was refused, by the declaration or by the reading of the body, or the kind of
  -- the body was.
  rcases of_bind_error h with hdraft | ⟨⟨id, e⟩, k, hdraft, hrest⟩
  · rcases of_bind_error hdraft with hdeclare | ⟨id, k, hdeclare, hread⟩
    · exact Memory.declare_not_premature hdeclare hr
    · have hread' :
          (resolveWith fill
              ⟨parameters.zip (k.function id).parameterSlots, some (name, id)⟩ body >>=
            fun e => pure (id, e) : Resolution (FunctionId × Expr)) k = .error r n := hread
      rcases of_bind_error hread' with hresolve | ⟨_, l, -, hend⟩
      · exact starts_not_rash (.declaration hts hname hdeclare) hm
          (Reading.rash_of_premature hreads hresolve hr)
      · cases hend
  · rcases (draftWith_drafted hw name parameters hreads).of_ok rfl hdraft with ⟨rfl, hdrafted⟩
    have hkind :
        (Effect.mapError (declarationRejection name) (Typing.declarationKind m.functions.size) >>=
          fun _ => pure (.declaration name m.functions.size) : Resolution Expr)
            (k.attach m.functions.size e) = .error r n := hrest
    rcases of_bind_error hkind with hkind | ⟨_, l, -, hend⟩
    · rcases of_mapError_error hkind with ⟨fault, hfault, rfl⟩
      have hbody : ((k.attach m.functions.size e).function m.functions.size).body = some e :=
        hdrafted.declaring.body
      have hpremature : fault.Premature := by
        cases fault with
        | stackOverflow f => exact absurd hr id
        | _ => exact hr
      exact Typing.declarationKind_not_premature hbody hfault hpremature
    · cases hend

/-- Reading an instruction does not fail because something was used too early. -/
theorem parse_not_premature {r : Rejection} (hm : m.Valid) (h : parse ts m = .error r n) :
    ¬ r.Premature := by
  intro hr
  have hreads := Instruction.rejectsOnly_ofTokens ts
  unfold parse parseWith at h
  cases hi : Instruction.ofTokens ts with
  | rejected r' =>
      rw [hi] at h hreads
      cases h
      exact hreads.not_premature hr
  | expression p =>
      rw [hi] at h hreads
      exact starts_not_rash (.expression hi) hm (Reading.rash_of_premature hreads h hr)
  | declaration name definition =>
      rw [hi] at h hreads
      cases hname : m.lookup? name with
      | some id =>
          rw [ofInstructionWith_defined hname] at h
          cases h
          exact hr
      | none =>
          rw [ofInstructionWith_declaration hname] at h
          cases definition with
          | error r' =>
              cases h
              exact hreads.not_premature hr
          | ok definition => exact declareFunctionWith_not_premature hm hi hname h hr

/-- Nor does carrying it out. -/
theorem execute_not_premature {c : Cause} (hm : m.Valid) (h : (execute m ts).result = .error c) :
    ¬ c.Premature := by
  cases hp : parse ts m with
  | error r n =>
      rw [execute, hp] at h
      cases h
      exact parse_not_premature hm hp
  | ok e n =>
      rcases (parse_outcome hm ts).of_ok rfl hp with ⟨owner, hstaged⟩ | ⟨name, rfl, hadded⟩
      · rw [execute_staged hstaged hp] at h
        have hrun : (run e n).result = .error c := h
        unfold run at hrun
        split at hrun
        · next fault k hfault =>
            cases hrun
            exact Typing.kindOf_not_premature hfault
        · next k n' hkind =>
            have hplain : ∀ name id, e ≠ .declaration name id := hstaged.resolved.every.self.plain
            split at hrun
            · next fault t hfault =>
                cases hrun
                intro hpremature
                exact (Evaluates.run hp hplain hkind).not_rash hm
                  (Moment.rash_of_premature hfault hpremature)
            · cases hrun
      · -- The name is new, so registering it cannot fail.
        simp only [execute, hp, hadded.register] at h
        cases h

theorem submit_not_premature {s : Session} (hs : s.memory.Valid) {source : String} {d : Diagnostic}
    (hd : .error d ∈ (s.submit source).results) : ¬ d.cause.Premature :=
  submit_causes (C := fun c => ¬ c.Premature) (fun hm hc => execute_not_premature hm hc)
    Rejection.Syntactic.not_premature hs hd

/-- In every session, no instruction of any line fails because a variable was read that holds
nothing or a function was called that has no body, neither when it is read nor when it runs, and
registering a function that was declared does not fail. At no moment of an evaluation such a
variable or function is used. A call only reads what was set in the same call: the outcome is that
of evaluation in records, and there nothing is read either that the record does not hold. -/
theorem initialized_before_use {s : Session} (hs : Reachable s) :
    (∀ source d, .error d ∈ (s.submit source).results → ¬ d.cause.Premature) ∧
    (∀ ts name id n, parse ts s.memory = .ok (.declaration name id) n →
      ∃ n', n.register id = .ok n') ∧ ∀ ts p r, Evaluates s.memory ts p r →
      (∀ q, p.Reaches q → ¬ q.Premature) ∧
      SameOutcome (fun _ t a => t.printed = a.printed) p.outcome
        (Activation.evaluateWithin p.machine.memory p.depth [] p.mode p.expr { record := r }) ∧
      ∀ fault a, Activation.evaluateWithin p.machine.memory p.depth [] p.mode p.expr
        { record := r } = .error fault a → ¬ fault.Premature := by
  have hm := hs.valid
  refine ⟨fun source d hd => submit_not_premature hm hd, fun ts name id n hp => ?_,
    fun ts p r hp => ?_⟩
  · rcases (parse_outcome hm ts).of_ok rfl hp with ⟨owner, hstaged⟩ | ⟨name', he, hadded⟩
    · exact absurd rfl (hstaged.resolved.every.self.plain name id)
    · cases he
      exact ⟨_, hadded.register⟩
  · have hsame := hp.same_outcome hm
    refine ⟨fun q hq => hp.not_premature hm hq, hsame, fun fault a ha hpremature => ?_⟩
    -- The evaluator with shared slots would fail in the same way, at a moment when something is
    -- missing.
    rw [ha] at hsame
    generalize ho : p.outcome = outcome at hsame
    cases hsame with
    | error _ => exact hp.not_rash hm (Moment.rash_of_premature ho hpremature)

/-- A call that fails, a declaration and a call that is evaluated. -/
theorem falling_responds : (match (falling.submit "fall(true)").results with
      | [.error _] => true
      | _ => false) = true ∧
    (match parse sameDeclaration falling.memory with
      | .ok (.declaration "same" _) _ => true
      | _ => false) = true ∧
    (match parse fallingCall falling.memory with
      | .ok (.letIn ds b) n => (outcome (Typing.kindOf (.letIn ds b) n)).isOk
      | _ => false) = true := by
  decide +kernel

/-- A call with an argument of the wrong kind fails, but for another reason. A declaration is
registered, and a call runs to its end. -/
theorem initialized_before_use_falling :
    Reachable falling ∧
      (∃ d : Diagnostic, .error d ∈ (falling.submit "fall(true)").results ∧ ¬ d.cause.Premature) ∧
      (∃ id n n', parse sameDeclaration falling.memory = .ok (.declaration "same" id) n ∧
        n.register id = .ok n') ∧
      ∃ p r, Evaluates falling.memory fallingCall p r ∧ ∀ q, p.Reaches q → ¬ q.Premature := by
  obtain ⟨hresults, hdeclared, hrun⟩ := falling_responds
  rcases initialized_before_use reachable_falling with ⟨hlines, hregister, hmoments⟩
  refine ⟨reachable_falling, ?_, ?_, ?_⟩
  · split at hresults
    · next d hd => exact ⟨d, by simp [hd], hlines "fall(true)" d (by simp [hd])⟩
    · cases hresults
  · split at hdeclared
    · next id n hp =>
        rcases hregister _ _ _ _ hp with ⟨n', hn'⟩
        exact ⟨id, n, n', hp, hn'⟩
    · cases hdeclared
  · split at hrun
    · next ds b n hp =>
        obtain ⟨k, n', hk⟩ := ok_of_isOk hrun
        have hevaluates := Evaluates.run hp (by simp) hk
        exact ⟨_, _, hevaluates, (hmoments _ _ _ hevaluates).1⟩
    · cases hrun

end Session
end LineLang
