import LineLang.Proofs.Session.Records

/-!
# Lines come to an end

Evaluation follows bodies and initializers only so deep, and gives up beyond. It never does: with
the bound that is used there is an answer, and a larger bound gives the same. So no instruction of
any line ends because something was given up.

- `Effect.Settles`              : allowed to go deep enough, an action has an outcome
- `Cause.Definite`              : a cause other than giving up
- `Session.execute_definite`    : an instruction has a result or fails for such a cause
- `Session.submit_causes`       : causes known of instructions are known of lines
- `Session.evaluation_settles`  : evaluation and kinds of what was read, and all lines, come to an
  end
-/

namespace LineLang

open Effect

/-- Allowed to go deep enough, the action has the outcome `r`, which is not that it gave up. -/
def Effect.Settles {σ α : Type} (bounded : Nat → EStateM Fault σ α) (s : σ)
    (r : EStateM.Result Fault σ α) : Prop :=
  (∀ t, r ≠ .error .endless t) ∧ ∃ n, ∀ k, n ≤ k → bounded k s = r

/-- An action that leaves the state alone has the same outcome however it is bounded. -/
theorem Effect.Yields.settles {σ α : Type} {bounded : Nat → EStateM Fault σ α}
    {x : EStateM Fault σ α} {s : σ} {r : Except Fault α} (hr : r ≠ .error .endless)
    (hbounded : ∀ n, Yields (· = s) (· = s) (bounded (n + 1)) r) (hx : Yields (· = s) (· = s) x r) :
    Settles bounded s (x s) := by
  -- The result and the state after it are both determined.
  have houtcome : ∀ y : EStateM Fault σ α, Yields (· = s) (· = s) y r →
      y s = match r with
        | .ok a => .ok a s
        | .error fault => .error fault s := by
    intro y hy
    have h := hy s rfl
    cases hys : y s with
    | ok a t =>
        rw [hys] at h
        rcases h with ⟨rfl, rfl⟩
        rfl
    | error fault t =>
        rw [hys] at h
        rcases h with ⟨rfl, rfl⟩
        rfl
  refine ⟨fun t ht => ?_, 1, fun k hk => ?_⟩
  · have h := hx s rfl
    rw [ht] at h
    exact hr h.1
  · rcases Nat.exists_eq_succ_of_ne_zero (Nat.ne_zero_of_lt hk) with ⟨n, rfl⟩
    exact (houtcome _ (hbounded n)).trans (houtcome x hx).symm

/-! ## Texts that are no instructions -/

/-- A place that begins no token is a fault of the text. -/
theorem Token.syntactic_next {c : Char} {cs : List Char} {r : Rejection}
    (h : next c cs = .error r) : r.Syntactic := by
  unfold next at h
  split at h
  · split at h <;> cases h
    exact Rejection.syntactic_of rfl
  · split at h
    · cases h
    · split at h <;> cases h
      exact Rejection.syntactic_of rfl

theorem Token.syntactic_scan {cs : List Char} {r : Rejection} (h : scan cs = .error r) :
    r.Syntactic := by
  fun_induction scan cs with
  | case1 => cases h
  | case2 c cs _ ih => exact ih h
  | case3 c cs _ r' hnext =>
      cases h
      exact syntactic_next hnext
  | case4 c cs _ t rest hnext _ ih => exact ih (error_of_map h)

/-- So is a semicolon inside a parenthesis. -/
theorem syntactic_splitAtSemicolons {depth : Nat} {ts : List Token} {r : Rejection}
    (h : splitAtSemicolons depth ts = .error r) : r.Syntactic := by
  fun_induction splitAtSemicolons depth ts with
  | case1 => cases h
  | case2 _ ih => exact ih (error_of_map h)
  | case3 =>
      cases h
      exact Rejection.syntactic_of rfl
  | case4 _ _ _ _ ih => exact ih (error_of_map h)

/-- A line is cut into instructions without computing kinds or values. -/
theorem syntactic_instructionsOf {source : String} {r : Rejection}
    (h : instructionsOf source = .error r) : r.Syntactic := by
  unfold instructionsOf at h
  cases hts : Token.ofSource source with
  | ok ts =>
      rw [hts] at h
      exact syntactic_splitAtSemicolons h
  | error r' =>
      rw [hts] at h
      cases h
      exact Token.syntactic_scan hts

/-! ## Instructions and lines -/

def Cause.Definite (c : Cause) : Prop :=
  c ≠ .failed .endless ∧ c ≠ .rejected (.static .endless)

theorem Rejection.Syntactic.definite {r : Rejection} (h : r.Syntactic) :
    (Cause.rejected r).Definite := by
  refine ⟨nofun, fun hr => ?_⟩
  cases hr
  exact h .endless rfl

namespace Session

variable {m : Memory}

/-- Running an expression fails with a fault, which is no rejection. -/
theorem run_definite {owner : SlotId → FunctionId} {n : Memory} {e : Expr} (h : m.Staged owner n e)
    {c : Cause} (hc : (run e n).result = .error c) : c.Definite := by
  refine ⟨fun hend => (run_staged h).2 (hend ▸ hc), fun hend => ?_⟩
  subst hend
  unfold run at hc
  split at hc
  · cases hc
  · split at hc <;> cases hc

/-- No instruction is given up: its phrases, its kinds and its values are all bounded by the
storage. -/
theorem execute_definite (hm : m.Valid) {ts : List Token} {c : Cause}
    (hc : (execute m ts).result = .error c) : c.Definite := by
  have hparse := Resolution.parse_outcome hm ts m rfl
  cases hp : parse ts m with
  | error r n =>
      rw [hp] at hparse
      rw [execute, hp] at hc
      cases hc
      exact ⟨by simp, fun hr => hparse.1 (Cause.rejected.inj hr)⟩
  | ok e n =>
      rw [hp] at hparse
      rcases hparse with ⟨owner, hstaged⟩ | ⟨name, rfl, hadded⟩
      · rw [execute_staged hstaged hp] at hc
        exact run_definite hstaged hc
      · -- The name is new, so registering it cannot fail.
        simp only [execute, hp, hadded.register] at hc
        cases hc

section Causes

/-! What is known of the cause when an instruction fails is known of every failure in a line. -/

variable {C : Cause → Prop} (hC : ∀ {m ts c}, m.Valid → (execute m ts).result = .error c → C c)

include hC

/-- What holds of the failures of every instruction holds of those of a line. -/
theorem executeAll_causes (hm : m.Valid) {total index : Nat} {groups : List (List Token)}
    {d : Diagnostic} (hd : .error d ∈ (executeAll total index m groups).results) : C d.cause := by
  induction groups generalizing m index with
  | nil => cases hd
  | cons ts groups ih =>
      cases ts with
      | nil => exact ih hm hd
      | cons t ts =>
          rcases List.mem_cons.1 hd with hfirst | hrest
          · cases hresult : (execute m (t :: ts)).result with
            | ok v =>
                simp only [hresult] at hfirst
                cases hfirst
            | error c =>
                have hcause : (locate index total c).cause = c := by
                  unfold locate
                  split <;> rfl
                simp only [hresult] at hfirst
                cases hfirst
                rw [hcause]
                exact hC hm hresult
          · exact ih (execute_valid hm _) hrest

/-- The same for a line that may not be cut into instructions at all. -/
theorem submit_causes (hsyntactic : ∀ {r : Rejection}, r.Syntactic → C (.rejected r)) {s : Session}
    (hs : s.memory.Valid) {source : String} {d : Diagnostic}
    (hd : .error d ∈ (s.submit source).results) : C d.cause := by
  unfold submit at hd
  split at hd
  · next r hr =>
      cases List.mem_singleton.1 hd
      exact hsyntactic (syntactic_instructionsOf hr)
  · exact executeAll_causes hC hs hd

end Causes

theorem submit_definite {s : Session} (hs : s.memory.Valid) {source : String} {d : Diagnostic}
    (hd : .error d ∈ (s.submit source).results) : d.cause.Definite :=
  submit_causes (fun hm hc => execute_definite hm hc) Rejection.Syntactic.definite hs hd

/-- In every session, evaluating what was read comes to an end in both modes, and so does computing
its kind: there is an answer other than giving up, and following bodies and initializers deeper
gives the same. No instruction of any line fails because something was given up. -/
theorem evaluation_settles {s : Session} (hs : Reachable s) :
    (∀ ts e m, parse ts s.memory = .ok e m →
      (∀ mode printed, Settles (fun n => Evaluation.evaluateWithin n mode e)
        { memory := m, printed } (Evaluation.evaluate mode e { memory := m, printed })) ∧
      Settles (fun n => Typing.kindWithin n e) m (Typing.kindOf e m)) ∧
    ∀ source d, .error d ∈ (s.submit source).results →
      d.cause ≠ .failed .endless ∧ d.cause ≠ .rejected (.static .endless) := by
  refine ⟨fun ts e m hp => ?_, fun source d hd => submit_definite hs.valid hd⟩
  rcases parse_ready hs.valid hp with ⟨owner, o, h⟩
  have hsettled := h.complete.settled
  refine ⟨fun mode printed => ⟨h.ne_endless mode printed, Evaluation.depthBound m, ?_⟩, ?_⟩
  · intro k hk
    exact h.evaluateWithin_eq hk mode printed
  · exact Yields.settles (Typing.kindGiven_answer_ne_endless e)
      (fun n => Typing.kindWithin_settled hsettled n e) (Typing.kindOf_settled hsettled e)

def spinning : Session :=
  (submit {} "function spin(b) => if (b) spin(b) else b").session

def spinningCall : List Token :=
  [.word "spin", .symbol .openParen, .boolean true, .symbol .closeParen]

theorem reachable_spinning : Reachable spinning :=
  .submit .start _

/-- The call ends, and it ends because of the limit on calls. -/
theorem evaluation_settles_spinning :
    Reachable spinning ∧
      (∃ e m, parse spinningCall spinning.memory = .ok e m ∧
        Settles (fun n => Evaluation.evaluateWithin n .run e) { memory := m }
          (Evaluation.evaluate .run e { memory := m })) ∧
      ∃ d : Diagnostic, .error d ∈ (spinning.submit "spin(true)").results ∧
        d.cause = .failed (.stackOverflow "spin") ∧ d.cause ≠ .failed .endless := by
  obtain ⟨hparse, hresults⟩ : (outcome (parse spinningCall spinning.memory)).isOk = true ∧
      (spinning.submit "spin(true)").results =
        [.error { cause := .failed (.stackOverflow "spin") }] := by
    decide +kernel
  rcases evaluation_settles reachable_spinning with ⟨hexpr, hlines⟩
  refine ⟨reachable_spinning, ?_, ?_⟩
  · obtain ⟨e, m, hp⟩ := ok_of_isOk hparse
    exact ⟨e, m, hp, (hexpr _ e m hp).1 .run #[]⟩
  · have hmem : .error { cause := .failed (.stackOverflow "spin") } ∈
        (spinning.submit "spin(true)").results := by
      rw [hresults]
      exact List.mem_singleton.2 rfl
    exact ⟨_, hmem, rfl, (hlines "spin(true)" _ hmem).1⟩

end Session
end LineLang
