import LineLang.Proofs.Resolution.Replay
import LineLang.Proofs.Session.Records

/-!
# Precomputed bindings

The values of independent bindings are computed while an instruction is read, wherever the bindings
stand. What can be noticed of it: an instruction whose bindings cannot be computed is rejected, even
if it would never have come to them. Otherwise it does what it does without precomputation.

- `Session.run_level`                : what slots hold before an expression runs does not matter
- `Session.execute_postponed`        : an instruction and its expression read without precomputation
- `Session.precomputation_noticed`   : when an expression that runs to a value is accepted
-/

namespace LineLang

open Effect Resolution

namespace Memory

variable {owner : SlotId → FunctionId} {m n : Memory} {e : Expr}

/-- Functions that were there before an instruction only use slots that were. -/
theorem Staged.callable (h : m.Staged owner n e) (hm : m.Complete) :
    Activation.Callable n m.slots.size where
  parameters f b hb t ht := by
    rw [h.grown.function] at hb ht
    rcases (Activation.callable_of_complete hm).parameters f b hb t ht with ⟨hlt, hkind⟩
    exact ⟨hlt, (h.grown.kind hlt).trans hkind⟩
  inScope f b hb := by
    rw [h.grown.function] at hb ⊢
    exact (Activation.callable_of_complete hm).inScope f b hb

/-- Before anything is read. -/
theorem Staged.stage (h : m.Staged owner n e) (hm : m.Complete)
    (hw : m.Working owner m.functions.size m.slots.size) :
    Stage owner m.functions.size n ∅ m m n := by
  have hcomplete : n.Complete := h.complete hm
  refine ⟨.refl m, .empty, ?_, ?_⟩
  · exact Activation.agrees_start hcomplete hw.coherent h.grown.functions.symm
      (fun t ht => (h.grown.shape t ht).symm) #[]
  · exact Activation.agrees_start hcomplete h.working.coherent rfl (fun _ _ => rfl) #[]

end Memory

namespace Session

variable {owner : SlotId → FunctionId} {m n n' : Memory} {e : Expr}

/-- What the slots of an expression hold before it runs does not matter. -/
theorem run_level (hm : m.Complete) (h : m.Staged owner n e) (h' : m.Staged owner n' e)
    (hlevel : n.Level n') :
    (run e n').result = (run e n).result ∧ (run e n').printed = (run e n).printed := by
  have hgrown : n.Grown 0 n' := .of_unchangedOutside hlevel fun _ _ => Nat.zero_le _
  have hcomplete : n.Complete := h.complete hm
  have hkinds : Typing.kindGiven n' n'.answer e = Typing.kindGiven n n.answer e :=
    hgrown.kindGiven h.resolved.slots
  simp only [run, Typing.kindOf_eq hcomplete.settled,
    Typing.kindOf_eq (h'.complete hm).settled, hkinds]
  cases Typing.kindGiven n n.answer e with
  | error fault => exact ⟨rfl, rfl⟩
  | ok kind =>
      -- Both storages agree with the record in which nothing has been set.
      have hstart : Activation.Agrees owner n n.slots.size m.functions.size [] ∅
          { memory := n } {} :=
        Activation.agrees_start hcomplete h.working.coherent rfl (fun _ _ => rfl) #[]
      have hstart' : Activation.Agrees owner n n'.slots.size m.functions.size [] ∅
          { memory := n' } {} :=
        Activation.agrees_start hcomplete h'.working.coherent hlevel.functions
          (fun t _ => hlevel.shape t) #[]
      rw [hlevel.size] at hstart'
      simp only [Effect.ofExcept]
      rcases Activation.evaluate_both (Activation.callable_of_complete hcomplete)
          (Nat.le_refl _) hstart'
          hstart h.resolved.here h.resolved.slots h.resolved.inScope .run with
        ⟨v, s, s', a, hs, hs', ha, ha'⟩ | ⟨fault, s, s', hs, hs', hprinted⟩
      · rw [hs, hs']
        exact ⟨rfl, congrArg Array.toList (ha.printed.trans ha'.printed.symm)⟩
      · rw [hs, hs']
        exact ⟨rfl, congrArg Array.toList hprinted⟩

/-- An instruction is rejected if its bindings cannot be computed, with the fault of the first one
that cannot. Otherwise it does what its expression does. -/
theorem execute_postponed (hm : m.Valid) {ts : List Token} {p : Phrase}
    (hts : Instruction.ofTokens ts = .expression p) (hp : parseWith postpone ts m = .ok e n) :
    (∃ k, fillAll e.bindings n = .ok () k ∧ (execute m ts).result = (run e n).result ∧
      (execute m ts).printed = (run e n).printed) ∨
    ∃ fault k, fillAll e.bindings n = .error (.static fault) k ∧
      (execute m ts).result = .error (.rejected (.static fault)) ∧ (execute m ts).printed = [] := by
  have hreads := Instruction.rejectsOnly_ofTokens ts
  rw [hts] at hreads
  have hparse : ∀ fill, parseWith fill ts = resolveWith fill {} p := by
    intro fill
    rw [parseWith, hts]
    rfl
  rcases hm.working hm.registered with ⟨owner, hw, -⟩
  rw [hparse] at hp
  -- Both ways of reading start in the storage between instructions, with no variable in force.
  have hstaged := (resolveWith_staged postpone_steps hw hreads).of_ok rfl hp
  have hstage := hstaged.stage hm.complete hw
  rw [← slots_empty] at hstage
  have hreplay := resolveWith_replays (hstaged.callable hm.complete) hreads hw (within_empty m) hp
    (.refl n) hstage
  generalize hr : resolveWith fill {} p m = r at hreplay
  generalize hr' : fillAll e.bindings n = r' at hreplay
  have heager : parse ts m = r := by rw [parse, hparse, hr]
  cases hreplay with
  | @ok m' k hend =>
      -- What was computed on the way is computed anew when the expression runs.
      have hstaged' := (resolveWith_staged fill_steps hw hreads).of_ok rfl hr
      have hrun := run_level hm.complete hstaged hstaged' hend.level
      refine .inl ⟨k, rfl, ?_⟩
      rw [execute_staged hstaged' heager]
      exact hrun
  | @error fault m' k =>
      refine .inr ⟨fault, k, rfl, ?_⟩
      rw [execute, heager]
      exact ⟨rfl, rfl⟩

/-- The value of an expression that is read without precomputation, and the texts it prints. -/
def runPostponed (m : Memory) (ts : List Token) : Option (Value × List String) :=
  match parseWith postpone ts m with
  | .error _ _ => none
  | .ok e n =>
      match Typing.kindOf e n with
      | .error _ _ => none
      | .ok _ n' =>
          match Evaluation.evaluate .run e { memory := n' } with
          | .error _ _ => none
          | .ok v t => some (v, t.printed.toList)

/-- A run without precomputation has read the instruction, found its kind and evaluated it. -/
theorem runPostponed_eq_some {ts : List Token} {v : Value} {printed : List String}
    (h : runPostponed m ts = some (v, printed)) :
    ∃ e n kind n' t, parseWith postpone ts m = .ok e n ∧ Typing.kindOf e n = .ok kind n' ∧
      Evaluation.evaluate .run e { memory := n' } = .ok v t ∧ t.printed.toList = printed := by
  unfold runPostponed at h
  split at h
  · cases h
  next e n hp =>
    split at h
    · cases h
    next kind n' hk =>
      split at h
      · cases h
      next v t hv =>
        cases h
        exact ⟨e, n, kind, n', t, hp, hk, hv, rfl⟩

/-- Suppose that an expression, read without precomputation, has a kind and runs to a value. If the
values of its bindings can be computed one after the other in the order of reading, then the
instruction gives that value and prints the same. If not, the instruction prints nothing and is
rejected with the fault of the first binding that cannot be computed. -/
theorem precomputation_noticed {s : Session} (hs : Reachable s) {ts : List Token} {p : Phrase}
    (hts : Instruction.ofTokens ts = .expression p) {e : Expr} {n n' : Memory} {kind : Kind}
    {v : Value} {t : Machine} (hp : parseWith postpone ts s.memory = .ok e n)
    (hk : Typing.kindOf e n = .ok kind n')
    (hv : Evaluation.evaluate .run e { memory := n' } = .ok v t) :
    (∃ k, fillAll e.bindings n = .ok () k ∧ (execute s.memory ts).result = .ok v ∧
      (execute s.memory ts).printed = t.printed.toList) ∨
    ∃ fault k, fillAll e.bindings n = .error (.static fault) k ∧
      (execute s.memory ts).result = .error (.rejected (.static fault)) ∧
        (execute s.memory ts).printed = [] := by
  have hrun : run e n = { result := .ok v, memory := t.memory, printed := t.printed.toList } := by
    simp only [run, hk, hv]
  have hpostponed := execute_postponed hs.valid hts hp
  rw [hrun] at hpostponed
  exact hpostponed

/-- The tokens of `let a = "x" in (a := "y") @ (let b = a in print(b))`. -/
def assigned : List Token :=
  [.keyword .letWord, .word "a", .symbol .equals, .text "x", .keyword .inWord,
    .symbol .openParen, .word "a", .symbol .assign, .text "y", .symbol .closeParen, .symbol .atSign,
    .symbol .openParen, .keyword .letWord, .word "b", .symbol .equals, .word "a", .keyword .inWord,
    .word "print", .symbol .openParen, .word "b", .symbol .closeParen, .symbol .closeParen]

/-- The inner binding is computed with another value of the outer variable than it has when it runs,
and it is the latter that counts. -/
theorem precomputation_noticed_assigned :
    Reachable {} ∧ Instruction.ofTokens assigned = .expression (.ofWindow assigned) ∧
      ∃ e n kind n' t k, parseWith postpone assigned {} = .ok e n ∧
        Typing.kindOf e n = .ok kind n' ∧
        Evaluation.evaluate .run e { memory := n' } = .ok (.text "yy") t ∧
          t.printed.toList = ["y"] ∧
        fillAll e.bindings n = .ok () k ∧ (execute {} assigned).result = .ok (.text "yy") ∧
        (execute {} assigned).printed = ["y"] := by
  have hexpression : Instruction.ofTokens assigned = .expression (.ofWindow assigned) := rfl
  have hrun : runPostponed {} assigned = some (.text "yy", ["y"]) := by decide +kernel
  have haccepted : (execute {} assigned).result = .ok (.text "yy") := by decide +kernel
  rcases runPostponed_eq_some hrun with ⟨e, n, kind, n', t, hp, hk, hv, hprinted⟩
  refine ⟨.start, hexpression, e, n, kind, n', t, ?_⟩
  rcases precomputation_noticed .start hexpression hp hk hv with
    ⟨k, hfill, hresult, htexts⟩ | ⟨fault, k, -, hrejected, -⟩
  · exact ⟨k, hp, hk, hv, hprinted, hfill, hresult, htexts.trans hprinted⟩
  · cases haccepted.symm.trans hrejected

/-- The tokens of `if (true) true else let x = !(if (true) "a" else true) in x`. -/
def untaken : List Token :=
  [.keyword .ifWord, .symbol .openParen, .boolean true, .symbol .closeParen, .boolean true,
    .keyword .elseWord, .keyword .letWord, .word "x", .symbol .equals, .symbol .bang,
    .symbol .openParen, .keyword .ifWord, .symbol .openParen, .boolean true, .symbol .closeParen,
    .text "a", .keyword .elseWord, .boolean true, .symbol .closeParen, .keyword .inWord, .word "x"]

/-- A binding in a branch that is not taken makes the instruction fail, although its expression has
a kind and runs to a value. -/
theorem precomputation_rejects_untaken :
    Reachable {} ∧ Instruction.ofTokens untaken = .expression (.ofWindow untaken) ∧
      (∃ e n kind n' t, parseWith postpone untaken {} = .ok e n ∧ Typing.kindOf e n = .ok kind n' ∧
        Evaluation.evaluate .run e { memory := n' } = .ok (.boolean true) t ∧
          t.printed.toList = []) ∧ (execute {} untaken).result =
        .error (.rejected (.static (.kindMismatch (.unary .not) .boolean .text))) := by
  have hrun : runPostponed {} untaken = some (.boolean true, []) := by decide +kernel
  refine ⟨.start, rfl, runPostponed_eq_some hrun, ?_⟩
  decide +kernel

end Session
end LineLang
