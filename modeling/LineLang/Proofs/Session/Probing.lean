import LineLang.Proofs.Evaluation.Repetition
import LineLang.Proofs.Session.Modes
import LineLang.Proofs.Session.Success

/-!
# Asking for values in a session

At every moment of an instruction everything stands among the variables in force. So an expression
may be asked for its value at any moment and any number of times.

- `Session.Reachable.arranged`      : bodies of functions stand among their parameters
- `Session.Evaluates.orderly`       : what is known at every moment of an instruction
- `Session.probing_harmless`        : asking for a value changes next to nothing, and may be
  repeated
-/

namespace LineLang

open Effect Evaluation

/-! ## Functions of a session -/

/-- The bindings of a function come after its parameters. -/
theorem Resolution.Defines.placed {m n : Memory} {ts : List Token} {name : String}
    {parameters : List String} {body : Phrase} {b : Expr}
    (h : Defines m ts name parameters body n b) :
    b.Placed (fun _ => True) {t | t ∈ List.range' m.slots.size parameters.length}
      (m.slots.size + parameters.length) n.slots.size := by
  rcases h.resolved with ⟨owner, l, -, hresolved⟩
  refine ⟨fun _ _ => trivial, hresolved.inScope.mono fun t ht => ⟨ht, ?_⟩, h.linked.ascending,
    fun t ht => .inl ?_⟩
  · exact (List.mem_range'_1.1 ht).2
  · exact (List.mem_range'_1.1 ht).2

namespace Session

/-- The body of a new function stands among its parameters, and no instruction changes a body. -/
theorem execute_arranged {m : Memory} (hm : m.Valid ∧ m.Arranged) (ts : List Token) :
    (execute m ts).memory.Valid ∧ (execute m ts).memory.Arranged := by
  refine ⟨execute_valid hm.1 ts, ?_⟩
  rcases execute_outcome hm.1 ts with ⟨n, name, hadded, hparse, h⟩ | ⟨h, -⟩
  · rw [h]
    intro f b hb
    have hlt : f < n.functions.size := Memory.lt_size_of_body hb
    rw [hadded.opened.count] at hlt
    -- The older functions are as they were, and the last one has just been read.
    rcases Nat.lt_succ_iff_lt_or_eq.1 hlt with hold | rfl
    · have hsame : n.function f = m.function f := hadded.opened.above.function hold
      have hbody : (m.function f).body = some b := hsame ▸ hb
      show ∃ lo hi, b.Placed (fun _ => True) {t | t ∈ (n.function f).parameterSlots} lo hi
      rw [hsame]
      exact hm.2 f b hbody
    · rcases Resolution.parse_ok hm.1 hparse with
        ⟨p, owner, -, hstaged, -⟩ | ⟨name', _, _, b', he, hdefines⟩
      · exact absurd rfl (hstaged.resolved.every.self.plain name m.functions.size)
      · rcases hdefines.function with ⟨kind, hfunction⟩
        have hbody : (n.function m.functions.size).body = some b := hb
        show ∃ lo hi,
          b.Placed (fun _ => True) {t | t ∈ (n.function m.functions.size).parameterSlots} lo hi
        rw [hfunction] at hbody ⊢
        cases hbody
        exact ⟨_, _, hdefines.placed⟩
  · rw [h]
    exact hm.2

/-- Every function of a session was declared by an instruction. -/
theorem Reachable.arranged {s : Session} (hs : Reachable s) : s.memory.Arranged := by
  have hempty : ({} : Memory).Valid ∧ ({} : Memory).Arranged := by
    refine ⟨Memory.valid_empty, fun f b hb => ?_⟩
    exact absurd (Memory.lt_size_of_body hb) (Nat.not_lt_zero f)
  exact (hs.keeps (P := fun m => m.Valid ∧ m.Arranged) hempty fun _ ts hm =>
    execute_arranged hm ts).2

end Session

/-! ## Moments of an instruction -/

/-- The bindings of an initializer that is asked for its value come after the variables in force. -/
theorem Reading.Open.allotted {owner : SlotId → FunctionId} {base n : Memory} {r : Reading}
    {scope : Scope} {e : Expr} (h : r.Open owner base) (hr : r.Probes scope e n) :
    ∃ lo hi, Ascending lo e.allotted hi ∧ ∀ t ∈ scope.slots, t < lo := by
  rcases hr with ⟨r', d, hreaches, hallots, -, rfl⟩
  have hr' := h.reaches hreaches
  cases hallots with
  | @binding scope cs declared name p cs' b m ds inner k e k' inferred l kind hcs hp
      hinferred hkind =>
      cases hr'.syntactic with
      | letIn _ hclauses _ =>
          have hsyntactic := hclauses declared name p (by simp)
          have hinner := hr'.clauses hcs
          have hlinked := Resolution.resolveWith_linked hsyntactic hinner.working hinner.within hp
          exact ⟨_, _, hlinked.ascending, fun t ht => (hinner.within.bindings t ht).2⟩

namespace Session

variable {m : Memory} {ts : List Token} {p q : Moment} {r : Record}

/-- When an evaluation starts, what it uses and binds stands among the variables in force. -/
theorem Evaluates.placed (h : Evaluates m ts p r) (hm : m.Valid) (harranged : m.Arranged)
    {P : Expr → Prop} (hexpr : p.expr.Every P) :
    (∃ Γ lo hi, p.Placed P Γ lo hi) ∧ p.machine.memory.Arranged := by
  cases h with
  | @run e n k n' hp hplain hkind =>
      rcases Resolution.parse_ok hm hp with ⟨p, owner, -, hstaged, hlinked⟩ | ⟨name, _, _, b, he, -⟩
      · rw [Typing.kindOf_eq hstaged.working.settled] at hkind
        rcases of_ofExcept_ok hkind with ⟨-, rfl⟩
        refine ⟨⟨∅, m.slots.size, _, ⟨hexpr, ?_, hlinked.ascending, ?_⟩, ?_⟩, fun f b hb => ?_⟩
        · exact hstaged.resolved.inScope.mono (Set.empty_subset _)
        · exact fun t ht => absurd ht (Set.notMem_empty t)
        · exact fun t ht => absurd ht (Set.notMem_empty t)
        · rw [hstaged.grown.function f] at hb ⊢
          exact harranged f b hb
      · exact absurd he (hplain name _)
  | @probe r scope e n hr hprobes =>
      rcases hr.open hm with ⟨owner, hopen⟩
      rcases hopen.probes hprobes with ⟨hscope, hresolved, hindependent⟩
      rcases hopen.allotted hprobes with ⟨lo, hi, hascending, hlt⟩
      refine ⟨⟨n.fixed scope.slots, lo, hi, ⟨hexpr, ?_, hascending, ?_⟩, ?_⟩, fun f b hb => ?_⟩
      · exact (hresolved.fixed hindependent).1.mono fun t ht => ⟨ht, hlt t ht.1⟩
      · exact fun t ht => .inl (hlt t ht.1)
      · -- The variables in force hold values.
        intro t ht _ e he
        rcases hscope.filled t ht with ⟨v, hv, -⟩
        cases hv.symm.trans he
      · have hsame : n.function f = m.function f := hscope.above.function (hscope.bodies f b hb)
        have hbody : (m.function f).body = some b := hsame ▸ hb
        show ∃ lo hi, b.Placed (fun _ => True) {t | t ∈ (n.function f).parameterSlots} lo hi
        rw [hsame]
        exact harranged f b hbody

/-- What all parts of the expression and of bodies satisfy, the parts of all expressions do that are
evaluated on the way. -/
theorem Evaluates.orderly_with (h : Evaluates m ts p r) (hm : m.Valid) (harranged : m.Arranged)
    {P : Expr → Prop} (hexpr : p.expr.Every P)
    (hbodies : ∀ f b, (p.machine.memory.function f).body = some b → b.Every P) (hq : p.Reaches q) :
    ∃ owner Γ, q.Orderly owner P Γ := by
  rcases h.owned hm .refl with ⟨owner, o, howned⟩
  rcases h.placed hm harranged hexpr with ⟨⟨Γ, lo, hi, hplaced⟩, hstarted⟩
  have hstart := hstarted.bodiesPlaced (P := P) fun _ f _ _ b _ hb => hbodies f b hb
  exact ⟨owner, Moment.Orderly.reaches ⟨⟨o, howned⟩, ⟨lo, hi, hplaced⟩, hstart⟩ hq⟩

theorem Evaluates.orderly (h : Evaluates m ts p r) (hm : m.Valid) (harranged : m.Arranged)
    (hq : p.Reaches q) : ∃ owner Γ, q.Orderly owner (fun _ => True) Γ :=
  h.orderly_with hm harranged (fun _ _ => trivial) (fun _ _ _ _ _ => trivial) hq

/-- Take any moment of any session at which an expression is about to be evaluated, and let it be
asked for its value instead, with any bound on how deep stored expressions are followed. However
this ends, nothing is printed, every function has as many active calls as before, and a slot only
changes if it is bound in the expression or in an initializer that is read on the way in the same
call. Asking once more comes to the same value or fault and ends in the same storage. -/
theorem probing_harmless {s : Session} (hs : Reachable s) (hp : Evaluates s.memory ts p r)
    (hq : p.Reaches q) (depth : Nat) : let first := evaluateWithin depth .probe q.expr q.machine
    (final first).printed = q.machine.printed ∧
    (∀ f, ((final first).memory.function f).depth = (q.machine.memory.function f).depth) ∧
    (∀ t, ¬ Moment.Rebinds ⟨depth, .probe, q.expr, q.machine⟩ t →
      (final first).memory.slot t = q.machine.memory.slot t) ∧
    evaluateWithin depth .probe q.expr (final first) = first := by
  rcases hp.orderly hs.valid hs.arranged hq with ⟨owner, Γ, horderly⟩
  have hasked := horderly.asked depth .probe
  refine ⟨probe_silent depth q.expr q.machine, fun f => ?_, fun t ht =>
    hasked.slot_eq ht, hasked.again⟩
  exact congrArg (·.depth) (hasked.spares.memory.function f)

def togglingLet : List Token :=
  [.keyword .letWord, .word "x", .symbol .equals, .boolean true, .keyword .inWord, .word "x",
    .symbol .assign, .word "toggle", .symbol .openParen, .word "x", .symbol .closeParen]

/-- Asked for its value twice, the assignment has the same value both times and prints nothing. -/
theorem probing_harmless_toggling :
    Reachable toggling ∧ ∃ p, Evaluates toggling.memory togglingLet p .empty ∧
      Effect.outcome (evaluateWithin p.depth .probe p.expr p.machine) = .ok (.boolean false) ∧
      (final (evaluateWithin p.depth .probe p.expr p.machine)).printed = p.machine.printed ∧
      evaluateWithin p.depth .probe p.expr
        (final (evaluateWithin p.depth .probe p.expr p.machine)) =
        evaluateWithin p.depth .probe p.expr p.machine := by
  have hs : Reachable toggling := .submit .start _
  have hrun :
      (staged? toggling.memory togglingLet).any (fun p => decide (p.expr.ownDeclarations ≠ [] ∧
        Effect.outcome (evaluateWithin p.depth .probe p.expr p.machine) = .ok (.boolean false))) =
        true := by
    decide +kernel
  rcases (Option.any_eq_true _ _).1 hrun with ⟨p, hstaged, hp⟩
  rcases of_decide_eq_true hp with ⟨hlet, hvalue⟩
  have hplain : ∀ name id, p.expr ≠ .declaration name id := by
    intro name id hexpr
    rw [hexpr] at hlet
    exact hlet rfl
  have hevaluates := evaluates_staged hstaged hplain
  rcases probing_harmless hs hevaluates .refl p.depth with ⟨hprinted, -, -, hagain⟩
  exact ⟨hs, p, hevaluates, hvalue, hprinted, hagain⟩

end Session
end LineLang
