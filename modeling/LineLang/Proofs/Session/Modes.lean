import LineLang.Proofs.Evaluation.Involved
import LineLang.Proofs.Session.Calls
import LineLang.Proofs.Session.Enforcement

/-!
# Values in the two modes

Arguments are only asked for their values, while an expression on its own is carried out. Without an
assignment this makes no difference to the value. With one it does as soon as the assigned value is
read, or is refused by the variable.

- `Evaluation.modes_agree_unassigned`  : without an assignment
- `Evaluation.call_has_one_value`      : with assigned values that are not read back
- `Session.call_with_two_values`       : with one that is
-/

namespace LineLang

open Effect Evaluation Moment

namespace Evaluation

/-- Take any expression and any machine such that no assignment is involved: neither in the
expression, nor in an initializer left in a slot that is read, nor in the body of a function that is
called. Then carrying out the expression and asking for its value come to the same value or the same
fault and end in the same storage. Asking prints nothing, and carrying out may print. -/
theorem modes_agree_unassigned (depth : Nat) (e : Expr) (s : Machine)
    (h : ∀ targets value, ¬ s.memory.Involves e (.assign targets value)) :
    outcome (evaluateWithin depth .probe e s) = outcome (evaluateWithin depth .run e s) ∧
      (final (evaluateWithin depth .probe e s)).memory =
        (final (evaluateWithin depth .run e s)).memory ∧
      (final (evaluateWithin depth .probe e s)).printed = s.printed ∧
      s.printed.toList <+: (final (evaluateWithin depth .run e s)).printed.toList := by
  rcases blind_of_unassigned (p := ⟨depth, .run, e, s⟩) h .free with ⟨hblind, hstale⟩
  have hparallel := evaluateWithin_parallel (.refl .free ∅ s) hblind
  rw [hstale] at hparallel
  have hfinal : Machine.Apart .free ∅ s.printed (final (evaluateWithin depth .run e s))
      (final (evaluateWithin depth .probe e s)) :=
    hparallel.final (fun _ _ _ _ hq => hq.2) fun _ _ he => he
  refine ⟨(hparallel.outcome_eq fun _ _ _ _ hq => hq.1).symm, ?_, hfinal.silent, hfinal.printed⟩
  exact hfinal.memory.eq fun t ht => absurd ht (Set.notMem_empty t)

/-- Take any call and any machine. If, while the call is carried out, no variable is read after it
was assigned in the same scope, and no assigned value is refused by the kind of its variable, then
the call has the same value or the same fault when it is only asked for it. So a call that is the
argument of another call passes on the value that it has on its own. -/
theorem call_has_one_value (depth : Nat) (name : String) (f : FunctionId) (es : List Expr)
    (dependent : Bool) (s : Machine) (h : Steady ⟨depth + 1, .run, .call name f es dependent, s⟩) :
    outcome (evaluateWithin (depth + 1) .probe (.call name f es dependent) s) =
        outcome (evaluateWithin (depth + 1) .run (.call name f es dependent) s) ∧
      ∀ rest v vs t,
        argumentsWith (evaluateWithin depth) (.call name f es dependent :: rest) s =
          .ok (v :: vs) t →
          outcome (evaluateWithin (depth + 1) .run (.call name f es dependent) s) = .ok v := by
  have hblind : Blind .free ∅ ⟨depth + 1, .run, .call name f es dependent, s⟩ :=
    ⟨fun t ht => absurd ht (Set.notMem_empty t), h, fun _ _ _ _ _ _ => trivial⟩
  have hsame := (evaluateWithin_parallel (.refl .free ∅ s) hblind).outcome_eq fun _ _ _ _ hq => hq.1
  refine ⟨hsame.symm, fun rest v vs t harguments => ?_⟩
  rcases of_bind_ok harguments with ⟨w, u, hw, hrest⟩
  rcases of_bind_ok hrest with ⟨ws, u', -, hend⟩
  cases hend
  have hprobe : evaluateWithin (depth + 1) .probe (.call name f es dependent) s = .ok v u := hw
  rw [hsame, hprobe]
  rfl

end Evaluation

namespace Session

/-! ## Calls that assign -/

/-- The moment at which an instruction is carried out, after it was read and has a kind. -/
def staged? (m : Memory) (ts : List Token) : Option Moment :=
  match parse ts m with
  | .ok e n =>
      match Typing.kindOf e n with
      | .ok _ n' => some ⟨depthBound n', .run, e, { memory := n' }⟩
      | .error _ _ => none
  | .error _ _ => none

/-- The moment that was computed is the one at which the instruction is carried out. -/
theorem evaluates_staged {m : Memory} {ts : List Token} {p : Moment} (h : staged? m ts = some p)
    (hplain : ∀ name id, p.expr ≠ .declaration name id) : Evaluates m ts p .empty := by
  unfold staged? at h
  split at h
  · next e n hparse =>
      split at h
      · next kind n' hkind =>
          cases h
          exact .run hparse hplain hkind
      · cases h
  · cases h

/-- A call that is about to be carried out, found by running what comes before. -/
theorem exists_staged_call {m : Memory} {ts : List Token} {P : Moment → Prop} [DecidablePred P]
    {n : Nat}
    (h : (staged? m ts).any
      (fun p => decide (p.depth = n ∧ p.mode = .run ∧ p.expr.ownCallees ≠ [] ∧ P p)) = true) :
    ∃ name f es dependent s, staged? m ts = some ⟨n, .run, .call name f es dependent, s⟩ ∧
      P ⟨n, .run, .call name f es dependent, s⟩ := by
  rcases (Option.any_eq_true _ _).1 h with ⟨⟨n', mode, e, s⟩, hstaged, hp⟩
  rcases of_decide_eq_true hp with ⟨rfl, rfl, hcall, hP⟩
  cases e with
  | call name f es dependent => exact ⟨name, f, es, dependent, s, hstaged, hP⟩
  | _ => exact absurd rfl hcall

/-- Nothing is evaluated after something else: there is at most one operand, and bindings are
dependent. -/
def single : Expr → Bool
  | .binary _ _ _ => false
  | .conditional _ _ _ => false
  | .letIn ds _ => ds.all (·.dependent)
  | _ => true

theorem not_readsBack_of_single {q : Moment} (h : single q.expr = true) : ¬ q.ReadsBack := by
  rintro ⟨a, b, t, hab, -, -⟩
  cases hab with
  | right | consequent | alternative => cases h
  | initializer hds hd | inside hds hd => simp [single, hd] at h

/-- Nothing is read back and nothing is refused, if nothing is evaluated after something else and
every variable takes any value. -/
theorem steady_of_single {m : Memory} {ts : List Token} {p : Moment} {r : Record}
    (hm : m.Valid) (hp : Evaluates m ts p r) (hstored : p.machine.memory.storedAll single = true)
    (hexpr : p.expr.parts.all single = true)
    (hkinds : ∀ slot ∈ p.machine.memory.slots.toList, slot.kind = .dynamic) : p.Steady := by
  intro q hq
  have hsingle : ∀ e ∈ q.expr.parts, single e = true :=
    List.all_eq_true.1 ((Reaches.involves hq).all hstored hexpr)
  refine ⟨not_readsBack_of_single (hsingle _ (Expr.mem_parts_self _)), ?_⟩
  rintro ⟨-, targets, e, v, u, hassign, hv, t, ht, hrefused⟩
  rcases hp.owned hm hq with ⟨owner, o, howned⟩
  rcases hp.tracked hm hq with ⟨_, _, _, _, _, hholds⟩
  have hkind := fun hlt => hp.kind_eq hm hq (t := t.slot) hlt
  rcases q with ⟨n, mode, _, s⟩
  cases hassign
  have hlt : t.slot < p.machine.memory.slots.size :=
    hholds.slots.self t.slot (List.mem_map_of_mem ht)
  -- Neither the moments before nor the value that is assigned change the kinds of slots.
  have hvalue : Owned owner o ⟨n, .run, e, s⟩ :=
    howned.operand (by simp [Expr.parts, Expr.mem_parts_self])
  have hshape : (u.memory.slot t.slot).kind = (s.memory.slot t.slot).kind :=
    congrArg (·.kind) ((hvalue.after hv).2.shape t.slot)
  have hdynamic : (p.machine.memory.slot t.slot).kind = .dynamic :=
    hkinds _ (by simp [Memory.slot, hlt])
  rw [hshape, hkind hlt, hdynamic] at hrefused
  cases hrefused

def toggling : Session :=
  (submit {} "function toggle(p) => let y = p in y := !y").session

def togglingCall : List Token :=
  [.word "toggle", .symbol .openParen, .boolean true, .symbol .closeParen]

/-- The variable is read before it is assigned, and the call has one value. -/
theorem call_has_one_value_toggling :
    Reachable toggling ∧ ∃ name f es dependent s, staged? toggling.memory togglingCall =
        some ⟨767 + 1, .run, .call name f es dependent, s⟩ ∧
      Steady ⟨767 + 1, .run, .call name f es dependent, s⟩ ∧
      outcome (evaluateWithin (767 + 1) .run (.call name f es dependent) s) = .ok (.boolean false) ∧
      outcome (evaluateWithin (767 + 1) .probe (.call name f es dependent) s) =
        .ok (.boolean false) := by
  have hs : Reachable toggling := .submit .start _
  obtain ⟨name, f, es, dependent, s, hstaged, hstored, hexpr, hkinds, hrun⟩ :=
    exists_staged_call (m := toggling.memory) (n := 767 + 1) (P := fun p =>
      p.machine.memory.storedAll single = true ∧ p.expr.parts.all single = true ∧
        (∀ slot ∈ p.machine.memory.slots.toList, slot.kind = .dynamic) ∧
        outcome (evaluateWithin p.depth .run p.expr p.machine) = .ok (.boolean false))
      (by decide +kernel : (staged? toggling.memory togglingCall).any _ = true)
  have hsteady :=
    steady_of_single hs.valid (evaluates_staged hstaged (by simp)) hstored hexpr hkinds
  refine ⟨hs, name, f, es, dependent, s, hstaged, hsteady, hrun, ?_⟩
  rw [(call_has_one_value 767 name f es dependent s hsteady).1]
  exact hrun

def echoing : Session :=
  (submit {} "function f(p) => let y = \"a\" in (y := p) @ y; function id(x) => x").session

def refusing : Session :=
  (submit {} "function f(p) => let boolean y = true in y := p").session

def textCall : List Token :=
  [.word "f", .symbol .openParen, .text "b", .symbol .closeParen]

/-- Carried out, a call reads what it has assigned, or fails since what it assigns is refused. Asked
for their values, neither call does, and as the argument of another call it has this other value. -/
theorem call_with_two_values :
    (Reachable echoing ∧ ∃ name f es dependent s, staged? echoing.memory textCall =
        some ⟨1536, .run, .call name f es dependent, s⟩ ∧
      outcome (evaluateWithin 1536 .run (.call name f es dependent) s) = .ok (.text "bb") ∧
      outcome (evaluateWithin 1536 .probe (.call name f es dependent) s) = .ok (.text "ba")) ∧
    (Reachable refusing ∧ ∃ name f es dependent s, staged? refusing.memory textCall =
        some ⟨768, .run, .call name f es dependent, s⟩ ∧
      outcome (evaluateWithin 768 .run (.call name f es dependent) s) =
        .error (.kindMismatch (.variable "y") .boolean .text) ∧
      outcome (evaluateWithin 768 .probe (.call name f es dependent) s) = .ok (.text "b")) ∧
    (echoing.submit "f(\"b\")").results = [.ok (.text "bb")] ∧
    (echoing.submit "id(f(\"b\"))").results = [.ok (.text "ba")] := by
  obtain ⟨hechoing, hrefusing, hown, hpassed⟩ :
      (staged? echoing.memory textCall).any (fun p => decide (p.depth = 1536 ∧ p.mode = .run ∧
        p.expr.ownCallees ≠ [] ∧ outcome (evaluateWithin 1536 .run p.expr p.machine) =
        .ok (.text "bb") ∧
        outcome (evaluateWithin 1536 .probe p.expr p.machine) = .ok (.text "ba"))) = true ∧
      (staged? refusing.memory textCall).any (fun p => decide (p.depth = 768 ∧ p.mode = .run ∧
        p.expr.ownCallees ≠ [] ∧ outcome (evaluateWithin 768 .run p.expr p.machine) =
          .error (.kindMismatch (.variable "y") .boolean .text) ∧
        outcome (evaluateWithin 768 .probe p.expr p.machine) = .ok (.text "b"))) = true ∧
      (echoing.submit "f(\"b\")").results = [.ok (.text "bb")] ∧
      (echoing.submit "id(f(\"b\"))").results = [.ok (.text "ba")] := by
    decide +kernel
  exact ⟨⟨.submit .start _, exists_staged_call hechoing⟩,
    ⟨.submit .start _, exists_staged_call hrefusing⟩, hown, hpassed⟩

/-! ## Calls that print -/

def unassigning : Expr → Bool
  | .assign _ _ => false
  | _ => true

def showing : Session :=
  (submit {} "function show(x) => let y = !x in print(y)").session

def showingCall : List Token :=
  [.word "show", .symbol .openParen, .boolean true, .symbol .closeParen]

/-- The call prints something only when it is carried out. -/
theorem modes_agree_unassigned_showing :
    Reachable showing ∧ ∃ name f es dependent s, staged? showing.memory showingCall =
        some ⟨768, .run, .call name f es dependent, s⟩ ∧
      (∀ targets value, ¬ s.memory.Involves (.call name f es dependent) (.assign targets value)) ∧
      outcome (evaluateWithin 768 .probe (.call name f es dependent) s) = .ok (.boolean false) ∧
      (final (evaluateWithin 768 .probe (.call name f es dependent) s)).memory =
        (final (evaluateWithin 768 .run (.call name f es dependent) s)).memory ∧
      (final (evaluateWithin 768 .probe (.call name f es dependent) s)).printed = s.printed ∧
      (final (evaluateWithin 768 .run (.call name f es dependent) s)).printed =
        s.printed.push "false" := by
  have hs : Reachable showing := .submit .start _
  obtain ⟨name, f, es, dependent, s, hstaged, hstored, hexpr, hrun, hprinted⟩ :=
    exists_staged_call (m := showing.memory) (n := 768) (P := fun p =>
      p.machine.memory.storedAll unassigning = true ∧ p.expr.parts.all unassigning = true ∧
        outcome (evaluateWithin 768 .run p.expr p.machine) = .ok (.boolean false) ∧
        (final (evaluateWithin 768 .run p.expr p.machine)).printed = p.machine.printed.push "false")
      (by decide +kernel : (staged? showing.memory showingCall).any _ = true)
  have hunassigned : ∀ targets value,
      ¬ s.memory.Involves (.call name f es dependent) (.assign targets value) := by
    intro targets value hinvolves
    have hall := List.all_eq_true.1 (hinvolves.all hstored hexpr) _ (Expr.mem_parts_self _)
    cases hall
  rcases modes_agree_unassigned 768 (.call name f es dependent) s hunassigned with
    ⟨houtcome, hmemory, hsilent, -⟩
  exact ⟨hs, name, f, es, dependent, s, hstaged, hunassigned, houtcome.trans hrun, hmemory,
    hsilent, hprinted⟩

end Session
end LineLang
