import LineLang.Proofs.Effect
import LineLang.Proofs.Expr
import LineLang.Proofs.Memory
import LineLang.Proofs.Typing.Assignment

/-!
# Kinds when the kinds of calls are given

The kind of an expression hangs on the kinds of the slots, on the numbers of parameters and on the
kinds of the called functions, and on nothing else. Once the latter are given it is a plain
function.

- `Typing.kindGiven`          : the kind of an expression when calls of functions have given kinds
- `Typing.kindWith_yields`    : computing a kind yields it, if entering bodies yields what is given
- `Memory.Settled`            : all kinds of functions are remembered
- `Typing.kindOf_settled`     : then nothing has to be entered
-/

namespace LineLang

open Effect

namespace Typing

/-! ## The plain function -/

mutual

/-- The kind of an expression when `answer` tells the kinds of calls. -/
def kindGiven (m : Memory) (answer : FunctionId → Except Fault Kind) : Expr → Except Fault Kind
  | .literal value => .ok value.kind
  | .variable reference => .ok (m.slot reference.slot).kind
  | .unary op operand => do
      let kind ← kindGiven m answer operand
      expect (.unary op) op.inputKind kind
      return op.outputKind
  | .binary op left right => do
      let l ← kindGiven m answer left
      let r ← kindGiven m answer right
      binaryKind op l r
  | .assign targets value => do
      let kind ← kindGiven m answer value
      assignmentKind m targets kind
  | .call _ function arguments _ => do
      (m.function function).checkArity arguments.length
      argumentsGiven m answer arguments
      answer function
  | .print argument => kindGiven m answer argument
  | .declaration _ _ => .ok .void
  | .letIn declarations body => do
      declarationsGiven m answer declarations
      kindGiven m answer body
  | .conditional condition consequent alternative => do
      let kind ← kindGiven m answer condition
      expect .condition .boolean kind
      branchKind (kindGiven m answer consequent) (kindGiven m answer alternative)

def argumentsGiven (m : Memory) (answer : FunctionId → Except Fault Kind) :
    List Expr → Except Fault Unit
  | [] => .ok ()
  | argument :: arguments => do
      let _ ← kindGiven m answer argument
      argumentsGiven m answer arguments

def declarationsGiven (m : Memory) (answer : FunctionId → Except Fault Kind) :
    List (Declaration Expr) → Except Fault Unit
  | [] => .ok ()
  | ⟨name, _, declared, initializer, dependent⟩ :: declarations => do
      if dependent then declarationsGiven m answer declarations
      else do
        let kind ← kindGiven m answer initializer
        expect (.variable name) declared kind
        declarationsGiven m answer declarations

end

/-! ## Faults -/

section Fault

variable {G : Fault → Prop} {m : Memory} {answer : FunctionId → Except Fault Kind}

def FailsWith {α : Type} (G : Fault → Prop) (r : Except Fault α) : Prop :=
  ∀ fault, r = .error fault → G fault

theorem FailsWith.bind {α β : Type} {r : Except Fault α} {f : α → Except Fault β}
    (hr : FailsWith G r) (hf : ∀ a, FailsWith G (f a)) : FailsWith G (r >>= f) := by
  cases r with
  | ok a => exact hf a
  | error fault =>
      rintro _ ⟨⟩
      exact hr fault rfl

theorem failsWith_ok {α : Type} {a : α} : FailsWith G (.ok a) := nofun

variable (hkind : ∀ site expected received, G (.kindMismatch site expected received))

include hkind in
theorem expect_failsWith {site : Site} {expected received : Kind} :
    FailsWith G (expect site expected received) := by
  intro fault h
  unfold expect at h
  split at h <;> cases h
  exact hkind _ _ _

include hkind in
/-- An operator only fails because of the kinds of its operands. -/
theorem binaryKind_failsWith {op : BinaryOperator} {l r : Kind} :
    FailsWith G (binaryKind op l r) := by
  unfold binaryKind
  cases op.family with
  | arithmetic | relational | logical =>
      refine FailsWith.bind (expect_failsWith hkind) fun _ => ?_
      exact FailsWith.bind (expect_failsWith hkind) fun _ => failsWith_ok
  | equality => exact FailsWith.bind (expect_failsWith hkind) fun _ => failsWith_ok
  | concatenation =>
      dsimp only
      split
      · rintro fault ⟨⟩
        exact hkind _ _ _
      · exact failsWith_ok

include hkind in
theorem assignmentKind_failsWith {targets : List Reference} {kind : Kind} :
    FailsWith G (assignmentKind m targets kind) := by
  intro fault h
  obtain ⟨_, _, _, _, -, -, rfl⟩ := checkTargets_error_iff.1 (assignmentKind_error_iff.1 h)
  exact hkind _ _ _

/-- A conditional fails as one of its branches does. -/
theorem branchKind_failsWith {a b : Except Fault Kind} (ha : FailsWith G a) (hb : FailsWith G b) :
    FailsWith G (branchKind a b) := by
  intro fault h
  unfold branchKind at h
  split at h <;> cases h
  · exact hb _ rfl
  · exact ha _ rfl
  · exact hb _ rfl

variable (harity : ∀ name expected found, G (.argumentCount name expected found))

include harity in
theorem checkArity_failsWith {f : Function} {count : Nat} : FailsWith G (f.checkArity count) := by
  intro fault h
  unfold Function.checkArity at h
  split at h <;> cases h
  exact harity _ _ _

include hkind harity in
/-- Computing a kind finds wrong kinds, wrong numbers of arguments and what calls answer. -/
theorem kindGiven_failsWith (hanswer : ∀ f, FailsWith G (answer f)) (e : Expr) :
    FailsWith G (kindGiven m answer e) := by
  induction e using Expr.induction with
  | literal v | read r | declaration name f => exact failsWith_ok
  | unary op e ih =>
      refine FailsWith.bind ih fun k => ?_
      exact FailsWith.bind (expect_failsWith hkind) fun _ => failsWith_ok
  | binary op l r ihl ihr =>
      exact FailsWith.bind ihl fun _ => FailsWith.bind ihr fun _ => binaryKind_failsWith hkind
  | assign ts e ih => exact FailsWith.bind ih fun _ => assignmentKind_failsWith hkind
  | print e ih => exact ih
  | call name f as dependent ih =>
      have hargs : FailsWith G (argumentsGiven m answer as) := by
        induction as with
        | nil => exact failsWith_ok
        | cons a as ihas =>
            rw [List.forall_mem_cons] at ih
            exact FailsWith.bind ih.1 fun _ => ihas ih.2
      refine FailsWith.bind (checkArity_failsWith harity) fun _ => ?_
      exact FailsWith.bind hargs fun _ => hanswer f
  | letIn ds b ihd ihb =>
      have hds : FailsWith G (declarationsGiven m answer ds) := by
        induction ds with
        | nil => exact failsWith_ok
        | cons d ds ihds =>
            rw [List.forall_mem_cons] at ihd
            rcases d with ⟨name, slot, kind, initializer, dependent⟩
            cases dependent with
            | true => exact ihds ihd.2
            | false =>
                refine FailsWith.bind ihd.1 fun _ => ?_
                exact FailsWith.bind (expect_failsWith hkind) fun _ => ihds ihd.2
      exact FailsWith.bind hds fun _ => ihb
  | conditional c t e ihc iht ihe =>
      refine FailsWith.bind ihc fun _ => FailsWith.bind (expect_failsWith hkind) fun _ => ?_
      exact branchKind_failsWith iht ihe

omit hkind harity

/-- A fault of another sort is found by no expression if no call answers with it. -/
theorem kindGiven_ne {fault : Fault}
    (hkind : ∀ site expected received, fault ≠ .kindMismatch site expected received)
    (harity : ∀ name expected found, fault ≠ .argumentCount name expected found)
    (hanswer : ∀ f, answer f ≠ .error fault) (e : Expr) : kindGiven m answer e ≠ .error fault := by
  have h : FailsWith (fault ≠ ·) (kindGiven m answer e) := by
    refine kindGiven_failsWith hkind harity ?_ e
    rintro f _ hf rfl
    exact hanswer f hf
  exact fun he => h fault he rfl

theorem kindGiven_ne_endless (h : ∀ f, answer f ≠ .error .endless) (e : Expr) :
    kindGiven m answer e ≠ .error .endless := by
  refine kindGiven_ne ?_ ?_ h e <;> exact nofun

theorem kindGiven_ne_overflow {g : String} (h : ∀ f, answer f ≠ .error (.stackOverflow g))
    (e : Expr) : kindGiven m answer e ≠ .error (.stackOverflow g) := by
  refine kindGiven_ne ?_ ?_ h e <;> exact nofun

end Fault

/-! ## What computing a kind keeps -/

section Keeps

variable {G : Fault → Prop} {K : Memory → Prop} {enter : Expr → Typing Kind}

theorem attempt_keeps {α : Type} {x : Typing α} (h : Keeps G K x) :
    Triple K (attempt x : Typing (Except Fault α)) (fun r s => FailsWith G r ∧ K s)
      (fun fault s => G fault ∧ K s) := by
  apply Triple.attempt
  refine h.weaken (fun _ hs => hs) (fun _ _ hs => ⟨failsWith_ok, hs⟩) fun fault s hs => ⟨?_, hs.2⟩
  rintro _ ⟨⟩
  exact hs.1

/-- What finding the kinds of functions keeps, computing a kind keeps. -/
theorem kindWith_keeps (hkind : ∀ site expected received, G (.kindMismatch site expected received))
    (harity : ∀ name expected found, G (.argumentCount name expected found))
    (hanswer : ∀ f, Keeps G K (answerWith enter f)) (e : Expr) : Keeps G K (kindWith enter e) := by
  induction e using Expr.induction with
  | literal v | declaration name f => exact Keeps.pure
  | read r => exact Triple.get_bind fun s hs => Triple.pure (by rintro _ rfl; exact hs)
  | unary op e ih =>
      simp only [kindWith]
      refine Keeps.bind ih fun k => Keeps.bind (Keeps.ofExcept ?_) fun _ => Keeps.pure
      exact expect_failsWith hkind
  | binary op l r ihl ihr =>
      simp only [kindWith]
      refine Keeps.bind ihl fun k => Keeps.bind ihr fun k' => Keeps.ofExcept ?_
      exact binaryKind_failsWith hkind
  | assign ts e ih =>
      simp only [kindWith]
      refine Keeps.bind ih fun k => Triple.get_bind fun s hs => ?_
      refine (Keeps.ofExcept (I := K) (assignmentKind_failsWith hkind)).weaken ?_ (fun _ _ h => h)
        fun _ _ h => h
      rintro _ rfl
      exact hs
  | print e ih => simpa only [kindWith] using ih
  | call name f as dependent ih =>
      have hargs : Keeps G K (argumentsWith enter as) := by
        induction as with
        | nil => exact Keeps.pure
        | cons a as ihas =>
            rw [List.forall_mem_cons] at ih
            exact Keeps.bind ih.1 fun _ => ihas ih.2
      simp only [kindWith, callKindWith]
      refine Triple.get_bind fun s hs => ?_
      refine Triple.weaken (P := K) ?_ (by rintro _ rfl; exact hs) (fun _ _ h => h) fun _ _ h => h
      refine Keeps.bind (Keeps.ofExcept (checkArity_failsWith harity)) fun _ => ?_
      exact Keeps.bind hargs fun _ => hanswer f
  | letIn ds b ihd ihb =>
      have hds : Keeps G K (declarationsWith enter ds) := by
        induction ds with
        | nil => exact Keeps.pure
        | cons d ds ihds =>
            rw [List.forall_mem_cons] at ihd
            rcases d with ⟨name, slot, kind, initializer, dependent⟩
            cases dependent with
            | true => simpa [declarationsWith] using ihds ihd.2
            | false =>
                simp only [declarationsWith]
                refine Keeps.bind ihd.1 fun _ => ?_
                exact Keeps.bind (Keeps.ofExcept (expect_failsWith hkind)) fun _ => ihds ihd.2
      simp only [kindWith]
      exact Keeps.bind hds fun _ => ihb
  | conditional c t e ihc iht ihe =>
      simp only [kindWith]
      refine Keeps.bind ihc fun k =>
        Keeps.bind (Keeps.ofExcept (expect_failsWith hkind)) fun _ => ?_
      -- Both branches are attempted, and only a fault of theirs can become the fault of the whole.
      refine Triple.bind (attempt_keeps iht) fun a => ?_
      refine Triple.bind (R := fun b s => (FailsWith G a ∧ FailsWith G b) ∧ K s) ?_ fun b => ?_
      · intro s hs
        exact (attempt_keeps ihe).weaken_at hs.2 (fun b t ht => ⟨⟨hs.1, ht.1⟩, ht.2⟩)
          (fun _ _ h => h) s rfl
      · refine Triple.ofExcept (fun _ _ _ hs => hs.2) fun fault s hf hs => ⟨?_, hs.2⟩
        exact branchKind_failsWith hs.1.1 hs.1.2 fault hf

end Keeps

/-! ## Computing a kind yields it -/

section Yields

variable {J K : Memory → Prop} {m : Memory} {answer : FunctionId → Except Fault Kind}
variable {enter : Expr → Typing Kind}

/-- Where one branch has no kind for another reason than the limit on calls, the conditional has the
same fault. -/
theorem branchKind_error {fault : Fault} (hf : ∀ g, fault ≠ .stackOverflow g)
    {r : Except Fault Kind} (hr : r ≠ .error .endless) :
    branchKind (.error fault) r = .error fault := by
  cases r with
  | ok k => cases fault <;> first | rfl | exact absurd rfl (hf _)
  | error g => cases g <;> first | exact absurd rfl hr | (cases fault <;> rfl)

/-- Both branches of a conditional are computed, and what they come to decides. A failure of the
first branch may leave a state from which the second one does not yield what it should; then nothing
but the first one counts. -/
theorem branch_yields {x y : Typing Kind} {a b : Except Fault Kind} (hJK : ∀ s, J s → K s)
    (hx : Yields J K x a) (hy : Yields J K y b) (ha : a ≠ .error .endless)
    (hb : b ≠ .error .endless)
    (hK : (∀ s, K s → J s) ∨ ((∀ g, a ≠ .error (.stackOverflow g)) ∧
      (∀ g, b ≠ .error (.stackOverflow g)) ∧ Keeps (· ≠ .endless) K y)) :
    Yields J K (do
      let a ← attempt x
      let b ← attempt y
      ofExcept (branchKind a b)) (branchKind a b) := by
  intro s hs
  have hxs := hx s hs
  cases hr : x s with
  | ok k t =>
      rw [hr] at hxs
      rcases hxs with ⟨rfl, ht⟩
      rw [bind_ok (attempt_ok hr)]
      have hyt := hy t ht
      cases hq : y t with
      | ok k' u =>
          rw [hq] at hyt
          rcases hyt with ⟨rfl, hu⟩
          rw [bind_ok (attempt_ok hq)]
          exact ⟨rfl, hu⟩
      | error g u =>
          rw [hq] at hyt
          rcases hyt with ⟨rfl, hu⟩
          rw [bind_ok (attempt_error hq)]
          cases g with
          | endless => exact absurd rfl hb
          | stackOverflow name =>
              -- The overflow is forgiven, so the state has to be a good one.
              rcases hK with hK | hK
              · exact ⟨rfl, hK u hu⟩
              · exact absurd rfl (hK.2.1 name)
          | _ => exact ⟨rfl, hu⟩
  | error f t =>
      rw [hr] at hxs
      rcases hxs with ⟨rfl, ht⟩
      rw [bind_ok (attempt_error hr)]
      rcases hK with hK | ⟨hfa, hfb, hkeep⟩
      · have hyt := hy t (hK t ht)
        cases hq : y t with
        | ok k' u =>
            rw [hq] at hyt
            rcases hyt with ⟨rfl, hu⟩
            rw [bind_ok (attempt_ok hq)]
            -- Only an overflow of the first branch is forgiven.
            cases f with
            | stackOverflow name => exact ⟨rfl, hu⟩
            | _ => exact ⟨rfl, hJK u hu⟩
        | error g u =>
            rw [hq] at hyt
            rcases hyt with ⟨rfl, hu⟩
            rw [bind_ok (attempt_error hq)]
            have hbranch : branchKind (.error f) (.error g) = .error f := by
              cases f <;> cases g <;> first | rfl | exact absurd rfl hb
            rw [hbranch]
            exact ⟨rfl, hu⟩
      · -- The first branch fails for good, whatever the second one comes to.
        have hf : ∀ g, f ≠ .stackOverflow g := fun g h => hfa g (by rw [h])
        rw [branchKind_error hf hb]
        have hyt := hkeep t ht
        cases hq : y t with
        | ok k' u =>
            rw [hq] at hyt
            rw [bind_ok (attempt_ok hq), branchKind_error (r := .ok k') hf nofun]
            exact ⟨rfl, hyt⟩
        | error g u =>
            rw [hq] at hyt
            rw [bind_ok (attempt_error hq), branchKind_error hf fun h => hyt.1 (Except.error.inj h)]
            exact ⟨rfl, hyt.2⟩

def SameKinds (m n : Memory) : Prop :=
  (∀ t, (n.slot t).kind = (m.slot t).kind) ∧
    ∀ f count, (n.function f).checkArity count = (m.function f).checkArity count

/-- Only the kinds of the targets matter. -/
theorem assignmentKind_congr {n : Memory} {targets : List Reference} {kind : Kind}
    (h : ∀ t ∈ targets, (n.slot t.slot).kind = (m.slot t.slot).kind) :
    assignmentKind n targets kind = assignmentKind m targets kind := by
  have hc : ∀ common, checkTargets n common targets = checkTargets m common targets := by
    induction targets with
    | nil => exact fun _ => rfl
    | cons t ts ih =>
        rw [List.forall_mem_cons] at h
        intro common
        simp only [checkTargets, h.1, ih h.2]
  simp only [assignmentKind, hc]

/-- If finding the kind of each function yields what is given, computing the kind of an expression
yields the kind that it has. -/
theorem kindWith_yields (hJK : ∀ s, J s → K s) (hJ : ∀ s, J s → SameKinds m s)
    (hanswer : ∀ f, Yields J K (answerWith enter f) (answer f))
    (hends : ∀ f, answer f ≠ .error .endless)
    (hK : (∀ s, K s → J s) ∨ ((∀ f g, answer f ≠ .error (.stackOverflow g)) ∧
      ∀ e, Keeps (· ≠ .endless) K (kindWith enter e)))
    (e : Expr) : Yields J K (kindWith enter e) (kindGiven m answer e) := by
  induction e using Expr.induction with
  | literal v | declaration name f => exact Yields.pure
  | read r =>
      refine Yields.get_bind fun s hs => ?_
      rw [(hJ s hs).1]
      exact Yields.pure
  | unary op e ih =>
      simp only [kindWith, kindGiven]
      refine Yields.bind ih fun k _ => ?_
      exact Yields.bind (Yields.ofExcept hJK) fun _ _ => Yields.pure
  | binary op l r ihl ihr =>
      simp only [kindWith, kindGiven]
      exact Yields.bind ihl fun k _ => Yields.bind ihr fun k' _ => Yields.ofExcept hJK
  | assign ts e ih =>
      simp only [kindWith, kindGiven]
      refine Yields.bind ih fun k _ => Yields.get_bind fun s hs => ?_
      rw [assignmentKind_congr fun t _ => (hJ s hs).1 t.slot]
      exact Yields.ofExcept hJK
  | print e ih => simpa only [kindWith, kindGiven] using ih
  | call name f as dependent ih =>
      have hargs : Yields J K (argumentsWith enter as) (argumentsGiven m answer as) := by
        induction as with
        | nil => exact Yields.pure
        | cons a as ihas =>
            rw [List.forall_mem_cons] at ih
            exact Yields.bind ih.1 fun _ _ => ihas ih.2
      simp only [kindWith, callKindWith, kindGiven]
      -- The state may remember more than `m`, but not other numbers of parameters.
      refine Yields.get_bind fun s hs => ?_
      rw [(hJ s hs).2]
      refine Yields.bind (Yields.ofExcept hJK) fun _ _ => ?_
      exact Yields.bind hargs fun _ _ => hanswer f
  | letIn ds b ihd ihb =>
      have hds : Yields J K (declarationsWith enter ds) (declarationsGiven m answer ds) := by
        induction ds with
        | nil => exact Yields.pure
        | cons d ds ihds =>
            rw [List.forall_mem_cons] at ihd
            rcases d with ⟨name, slot, kind, initializer, dependent⟩
            cases dependent with
            | true =>
                -- An initializer that is left in its slot is not typed here.
                simpa [declarationsWith, declarationsGiven] using ihds ihd.2
            | false =>
                simp only [declarationsWith, declarationsGiven]
                refine Yields.bind ihd.1 fun _ _ => ?_
                exact Yields.bind (Yields.ofExcept hJK) fun _ _ => ihds ihd.2
      simp only [kindWith, kindGiven]
      exact Yields.bind hds fun _ _ => ihb
  | conditional c t e ihc iht ihe =>
      have hne := kindGiven_ne_endless (m := m) hends
      simp only [kindWith, kindGiven]
      refine Yields.bind ihc fun k _ => Yields.bind (Yields.ofExcept hJK) fun _ _ => ?_
      refine branch_yields hJK iht ihe (hne t) (hne e) (hK.imp id fun h => ?_)
      exact ⟨fun g => kindGiven_ne_overflow (h.1 · g) t, fun g => kindGiven_ne_overflow (h.1 · g) e,
        h.2 e⟩

end Yields

/-! ## The kind that calls of a function have -/

section Answer

variable {s : Memory} {enter : Expr → Typing Kind} {f : FunctionId}

theorem answerWith_apply : answerWith enter f s =
    (match (s.function f).returnKind, (s.function f).body with
      | some k, _ => pure k
      | none, none => pure .dynamic
      | none, some b =>
          if (s.function f).overflowed then throw (.stackOverflow (s.function f).name)
          else do
            update (·.enter f)
            ensuring (Memory.leave f) (remember f (enter b)) : Typing Kind) s :=
  rfl

theorem answerWith_known {k : Kind} (hk : (s.function f).returnKind = some k) :
    answerWith enter f s = .ok k s := by
  rw [answerWith_apply, hk]
  rfl

theorem answerWith_bodyless (hk : (s.function f).returnKind = none)
    (hb : (s.function f).body = none) : answerWith enter f s = .ok .dynamic s := by
  rw [answerWith_apply, hk, hb]
  rfl

theorem answerWith_body {b : Expr} (hk : (s.function f).returnKind = none)
    (hb : (s.function f).body = some b) : answerWith enter f s =
      (if (s.function f).overflowed then throw (.stackOverflow (s.function f).name)
      else do
        update (·.enter f)
        ensuring (Memory.leave f) (remember f (enter b)) : Typing Kind) s := by
  rw [answerWith_apply, hk, hb]

end Answer

/-! ## Parts of the storage that do not matter -/

/-- The kind of an expression only hangs on the kinds of its slots and on the functions that it
calls. -/
theorem kindGiven_congr {m n : Memory} {answer answer' : FunctionId → Except Fault Kind} {e : Expr}
    (hslots : e.SlotsIn fun t => (n.slot t).kind = (m.slot t).kind)
    (hcalls : e.Calls fun f => answer' f = answer f ∧
      ∀ count, (n.function f).checkArity count = (m.function f).checkArity count) :
    kindGiven n answer' e = kindGiven m answer e := by
  unfold Expr.SlotsIn at hslots
  unfold Expr.Calls at hcalls
  induction e using Expr.induction with
  | literal v | declaration name f => rfl
  | read r => simp only [kindGiven, hslots.self r.slot (List.mem_singleton.2 rfl)]
  | unary op e ih =>
      rw [Expr.every_unary] at hslots hcalls
      simp only [kindGiven, ih hslots.2 hcalls.2]
  | binary op l r ihl ihr =>
      rw [Expr.every_binary] at hslots hcalls
      simp only [kindGiven, ihl hslots.2.1 hcalls.2.1, ihr hslots.2.2 hcalls.2.2]
  | assign ts e ih =>
      rw [Expr.every_assign] at hslots hcalls
      have hts : ∀ kind, assignmentKind n ts kind = assignmentKind m ts kind := fun kind =>
        assignmentKind_congr fun t ht => hslots.1 t.slot (List.mem_map_of_mem ht)
      simp only [kindGiven, ih hslots.2 hcalls.2, hts]
  | print e ih =>
      rw [Expr.every_print] at hslots hcalls
      simp only [kindGiven, ih hslots.2 hcalls.2]
  | call name f as dependent ih =>
      rw [Expr.every_call] at hslots hcalls
      have hf := hcalls.1 f (List.mem_singleton.2 rfl)
      have hargs : argumentsGiven n answer' as = argumentsGiven m answer as := by
        have hs := hslots.2
        have hc := hcalls.2
        clear hslots hcalls
        induction as with
        | nil => rfl
        | cons a as ihas =>
            rw [List.forall_mem_cons] at ih hs hc
            simp only [argumentsGiven, ih.1 hs.1 hc.1, ihas ih.2 hs.2 hc.2]
      simp only [kindGiven, hf, hargs]
  | letIn ds b ihd ihb =>
      rw [Expr.every_letIn] at hslots hcalls
      have hds : declarationsGiven n answer' ds = declarationsGiven m answer ds := by
        have hs := hslots.2.1
        have hc := hcalls.2.1
        clear hslots hcalls
        induction ds with
        | nil => rfl
        | cons d ds ihds =>
            rw [List.forall_mem_cons] at ihd hs hc
            rcases d with ⟨name, slot, kind, initializer, dependent⟩
            simp only [declarationsGiven, ihd.1 hs.1 hc.1, ihds ihd.2 hs.2 hc.2]
      simp only [kindGiven, hds, ihb hslots.2.2 hcalls.2.2]
  | conditional c t e ihc iht ihe =>
      rw [Expr.every_conditional] at hslots hcalls
      simp only [kindGiven, ihc hslots.2.1 hcalls.2.1, iht hslots.2.2.1 hcalls.2.2.1,
        ihe hslots.2.2.2 hcalls.2.2.2]

end Typing

/-! ## Remembered kinds -/

namespace Memory

def Settled (m : Memory) : Prop :=
  ∀ f, (m.function f).returnKind = none → (m.function f).body = none

/-- The remembered kind of a function; one without a body may give anything. -/
def answer (m : Memory) (f : FunctionId) : Except Fault Kind :=
  .ok ((m.function f).returnKind.getD .dynamic)

theorem answer_ne {m : Memory} {f : FunctionId} {fault : Fault} : m.answer f ≠ .error fault :=
  nofun

end Memory

namespace Typing

variable {m : Memory}

/-- A kind that is remembered is looked up, and nothing changes. -/
theorem answerWith_settled (hm : m.Settled) (enter : Expr → Typing Kind) (f : FunctionId) :
    Yields (· = m) (· = m) (answerWith enter f) (m.answer f) := by
  rintro s rfl
  cases hk : (s.function f).returnKind with
  | some k =>
      rw [answerWith_known hk, Memory.answer, hk]
      exact ⟨rfl, rfl⟩
  | none =>
      rw [answerWith_bodyless hk (hm f hk), Memory.answer, hk]
      exact ⟨rfl, rfl⟩

/-- Where all kinds are remembered, computing a kind changes nothing. -/
theorem kindWithin_settled (hm : m.Settled) (n : Nat) (e : Expr) :
    Yields (· = m) (· = m) (kindWithin (n + 1) e) (kindGiven m m.answer e) := by
  apply kindWith_yields (fun _ h => h)
  · rintro s rfl
    exact ⟨fun _ => rfl, fun _ _ => rfl⟩
  · exact answerWith_settled hm _
  · exact fun _ => Memory.answer_ne
  · exact .inl fun _ h => h

theorem kindGiven_answer_ne_endless (e : Expr) : kindGiven m m.answer e ≠ .error .endless :=
  kindGiven_ne_endless (fun _ => Memory.answer_ne) e

theorem kindOf_settled (hm : m.Settled) (e : Expr) :
    Yields (· = m) (· = m) (kindOf e) (kindGiven m m.answer e) := by
  refine Yields.get_bind ?_
  rintro s rfl
  exact kindWithin_settled hm _ e

theorem kindOf_eq (hm : m.Settled) (e : Expr) :
    kindOf e m = Effect.ofExcept (kindGiven m m.answer e) m :=
  (kindOf_settled hm e).eq

end Typing
end LineLang
