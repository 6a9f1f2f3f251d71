import LineLang.Proofs.Typing.Precision

/-!
# Two passes

The kind of a function that calls itself can be found without following its calls. The body is given
a kind where calls of the function overflow, and then once more where they have the kind found
first. All further levels come to the same: a fault found once is found again, and kinds can only
get less precise.

- `Typing.Spoils`                  : a result is the same, or a given fault
- `Typing.kindGiven_spoils`        : calls that fail leave an expression as it was, or failing the
  same way
- `Typing.nested_stable`           : from the second level on, all levels come to the same
- `Typing.passes`                  : the kind that two passes over the body come to
- `Typing.declarationKind_passes`  : it is the kind of the declaration
-/

namespace LineLang

open Effect

namespace Typing

/-! ## Calls that fail -/

/-- The second result is the first one, or it is the fault. -/
def Spoils {α : Type} (fault : Fault) (r r' : Except Fault α) : Prop :=
  r' = r ∨ r' = .error fault

namespace Spoils

variable {α β : Type} {fault : Fault}

theorem refl (r : Except Fault α) : Spoils fault r r :=
  .inl rfl

/-- A fault that spoils one step spoils the sequence. -/
theorem bind {r r' : Except Fault α} {f f' : α → Except Fault β} (hr : Spoils fault r r')
    (hf : ∀ a, Spoils fault (f a) (f' a)) : Spoils fault (r >>= f) (r' >>= f') := by
  rcases hr with rfl | rfl
  · cases r' with
    | ok a => exact hf a
    | error g => exact refl _
  · exact .inr rfl

end Spoils

section Faults

variable {fault : Fault} (hfault : ∀ g, fault ≠ .stackOverflow g)

include hfault

/-- An overflow in the first branch would hide the fault of the second one, but where calls fail
with the fault there is none. -/
theorem branchKind_spoils {r₁ r₂ r₁' r₂' : Except Fault Kind} (h₁ : Spoils fault r₁ r₁')
    (h₂ : Spoils fault r₂ r₂') (ho : ∀ g, r₁' ≠ .error (.stackOverflow g))
    (hends : r₂ ≠ .error .endless) (hends' : r₂' ≠ .error .endless) :
    Spoils fault (branchKind r₁ r₂) (branchKind r₁' r₂') := by
  rcases h₁ with rfl | rfl
  · rcases h₂ with rfl | rfl
    · exact .refl _
    · cases r₁' with
      | ok a =>
          right
          cases fault with
          | stackOverflow g => exact absurd rfl (hfault g)
          | _ => rfl
      | error g =>
          -- The first branch fails in both cases, and its fault is the one that counts.
          have hg : ∀ name, g ≠ .stackOverflow name := fun name h => ho name (by rw [h])
          left
          rw [branchKind_error hg hends, branchKind_error hg hends']
  · right
    exact branchKind_error hfault hends'

variable {m : Memory} {answer answer' : FunctionId → Except Fault Kind}

/-- If some calls fail with a fault instead, an expression has the kind it had or fails with that
fault. -/
theorem kindGiven_spoils (h : ∀ f, Spoils fault (answer f) (answer' f))
    (ho : ∀ f g, answer' f ≠ .error (.stackOverflow g)) (hends : ∀ f, answer f ≠ .error .endless)
    (hends' : ∀ f, answer' f ≠ .error .endless) (e : Expr) :
    Spoils fault (kindGiven m answer e) (kindGiven m answer' e) := by
  induction e using Expr.induction with
  | literal v | read r | declaration name f => exact .refl _
  | unary op e ih => exact Spoils.bind ih fun _ => .refl _
  | binary op l r ihl ihr => exact Spoils.bind ihl fun _ => Spoils.bind ihr fun _ => .refl _
  | assign ts e ih => exact Spoils.bind ih fun _ => .refl _
  | print e ih => exact ih
  | call name f as dependent ih =>
      have hargs : Spoils fault (argumentsGiven m answer as) (argumentsGiven m answer' as) := by
        induction as with
        | nil => exact .refl _
        | cons a as ihas =>
            rw [List.forall_mem_cons] at ih
            exact Spoils.bind ih.1 fun _ => ihas ih.2
      exact Spoils.bind (.refl _) fun _ => Spoils.bind hargs fun _ => h f
  | letIn ds b ihd ihb =>
      have hds : Spoils fault (declarationsGiven m answer ds) (declarationsGiven m answer' ds) := by
        induction ds with
        | nil => exact .refl _
        | cons d ds ihds =>
            rw [List.forall_mem_cons] at ihd
            rcases d with ⟨name, slot, kind, initializer, dependent⟩
            cases dependent with
            | true => exact ihds ihd.2
            | false => exact Spoils.bind ihd.1 fun _ => Spoils.bind (.refl _) fun _ => ihds ihd.2
      exact Spoils.bind hds fun _ => ihb
  | conditional c t e ihc iht ihe =>
      refine Spoils.bind ihc fun _ => Spoils.bind (.refl _) fun _ => ?_
      -- Both branches have their kinds found, also where the first one fails.
      exact branchKind_spoils hfault iht ihe (fun g => kindGiven_ne_overflow (ho · g) t)
        (kindGiven_ne_endless hends e) (kindGiven_ne_endless hends' e)

end Faults

/-! ## Levels -/

variable {m : Memory} {id : FunctionId} {b : Expr}

/-- A fault is found again one level further out. -/
theorem nested_error_succ {n : Nat} {fault : Fault} (h : nested m id b (n + 1) = .error fault) :
    nested m id b (n + 2) = .error fault := by
  by_cases hoverflow : ∃ g, fault = .stackOverflow g
  · rcases hoverflow with ⟨g, rfl⟩
    have hall := nested_overflow (nested_overflow_one h)
    rw [hall (n + 2), ← hall (n + 1), h]
  · have hfault : ∀ g, fault ≠ .stackOverflow g := fun g hg => hoverflow ⟨g, hg⟩
    have hends : fault ≠ .endless := by
      rintro rfl
      exact nested_ne_endless (n + 1) h
    have hanswer : ∀ f, Spoils fault (m.answering id (nested m id b n) f)
        (m.answering id (.error fault) f) := by
      intro f
      unfold Memory.answering
      split
      · exact .inr rfl
      · exact .refl _
    have hspoils := kindGiven_spoils (m := m) hfault hanswer
      (fun f g => Memory.answering_ne (fun hg => hfault g (Except.error.inj hg)) f)
      (Memory.answering_ne (nested_ne_endless n))
      (Memory.answering_ne fun hg => hends (Except.error.inj hg)) b
    rw [nested_succ, h]
    exact hspoils.elim (fun hsame => hsame.trans h) fun hfails => hfails

/-- After a kind, a less precise one can follow, but not two. -/
theorem nested_ok_succ {n : Nat} {k : Kind} (h : nested m id b (n + 2) = .ok k) :
    nested m id b (n + 3) = .ok k := by
  rcases nested_ok_of_succ h with ⟨k₀, h₀⟩
  have hrefines := nested_refines h₀ h
  have hkinds : Leads Kind.Refines (.ok k₀) (.ok k) := Leads.ok hrefines
  rw [nested_succ, h]
  rcases hrefines with rfl | rfl
  · rw [nested_succ, h₀] at h
    exact h
  · rw [nested_succ, h₀] at h
    rcases kindGiven_refines (answering_leads hkinds) (fun _ _ => Memory.answering_ok_ne) b _ h with
      ⟨k', hk', hdynamic⟩
    rw [hk']
    exact hdynamic.elim (fun heq => by rw [heq]) fun heq => by rw [heq]

/-- From the second call on, one more call makes no difference to the kind. -/
theorem nested_stable (n : Nat) : nested m id b (n + 2) = nested m id b 2 := by
  induction n with
  | zero => rfl
  | succ n ih =>
      rw [← ih]
      cases h : nested m id b (n + 2) with
      | ok k => exact nested_ok_succ h
      | error fault => exact nested_error_succ h

/-! ## Passes -/

/-- Computes the kind of the body where calls of the function overflow, and then where they have the
kind that was found. -/
def passes (m : Memory) (id : FunctionId) (body : Expr) : Except Fault Kind := do
  let kind ← outcome (kindOf body (m.markOverflowed id))
  outcome (kindOf body (m.setReturnKind id kind))

/-- The kind of an expression when calls of the function that is being declared find an answer at
once. -/
theorem kindOf_during (hm : Declaring m id b) {k : Option Kind} {o : Bool} {r : Except Fault Kind}
    (hr : ∀ enter, Yields (· = m.during id 0 k o) (· = m.during id 0 k o) (answerWith enter id) r)
    (hends : r ≠ .error .endless) (e : Expr) :
    outcome (kindOf e (m.during id 0 k o)) = kindGiven m (m.answering id r) e := by
  have hentered : Entered m id 0 (m.during id 0 k o) := ⟨k, o, rfl⟩
  have hyields : Yields (· = m.during id 0 k o) (· = m.during id 0 k o) (kindOf e)
      (kindGiven m (m.answering id r) e) := by
    refine Yields.get_bind ?_
    rintro _ rfl
    refine kindWith_yields (fun _ h => h) ?_ (fun f => ?_) (Memory.answering_ne hends)
      (.inl fun _ h => h) e
    · rintro _ rfl
      exact hentered.sameKinds hm.lt
    · by_cases hf : f = id
      · subst hf
        rw [Memory.answering, if_pos rfl]
        exact hr _
      · rintro _ rfl
        rw [answerWith_other hm hf hentered, Memory.answering, if_neg hf]
        exact ⟨rfl, rfl⟩
  exact hyields.outcome rfl

/-- The first pass: calls of the function overflow. -/
theorem kindOf_markOverflowed (hm : Declaring m id b) :
    outcome (kindOf b (m.markOverflowed id)) = nested m id b 1 := by
  have hmark : m.markOverflowed id = m.during id 0 none true := by
    rw [← hm.during_eq, Memory.markOverflowed_during]
    simp only [Memory.during, Memory.modifyFunction_modifyFunction]
  rw [hmark]
  refine kindOf_during hm (r := nested m id b 0) (fun enter => ?_) (nested_ne_endless 0) b
  rintro _ rfl
  rw [answerWith_during_overflow hm (.inl rfl)]
  exact ⟨rfl, rfl⟩

/-- The second pass: calls of the function have the kind that was found. -/
theorem kindOf_setReturnKind (hm : Declaring m id b) (a : Kind) :
    outcome (kindOf b (m.setReturnKind id a)) = kindGiven m (m.answering id (.ok a)) b := by
  have hset : m.setReturnKind id a = m.during id 0 (some a) false := by
    rw [← hm.during_eq, Memory.setReturnKind_during]
    simp only [Memory.during, Memory.modifyFunction_modifyFunction]
  rw [hset]
  refine kindOf_during hm (r := .ok a) (fun enter => ?_) (by simp) b
  rintro _ rfl
  rw [answerWith_during_some hm]
  exact ⟨rfl, rfl⟩

/-- Any number of levels from two on comes to what the two passes come to. -/
theorem nested_passes (hm : Declaring m id b) {n : Nat} (hn : 2 ≤ n) :
    nested m id b n = passes m id b := by
  obtain ⟨j, rfl⟩ : ∃ j, n = j + 2 := ⟨n - 2, by omega⟩
  rw [nested_stable, passes, kindOf_markOverflowed hm]
  cases h : nested m id b 1 with
  | ok a =>
      show nested m id b 2 = outcome (kindOf b (m.setReturnKind id a))
      rw [kindOf_setReturnKind hm, nested_succ, h]
  | error fault => exact nested_error_succ h

/-- However many calls are active, if two more may be, the kind of the declaration is what the two
passes come to. -/
theorem declarationKind_passes (hm : Declaring m id b) {d : Nat} (hd : d + 2 ≤ callLimit) :
    outcome (declarationKind id (m.during id d none false)) = passes m id b := by
  obtain ⟨j, hj⟩ : ∃ j, d + (j + 1) = callLimit := ⟨callLimit - (d + 1), by omega⟩
  rw [← nested_passes hm (n := j + 1) (by omega)]
  have hkind := declarationKind_level hm hj _ rfl
  cases hr : declarationKind id (m.during id d none false) with
  | ok k s =>
      rw [hr] at hkind
      exact hkind.1.symm
  | error fault s =>
      rw [hr] at hkind
      exact hkind.1.symm

end Typing
end LineLang
