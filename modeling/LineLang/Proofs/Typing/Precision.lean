import LineLang.Proofs.Typing.Declaration

/-!
# Less is known, but not something else

If calls have a less precise kind, an expression that had a kind still has one, less precise at
most. Hence the kinds that a function which calls itself has on its levels get less precise
outwards. There are no two steps from a kind to a less precise one, so that they soon stay the same.

- `Kind.Refines`                : one kind is another one, or that one is dynamic
- `Typing.kindGiven_refines`    : less precise kinds of calls leave an expression with a kind
- `Typing.nested_fixed`         : the kind of a function is the one that its calls were given
-/

namespace LineLang

/-- Nothing else is known of the one than of the other. -/
def Kind.Refines (k k' : Kind) : Prop :=
  k = k' ∨ k' = .dynamic

namespace Kind.Refines

variable {k k' l l' : Kind}

theorem refl (k : Kind) : k.Refines k :=
  .inl rfl

theorem trans {k'' : Kind} (h : k.Refines k') (h' : k'.Refines k'') : k.Refines k'' := by
  rcases h' with rfl | rfl
  · exact h
  · exact .inr rfl

/-- The kind of two alternatives is refined with them. -/
theorem unify (hk : k.Refines k') (hl : l.Refines l') : (k.unify l).Refines (k'.unify l') := by
  rcases hk with rfl | rfl
  · rcases hl with rfl | rfl
    · exact refl _
    · exact .inr (by cases k <;> rfl)
  · exact .inr (by cases l' <;> rfl)

theorem unify_left (k l : Kind) : k.Refines (k.unify l) := by
  unfold Kind.unify
  split
  · exact refl k
  · exact .inr rfl

theorem unify_right (k l : Kind) : l.Refines (k.unify l) := by
  unfold Kind.unify
  split
  · next h => exact .inl h.symm
  · exact .inr rfl

end Kind.Refines

namespace Typing

/-- A success leads to a success, and the two go together. -/
def Leads {α : Type} (R : α → α → Prop) (r r' : Except Fault α) : Prop :=
  ∀ a, r = .ok a → ∃ a', r' = .ok a' ∧ R a a'

namespace Leads

variable {α β : Type} {R : α → α → Prop} {S : β → β → Prop}

theorem ok {a a' : α} (h : R a a') : Leads R (.ok a) (.ok a') := by
  rintro _ ⟨⟩
  exact ⟨a', rfl, h⟩

/-- A success goes on to a success. -/
theorem bind {r r' : Except Fault α} {f f' : α → Except Fault β} (hr : Leads R r r')
    (hf : ∀ a a', R a a' → Leads S (f a) (f' a')) : Leads S (r >>= f) (r' >>= f') := by
  cases r with
  | error fault => exact nofun
  | ok a =>
      rcases hr a rfl with ⟨a', rfl, ha⟩
      exact hf a a' ha

theorem refl {r : Except Fault α} (h : ∀ a, R a a) : Leads R r r :=
  fun a ha => ⟨a, ha, h a⟩

end Leads

variable {k k' l l' : Kind}

abbrev Passed (_ _ : Unit) : Prop := True

theorem expect_leads {site : Site} {expected : Kind} (h : k.Refines k') :
    Leads Passed (expect site expected k) (expect site expected k') := by
  rcases h with rfl | rfl
  · exact Leads.refl fun _ => trivial
  · intro _ _
    exact ⟨(), by simp [expect, Kind.accepts], trivial⟩

/-- An operator that accepts two kinds accepts them also where less is known. -/
theorem binaryKind_leads {op : BinaryOperator} (hk : k.Refines k') (hl : l.Refines l') :
    Leads Kind.Refines (binaryKind op k l) (binaryKind op k' l') := by
  unfold binaryKind
  cases op.family with
  | arithmetic | relational | logical =>
      refine Leads.bind (expect_leads hk) fun _ _ _ => ?_
      exact Leads.bind (expect_leads hl) fun _ _ _ => Leads.ok (.refl _)
  | equality =>
      refine Leads.bind (R := Passed) ?_ fun _ _ _ => Leads.ok (.refl _)
      rcases hk with rfl | rfl
      · exact expect_leads hl
      · intro _ _
        exact ⟨(), by simp [expect, Kind.accepts], trivial⟩
  | concatenation =>
      have hvoid : k' = .void ∨ l' = .void → k = .void ∨ l = .void := by
        rintro (rfl | rfl)
        · exact .inl (hk.resolve_right (by decide))
        · exact .inr (hl.resolve_right (by decide))
      by_cases h : k = .void ∨ l = .void
      · simp only [h, if_true]
        intro _ hok
        cases hok
      · simp only [h, mt hvoid h, if_false]
        exact Leads.ok (Kind.Refines.refl _)

/-- An assignment that is allowed stays so where less is known of the value. -/
theorem assignmentKind_leads {m : Memory} {targets : List Reference} (h : k.Refines k') :
    Leads Kind.Refines (assignmentKind m targets k) (assignmentKind m targets k') := by
  intro _ hok
  obtain ⟨rfl, huniform⟩ := assignmentKind_ok_iff.1 hok
  refine ⟨k', assignmentKind_ok_iff.2 ⟨rfl, huniform.mono ?_⟩, h⟩
  -- A less precise kind of the value adds no definite kind to those that meet.
  rcases h with rfl | rfl
  · exact fun _ hmem _ => hmem
  · exact fun _ hmem hdefinite =>
      List.mem_cons_of_mem _ ((List.mem_cons.1 hmem).resolve_left hdefinite)

/-- Without overflows both branches have kinds. -/
theorem branchKind_leads {r₁ r₂ r₁' r₂' : Except Fault Kind}
    (h₁ : Leads Kind.Refines r₁ r₁') (h₂ : Leads Kind.Refines r₂ r₂')
    (ho₁ : ∀ g, r₁ ≠ .error (.stackOverflow g)) (ho₂ : ∀ g, r₂ ≠ .error (.stackOverflow g)) :
    Leads Kind.Refines (branchKind r₁ r₂) (branchKind r₁' r₂') := by
  intro k hk
  unfold branchKind at hk
  split at hk
  case h_1 a b =>
    rcases h₁ a rfl with ⟨a', rfl, ha⟩
    rcases h₂ b rfl with ⟨b', rfl, hb⟩
    cases hk
    exact ⟨a'.unify b', rfl, ha.unify hb⟩
  case h_3 g _ => exact absurd rfl (ho₁ g)
  case h_4 g => exact absurd rfl (ho₂ g)
  all_goals cases hk

section Answers

variable {m : Memory} {answer answer' : FunctionId → Except Fault Kind}

/-- If calls get less precise kinds, an expression keeps a kind, which is less precise at most. -/
theorem kindGiven_refines (h : ∀ f, Leads Kind.Refines (answer f) (answer' f))
    (ho : ∀ f g, answer f ≠ .error (.stackOverflow g)) (e : Expr) :
    Leads Kind.Refines (kindGiven m answer e) (kindGiven m answer' e) := by
  induction e using Expr.induction with
  | literal v | read r | declaration name f => exact Leads.refl Kind.Refines.refl
  | unary op e ih =>
      refine Leads.bind ih fun _ _ hk => ?_
      exact Leads.bind (expect_leads hk) fun _ _ _ => Leads.ok (.refl _)
  | binary op l r ihl ihr =>
      exact Leads.bind ihl fun _ _ hl => Leads.bind ihr fun _ _ hr => binaryKind_leads hl hr
  | assign ts e ih => exact Leads.bind ih fun _ _ hk => assignmentKind_leads hk
  | print e ih => exact ih
  | call name f as dependent ih =>
      have hargs : Leads Passed (argumentsGiven m answer as) (argumentsGiven m answer' as) := by
        induction as with
        | nil => exact Leads.ok trivial
        | cons a as ihas =>
            rw [List.forall_mem_cons] at ih
            exact Leads.bind ih.1 fun _ _ _ => ihas ih.2
      refine Leads.bind (R := Passed) (Leads.refl fun _ => trivial) fun _ _ _ => ?_
      exact Leads.bind hargs fun _ _ _ => h f
  | letIn ds b ihd ihb =>
      have hds : Leads Passed (declarationsGiven m answer ds) (declarationsGiven m answer' ds) := by
        induction ds with
        | nil => exact Leads.ok trivial
        | cons d ds ihds =>
            rw [List.forall_mem_cons] at ihd
            rcases d with ⟨name, slot, kind, initializer, dependent⟩
            cases dependent with
            | true => exact ihds ihd.2
            | false =>
                refine Leads.bind ihd.1 fun _ _ hk => ?_
                exact Leads.bind (expect_leads hk) fun _ _ _ => ihds ihd.2
      exact Leads.bind hds fun _ _ _ => ihb
  | conditional c t e ihc iht ihe =>
      refine Leads.bind ihc fun _ _ hk => Leads.bind (expect_leads hk) fun _ _ _ => ?_
      exact branchKind_leads iht ihe (fun g => kindGiven_ne_overflow (ho · g) t)
        fun g => kindGiven_ne_overflow (ho · g) e

end Answers

def Agree {α : Type} (R : α → α → Prop) (r r' : Except Fault α) : Prop :=
  ∀ a a', r = .ok a → r' = .ok a' → R a a'

namespace Agree

variable {α β : Type} {R : α → α → Prop} {S : β → β → Prop}

theorem ok {a a' : α} (h : R a a') : Agree R (.ok a) (.ok a') := by
  rintro _ _ ⟨⟩ ⟨⟩
  exact h

theorem bind {r r' : Except Fault α} {f f' : α → Except Fault β} (hr : Agree R r r')
    (hf : ∀ a a', R a a' → Agree S (f a) (f' a')) : Agree S (r >>= f) (r' >>= f') := by
  intro b b' hb hb'
  cases r with
  | error fault => cases hb
  | ok a =>
      cases r' with
      | error fault => cases hb'
      | ok a' => exact hf a a' (hr a a' rfl rfl) b b' hb hb'

theorem passed {r r' : Except Fault Unit} : Agree Passed r r' :=
  fun _ _ _ _ => trivial

end Agree

/-- The kind of a result does not depend on the kinds of the operands. -/
theorem binaryKind_agree {op : BinaryOperator} :
    Agree Kind.Refines (binaryKind op k l) (binaryKind op k' l') := by
  unfold binaryKind
  cases op.family with
  | arithmetic | relational | logical =>
      refine Agree.bind Agree.passed fun _ _ _ => ?_
      exact Agree.bind Agree.passed fun _ _ _ => Agree.ok (.refl _)
  | equality => exact Agree.bind Agree.passed fun _ _ _ => Agree.ok (.refl _)
  | concatenation =>
      intro a a' ha ha'
      dsimp only at ha ha'
      split at ha <;> cases ha
      split at ha' <;> cases ha'
      exact .refl _

/-- A forgiven overflow costs no precision. -/
theorem branchKind_agree {r₁ r₂ r₁' r₂' : Except Fault Kind}
    (h₁ : Agree Kind.Refines r₁ r₁') (h₂ : Agree Kind.Refines r₂ r₂')
    (ho₁ : ∀ g, r₁' ≠ .error (.stackOverflow g)) (ho₂ : ∀ g, r₂' ≠ .error (.stackOverflow g)) :
    Agree Kind.Refines (branchKind r₁ r₂) (branchKind r₁' r₂') := by
  intro k k' hk hk'
  obtain ⟨a', b', rfl, rfl, rfl⟩ : ∃ a' b', r₁' = .ok a' ∧ r₂' = .ok b' ∧ a'.unify b' = k' := by
    unfold branchKind at hk'
    split at hk'
    case h_1 a' b' => exact ⟨a', b', rfl, rfl, Except.ok.inj hk'⟩
    case h_3 g _ => exact absurd rfl (ho₁ g)
    case h_4 g => exact absurd rfl (ho₂ g)
    all_goals cases hk'
  unfold branchKind at hk
  split at hk
  case h_1 a b =>
    cases hk
    exact (h₁ a a' rfl rfl).unify (h₂ b b' rfl rfl)
  case h_3 b =>
    cases hk
    exact (h₂ k b' rfl rfl).trans (.unify_right a' b')
  case h_4 a g =>
    cases hk
    exact (h₁ k a' rfl rfl).trans (.unify_left a' b')
  all_goals cases hk

variable {m : Memory} {answer answer' : FunctionId → Except Fault Kind}

/-- Whether or not the kinds of calls are known, less precise ones do not make the kind of an
expression another one. -/
theorem kindGiven_agree (h : ∀ f, Agree Kind.Refines (answer f) (answer' f))
    (ho : ∀ f g, answer' f ≠ .error (.stackOverflow g)) (e : Expr) :
    Agree Kind.Refines (kindGiven m answer e) (kindGiven m answer' e) := by
  induction e using Expr.induction with
  | literal v | read r | declaration name f => exact Agree.ok (.refl _)
  | unary op e ih =>
      refine Agree.bind ih fun _ _ _ => ?_
      exact Agree.bind Agree.passed fun _ _ _ => Agree.ok (.refl _)
  | binary op l r ihl ihr =>
      exact Agree.bind ihl fun _ _ _ => Agree.bind ihr fun _ _ _ => binaryKind_agree
  | assign ts e ih =>
      exact Agree.bind ih fun _ _ hk => Agree.bind Agree.passed fun _ _ _ => Agree.ok hk
  | print e ih => exact ih
  | call name f as dependent ih =>
      refine Agree.bind Agree.passed fun _ _ _ => ?_
      exact Agree.bind Agree.passed fun _ _ _ => h f
  | letIn ds b ihd ihb => exact Agree.bind Agree.passed fun _ _ _ => ihb
  | conditional c t e ihc iht ihe =>
      refine Agree.bind ihc fun _ _ _ => Agree.bind Agree.passed fun _ _ _ => ?_
      exact branchKind_agree iht ihe (fun g => kindGiven_ne_overflow (ho · g) t)
        fun g => kindGiven_ne_overflow (ho · g) e

/-! ## Levels of a function that calls itself -/

variable {id : FunctionId} {b : Expr}

theorem answering_leads {r r' : Except Fault Kind} (h : Leads Kind.Refines r r') (f : FunctionId) :
    Leads Kind.Refines (m.answering id r f) (m.answering id r' f) := by
  unfold Memory.answering
  split
  · exact h
  · exact Leads.refl Kind.Refines.refl

theorem answering_agree {r r' : Except Fault Kind} (h : Agree Kind.Refines r r') (f : FunctionId) :
    Agree Kind.Refines (m.answering id r f) (m.answering id r' f) := by
  unfold Memory.answering
  split
  · exact h
  · exact Agree.ok (.refl _)

/-- Below a level that has a kind, each level but the innermost has one. -/
theorem nested_ok_of_succ {n : Nat} {k : Kind} (h : nested m id b (n + 2) = .ok k) :
    ∃ k', nested m id b (n + 1) = .ok k' := by
  cases hn : nested m id b (n + 1) with
  | ok k' => exact ⟨k', rfl⟩
  | error fault =>
      by_cases hfault : ∃ g, fault = .stackOverflow g
      · rcases hfault with ⟨g, rfl⟩
        exact absurd (h.symm.trans (nested_overflow (nested_overflow_one hn) _)) nofun
      · -- The body has a kind although its calls have none, so it has one whatever they have.
        rw [nested_succ, hn] at h
        have hno : ∀ g, (.error fault : Except Fault Kind) ≠ .error (.stackOverflow g) :=
          fun g hg => hfault ⟨g, Except.error.inj hg⟩
        have hlead : Leads Kind.Refines (.error fault) (nested m id b n) := nofun
        rcases kindGiven_refines (answering_leads hlead)
            (fun f g => Memory.answering_ne (hno g) f) b k h with
          ⟨k', hk', -⟩
        exact absurd (hn.symm.trans hk') nofun

/-- Outwards, the kinds of the levels get less precise. -/
theorem nested_refines {n : Nat} {k k' : Kind} (h : nested m id b (n + 1) = .ok k)
    (h' : nested m id b (n + 2) = .ok k') : k.Refines k' := by
  induction n generalizing k k' with
  | zero =>
      rw [nested_succ, h] at h'
      have hagree : Agree Kind.Refines (nested m id b 0) (.ok k) := nofun
      exact kindGiven_agree (answering_agree hagree) (fun _ _ => Memory.answering_ok_ne) b k k' h h'
  | succ n ih =>
      rcases nested_ok_of_succ h with ⟨k₀, h₀⟩
      have hk : Leads Kind.Refines (.ok k₀) (.ok k) := Leads.ok (ih h₀ h)
      rw [nested_succ, h] at h'
      rw [nested_succ, h₀] at h
      rcases kindGiven_refines (answering_leads hk) (fun _ _ => Memory.answering_ok_ne) b k h with
        ⟨k'', hk'', hrefines⟩
      cases hk''.symm.trans h'
      exact hrefines

/-- The kind that a function has on its outer levels is the one that its calls are given there. -/
theorem nested_fixed {n : Nat} {k : Kind} (h : nested m id b (n + 3) = .ok k) :
    kindGiven m (m.answering id (.ok k)) b = .ok k := by
  rcases nested_ok_of_succ h with ⟨k₁, h₁⟩
  rcases nested_ok_of_succ h₁ with ⟨k₀, h₀⟩
  have hk : k₁ = k := by
    rcases nested_refines h₀ h₁ with rfl | rfl
    · rw [nested_succ, h₁] at h
      rw [nested_succ, h₀] at h₁
      exact Except.ok.inj (h₁.symm.trans h)
    · exact (nested_refines h₁ h).elim (fun h => h) fun h => h.symm
  subst hk
  rwa [nested_succ, h₁] at h

end Typing
end LineLang
