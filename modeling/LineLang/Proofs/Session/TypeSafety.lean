import LineLang.Proofs.Evaluation.Typed
import LineLang.Proofs.Session.Moments

/-!
# Instructions that cannot go wrong

Outside of functions no variable is dependent, so that every variable of an instruction is filled
where it is bound. If besides nothing is called and every part of the instruction has a definite
kind, it comes to a value of the kind that was computed for it, or it divides by zero.

- `Memory.Staged.definite`       : the parts of an instruction without calls and dynamic kinds
- `Session.typed_code_is_safe`   : such an instruction cannot go wrong
-/

namespace LineLang

open Effect Typing

namespace Memory

variable {owner : SlotId → FunctionId} {m n : Memory} {e : Expr}

/-- The bindings of an instruction are filled at once, in slots of their kinds. -/
theorem Staged.definite (h : m.Staged owner n e) (hm : m.Complete)
    (hcalls : ∀ p ∈ e.parts, p.ownCallees = [])
    (hdynamic : ∀ p ∈ e.parts, outcome (kindOf p n) ≠ .ok .dynamic) : e.Every n.Definite := by
  have hindependent :=
    (h.resolved.independent (fun _ hf => (h.complete hm).body_ne_none hf) (by simp)).2
  intro p hp
  refine ⟨hcalls p hp, ?_, fun d hd => ⟨hindependent p hp d hd, ?_, ?_⟩⟩
  · have hkind := hdynamic p hp
    rwa [kindOf_eq h.working.settled, outcome_ofExcept] at hkind
  · exact h.resolved.slots p hp d.slot (Expr.slot_mem_ownSlots hd)
  · exact (h.resolved.fits p hp d hd).1

end Memory

namespace Session

/-- Read any instruction in any session. If it calls no function, has a kind, and no part of it has
the dynamic kind, then carrying it out gives a value of exactly that kind or stops at a zero
divisor. -/
theorem typed_code_is_safe {s : Session} (hs : Reachable s) {ts : List Token} {e : Expr}
    {m : Memory} (hp : parse ts s.memory = .ok e m) (hcalls : ∀ p ∈ e.parts, p.ownCallees = [])
    {k : Kind} (hk : outcome (kindOf e m) = .ok k)
    (hdynamic : ∀ p ∈ e.parts, outcome (kindOf p m) ≠ .ok .dynamic) :
    (∃ v t, Evaluation.evaluate .run e { memory := m } = .ok v t ∧ v.kind = k) ∨
      ∃ op t, Evaluation.evaluate .run e { memory := m } = .error (.divisionByZero op) t := by
  have hm := hs.valid
  rcases (Resolution.parse_outcome hm ts).of_ok rfl hp with ⟨owner, hstaged⟩ | ⟨name, rfl, -⟩
  · have hdefinite := hstaged.definite hm.complete hcalls hdynamic
    rw [kindOf_eq hstaged.working.settled, outcome_ofExcept] at hk
    -- No variable is in force at the beginning, so that none has to be filled.
    have hstart : m.StoreTyped ∅ m :=
      ⟨rfl, fun _ => rfl, fun t ht => absurd ht (Set.notMem_empty t)⟩
    have hpositive : 0 < Evaluation.depthBound m := by simp [Evaluation.depthBound, callLimit]
    obtain ⟨depth, hdepth⟩ := Nat.exists_eq_add_of_lt hpositive
    have hsafe : Evaluation.TypeSafe m ∅ ∅ (·.kind = k)
        (Evaluation.evaluateWithin (Evaluation.depthBound m) .run e) := by
      rw [hdepth]
      exact Evaluation.evaluateWith_typeSafe hdefinite hk hstaged.resolved.inScope
    have hend := hsafe { memory := m } hstart
    have heq : Evaluation.evaluate .run e { memory := m } =
        Evaluation.evaluateWithin (Evaluation.depthBound m) .run e { memory := m } := rfl
    rw [heq]
    cases hrun : Evaluation.evaluateWithin (Evaluation.depthBound m) .run e { memory := m } with
    | ok v t =>
        rw [hrun] at hend
        exact .inl ⟨v, t, rfl, hend.1⟩
    | error fault t =>
        rw [hrun] at hend
        obtain ⟨op, rfl⟩ := hend
        exact .inr ⟨op, t, rfl⟩
  · -- A declaration is void.
    cases hk
    exact .inl ⟨.void, { memory := m }, Evaluation.evaluate_declaration .., rfl⟩

/-- `let number x = 6, y = "a" in if (x > 2 & y == "a") (x := x / 3) @ y else y` -/
def rewritingTokens : List Token :=
  [.keyword .letWord, .typeName .number, .word "x", .symbol .equals, .word "6", .symbol .comma,
    .word "y", .symbol .equals, .text "a", .keyword .inWord, .keyword .ifWord, .symbol .openParen,
    .word "x", .symbol .greater, .word "2", .symbol .ampersand, .word "y",
    .symbol .equalEqual, .text "a",
    .symbol .closeParen, .symbol .openParen, .word "x", .symbol .assign, .word "x", .symbol .slash,
    .word "3", .symbol .closeParen, .symbol .atSign, .word "y", .keyword .elseWord, .word "y"]

theorem rewritingTokens_parse : (match parse rewritingTokens falling.memory with
    | .ok e m => decide (outcome (kindOf e m) = .ok .text ∧
        ∀ p ∈ e.parts, p.ownCallees = [] ∧ outcome (kindOf p m) ≠ .ok .dynamic)
    | .error _ _ => false) = true := by
  decide +kernel

/-- Two variables of different kinds, one of which is written while the instruction runs. -/
theorem typed_code_is_safe_rewriting : ∃ e m, parse rewritingTokens falling.memory = .ok e m ∧
    ((∃ v t, Evaluation.evaluate .run e { memory := m } = .ok v t ∧ v.kind = .text) ∨
      ∃ op t, Evaluation.evaluate .run e { memory := m } = .error (.divisionByZero op) t) := by
  have hparse := rewritingTokens_parse
  split at hparse
  · next e m hp =>
      obtain ⟨hk, hparts⟩ := of_decide_eq_true hparse
      exact ⟨e, m, hp, typed_code_is_safe reachable_falling hp (fun p hp => (hparts p hp).1) hk
        fun p hp => (hparts p hp).2⟩
  · cases hparse

end Session
end LineLang
