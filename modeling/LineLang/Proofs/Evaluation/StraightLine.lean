import LineLang.Evaluation
import LineLang.Proofs.Effect
import LineLang.Typing

/-!
# Straight-line code

Kinds are checked twice: before an expression is evaluated, and again by the operators when they get
their operands. Where no variable, call or branch comes in between, the two checks find the same
fault at the same place. Only a zero divisor is found by evaluation alone.

- `Expr.StraightLine`                  : literals under operators and `print`
- `Foretold`                           : what an evaluation came to is what its kind announced
- `BinaryOperator.apply_foretold`      : an operator checks its operands as their kinds are checked
- `Evaluation.evaluateWith_foretold`   : the same of every expression of straight-line code
- `Evaluation.straightLine_same_fault` : the two checks agree
-/

namespace LineLang

open Effect

@[simp]
theorem Effect.outcome_ofExcept {ε σ α : Type} (r : Except ε α) (s : σ) :
    outcome (Effect.ofExcept r s) = r := by
  cases r <;> rfl

/-- Expressions of literals in which all operands are always evaluated. -/
inductive Expr.StraightLine : Expr → Prop
  | literal (v : Value) : StraightLine (.literal v)
  | unary {op : UnaryOperator} {e : Expr} : StraightLine e → StraightLine (.unary op e)
  | binary {op : BinaryOperator} {l r : Expr} : op ≠ .andThen → op ≠ .orElse →
      StraightLine l → StraightLine r → StraightLine (.binary op l r)
  | print {e : Expr} : StraightLine e → StraightLine (.print e)

/-- What an evaluation came to, against the kind that was computed before: a value of that kind, the
same fault, or a zero divisor, of which kinds know nothing. -/
inductive Foretold : Except Fault Kind → Except Fault Value → Prop
  | value {k : Kind} {v : Value} : v.kind = k → Foretold (.ok k) (.ok v)
  | fault (t : Fault) : Foretold (.error t) (.error t)
  | zero (r : Except Fault Kind) (op : BinaryOperator) : Foretold r (.error (.divisionByZero op))

namespace Foretold

/-- What is done with the value of a part, against what is done with its kind. The two memories do
not matter to code that reads neither. -/
theorem bind {x : Typing Kind} {y : Evaluation Value} {f : Kind → Typing Kind}
    {g : Value → Evaluation Value} {m : Memory} {s : Machine}
    (h : Foretold (outcome (x m)) (outcome (y s)))
    (hf : ∀ v m' s', Foretold (outcome (f v.kind m')) (outcome (g v s'))) :
    Foretold (outcome ((x >>= f) m)) (outcome ((y >>= g) s)) := by
  generalize hx : x m = r at h
  generalize hy : y s = r' at h
  cases r' with
  | ok v s' =>
      cases r with
      | ok k m' =>
          have hv : v.kind = k := by
            cases h
            assumption
          rw [bind_ok hx, bind_ok hy, ← hv]
          exact hf v m' s'
      | error t m' => cases h
  | error t s' =>
      rw [bind_error hy]
      cases r with
      | ok k m' =>
          -- The part was given a kind, so it can only have met a zero divisor.
          cases h
          exact .zero _ _
      | error t' m' =>
          rw [bind_error hx]
          exact h

/-- Something is done after a value was found, and the value is given back. -/
theorem returned {r : Except Fault Kind} {y : Evaluation Value} {g : Value → Evaluation Value}
    {s : Machine} (h : Foretold r (outcome (y s))) (hg : ∀ v s', outcome (g v s') = .ok v) :
    Foretold r (outcome ((y >>= g) s)) := by
  cases hy : y s with
  | ok v s' =>
      rw [hy] at h
      rw [bind_ok hy, hg]
      exact h
  | error t s' =>
      rw [hy] at h
      rw [bind_error hy]
      exact h

theorem of_error {t : Fault} {r : Except Fault Value} (h : Foretold (.error t) r) :
    r = .error t ∨ ∃ op, r = .error (.divisionByZero op) := by
  cases h with
  | fault => exact .inl rfl
  | zero _ op => exact .inr ⟨op, rfl⟩

theorem of_ok {k : Kind} {r : Except Fault Value} (h : Foretold (.ok k) r) :
    (∃ v, r = .ok v ∧ v.kind = k) ∨ ∃ op, r = .error (.divisionByZero op) := by
  cases h with
  | value hv => exact .inl ⟨_, rfl, hv⟩
  | zero _ op => exact .inr ⟨op, rfl⟩

end Foretold

/-! ## Operators -/

def UnaryOperator.kindOn (op : UnaryOperator) (kind : Kind) : Except Fault Kind := do
  Typing.expect (.unary op) op.inputKind kind
  return op.outputKind

theorem UnaryOperator.outcome_kindOn (op : UnaryOperator) (kind : Kind) (m : Memory) :
    outcome ((Effect.ofExcept (Typing.expect (.unary op) op.inputKind kind) >>= fun _ =>
      pure op.outputKind : Typing Kind) m) = op.kindOn kind := by
  unfold UnaryOperator.kindOn
  cases Typing.expect (.unary op) op.inputKind kind <;> rfl

/-- The check of an operand finds the fault that the operator would find. -/
theorem UnaryOperator.apply_foretold (op : UnaryOperator) (v : Value) :
    Foretold (op.kindOn v.kind) (op.apply v) := by
  cases op with
  | not =>
      cases v with
      | boolean b => exact .value rfl
      | void | number | text => exact .fault _
  | plus | minus | sqrt | sin | cos | exp =>
      cases v with
      | number x => exact .value rfl
      | void | boolean | text => exact .fault _

/-- The kind of a value accepts no other kind of a value. -/
theorem Value.kind_accepts (v w : Value) : v.kind.accepts w.kind = decide (v.kind = w.kind) := by
  cases v <;> cases w <;> rfl

namespace BinaryOperator

open Typing

variable {op : BinaryOperator} {l r : Value} {k : Kind}

/-- Two operands that have to be numbers, the left one looked at first on both sides. -/
theorem numbers_foretold {f : Float × Float → Except Fault Value}
    (hf : ∀ a b, Foretold (.ok k) (f (a, b))) :
    Foretold (do expect (.binary op) .number l.kind; expect (.binary op) .number r.kind; return k)
      (op.numbers l r >>= f) := by
  cases l with
  | number a =>
      cases r with
      | number b => exact hf a b
      | void | boolean | text => exact .fault _
  | void | boolean | text => exact .fault _

/-- Of two operands that are not boolean, the check and the operator name the same one. -/
theorem booleans_foretold {f : Bool × Bool → Except Fault Value}
    (hf : ∀ a b, Foretold (.ok k) (f (a, b))) :
    Foretold (do expect (.binary op) .boolean l.kind; expect (.binary op) .boolean r.kind; return k)
      (op.booleans l r >>= f) := by
  cases l with
  | boolean a =>
      cases r with
      | boolean b => exact hf a b
      | void | number | text => exact .fault _
  | void | number | text => exact .fault _

theorem divide_foretold (f : Float → Float → Float) (a b : Float) :
    Foretold (.ok .number)
      (if b == 0 then .error (.divisionByZero op) else .ok (.number (f a b))) := by
  split
  · exact .zero _ op
  · exact .value rfl

/-- Equality refuses values of two kinds, and so does its check. -/
theorem sameKind_foretold (f : Bool → Bool) :
    Foretold (do expect (.binary op) l.kind r.kind; return .boolean)
      ((op.sameKind l r).map fun same => .boolean (f same)) := by
  unfold expect sameKind
  rw [Value.kind_accepts]
  by_cases h : l.kind = r.kind
  · simp only [h, decide_true, if_true]
    exact .value rfl
  · simp only [h, decide_false, if_false]
    exact .fault _

/-- Concatenation refuses operands without a text, and so does its check. -/
theorem join_foretold (separator : String) :
    Foretold
      (do
        if l.kind = .void ∨ r.kind = .void then throw (.kindMismatch (.binary op) .text .void)
        return .text)
      (op.join separator l r) := by
  unfold join
  by_cases h : l.kind = .void ∨ r.kind = .void
  · simp only [h, if_true]
    exact .fault _
  · simp only [h, if_false]
    exact .value rfl

/-- An operator finds the fault that the kinds of its operands have. -/
theorem apply_foretold (op : BinaryOperator) (l r : Value) :
    Foretold (binaryKind op l.kind r.kind) (op.apply l r) := by
  cases op with
  | add | sub | mul | pow | log => exact numbers_foretold fun a b => .value rfl
  | div | mod => exact numbers_foretold fun a b => divide_foretold _ a b
  | less | greater | lessEqual | greaterEqual => exact numbers_foretold fun a b => .value rfl
  | andThen | orElse | and | or => exact booleans_foretold fun a b => .value rfl
  | equal => exact sameKind_foretold id
  | notEqual => exact sameKind_foretold not
  | concat | concatSpaced => exact join_foretold _

/-- No other operator is decided by its left operand. -/
theorem decided?_eq_none (hand : op ≠ .andThen) (hor : op ≠ .orElse) :
    op.decided? l = .ok none := by
  unfold decided?
  split
  · exact absurd rfl hand
  · exact absurd rfl hor
  · rfl

end BinaryOperator

/-! ## Expressions -/

namespace Evaluation

/-- However bodies are entered and stored expressions followed, and whatever the two memories are:
straight-line code comes to what its kind says. -/
theorem evaluateWith_foretold (enter : Expr → Typing Kind) (follow : Follow) (mode : Mode)
    {e : Expr} (he : e.StraightLine) :
    ∀ m s, Foretold (outcome (Typing.kindWith enter e m))
      (outcome (evaluateWith follow mode e s)) := by
  induction he with
  | literal v =>
      intro m s
      exact .value rfl
  | @unary op e _ ih =>
      intro m s
      refine Foretold.bind (ih m s) fun v m' s' => ?_
      rw [op.outcome_kindOn, outcome_ofExcept]
      exact op.apply_foretold v
  | @binary op l r hand hor _ _ ihl ihr =>
      intro m s
      refine Foretold.bind (ihl m s) fun vl m₁ s₁ => ?_
      -- The left operand decides nothing, so the right one is evaluated as its kind is computed.
      rw [BinaryOperator.decided?_eq_none hand hor]
      refine Foretold.bind (ihr m₁ s₁) fun vr m₂ s₂ => ?_
      rw [outcome_ofExcept, outcome_ofExcept]
      exact op.apply_foretold vl vr
  | @print e _ ih =>
      intro m s
      refine (ih m s).returned fun v s' => ?_
      cases mode <;> rfl

/-- Straight-line code has a fault for its kind exactly where its evaluation has it: a fault of its
kind is the fault of its evaluation, and if there is none, evaluation gives a value of the computed
kind. A zero divisor may come before the one and in place of the other. -/
theorem straightLine_same_fault {e : Expr} (he : e.StraightLine) (mode : Mode) (s : Machine) :
    (∀ t, outcome (Typing.kindOf e s.memory) = .error t →
        outcome (evaluate mode e s) = .error t ∨
          ∃ op, outcome (evaluate mode e s) = .error (.divisionByZero op)) ∧
      ∀ k, outcome (Typing.kindOf e s.memory) = .ok k →
        (∃ v, outcome (evaluate mode e s) = .ok v ∧ v.kind = k) ∨
          ∃ op, outcome (evaluate mode e s) = .error (.divisionByZero op) := by
  -- Both bounds on depth are positive, and the expression itself needs no more than that.
  obtain ⟨n, hn⟩ : ∃ n, depthBound s.memory = n + 1 :=
    Nat.exists_eq_succ_of_ne_zero (by simp [depthBound, callLimit])
  have h : Foretold (outcome (Typing.kindOf e s.memory)) (outcome (evaluate mode e s)) := by
    have heval : evaluate mode e s = evaluateWithin (n + 1) mode e s := by rw [← hn]; rfl
    rw [heval]
    exact evaluateWith_foretold _ _ mode he s.memory s
  constructor
  · intro t ht
    rw [ht] at h
    exact h.of_error
  · intro k hk
    rw [hk] at h
    exact h.of_ok

/-- `print(1 / 0) @ -"a"` has a fault for its kind, and evaluation comes to the divisor before
it. -/
theorem straightLine_same_fault_division :
    let e : Expr :=
  .binary .concat (.print (.binary .div (.literal (.number 1)) (.literal (.number 0))))
      (.unary .minus (.literal (.text "a")))
    let fault : Fault := .kindMismatch (.unary .minus) .number .text
    let result := outcome (evaluate .run e { memory := {} })
    (result = .error fault ∨ ∃ op, result = .error (.divisionByZero op)) ∧
      result = .error (.divisionByZero .div) := by
  intro e fault result
  have hquotient : (Expr.binary .div (.literal (.number 1)) (.literal (.number 0))).StraightLine :=
    .binary (by decide) (by decide) (.literal _) (.literal _)
  have he : e.StraightLine :=
    .binary (by decide) (by decide) (.print hquotient) (.unary (.literal _))
  exact ⟨(straightLine_same_fault he .run { memory := {} }).1 fault rfl, rfl⟩

end Evaluation
end LineLang
