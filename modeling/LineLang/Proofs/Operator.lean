import LineLang.Operator.Apply

/-!
# What operators give

An operator gives a value of its kind, or it finds a wrong kind or a zero divisor.

- `Fault.OfOperator`            : the faults of operators
- `UnaryOperator.apply_meets`, `BinaryOperator.apply_meets`  : the kind of the value
- `BinaryOperator.decided?_meets`  : the same when the left operand decides
-/

namespace LineLang

def Fault.OfOperator : Fault → Prop
  | .kindMismatch .. | .divisionByZero _ => True
  | _ => False

theorem Fault.OfOperator.ne_endless {fault : Fault} (h : fault.OfOperator) : fault ≠ .endless := by
  rintro rfl
  exact h

/-- The result is a value of kind `k` or a fault of an operator. -/
def Value.Meets (k : Kind) : Except Fault Value → Prop
  | .ok v => v.kind = k
  | .error fault => fault.OfOperator

theorem Value.asBoolean_error {site : Site} {v : Value} {fault : Fault}
    (h : v.asBoolean site = .error fault) : fault.OfOperator := by
  cases v <;> cases h <;> trivial

theorem UnaryOperator.apply_meets (op : UnaryOperator) (v : Value) :
    Value.Meets op.outputKind (op.apply v) := by
  cases op <;> cases v <;> first | rfl | trivial

namespace BinaryOperator

variable {op : BinaryOperator} {l r : Value}

/-- Two operands are numbers, or one of them is of a wrong kind. -/
theorem numbers_cases (op : BinaryOperator) (l r : Value) :
    (∃ a b, op.numbers l r = .ok (a, b)) ∨ ∃ fault, op.numbers l r = .error fault ∧
      fault.OfOperator := by
  cases l with
  | number a =>
      cases r with
      | number b => exact .inl ⟨a, b, rfl⟩
      | _ => exact .inr ⟨_, rfl, trivial⟩
  | _ => exact .inr ⟨_, rfl, trivial⟩

/-- Two operands are booleans, or one of them is of a wrong kind. -/
theorem booleans_cases (op : BinaryOperator) (l r : Value) :
    (∃ a b, op.booleans l r = .ok (a, b)) ∨ ∃ fault, op.booleans l r = .error fault ∧
      fault.OfOperator := by
  cases l with
  | boolean a =>
      cases r with
      | boolean b => exact .inl ⟨a, b, rfl⟩
      | _ => exact .inr ⟨_, rfl, trivial⟩
  | _ => exact .inr ⟨_, rfl, trivial⟩

theorem arithmetic_meets (f : Float → Float → Float) :
    Value.Meets .number (op.arithmetic f l r) := by
  rcases numbers_cases op l r with ⟨a, b, h⟩ | ⟨fault, h, hf⟩
  · simp only [arithmetic, h]
    rfl
  · simp only [arithmetic, h]
    exact hf

/-- Division gives a number, or refuses its operands or a zero divisor. -/
theorem divide_meets (f : Float → Float → Float) : Value.Meets .number (op.divide f l r) := by
  rcases numbers_cases op l r with ⟨a, b, h⟩ | ⟨fault, h, hf⟩
  · have hd : op.divide f l r =
        if b == 0 then .error (.divisionByZero op) else .ok (.number (f a b)) := by
      simp only [divide, h]
      rfl
    rw [hd]
    split
    · trivial
    · rfl
  · simp only [divide, h]
    exact hf

theorem compare_meets (f : Float → Float → Bool) : Value.Meets .boolean (op.compare f l r) := by
  rcases numbers_cases op l r with ⟨a, b, h⟩ | ⟨fault, h, hf⟩
  · simp only [compare, h]
    rfl
  · simp only [compare, h]
    exact hf

theorem combine_meets (f : Bool → Bool → Bool) : Value.Meets .boolean (op.combine f l r) := by
  rcases booleans_cases op l r with ⟨a, b, h⟩ | ⟨fault, h, hf⟩
  · simp only [combine, h]
    rfl
  · simp only [combine, h]
    exact hf

theorem sameKind_meets (f : Bool → Bool) :
    Value.Meets .boolean ((op.sameKind l r).map fun same => .boolean (f same)) := by
  unfold sameKind
  split
  · rfl
  · trivial

theorem join_meets (separator : String) : Value.Meets .text (op.join separator l r) := by
  unfold join
  split
  · trivial
  · rfl

/-- An operator gives a value of its output kind or finds a fault in its operands. -/
theorem apply_meets (op : BinaryOperator) (l r : Value) :
    Value.Meets op.outputKind (op.apply l r) := by
  cases op with
  | add | sub | mul | pow | log =>
      simp only [apply]
      exact arithmetic_meets _
  | div | mod => exact divide_meets _
  | andThen | orElse | and | or => exact combine_meets _
  | less | greater | lessEqual | greaterEqual =>
      simp only [apply]
      exact compare_meets _
  | equal => exact sameKind_meets id
  | notEqual => exact sameKind_meets not
  | concat | concatSpaced => exact join_meets _

/-- A left operand that decides gives a value of the kind of the operator. -/
theorem decided?_some {v : Value} (h : op.decided? l = .ok (some v)) : v.kind = op.outputKind := by
  cases op <;> first | cases h | (cases l <;> try cases h)
  -- Left are conjunction and disjunction, each with the one operand that decides it.
  · next a =>
      cases a <;> cases h
      rfl
  · next a =>
      cases a <;> cases h
      rfl

theorem decided?_error {fault : Fault} (h : op.decided? l = .error fault) : fault.OfOperator := by
  cases op <;> first | cases h | (cases l <;> cases h <;> trivial)

end BinaryOperator
end LineLang
