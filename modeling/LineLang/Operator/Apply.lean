import LineLang.Value
import LineLang.Number.Remainder

/-!
# Applying operators to values

An operand of the wrong kind is a fault of the operator; of two wrong operands the left one is
named.

- `UnaryOperator.apply`      : the value of an operator on one operand
- `BinaryOperator.apply`     : the value of an operator on two operands
- `BinaryOperator.decided?`  : the value when the left operand alone decides it
-/

namespace LineLang

def UnaryOperator.apply (op : UnaryOperator) (v : Value) : Except Fault Value :=
  match op with
  | .not => do return .boolean !(← v.asBoolean (.unary op))
  | .plus => do return .number (← v.asNumber (.unary op))
  | .minus => do return .number (-(← v.asNumber (.unary op)))
  | .sqrt => do return .number (← v.asNumber (.unary op)).sqrt
  | .sin => do return .number (← v.asNumber (.unary op)).sin
  | .cos => do return .number (← v.asNumber (.unary op)).cos
  | .exp => do return .number (← v.asNumber (.unary op)).exp

namespace BinaryOperator

def numbers (op : BinaryOperator) (left right : Value) : Except Fault (Float × Float) := do
  let a ← left.asNumber (.binary op)
  let b ← right.asNumber (.binary op)
  return (a, b)

def booleans (op : BinaryOperator) (left right : Value) : Except Fault (Bool × Bool) := do
  let a ← left.asBoolean (.binary op)
  let b ← right.asBoolean (.binary op)
  return (a, b)

/-- A number by a function that is not defined for a zero divisor. -/
def divide (op : BinaryOperator) (f : Float → Float → Float) (left right : Value) :
    Except Fault Value := do
  let (a, b) ← op.numbers left right
  if b == 0 then throw (.divisionByZero op) else return .number (f a b)

def arithmetic (op : BinaryOperator) (f : Float → Float → Float) (left right : Value) :
    Except Fault Value := do
  let (a, b) ← op.numbers left right
  return .number (f a b)

def compare (op : BinaryOperator) (f : Float → Float → Bool) (left right : Value) :
    Except Fault Value := do
  let (a, b) ← op.numbers left right
  return .boolean (f a b)

def combine (op : BinaryOperator) (f : Bool → Bool → Bool) (left right : Value) :
    Except Fault Value := do
  let (a, b) ← op.booleans left right
  return .boolean (f a b)

/-- Equality asks for two values of one kind. -/
def sameKind (op : BinaryOperator) (left right : Value) : Except Fault Bool :=
  if left.kind = right.kind then .ok (left.sameAs right)
  else .error (.kindMismatch (.binary op) left.kind right.kind)

/-- Concatenation asks for two values that have a text. -/
def join (op : BinaryOperator) (separator : String) (left right : Value) : Except Fault Value :=
  if left.kind = .void ∨ right.kind = .void then .error (.kindMismatch (.binary op) .text .void)
  else .ok (.text (left.display ++ separator ++ right.display))

def apply (op : BinaryOperator) (left right : Value) : Except Fault Value :=
  match op with
  | .add => op.arithmetic (· + ·) left right
  | .sub => op.arithmetic (· - ·) left right
  | .mul => op.arithmetic (· * ·) left right
  | .div => op.divide (· / ·) left right
  | .mod => op.divide Number.remainder left right
  | .pow => op.arithmetic Float.pow left right
  | .log => op.arithmetic (fun base x => x.log / base.log) left right
  | .andThen | .and => op.combine Bool.and left right
  | .orElse | .or => op.combine Bool.or left right
  | .less => op.compare (fun a b => decide (a < b)) left right
  | .greater => op.compare (fun a b => decide (b < a)) left right
  | .lessEqual => op.compare (fun a b => decide (a ≤ b)) left right
  | .greaterEqual => op.compare (fun a b => decide (b ≤ a)) left right
  | .equal => (op.sameKind left right).map .boolean
  | .notEqual => (op.sameKind left right).map fun same => .boolean !same
  | .concat => op.join "" left right
  | .concatSpaced => op.join " " left right

/-- The value of `&&` and `||` when the left operand decides it. -/
def decided? (op : BinaryOperator) (left : Value) : Except Fault (Option Value) :=
  match op with
  | .andThen => do
      let a ← left.asBoolean (.binary op)
      return if a then none else some (.boolean false)
  | .orElse => do
      let a ← left.asBoolean (.binary op)
      return if a then some (.boolean true) else none
  | _ => .ok none

end BinaryOperator
end LineLang
