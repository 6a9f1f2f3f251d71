import LineLang.Number.Binary

/-!
# Shortest decimals

Every real number in a small interval around a double reads back as that double. The shortest
decimal of the double is the multiple of the largest power of ten that lies in this interval.

- `Neighbourhood`          : the interval, in quarters of the last binary place
- `Neighbourhood.pick?`    : the multiple of `10 ^ k` in the interval that is nearest to the number
- `shortest`               : the first power of ten that has one, from above
-/

namespace LineLang
namespace Number

structure Decimal where
  digits : Nat
  exponent : Int
  deriving DecidableEq, Repr

/-- The reals that round to a positive number: from `low` to `high` around `centre`, each counted in
units of `2 ^ unit`. The two ends belong to it when `closed` holds. -/
structure Neighbourhood where
  low : Nat
  centre : Nat
  high : Nat
  unit : Int
  closed : Bool
  deriving DecidableEq, Repr

namespace Neighbourhood

/-- Halfway to the two neighbours. The lower neighbour of a power of two is half as far away as the
upper one, and an end rounds to an even mantissa. -/
def of (b : Binary) : Neighbourhood where
  low := if b.mantissa = leadingMantissa ∧ leastExponent < b.exponent
    then 4 * b.mantissa - 1 else 4 * b.mantissa - 2
  centre := 4 * b.mantissa
  high := 4 * b.mantissa + 2
  unit := b.exponent - 2
  closed := b.mantissa % 2 == 0

/-- Factors `(a, b)` such that `n` units are `n · a / b` steps of `10 ^ k`. -/
def scale (n : Neighbourhood) (k : Int) : Nat × Nat :=
  (Nat.pow 2 n.unit.toNat * Nat.pow 10 (-k).toNat,
    Nat.pow 2 (-n.unit).toNat * Nat.pow 10 k.toNat)

/-- Whether the `d`-th multiple of a step lies inside, for the factors of that step. -/
def contains (n : Neighbourhood) (a b d : Nat) : Bool :=
  if n.closed then n.low * a ≤ d * b && d * b ≤ n.high * a
  else n.low * a < d * b && d * b < n.high * a

/-- The multiple of `10 ^ k` inside that is nearest to the centre; of two equally near ones the
larger. -/
def pick? (n : Neighbourhood) (k : Int) : Option Decimal :=
  let (a, b) := n.scale k
  let below := n.centre * a / b
  match n.contains a b below, n.contains a b (below + 1) with
  | true, true =>
      if 2 * (n.centre * a) < (2 * below + 1) * b then some ⟨below, k⟩ else some ⟨below + 1, k⟩
  | true, false => some ⟨below, k⟩
  | false, true => some ⟨below + 1, k⟩
  | false, false => none

/-- The first hit among `10 ^ k, 10 ^ (k - 1), …`, at most `steps` of them. -/
def search (n : Neighbourhood) : Nat → Int → Option Decimal
  | 0, _ => none
  | steps + 1, k =>
      match n.pick? k with
      | some d => some d
      | none => search n steps (k - 1)

def startExponent (n : Neighbourhood) : Nat :=
  let (a, b) := n.scale 0
  (Nat.toDigits 10 (n.centre * a / b)).length

end Neighbourhood

/-- More powers of ten than lie between the numbers nearest to zero and one. -/
def decimalPlaces : Nat := 400

def shortest (b : Binary) : Decimal :=
  let n := Neighbourhood.of b
  (n.search (n.startExponent + decimalPlaces) n.startExponent).getD ⟨0, 0⟩

end Number
end LineLang
