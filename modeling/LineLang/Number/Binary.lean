/-!
# Finite numbers as integers

A finite double is `± mantissa · 2 ^ exponent` for a natural mantissa below `2 ^ 53`. The exact
rules on numbers (their text, their remainder) are stated on this form.

- `Binary`            : sign, mantissa and exponent
- `Binary.ofFloat?`   : the form of a finite number
- `Binary.magnitude`  : the number without its sign
-/

namespace LineLang
namespace Number

/-- A finite number `± mantissa · 2 ^ exponent`. -/
structure Binary where
  negative : Bool
  mantissa : Nat
  exponent : Int
  deriving DecidableEq, Repr

def leastExponent : Int := -1074

/-- Mantissa of a power of two above the numbers nearest to zero. -/
def leadingMantissa : Nat := Nat.pow 2 52

/-- Whether the sign bit is set. It is set for `-0` too. -/
def isNegative (x : Float) : Bool :=
  x.toBits.toNat / Nat.pow 2 63 == 1

def infinity : Float := Float.ofBits 0x7FF0000000000000

def notANumber : Float := Float.ofBits 0x7FF8000000000000

namespace Binary

/-- Sign, mantissa and exponent of a number; infinities and NaN have none. -/
def ofFloat? (x : Float) : Option Binary :=
  let bits := x.toBits.toNat
  let fraction := bits % leadingMantissa
  let biased := bits / leadingMantissa % 2048
  if biased = 2047 then none
  else if biased = 0 then some ⟨isNegative x, fraction, leastExponent⟩
  else some ⟨isNegative x, leadingMantissa + fraction, leastExponent + (biased - 1 : Nat)⟩

def magnitude (b : Binary) : Float :=
  (Float.ofNat b.mantissa).scaleB b.exponent

/-- The number with its sign, so that a negative zero stays negative. -/
def toFloat (b : Binary) : Float :=
  if b.negative then -b.magnitude else b.magnitude

end Binary

end Number
end LineLang
