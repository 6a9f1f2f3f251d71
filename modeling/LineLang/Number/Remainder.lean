import LineLang.Number.Binary

/-!
# Remainder of a division

The remainder of a division truncated towards zero, computed without rounding on integers. It has
the sign of the dividend and is smaller than the divisor.

- `Binary.remainder`  : the remainder of two finite numbers
- `remainder`         : the remainder of any two numbers
-/

namespace LineLang
namespace Number

/-- The mantissa of a number counted in units of `2 ^ exponent`, for an exponent not above its
own. -/
def Binary.unitsOf (b : Binary) (exponent : Int) : Nat :=
  b.mantissa * Nat.pow 2 (b.exponent - exponent).toNat

/-- Both numbers are counted in the smaller of their units, where the remainder is exact. -/
def Binary.remainder (a b : Binary) : Binary :=
  let unit := min a.exponent b.exponent
  ⟨a.negative, a.unitsOf unit % b.unitsOf unit, unit⟩

/-- The remainder of `x` by `y`: NaN if `x` is infinite or `y` is zero, `x` itself if only `y` is
infinite. -/
def remainder (x y : Float) : Float :=
  match Binary.ofFloat? x, Binary.ofFloat? y with
  | some a, some b => if b.mantissa = 0 then notANumber else (a.remainder b).toFloat
  | some _, none => if y.isNaN then notANumber else x
  | none, _ => notANumber

end Number
end LineLang
