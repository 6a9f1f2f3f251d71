import LineLang.Number.Shortest

/-!
# Numbers as text

Numbers are written with the fewest digits that read back, always positionally, and without a point
when they are whole. Reading accepts a sign, digits with an optional point and an optional exponent,
and the names of the numbers that are not finite.

- `text`   : the text of a number
- `read?`  : the number of a text
-/

namespace LineLang
namespace Number

/-! ## Writing -/

/-- The digits of a decimal in positional notation. -/
def Decimal.positional (d : Decimal) : String :=
  let digits := Nat.toDigits 10 d.digits
  match d.exponent with
  | .ofNat zeros => String.ofList (digits ++ List.replicate zeros '0')
  | .negSucc n =>
      let places := n + 1
      if places < digits.length then
        let whole := digits.length - places
        String.ofList (digits.take whole ++ '.' :: digits.drop whole)
      else
        String.ofList ('0' :: '.' :: List.replicate (places - digits.length) '0' ++ digits)

def magnitudeText (x : Float) : String :=
  match Binary.ofFloat? x with
  | none => "inf"
  | some b => if b.mantissa = 0 then "0" else (shortest b).positional

/-- The text of a number. The sign of a zero is written and that of NaN is not. -/
def text (x : Float) : String :=
  if x.isNaN then "NaN"
  else if isNegative x then "-" ++ magnitudeText x
  else magnitudeText x

/-! ## Reading -/

def natOfDigits (digits : List Char) : Nat :=
  digits.foldl (fun n c => 10 * n + (c.toNat - '0'.toNat)) 0

/-- The double nearest to `digits · 10 ^ exponent`. Decimals that are out of range by their size
alone are answered without computing the power. -/
def ofDecimal (d : Decimal) : Float :=
  let top := (Nat.toDigits 10 d.digits).length + d.exponent
  if d.digits = 0 then 0
  else if 400 < top then infinity
  else if top < -400 then 0
  else Float.ofScientific d.digits (d.exponent < 0) d.exponent.natAbs

/-- An exponent with an optional sign and at least one digit. -/
def readExponent? (cs : List Char) : Option Int :=
  let digits? (ds : List Char) : Option Int :=
    if ds ≠ [] ∧ ds.all Char.isDigit then some (natOfDigits ds) else none
  match cs with
  | '-' :: ds => (digits? ds).map (-·)
  | '+' :: ds => digits? ds
  | ds => digits? ds

def readScale? : List Char → Option Int
  | [] => some 0
  | c :: cs => if c = 'e' ∨ c = 'E' then readExponent? cs else none

/-- Digits with an optional point among them, at least one digit in all, then an optional
exponent. -/
def readDecimal? (cs : List Char) : Option Decimal :=
  let (whole, rest) := cs.span Char.isDigit
  let (fraction, rest) := match rest with
    | '.' :: after => after.span Char.isDigit
    | _ => ([], rest)
  if whole = [] ∧ fraction = [] then none
  else (readScale? rest).map fun e => ⟨natOfDigits (whole ++ fraction), e - fraction.length⟩

/-- A number without a sign. The names of the numbers that are not finite are read in any case. -/
def readMagnitude? (cs : List Char) : Option Float :=
  let name := String.ofList (cs.map Char.toLower)
  if name = "inf" ∨ name = "infinity" then some infinity
  else if name = "nan" then some notANumber
  else (readDecimal? cs).map ofDecimal

def read? (s : String) : Option Float :=
  match s.toList with
  | '-' :: cs => (readMagnitude? cs).map (-·)
  | '+' :: cs => readMagnitude? cs
  | cs => readMagnitude? cs

end Number
end LineLang
