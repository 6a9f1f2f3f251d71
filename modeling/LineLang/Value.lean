import LineLang.Diagnostic
import LineLang.Number.Text

/-!
# Values

What expressions evaluate to.

- `Value.display`     : the text of a value
- `Value.sameAs`      : equality as the language sees it
- `Value.expectKind`  : may a value be stored where a kind is declared
-/

namespace LineLang

inductive Value
  /-- The value of a declaration. -/
  | void
  | number (value : Float)
  | boolean (value : Bool)
  | text (value : String)
  deriving DecidableEq, Repr

namespace Value

def kind : Value → Kind
  | .void => .void
  | .number _ => .number
  | .boolean _ => .boolean
  | .text _ => .text

def display : Value → String
  | .void => ""
  | .number x => Number.text x
  | .boolean b => if b then "true" else "false"
  | .text s => s

/-- Equality of values: numbers are compared as numbers, so that NaN differs from itself and the two
zeros are the same. -/
def sameAs : Value → Value → Bool
  | .void, .void => true
  | .number x, .number y => x == y
  | .boolean a, .boolean b => a == b
  | .text s, .text t => s == t
  | _, _ => false

def asNumber (site : Site) : Value → Except Fault Float
  | .number x => .ok x
  | v => .error (.kindMismatch site .number v.kind)

def asBoolean (site : Site) : Value → Except Fault Bool
  | .boolean b => .ok b
  | v => .error (.kindMismatch site .boolean v.kind)

def expectKind (site : Site) (expected : Kind) (v : Value) : Except Fault Unit :=
  if expected.accepts v.kind then .ok () else .error (.kindMismatch site expected v.kind)

end Value
end LineLang
