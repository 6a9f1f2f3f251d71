import LineLang.Token.Scan

/-!
# Instructions of a line

A line holds instructions that end with semicolons; the last one may do without.

- `splitInstructions`  : the tokens of each instruction
- `instructionsOf`     : the same for a source line
-/

namespace LineLang

/-- The tokens up to each semicolon, then what is left if it is not empty. A semicolon inside an
open parenthesis is refused. -/
def splitAtSemicolons (depth : Nat) : List Token → Except Rejection (List (List Token))
  | [] => .ok []
  | .symbol .semicolon :: ts =>
      if depth = 0 then (splitAtSemicolons depth ts).map ([] :: ·)
      else .error (.unmatchedParenthesis .closing)
  | t :: ts =>
      (splitAtSemicolons (t.depthAfter depth) ts).map fun
        | [] => [[t]]
        | group :: groups => (t :: group) :: groups

def splitInstructions (ts : List Token) : Except Rejection (List (List Token)) :=
  splitAtSemicolons 0 ts

def instructionsOf (source : String) : Except Rejection (List (List Token)) := do
  splitInstructions (← Token.ofSource source)

end LineLang
