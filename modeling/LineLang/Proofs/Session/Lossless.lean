import LineLang.Proofs.Grammar.Signs
import LineLang.Proofs.Session.Success

/-!
# Nothing is lost when an instruction is read

The expression of an instruction, or the function that it declares, has exactly the signs of the
instruction without parentheses: none is left out, read twice or moved.

- `Memory.signs`            : the signs of an instruction
- `Session.parse_lossless`  : what was read has the signs of the tokens
-/

namespace LineLang

/-- The signs of an instruction that was read. Those of a declaration are found with the
function. -/
def Memory.signs (m : Memory) : Expr → List Sign
  | .declaration name f =>
      .token (.keyword .functionWord) :: .token (.word name) ::
        (Sign.listed ((m.function f).parameters.map fun p => [.token (.word p)]) ++
          .token (.symbol .arrow) :: ((m.function f).body.map Expr.signs).getD [])
  | e => e.signs

theorem Memory.signs_eq {m : Memory} {e : Expr} (h : ∀ name f, e ≠ .declaration name f) :
    m.signs e = e.signs := by
  cases e with
  | declaration name f => exact absurd rfl (h name f)
  | _ => rfl

/-- Names are spelled as they are. -/
theorem spelled_names (names : List String) :
    Spelled (Sign.listed (names.map fun p => [.token (.word p)]))
      (Window.plain (Window.listed (names.map fun p => [.word p]))) := by
  apply Spelled.listed
  induction names with
  | nil => exact .nil
  | cons name names ih => exact .cons (.token .nil) ih

namespace Resolution

/-- A function that was declared has the signs of its declaration. -/
theorem Defines.spelled {m n : Memory} {ts : List Token} {name : String} {parameters : List String}
    {body : Phrase} {b : Expr} (h : Defines m ts name parameters body n b) :
    Spelled (n.signs (.declaration name m.functions.size)) (Window.plain ts) := by
  rcases Instruction.ofTokens_declaration h.tokens with ⟨-, rest, rfl, hdefinition⟩
  rcases Instruction.definition_ok hdefinition with ⟨-, v, rfl, rfl⟩
  have hbody : Spelled b.signs (Window.plain v) := faithful v h.linked
  have hparameters := spelled_names parameters
  rcases h.function with ⟨kind, hfunction⟩
  have hsigns : n.signs (.declaration name m.functions.size) =
      .token (.keyword .functionWord) :: .token (.word name) ::
        (Sign.listed (parameters.map fun p => [.token (.word p)]) ++ .token (.symbol .arrow) ::
          b.signs) := by
    rw [Memory.signs, hfunction]
    rfl
  have hplain : Window.plain (.keyword .functionWord :: .word name :: .symbol .openParen ::
      (Window.listed (parameters.map fun p => [.word p]) ++ .symbol .closeParen :: .symbol
        .arrow :: v)) = .keyword .functionWord :: .word name ::
          (Window.plain (Window.listed (parameters.map fun p => [.word p])) ++ .symbol .arrow ::
            Window.plain v) := by
    simp [Window.plain_symbol (s := .arrow) nofun nofun]
  rw [hsigns, hplain]
  exact .token (.token (hparameters.append (.token hbody)))

/-- An instruction that was read has the signs of its tokens. -/
theorem parse_spelled {m n : Memory} {ts : List Token} {e : Expr} (hm : m.Valid)
    (h : parse ts m = .ok e n) : Spelled (n.signs e) (Window.plain ts) := by
  rcases parse_ok hm h with
    ⟨p, owner, hp, hstaged, hlinked⟩ | ⟨name, parameters, body, b, rfl, hdefines⟩
  · rw [Instruction.ofTokens_expression hp] at hlinked
    rw [Memory.signs_eq hstaged.resolved.every.self.plain]
    exact faithful ts hlinked
  · exact hdefines.spelled

end Resolution

namespace Session

/-- The signs of an instruction that was read are its tokens without parentheses, except for the
spelling of numbers and the kinds in front of bindings. With tokens left over that are more than
parentheses, nothing is read that has the same signs. -/
theorem parse_lossless {s : Session} (hs : Reachable s) {ts : List Token} {e : Expr} {n : Memory}
    (h : parse ts s.memory = .ok e n) :
    Spelled (n.signs e) (Window.plain ts) ∧
      ∀ us e' n', parse (ts ++ us) s.memory = .ok e' n' → n'.signs e' = n.signs e →
        Window.plain us = [] := by
  have hspelled := Resolution.parse_spelled hs.valid h
  refine ⟨hspelled, fun us e' n' h' hsigns => ?_⟩
  have hlonger := Resolution.parse_spelled hs.valid h'
  rw [hsigns, Window.plain_append] at hlonger
  exact hspelled.leftover hlonger

/-- Bindings with and without kinds, a call, operators, and parentheses that are not needed. -/
def mixedTokens : List Token :=
  [.keyword .letWord, .typeName .number, .word "x", .symbol .equals, .symbol .openParen, .word "2",
    .symbol .closeParen, .symbol .comma, .word "y", .symbol .equals, .text "s",
    .keyword .inWord, .word "fall",
    .symbol .openParen, .symbol .minus, .word "x", .symbol .closeParen, .symbol .plus, .word "log",
    .symbol .openParen, .word "PI", .symbol .comma, .word "x", .symbol .assign, .word "3",
    .symbol .closeParen]

theorem mixedTokens_parse :
    (match parse mixedTokens falling.memory, parse sameDeclaration falling.memory with
    | .ok _ _, .ok _ _ => true
    | _, _ => false) = true := by
  decide +kernel

/-- An expression and the declaration of a function. -/
theorem parse_lossless_falling :
    Reachable falling ∧
    (∃ e n, parse mixedTokens falling.memory = .ok e n ∧
      Spelled (n.signs e) (Window.plain mixedTokens)) ∧
      ∃ e n, parse sameDeclaration falling.memory = .ok e n ∧
        Spelled (n.signs e) (Window.plain sameDeclaration) := by
  have hok := mixedTokens_parse
  cases hmixed : parse mixedTokens falling.memory with
  | error r n =>
      rw [hmixed] at hok
      cases hok
  | ok e n =>
      cases hsame : parse sameDeclaration falling.memory with
      | error r n' =>
          rw [hmixed, hsame] at hok
          cases hok
      | ok e' n' =>
          exact ⟨reachable_falling, ⟨e, n, rfl, (parse_lossless reachable_falling hmixed).1⟩,
            e', n', rfl, (parse_lossless reachable_falling hsame).1⟩

end Session
end LineLang
