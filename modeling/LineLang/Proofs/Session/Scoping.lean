import LineLang.Proofs.Resolution.Scoping
import LineLang.Proofs.Session.Success

/-!
# Instructions are lexically scoped

In every session the variables of an instruction, and those of the function that it declares, are
the ones of their innermost binders.

- `Resolution.Defines.lexical`  : the body of a function that was declared
- `Session.lexical_scoping`     : what was read is lexically scoped
-/

namespace LineLang
namespace Resolution

variable {m n : Memory} {ts : List Token} {name : String} {parameters : List String} {body : Phrase}
variable {b : Expr}

/-- The parameters of a declaration, with the slots that follow. -/
theorem Defines.declares (h : Defines m ts name parameters body n b) :
    Parameters m (parameters.zip (List.range' m.slots.size parameters.length)) := by
  rcases Instruction.ofTokens_declaration h.tokens with ⟨-, rest, -, hdefinition⟩
  have hdeclared := (Instruction.definition_ok hdefinition).1
  have hlength : (List.range' m.slots.size parameters.length).length = parameters.length :=
    List.length_range'
  refine ⟨?_, ?_, fun p hp => hdeclared p.1 (List.of_mem_zip hp).1⟩
  · rw [List.map_fst_zip hlength.ge]
    exact h.distinct
  · rw [List.map_snd_zip hlength.le, List.length_zip, hlength, Nat.min_self]

/-- The body of a function that was declared is lexically scoped. -/
theorem Defines.lexical (h : Defines m ts name parameters body n b) :
    (n.function m.functions.size).body = some b ∧
      Lexical m n
        ((n.function m.functions.size).parameters.zip (n.function m.functions.size).parameterSlots)
        b := by
  rcases Instruction.ofTokens_declaration h.tokens with ⟨-, rest, -, hdefinition⟩
  rcases Instruction.definition_ok hdefinition with ⟨-, v, rfl, -⟩
  rcases h.function with ⟨kind, hfunction⟩
  rcases h.resolved with ⟨owner, l, hslots, hresolved⟩
  have hlength :
      parameters.length = (parameters.zip (List.range' m.slots.size parameters.length)).length := by
    simp
  have hlinked := h.linked
  rw [hslots, congrArg (m.slots.size + ·) hlength] at hlinked
  have hlexical := (lexical_of_linked h.declares hlinked hresolved).of_slots hslots
  rw [hfunction]
  exact ⟨rfl, hlexical⟩

/-- An instruction that is no declaration is lexically scoped. -/
theorem lexical_of_staged {p : Phrase} {owner : SlotId → FunctionId} {e : Expr}
    (hts : Instruction.ofTokens ts = .expression p) (hstaged : m.Staged owner n e)
    (hlinked : Linked m.registry [] m.slots.size p e n.slots.size) : Lexical m n [] e := by
  have hp := Instruction.ofTokens_expression hts
  subst hp
  have hparameters : Parameters m [] := ⟨List.nodup_nil, rfl, fun _ h => absurd h List.not_mem_nil⟩
  exact lexical_of_linked hparameters hlinked hstaged.resolved

end Resolution

namespace Session

/-- Names are scoped lexically in every instruction and in the body of the function that it
declares. -/
theorem lexical_scoping {s : Session} (hs : Reachable s) {ts : List Token} {e : Expr} {n : Memory}
    (h : parse ts s.memory = .ok e n) :
    Lexical s.memory n [] e ∧
      ∀ name f, e = .declaration name f → ∃ b, (n.function f).body = some b ∧
        Lexical s.memory n ((n.function f).parameters.zip (n.function f).parameterSlots) b := by
  rcases Resolution.parse_ok hs.valid h with
    ⟨p, owner, hts, hstaged, hlinked⟩ | ⟨name, parameters, body, b, rfl, hb⟩
  · refine ⟨Resolution.lexical_of_staged hts hstaged hlinked, ?_⟩
    intro name f he
    exact absurd he (hstaged.resolved.every.self.plain name f)
  · refine ⟨lexical_declaration, ?_⟩
    rintro name f ⟨⟩
    exact ⟨b, hb.lexical⟩

/-- Each binding of `x` reads the one before it, the body assigns to the last, and `y` ends before
that. -/
def shadowingTokens : List Token :=
  [.keyword .letWord, .word "x", .symbol .equals, .word "1", .symbol .comma, .word "x",
    .symbol .equals,
    .keyword .letWord, .word "y", .symbol .equals, .word "x", .keyword .inWord, .word "y",
    .symbol .comma,
    .word "x", .symbol .equals, .word "x", .keyword .inWord, .word "x", .symbol .assign, .word "x"]

/-- A binding that hides the parameter from which it is initialized. -/
def hidingDeclaration : List Token :=
  [.keyword .functionWord, .word "hide", .symbol .openParen, .word "x", .symbol .closeParen,
    .symbol .arrow,
    .keyword .letWord, .word "x", .symbol .equals, .word "x", .keyword .inWord, .word "x",
    .symbol .assign, .word "x"]

theorem shadowingTokens_parse :
    (match parse shadowingTokens falling.memory, parse hidingDeclaration falling.memory with
      | .ok _ _, .ok (.declaration _ _) _ => true
      | _, _ => false) = true := by
  decide +kernel

/-- An expression and the declaration of a function. -/
theorem lexical_scoping_falling :
    Reachable falling ∧
    (∃ e n, parse shadowingTokens falling.memory = .ok e n ∧ Lexical falling.memory n [] e) ∧
      ∃ name f n b, parse hidingDeclaration falling.memory = .ok (.declaration name f) n ∧
        (n.function f).body = some b ∧
          Lexical falling.memory n
            ((n.function f).parameters.zip (n.function f).parameterSlots) b := by
  have hok := shadowingTokens_parse
  split at hok
  · next e n name f n' hshadowing hhiding =>
      rcases (lexical_scoping reachable_falling hhiding).2 name f rfl with ⟨b, hb, hlexical⟩
      exact ⟨reachable_falling,
        ⟨e, n, hshadowing, (lexical_scoping reachable_falling hshadowing).1⟩,
        name, f, n', b, hhiding, hb, hlexical⟩
  · cases hok

end Session
end LineLang
