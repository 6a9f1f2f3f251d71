import LineLang.Proofs.Session.Reachable
import LineLang.Proofs.Typing.Passes

/-!
# Declarations in a session

When a function is declared, its body is resolved and its kind is found by entering the body again
at each call of the function, up to the limit on calls. In every session this comes to what two
passes over the body come to.

- `Resolution.parse_of_draft`     : reading a declaration ends in finding the kind of the function
- `Session.declaring_of_draft`    : the storage in which the kind is looked for
- `Session.declaration_passes`    : the kind is the one that two passes come to
-/

namespace LineLang

open Effect Typing

namespace Resolution

variable {m n : Memory} {ts : List Token} {name : String} {parameters : List String} {body : Phrase}
variable {id : FunctionId} {e : Expr}

/-- Once the body is resolved, all that remains is to attach it and to find its kind. -/
theorem parse_of_draft (hts : Instruction.ofTokens ts = .declaration name (.ok (parameters, body)))
    (hname : m.lookup? name = none)
    (hdraft : draftWith fill name parameters body m = .ok (id, e) n) :
    parse ts m = (do
      let _ ← mapError (declarationRejection name) (declarationKind id)
      return .declaration name id : Resolution Expr) (n.attach id e) := by
  have hdeclare : declareFunctionWith fill name parameters body m = (do
      let _ ← mapError (declarationRejection name) (declarationKind id)
      return .declaration name id : Resolution Expr) (n.attach id e) := by
    unfold declareFunctionWith
    rw [bind_ok hdraft]
    exact bind_ok rfl
  rw [parse, parseWith, hts, ofInstructionWith_declaration hname]
  exact hdeclare

end Resolution

namespace Session

variable {n : Memory} {ts : List Token} {name : String} {parameters : List String} {body : Phrase}
variable {id : FunctionId} {e : Expr}

/-- The kind of the new function is not known yet, and those of all others are. -/
theorem declaring_of_draft {s : Session} (hs : Reachable s)
    (hts : Instruction.ofTokens ts = .declaration name (.ok (parameters, body)))
    (hdraft : Resolution.draftWith Resolution.fill name parameters body s.memory = .ok (id, e) n) :
    Declaring (n.attach id e) id e := by
  have hreads := Instruction.rejectsOnly_ofTokens ts
  rw [hts] at hreads
  rcases hs.valid.working hs.valid.registered with ⟨owner, hwork, -⟩
  have hdrafted := (Resolution.draftWith_drafted hwork name parameters hreads).of_ok rfl hdraft
  rcases hdrafted with ⟨rfl, hdrafted⟩
  exact hdrafted.declaring

/-- In every session, the kind of a function that is being declared, or the fault that is found
instead, is what two passes over its body come to. It would be the same with any other limit that
allows two calls, and if nothing was remembered between calls. -/
theorem declaration_passes {s : Session} (hs : Reachable s)
    (hts : Instruction.ofTokens ts = .declaration name (.ok (parameters, body)))
    (hname : s.memory.lookup? name = none)
    (hdraft : Resolution.draftWith Resolution.fill name parameters body s.memory = .ok (id, e) n) :
    parse ts s.memory = (do
      let _ ← mapError (Resolution.declarationRejection name) (declarationKind id)
      return .declaration name id : Resolution Expr) (n.attach id e) ∧
    outcome (declarationKind id (n.attach id e)) = passes (n.attach id e) id e ∧
    (∀ active, active + 2 ≤ callLimit →
      outcome (declarationKind id
        ((n.attach id e).modifyFunction id fun f => { f with depth := active }))
        = passes (n.attach id e) id e) ∧
    ∀ limit, 2 ≤ limit → nested (n.attach id e) id e limit = passes (n.attach id e) id e := by
  have hm := declaring_of_draft hs hts hdraft
  refine ⟨Resolution.parse_of_draft hts hname hdraft, ?_, fun active hactive => ?_,
    fun limit hlimit => ?_⟩
  · have hkind := declarationKind_passes hm (d := 0) (by decide)
    rwa [hm.during_eq] at hkind
  · -- Active calls are all that differs from a function whose kind is being computed.
    have hduring : ((n.attach id e).modifyFunction id fun f => { f with depth := active }) =
        (n.attach id e).during id active none false := by
      rw [← hm.during_eq]
      simp only [Memory.during, Memory.modifyFunction_modifyFunction]
    rw [hduring]
    exact declarationKind_passes hm hactive
  · exact nested_passes hm hlimit

/-- The declaration `function settle(b) => if (b) settle(false) else true`. -/
def settleDeclaration : List Token :=
  [.keyword .functionWord, .word "settle", .symbol .openParen, .word "b", .symbol .closeParen,
    .symbol .arrow, .keyword .ifWord, .symbol .openParen, .word "b", .symbol .closeParen,
    .word "settle", .symbol .openParen, .boolean false, .symbol .closeParen,
    .keyword .elseWord, .boolean true]

theorem settleDeclaration_boolean : (match Instruction.ofTokens settleDeclaration with
    | .declaration "settle" (.ok (parameters, body)) =>
        match Resolution.draftWith Resolution.fill "settle" parameters body {} with
        | .ok (id, e) n =>
            match passes (n.attach id e) id e with
            | .ok kind => kind == .boolean
            | .error _ => false
        | .error _ _ => false
    | _ => false) = true := by
  decide +kernel

/-- The call in its body overflows in the first pass and is boolean in the second one. -/
theorem declaration_passes_settle : ∃ parameters body id e n,
    Instruction.ofTokens settleDeclaration = .declaration "settle" (.ok (parameters, body)) ∧
    Resolution.draftWith Resolution.fill "settle" parameters body {} = .ok (id, e) n ∧
    outcome (declarationKind id (n.attach id e)) = .ok .boolean ∧
    passes (n.attach id e) id e = .ok .boolean := by
  have hkind := settleDeclaration_boolean
  split at hkind
  case h_1 parameters body hts =>
    split at hkind
    case h_1 id e n hdraft =>
      split at hkind
      case h_1 kind hpasses =>
        have hboolean : kind = .boolean := by simpa using hkind
        have htheorem := declaration_passes .start hts rfl hdraft
        exact ⟨parameters, body, id, e, n, hts, hdraft, by rw [htheorem.2.1, hpasses, hboolean],
          by rw [hpasses, hboolean]⟩
      case h_2 => cases hkind
    case h_2 => cases hkind
  case h_2 => cases hkind

end Session
end LineLang
