import Mathlib.Data.List.Forall2
import LineLang.Phrase.Unfold
import LineLang.Proofs.Grammar.Derivation
import LineLang.Proofs.Layout
import LineLang.Proofs.Resolution.Linked

/-!
# Expressions as signs

The signs of an expression are what its nodes stand for, from left to right, with the words and
commas that belong to each form. An expression that was read has exactly the signs of its window
without parentheses. Only the spelling of a number and whether the kind of a binding was declared
cannot be told from the expression.

- `Sign`, `Spelled`         : signs and the tokens that they may be written as
- `Expr.signs`              : the signs of an expression
- `Window.plain`            : the tokens of a window without parentheses
- `faithful`                : an expression that was read has the signs of its window
- `Spelled.leftover`        : nothing may follow
-/

namespace LineLang

/-- What a node of an expression stands for. The spelling of a number is not kept, nor whether the
kind of a binding was declared. -/
inductive Sign
  | token (t : Token)
  | number (value : Float)
  | binder (kind : Kind) (name : String)

/-- The tokens that signs may be written as. -/
inductive Spelled : List Sign → Window → Prop
  | nil : Spelled [] []
  | token {t : Token} {ss : List Sign} {w : Window} (h : Spelled ss w) :
      Spelled (.token t :: ss) (t :: w)
  | number {word : String} {x : Float} {ss : List Sign} {w : Window} (hword : Spells word x)
      (h : Spelled ss w) : Spelled (.number x :: ss) (.word word :: w)
  | binder {kind : Kind} {name : String} {ss : List Sign} {w : Window} (h : Spelled ss w) :
      Spelled (.binder kind name :: ss) (.word name :: w)
  | declared {kind : Kind} {name : String} {ss : List Sign} {w : Window} (h : Spelled ss w) :
      Spelled (.binder kind name :: ss) (.typeName kind :: .word name :: w)

namespace Spelled

variable {ss ss' : List Sign} {w w' : Window}

/-- Spelling goes from left to right. -/
theorem append (h : Spelled ss w) (h' : Spelled ss' w') : Spelled (ss ++ ss') (w ++ w') := by
  induction h with
  | nil => exact h'
  | token _ ih => exact .token ih
  | number hword _ ih => exact .number hword ih
  | binder _ ih => exact .binder ih
  | declared _ ih => exact .declared ih

/-- Nothing may follow the tokens that signs are written as. -/
theorem leftover {v : Window} (h : Spelled ss w) (h' : Spelled ss (w ++ v)) : v = [] := by
  induction h with
  | nil =>
      cases h'
      rfl
  | token _ ih =>
      cases h' with
      | token h' => exact ih h'
  | number _ _ ih =>
      cases h' with
      | number _ h' => exact ih h'
  | binder _ ih =>
      cases h' with
      | binder h' => exact ih h'
  | declared _ ih =>
      cases h' with
      | declared h' => exact ih h'

end Spelled

/-! ## Parentheses -/

namespace Window

def plain (w : Window) : Window :=
  w.filter fun t => t ≠ .symbol .openParen && t ≠ .symbol .closeParen

@[simp] theorem plain_nil : plain [] = [] :=
  rfl

@[simp] theorem plain_append (v w : Window) : plain (v ++ w) = plain v ++ plain w :=
  List.filter_append v w

@[simp] theorem plain_openParen (w : Window) : plain (.symbol .openParen :: w) = plain w :=
  rfl

@[simp] theorem plain_closeParen (w : Window) : plain (.symbol .closeParen :: w) = plain w :=
  rfl

@[simp] theorem plain_keyword (k : Keyword) (w : Window) :
    plain (.keyword k :: w) = .keyword k :: plain w :=
  rfl

@[simp] theorem plain_word (word : String) (w : Window) :
    plain (.word word :: w) = .word word :: plain w :=
  rfl

theorem plain_symbol {s : Symbol} (ho : s ≠ .openParen) (hc : s ≠ .closeParen) (w : Window) :
    plain (.symbol s :: w) = .symbol s :: plain w := by
  simp [plain, ho, hc]

theorem plain_heading (declared : Option Kind) (name : String) :
    plain (heading declared name) = heading declared name := by
  cases declared <;> rfl

/-- Commas are kept where parentheses are left out. -/
theorem plain_listed (ws : List Window) : plain (listed ws) = listed (ws.map plain) := by
  induction ws with
  | nil => rfl
  | cons w ws ih =>
      by_cases hne : ws = []
      · subst hne
        rfl
      · rw [listed_cons hne, List.map_cons, listed_cons (by simpa using hne), plain_append,
          plain_symbol (s := .comma) nofun nofun, ih]

end Window

/-! ## Signs -/

def UnaryOperator.token : UnaryOperator → Token
  | .not => .symbol .bang
  | .plus => .symbol .plus
  | .minus => .symbol .minus
  | .sqrt => .word "sqrt"
  | .sin => .word "sin"
  | .cos => .word "cos"
  | .exp => .word "exp"

def BinaryOperator.token : BinaryOperator → Token
  | .orElse => .symbol .doublePipe
  | .or => .symbol .pipe
  | .andThen => .symbol .doubleAmpersand
  | .and => .symbol .ampersand
  | .equal => .symbol .equalEqual
  | .notEqual => .symbol .bangEqual
  | .less => .symbol .less
  | .greater => .symbol .greater
  | .lessEqual => .symbol .lessEqual
  | .greaterEqual => .symbol .greaterEqual
  | .concat => .symbol .atSign
  | .concatSpaced => .symbol .doubleAt
  | .add => .symbol .plus
  | .sub => .symbol .minus
  | .mul => .symbol .star
  | .div => .symbol .slash
  | .mod => .symbol .percent
  | .pow => .symbol .caret
  | .log => .word "log"

def Sign.listed (sss : List (List Sign)) : List Sign :=
  separated (.token (.symbol .comma)) sss

def Value.signs : Value → List Sign
  | .number x => [.number x]
  | .boolean b => [.token (.boolean b)]
  | .text s => [.token (.text s)]
  | .void => []

namespace Expr

mutual

/-- What the nodes of the expression stand for, from left to right. -/
def signs : Expr → List Sign
  | .literal v => v.signs
  | .variable r => [.token (.word r.name)]
  | .unary op e => .token op.token :: e.signs
  | .binary .log l r => .token (.word "log") :: (l.signs ++ .token (.symbol .comma) :: r.signs)
  | .binary op l r => l.signs ++ .token op.token :: r.signs
  | .assign targets e =>
      Sign.listed (targets.map fun r => [.token (.word r.name)]) ++ .token
        (.symbol .assign) :: e.signs
  | .call name _ arguments _ => .token (.word name) :: Sign.listed (signsOfAll arguments)
  | .print e => .token (.word "print") :: e.signs
  | .declaration _ _ => []
  | .letIn declarations e =>
      .token (.keyword .letWord) ::
        (Sign.listed (signsOfBindings declarations) ++ .token (.keyword .inWord) :: e.signs)
  | .conditional c t e =>
      .token (.keyword .ifWord) :: (c.signs ++ (t.signs ++ .token (.keyword .elseWord) :: e.signs))

def signsOfAll : List Expr → List (List Sign)
  | [] => []
  | e :: es => e.signs :: signsOfAll es

def signsOfBindings : List (Declaration Expr) → List (List Sign)
  | [] => []
  | ⟨name, _, kind, initializer, _⟩ :: declarations =>
      (.binder kind name :: .token (.symbol .equals) :: initializer.signs) ::
        signsOfBindings declarations

end

theorem signs_unary {sign : Symbol} {op : UnaryOperator} (h : sign.unary? = some op) (e : Expr) :
    (Expr.unary op e).signs = .token (.symbol sign) :: e.signs := by
  rw [signs]
  cases sign <;> cases h <;> rfl

theorem signs_binary {sign : Symbol} {op : BinaryOperator} (h : sign.binary? = some op)
    (l r : Expr) : (Expr.binary op l r).signs = l.signs ++ .token (.symbol sign) :: r.signs := by
  cases sign <;> cases h <;> rw [signs] <;> first | rfl | exact nofun

/-- A call of a function of the language has the signs of any call. -/
theorem signs_builtinCall {name : String} {b : Builtin} {es : List Expr} {e : Expr}
    (hname : Builtin.ofName? name = some b) (he : Resolution.builtinCall b es = some e) :
    e.signs = .token (.word name) :: Sign.listed (signsOfAll es) := by
  unfold Resolution.builtinCall at he
  split at he <;> cases he
  all_goals
    unfold Builtin.ofName? at hname
    split at hname <;> cases hname
  all_goals rfl

end Expr

/-! ## What was read -/

/-- Lists are spelled item by item. -/
theorem Spelled.listed {sss : List (List Sign)} {ws : List Window}
    (h : List.Forall₂ (fun ss w => Spelled ss (Window.plain w)) sss ws) :
    Spelled (Sign.listed sss) (Window.plain (Window.listed ws)) := by
  rw [Window.plain_listed]
  induction h with
  | nil => exact .nil
  | @cons ss w sss ws hw hws ih =>
      cases hws with
      | nil => exact hw
      | cons _ _ => exact hw.append (.token ih)

/-- An expression that is read from the window has its signs. -/
def Faithful (functions : List (String × FunctionId)) (w : Window) : Prop :=
  ∀ {Γ : List (String × SlotId)} {lo : Nat} {e : Expr} {hi : Nat},
    Linked functions Γ lo (Phrase.ofWindow w) e hi → Spelled e.signs w.plain

section Faithful

variable {functions : List (String × FunctionId)} {Γ Δ : List (String × SlotId)} {lo hi : Nat}

/-- Arguments are spelled one by one. -/
theorem faithful_all {ws : List Window} {es : List Expr} (hws : ∀ w ∈ ws, Faithful functions w)
    (h : LinkedAll functions Γ lo (ws.map Phrase.ofWindow) es hi) :
    List.Forall₂ (fun ss w => Spelled ss (Window.plain w)) (Expr.signsOfAll es) ws := by
  induction ws generalizing lo es with
  | nil =>
      cases h
      exact .nil
  | cons w ws ih =>
      rw [List.forall_mem_cons] at hws
      cases h with
      | cons hw htail => exact .cons (hws.1 hw) (ih hws.2 htail)

/-- The heading of a binding is spelled with or without its kind. -/
theorem spelled_heading {declared : Option Kind} {kind : Kind} (h : ∀ k ∈ declared, kind = k)
    (name : String) :
    Spelled [.binder kind name, .token (.symbol .equals)] (Window.heading declared name) := by
  cases declared with
  | none => exact .binder (.token .nil)
  | some k =>
      cases h k rfl
      exact .declared (.token .nil)

/-- So are bindings. Each has its heading in front of its initializer. -/
theorem faithful_bindings {ws : List Window} {ds : List (Declaration Expr)}
    (hws : ∀ i ∈ (ws.map Layout.clause).filterMap Clause.initializer?, Faithful functions i)
    (h : LinkedClauses functions Γ lo
      ((ws.map Layout.clause).map (·.map Phrase.ofWindow)) ds Δ hi) :
    List.Forall₂ (fun ss w => Spelled ss (Window.plain w)) (Expr.signsOfBindings ds) ws := by
  induction ws generalizing Γ lo ds with
  | nil =>
      cases h
      exact .nil
  | cons w ws ih =>
      cases hclause : Layout.clause w with
      | malformed r =>
          rw [List.map_cons, List.map_cons, hclause] at h
          cases h
      | binding declared name i =>
          rw [List.map_cons, hclause, List.filterMap_cons, Clause.initializer?,
            List.forall_mem_cons] at hws
          rw [List.map_cons, List.map_cons, hclause] at h
          cases h with
          | cons hi _ hkind htail =>
              refine .cons ?_ (ih hws.2 htail)
              rw [(Layout.clause_binding hclause).2, Window.plain_append, Window.plain_heading]
              exact (spelled_heading hkind _).append (hws.1 hi)

/-- Targets are spelled by their names. -/
theorem faithful_targets {ws : List Window} {rs : List Reference}
    (h : ws.map Layout.target = rs.map fun r => .variable r.name) :
    List.Forall₂ (fun ss w => Spelled ss (Window.plain w))
      (rs.map fun r => [.token (.word r.name)]) ws := by
  induction ws generalizing rs with
  | nil =>
      rw [List.map_eq_nil_iff.1 h.symm]
      exact .nil
  | cons w ws ih =>
      rcases List.map_eq_cons_iff.1 h.symm with ⟨r, rs', rfl, hr, hrs⟩
      rw [Layout.target_variable hr.symm]
      exact .cons (.token .nil) (ih hrs.symm)

/-- An expression has the signs of its window if its parts have the signs of theirs. -/
theorem Layout.Covers.spelled {l : Layout} {w : Window} {e : Expr} (hl : l.Covers w)
    (hparts : ∀ v ∈ l.windows, Faithful functions v)
    (h : Linked functions Γ lo (l.build Phrase.ofWindow) e hi) : Spelled e.signs w.plain := by
  cases hl with
  | malformed => cases h
  | number hword =>
      cases h
      exact .number hword .nil
  | boolean =>
      cases h
      exact .token .nil
  | text =>
      cases h
      exact .token .nil
  | name =>
      cases h
      exact .token .nil
  | prefixed hsign =>
      have hparen := Symbol.ne_paren_of_unary? hsign
      cases h with
      | prefixed he =>
          rw [Expr.signs_unary hsign, Window.plain_symbol hparen.1 hparen.2]
          exact .token (hparts _ (by simp [windows]) he)
  | infixed hsign =>
      have hparen := Symbol.ne_paren_of_binary? hsign
      cases h with
      | infixed hl hr =>
          rw [Expr.signs_binary hsign, Window.plain_append, Window.plain_symbol hparen.1 hparen.2]
          exact (hparts _ (by simp [windows]) hl).append (.token (hparts _ (by simp [windows]) hr))
  | parenthesized =>
      have hinside := hparts _ (by simp [windows]) h
      simpa using hinside
  | @assignment ws v =>
      generalize htargets : ws.map target = ts at h
      cases h with
      | assignment _ hv =>
          rw [Expr.signs, Window.plain_append,
            Window.plain_symbol (s := .assign) (by decide) (by decide)]
          exact (Spelled.listed (faithful_targets htargets)).append
            (.token (hparts _ (by simp [windows]) hv))
  | @call f ws =>
      -- Functions of the language and others are written alike.
      have hcall : ∀ {es : List Expr}, LinkedAll functions Γ lo (ws.map Phrase.ofWindow) es hi →
          Spelled (.token (.word f) :: Sign.listed (Expr.signsOfAll es))
            (Window.plain
              (.word f :: .symbol .openParen :: (Window.listed ws ++ [.symbol .closeParen]))) := by
        intro es hes
        have hlist : Spelled _ (Window.plain (Window.listed ws)) :=
          Spelled.listed (faithful_all hparts hes)
        simpa using Spelled.token hlist
      cases h with
      | builtin hname he hes =>
          rw [Expr.signs_builtinCall hname he]
          exact hcall hes
      | call _ _ hes => exact hcall hes
  | conditional =>
      cases h with
      | conditional hc ht he =>
          have hcondition := hparts _ (by simp [windows]) hc
          have hbranches := (hparts _ (by simp [windows]) ht).append
            (.token (t := .keyword .elseWord) (hparts _ (by simp [windows]) he))
          simpa [Expr.signs] using Spelled.token (t := .keyword .ifWord)
            (hcondition.append hbranches)
  | @letIn ws b =>
      generalize hclauses : (ws.map clause).map (·.map Phrase.ofWindow) = cs at h
      cases h with
      | letIn hds hb =>
          subst hclauses
          have hclauses := faithful_bindings (fun i hi => hparts i (List.mem_append_left _ hi)) hds
          have hbindings := Spelled.listed hclauses
          have hbody := hparts b (by simp [windows]) hb
          simpa [Expr.signs] using Spelled.token (t := .keyword .letWord)
            (hbindings.append (.token (t := .keyword .inWord) hbody))

/-- An expression that was read has the signs of its window without parentheses. -/
theorem faithful (w : Window) : Faithful functions w := by
  intro Γ lo e hi h
  -- The parts of a window are shorter.
  induction hn : w.length using Nat.strong_induction_on generalizing w Γ lo e hi with
  | _ n ih =>
      subst hn
      rw [Phrase.ofWindow_eq] at h
      refine (Layout.covers_ofWindow w).spelled (fun v hv => ?_) h
      intro Γ lo e hi h
      exact ih v.length (Layout.length_lt_of_mem_windows hv) v h rfl

end Faithful

end LineLang
