import LineLang.Phrase.Unfold
import LineLang.Proofs.Window
import LineLang.Resolution

/-!
# The grammar of operators

Operators and their operands follow a grammar with one level for each strength of binding. A window
is read by looking for the sign that cuts it. For a window that the grammar derives, that sign is
the one at the top of the derivation, so that there is one derivation and the tree that is read is
the derived one.

- `BinaryOperator.precedence`   : the levels of the grammar
- `Window.Atom`                 : operands without operators of their own
- `OperatorTree`, `Derives`     : trees and the grammar that derives them
- `Derives.top`                 : how a derived window is cut
- `Derives.unique`              : there is one derivation
- `Derives.phrase_eq`           : what is read is what is derived
- `Derives.uses_fit`            : how each sign is used
-/

namespace LineLang

/-! ## Grammar -/

/-- How tightly an operator binds its operands. Prefix operators bind more tightly than all of
these. -/
def BinaryOperator.precedence : BinaryOperator → Nat
  | .orElse | .or => 0
  | .andThen | .and => 1
  | .equal | .notEqual => 2
  | .less | .greater | .lessEqual | .greaterEqual => 3
  | .concat | .concatSpaced => 4
  | .add | .sub => 5
  | .mul | .div | .mod => 6
  | .pow => 7
  -- This one is written as a call.
  | .log => 8

/-- An operand without operators of its own: a literal, a name, a call or an expression in
parentheses. -/
inductive Window.Atom : Window → Prop
  | boolean (b : Bool) : Atom [.boolean b]
  | text (contents : String) : Atom [.text contents]
  | word (spelling : String) : Atom [.word spelling]
  | call (function : String) {arguments : Window} : checkBalance arguments = .ok () →
      Atom (.word function :: .symbol .openParen :: (arguments ++ [.symbol .closeParen]))
  | parentheses {inside : Window} : checkBalance inside = .ok () →
      Atom (.symbol .openParen :: (inside ++ [.symbol .closeParen]))

/-- Operators around operands, with the signs that they are written with. -/
inductive OperatorTree
  | operand (window : Window)
  | prefixed (sign : Symbol) (op : UnaryOperator) (operand : OperatorTree)
  | infixed (sign : Symbol) (op : BinaryOperator) (left right : OperatorTree)

/-- The grammar. Operators of a level below seven associate to the left, and powers to the right. -/
inductive Derives : Nat → Window → OperatorTree → Prop
  | operand {w : Window} : Window.Atom w → Derives 8 w (.operand w)
  | prefixed {s : Symbol} {op : UnaryOperator} {w : Window} {t : OperatorTree} :
      s.unary? = some op → Derives 8 w t → Derives 8 (.symbol s :: w) (.prefixed s op t)
  | power {l r : Window} {t u : OperatorTree} : Derives 8 l t → Derives 7 r u →
      Derives 7 (l ++ .symbol .caret :: r) (.infixed .caret .pow t u)
  | infixed {s : Symbol} {op : BinaryOperator} {l r : Window} {t u : OperatorTree} :
      s.binary? = some op → op.precedence < 7 → Derives op.precedence l t →
      Derives (op.precedence + 1) r u →
      Derives op.precedence (l ++ .symbol s :: r) (.infixed s op t u)
  | tighter {n : Nat} {w : Window} {t : OperatorTree} : Derives (n + 1) w t → Derives n w t

/-! ## Derived windows -/

theorem Symbol.ne_paren_of_unary? {s : Symbol} {op : UnaryOperator} (hs : s.unary? = some op) :
    s ≠ .openParen ∧ s ≠ .closeParen := by
  constructor
  · rintro rfl
    cases hs
  · rintro rfl
    cases hs

theorem Symbol.ne_paren_of_binary? {s : Symbol} {op : BinaryOperator} (hs : s.binary? = some op) :
    s ≠ .openParen ∧ s ≠ .closeParen := by
  constructor
  · rintro rfl
    cases hs
  · rintro rfl
    cases hs

/-- A token that may stand outside parentheses on a level: a sign between two operands binds at
least as tightly as the level, and a sign in front of an operand may be a plus or a minus. -/
structure Allowed (level : Nat) (before : Option Token) (t : Token) : Prop where
  statement : Window.opensStatement t = false
  assign : t ≠ .symbol .assign
  type : ∀ k, t ≠ .typeName k
  tight : ∀ op, t.binary? = some op → before.any Token.endsOperand = true → level ≤ op.precedence
  sign : ∀ op, t.binary? = some op → before.any Token.endsOperand = false → op = .add ∨ op = .sub

namespace Allowed

variable {n k : Nat} {before : Option Token} {t : Token}

theorem mono (h : Allowed k before t) (hn : n ≤ k) : Allowed n before t :=
  { h with tight := fun op hop hbefore => Nat.le_trans hn (h.tight op hop hbefore) }

/-- A sign between two operands. -/
theorem between {s : Symbol} {op : BinaryOperator} (hs : s.binary? = some op)
    (hbefore : before.any Token.endsOperand = true) (hn : n ≤ op.precedence) :
    Allowed n before (.symbol s) where
  statement := rfl
  assign := by
    rintro ⟨⟩
    cases hs
  type := nofun
  tight op' hop' _ := by
    cases hs.symm.trans hop'
    exact hn
  sign op' _ hfalse := by
    rw [hbefore] at hfalse
    cases hfalse

/-- A sign in front of an operand. -/
theorem front {s : Symbol} {op : UnaryOperator} (hs : s.unary? = some op)
    (hbefore : before.any Token.endsOperand = false) : Allowed n before (.symbol s) where
  statement := rfl
  assign := by
    rintro ⟨⟩
    cases hs
  type := nofun
  tight op' _ htrue := by
    rw [hbefore] at htrue
    cases htrue
  sign op' hop' _ := by
    cases s with
    | plus => exact .inl (Option.some.inj hop').symm
    | minus => exact .inr (Option.some.inj hop').symm
    | bang => cases hop'
    | _ => cases hs

end Allowed

section Windows

open Window

variable {n : Nat} {w : Window} {T : OperatorTree}

/-- Whatever the level is, an operand without operators of its own may stand there. -/
theorem Window.Atom.tops (h : Atom w) (n : Nat) (before : Option Token) :
    Tops (Allowed n) before w := by
  cases h with
  | boolean b => exact .token nofun nofun ⟨rfl, nofun, nofun, nofun, nofun⟩ .nil
  | text s => exact .token nofun nofun ⟨rfl, nofun, nofun, nofun, nofun⟩ .nil
  | word s => exact .token nofun nofun ⟨rfl, nofun, nofun, nofun, nofun⟩ .nil
  | call f ha =>
      refine .token nofun nofun ⟨rfl, nofun, nofun, nofun, nofun⟩ ?_
      exact .group (checkBalance_iff.1 ha) .nil
  | parentheses hi => exact .group (checkBalance_iff.1 hi) .nil

theorem Window.Atom.ends (h : Atom w) : w.getLast?.any Token.endsOperand = true := by
  cases h with
  | boolean b | text s | word s => rfl
  | call f ha => simp [List.getLast?_cons, Token.endsOperand]
  | parentheses hi => simp [List.getLast?_cons, Token.endsOperand]

theorem any_or_of_any {a b : Option Token} (h : a.any Token.endsOperand = true) :
    (a.or b).any Token.endsOperand = true := by
  cases a with
  | none => cases h
  | some t => exact h

/-- The last token of a derived window ends an operand. -/
theorem Derives.ends (h : Derives n w T) : w.getLast?.any Token.endsOperand = true := by
  have hcons : ∀ (t : Token) (v : Window), v.getLast?.any Token.endsOperand = true →
      (t :: v).getLast?.any Token.endsOperand = true := by
    intro t v hv
    cases hlast : v.getLast? with
    | none =>
        rw [hlast] at hv
        cases hv
    | some u =>
        rw [hlast] at hv
        simpa [List.getLast?_cons, hlast] using hv
  induction h with
  | operand ha => exact ha.ends
  | prefixed _ _ ih => exact hcons _ _ ih
  | power _ _ _ ih =>
      rw [List.getLast?_append]
      exact any_or_of_any (hcons _ _ ih)
  | infixed _ _ _ _ _ ih =>
      rw [List.getLast?_append]
      exact any_or_of_any (hcons _ _ ih)
  | tighter _ ih => exact ih

theorem Derives.ne_nil (h : Derives n w T) : w ≠ [] := by
  rintro rfl
  cases h.ends

/-- Of all signs, only a closing parenthesis ends an operand. -/
theorem any_symbol {s : Symbol} (hs : s ≠ .closeParen) :
    (some (Token.symbol s)).any Token.endsOperand = false := by
  cases s with
  | closeParen => exact absurd rfl hs
  | _ => rfl

/-- A sign between two derived windows follows the end of an operand. -/
theorem Derives.tops (h : Derives n w T) {before : Option Token}
    (hbefore : before.any Token.endsOperand = false) : Tops (Allowed n) before w := by
  induction h generalizing before with
  | operand ha => exact ha.tops 8 before
  | @prefixed s op w t hs _ ih =>
      rcases Symbol.ne_paren_of_unary? hs with ⟨hopen, hclose⟩
      have hsign := Allowed.front (n := 8) hs hbefore
      exact .token (by simpa using hopen) (by simpa using hclose) hsign (ih (any_symbol hclose))
  | power hl _ ihl ihr =>
      have hleft := (ihl hbefore).mono fun _ _ ha => ha.mono (Nat.le_succ 7)
      refine hleft.append (.token nofun nofun ?_ (ihr rfl))
      exact Allowed.between (s := .caret) rfl (any_or_of_any hl.ends) (Nat.le_refl 7)
  | @infixed s op l r _ _ hs _ hl _ ihl ihr =>
      rcases Symbol.ne_paren_of_binary? hs with ⟨hopen, hclose⟩
      have hsign := Allowed.between hs (any_or_of_any (b := before) hl.ends) (Nat.le_refl _)
      have hright : Tops (Allowed op.precedence) (some (.symbol s)) r :=
        (ihr (any_symbol hclose)).mono fun _ _ ha => ha.mono (Nat.le_succ _)
      exact (ihl hbefore).append
        (.token (by simpa using hopen) (by simpa using hclose) hsign hright)
  | tighter _ ih => exact (ih hbefore).mono fun _ _ ha => ha.mono (Nat.le_succ _)

end Windows

/-! ## How derived windows are cut -/

namespace Layout

open Window

variable {n : Nat} {w : Window}

/-- On no level may a keyword stand outside parentheses, so that no statement begins. -/
theorem statement?_eq_none (h : Tops (Allowed n) none w) : statement? w = none := by
  cases h with
  | nil => rfl
  | @token _ t _ _ _ ha _ =>
      cases t with
      | keyword k =>
          cases k with
          | letWord | ifWord | functionWord => cases ha.statement
          | _ => rfl
      | typeName k => exact absurd rfl (ha.type k)
      | _ => rfl
  | group _ _ => rfl

/-- Only operators, prefix operators and what is simpler are left for a derived window. -/
theorem form?_of_tops (h : Tops (Allowed n) none w) :
    form? w = (infixed? w [] <|> power? w [] <|> prefixed? w <|> primary? w) := by
  have hbefore : beforeStatement w = (w, []) := by
    unfold beforeStatement
    rw [firstTop?_eq_none (h.mono fun _ _ ha => ha.statement)]
  have hassign : assignment? w [] = none := by
    unfold assignment?
    rw [firstTop?_eq_none (h.mono fun _ _ ha => by simpa using ha.assign)]
    rfl
  simp only [form?, hbefore, statement?_eq_none h, hassign]
  rfl

/-- On its level a token is no operator of a looser one. -/
theorem isInfix_eq_false {level : List BinaryOperator} {before : Option Token} {t : Token}
    (ht : Allowed n before t) (hlevel : ∀ op ∈ level, op.precedence < n) :
    isInfix level t before = false := by
  unfold isInfix
  cases hop : t.binary? with
  | none => rfl
  | some op =>
      by_cases hmem : op ∈ level
      · cases hbefore : before.any Token.endsOperand with
        | true => exact absurd (hlevel op hmem) (Nat.not_lt_of_le (ht.tight op hop hbefore))
        | false =>
            -- A sign that does not follow an operand is a plus or a minus, which then is no
            -- operator.
            rcases ht.sign op hop hbefore with rfl | rfl
            all_goals simp
      · simp [hmem]

/-- After an operand a sign of the level stands between operands. -/
theorem isInfix_eq_true {level : List BinaryOperator} {before : Option Token} {s : Symbol}
    {op : BinaryOperator} (hs : s.binary? = some op) (hmem : op ∈ level)
    (hbefore : before.any Token.endsOperand = true) : isInfix level (.symbol s) before = true := by
  have hbinary : (Token.symbol s).binary? = some op := hs
  unfold isInfix
  rw [hbinary]
  cases op with
  | add | sub => simp [hmem, hbefore]
  | _ => simp [hmem]

theorem atLevel?_eq_none {level : List BinaryOperator} (h : Tops (Allowed n) none w)
    (hlevel : ∀ op ∈ level, op.precedence < n) : atLevel? w [] level = none := by
  unfold atLevel?
  rw [lastTop?_eq_none (h.mono fun _ _ ha => isInfix_eq_false ha hlevel)]
  rfl

theorem infixed?_eq_none (h : Tops (Allowed n) none w) (hn : 7 ≤ n) : infixed? w [] = none := by
  have hlevels : ∀ level ∈ levels, ∀ op ∈ level, op.precedence < 7 := by decide
  refine List.findSome?_eq_none_iff.2 fun level hlevel => atLevel?_eq_none h fun op hop => ?_
  exact Nat.lt_of_lt_of_le (hlevels level hlevel op hop) hn

/-- The levels before the one of an operator hold looser operators. -/
theorem levels_split {op : BinaryOperator} (hop : op.precedence < 7) :
    levels = levels.take op.precedence ++ levels.getD op.precedence [] ::
        levels.drop (op.precedence + 1) ∧
      (∀ level ∈ levels.take op.precedence, ∀ o ∈ level, o.precedence < op.precedence) ∧
      op ∈ levels.getD op.precedence [] ∧
      ∀ o ∈ levels.getD op.precedence [], o.precedence < op.precedence + 1 := by
  cases op with
  | pow | log => exact absurd hop (by decide)
  | _ => decide

/-- A window is cut at the last operator of its level. -/
theorem infixed?_of_tops {l r : Window} {s : Symbol} {op : BinaryOperator}
    (hs : s.binary? = some op) (hop : op.precedence < 7)
    (hl : l.getLast?.any Token.endsOperand = true) (hr : r ≠ [])
    (h : Tops (Allowed op.precedence) none (l ++ .symbol s :: r))
    (hright : Tops (Allowed (op.precedence + 1)) (some (.symbol s)) r) :
    infixed? (l ++ .symbol s :: r) [] = some (.infixed op l r) := by
  rcases levels_split hop with ⟨hsplit, hlooser, hmem, hlevel⟩
  -- The sign is the last of its level: to its right only tighter signs stand at the top.
  have hcut : lastTop? (isInfix (levels.getD op.precedence [])) (l ++ .symbol s :: r) =
      some ⟨l, .symbol s, r⟩ := by
    apply lastTop?_of_tops
    · simpa using (Symbol.ne_paren_of_binary? hs).2
    · exact isInfix_eq_true hs hmem hl
    · exact hright.mono fun _ _ ha => isInfix_eq_false ha hlevel
  have hnodes : infixedAt op l (r ++ []) = .infixed op l r := by
    rw [List.append_nil]
    cases l with
    | nil => cases hl
    | cons t l =>
        cases r with
        | nil => exact absurd rfl hr
        | cons u r => rfl
  have hlevelHit : atLevel? (l ++ .symbol s :: r) [] (levels.getD op.precedence []) =
      some (.infixed op l r) := by
    have hbinary : (Token.symbol s).binary? = some op := hs
    unfold atLevel?
    rw [hcut, Option.bind_some, hbinary, Option.map_some, hnodes]
  -- The looser levels are tried first, and none of them finds a sign.
  unfold infixed?
  rw [hsplit, List.findSome?_append, List.findSome?_cons, hlevelHit,
    List.findSome?_eq_none_iff.2 fun level hmem' => atLevel?_eq_none h (hlooser level hmem')]
  rfl

/-- No power sign is allowed where prefix operators bind. -/
theorem ne_caret {before : Option Token} {t : Token} (ht : Allowed 8 before t) :
    decide (t = .symbol .caret) = false := by
  rw [decide_eq_false_iff_not]
  rintro rfl
  cases hbefore : before.any Token.endsOperand with
  | true => exact absurd (ht.tight .pow rfl hbefore) (by decide)
  | false => rcases ht.sign .pow rfl hbefore with h | h <;> cases h

/-- A power is cut at its first sign. -/
theorem power?_of_tops {l r : Window} (hl : Tops (Allowed 8) none l) (hne : l ≠ []) (hr : r ≠ []) :
    power? (l ++ .symbol .caret :: r) [] = some (.infixed .pow l r) := by
  have hcut : firstTop? (· = .symbol .caret) (l ++ .symbol .caret :: r) =
      some ⟨l, .symbol .caret, r⟩ :=
    firstTop?_of_tops (hl.mono fun _ _ => ne_caret) nofun rfl
  unfold power?
  rw [hcut, Option.map_some, List.append_nil]
  cases l with
  | nil => exact absurd rfl hne
  | cons t l =>
      cases r with
      | nil => exact absurd rfl hr
      | cons u r => rfl

theorem power?_eq_none (h : Tops (Allowed 8) none w) : power? w [] = none := by
  unfold power?
  rw [firstTop?_eq_none (h.mono fun _ _ => ne_caret)]
  rfl

/-- A sign in front of something is a prefix operator. -/
theorem prefixed?_of_sign {s : Symbol} {op : UnaryOperator} (hs : s.unary? = some op)
    (hw : w ≠ []) : prefixed? (.symbol s :: w) = some (.prefixed op w) := by
  cases w with
  | nil => exact absurd rfl hw
  | cons t w =>
      cases s with
      | bang | plus | minus =>
          cases hs
          rfl
      | _ => cases hs

/-! ### Layouts -/

/-- The operator of the derivation is the last one of the loosest level in the window. -/
theorem ofWindow_infixed {l r : Window} {s : Symbol} {op : BinaryOperator} {t u : OperatorTree}
    (hs : s.binary? = some op) (hop : op.precedence < 7) (hl : Derives op.precedence l t)
    (hr : Derives (op.precedence + 1) r u) : ofWindow (l ++ .symbol s :: r) = .infixed op l r := by
  have hclose := (Symbol.ne_paren_of_binary? hs).2
  have hall := (Derives.infixed hs hop hl hr).tops Option.any_none
  have hhit := infixed?_of_tops hs hop hl.ends hr.ne_nil hall (hr.tops (any_symbol hclose))
  rw [ofWindow, form?_of_tops hall, hhit]
  rfl

theorem ofWindow_power {l r : Window} {t u : OperatorTree} (hl : Derives 8 l t)
    (hr : Derives 7 r u) : ofWindow (l ++ .symbol .caret :: r) = .infixed .pow l r := by
  have hall := (Derives.power hl hr).tops Option.any_none
  have hhit := power?_of_tops (hl.tops rfl) hl.ne_nil hr.ne_nil
  rw [ofWindow, form?_of_tops hall, infixed?_eq_none hall (Nat.le_refl 7), hhit]
  rfl

theorem ofWindow_prefixed {s : Symbol} {op : UnaryOperator} {t : OperatorTree}
    (hs : s.unary? = some op) (hw : Derives 8 w t) :
    ofWindow (.symbol s :: w) = .prefixed op w := by
  have hall := (Derives.prefixed hs hw).tops Option.any_none
  rw [ofWindow, form?_of_tops hall, infixed?_eq_none hall (by decide), power?_eq_none hall,
    prefixed?_of_sign hs hw.ne_nil]
  rfl

def Simple (l : Layout) : Prop :=
  (∀ op left right, l ≠ .infixed op left right) ∧ ∀ op operand, l ≠ .prefixed op operand

theorem simple_ofWord (word : String) : Simple (ofWord word) := by
  unfold ofWord
  split
  · split <;> exact ⟨nofun, nofun⟩
  · split
    · exact ⟨nofun, nofun⟩
    · split <;> exact ⟨nofun, nofun⟩

/-- An operand without operators of its own is not taken for an operator. -/
theorem simple_ofWindow (hw : Atom w) : Simple (ofWindow w) := by
  -- No sign stands at the top of an atom, so no rule for operators applies to it.
  have hall := hw.tops 8 none
  rw [ofWindow, form?_of_tops hall, infixed?_eq_none hall (by decide), power?_eq_none hall]
  cases hw with
  | boolean b | text s => exact ⟨nofun, nofun⟩
  | word s => exact simple_ofWord s
  | @call f arguments ha =>
      have hinside := (checkBalance_iff.1 ha).enclosed?_group []
      have hform : ∃ l, primary? (.word f :: .symbol .openParen ::
          (arguments ++ [.symbol .closeParen])) = some l ∧ Simple l := by
        simp only [primary?, hinside]
        split
        · exact ⟨_, rfl, nofun, nofun⟩
        · exact ⟨_, rfl, nofun, nofun⟩
      rcases hform with ⟨l, hl, hsimple⟩
      rw [hl]
      exact hsimple
  | @parentheses inside hi =>
      have hinside := (checkBalance_iff.1 hi).enclosed?_group []
      have hform :
          ∃ l, prefixed? (.symbol .openParen :: (inside ++ [.symbol .closeParen])) = some l ∧
            Simple l := by
        simp only [prefixed?, hinside]
        cases inside with
        | nil => exact ⟨_, rfl, nofun, nofun⟩
        | cons t inside => exact ⟨_, rfl, nofun, nofun⟩
      rcases hform with ⟨l, hl, hsimple⟩
      rw [hl]
      exact hsimple

end Layout

/-! ## Derivations -/

namespace OperatorTree

def window : OperatorTree → Window
  | .operand w => w
  | .prefixed s _ t => .symbol s :: t.window
  | .infixed s _ l r => l.window ++ .symbol s :: r.window

def phrase : OperatorTree → Phrase
  | .operand w => Phrase.ofWindow w
  | .prefixed _ op t => .prefixed op t.phrase
  | .infixed _ op l r => .infixed op l.phrase r.phrase

/-- The expression of a tree whose operands are read from left to right. -/
def expression (read : Window → Resolution Expr) : OperatorTree → Resolution Expr
  | .operand w => read w
  | .prefixed _ op t => do return .unary op (← t.expression read)
  | .infixed _ op l r => do
      let left ← l.expression read
      let right ← r.expression read
      return .binary op left right

theorem resolveWith_phrase (fill : Declaration Expr → Resolution Unit) (scope : Scope)
    (T : OperatorTree) : Resolution.resolveWith fill scope T.phrase =
      T.expression fun w => Resolution.resolveWith fill scope (Phrase.ofWindow w) := by
  induction T with
  | operand w => rfl
  | prefixed s op t ih => simp only [phrase, Resolution.resolveWith, expression, ih]
  | infixed s op l r ihl ihr => simp only [phrase, Resolution.resolveWith, expression, ihl, ihr]

/-- How the tree and the window of a derivation hang together at the top. -/
def Cuts (w : Window) : OperatorTree → Prop
  | .operand v => v = w ∧ Layout.Simple (Layout.ofWindow w)
  | .prefixed s op t => w = .symbol s :: t.window ∧ Layout.ofWindow w = .prefixed op t.window ∧
      ∃ k, Derives k t.window t
  | .infixed s op l r => w = l.window ++ .symbol s :: r.window ∧
      Layout.ofWindow w = .infixed op l.window r.window ∧
      (∃ k, Derives k l.window l) ∧ ∃ k, Derives k r.window r

end OperatorTree

namespace Derives

open OperatorTree

variable {n k : Nat} {w : Window} {T T' : OperatorTree}

/-- A derived tree is written as the window that it was derived from. -/
theorem window_eq (h : Derives n w T) : T.window = w := by
  induction h with
  | operand _ => rfl
  | prefixed _ _ ih => rw [window, ih]
  | power _ _ ihl ihr => rw [window, ihl, ihr]
  | infixed _ _ _ _ ihl ihr => rw [window, ihl, ihr]
  | tighter _ ih => exact ih

/-- A derived window is cut where its derivation says. -/
theorem top (h : Derives n w T) : T.Cuts w := by
  induction h with
  | operand ha => exact ⟨rfl, Layout.simple_ofWindow ha⟩
  | prefixed hs hw _ =>
      have hwindow := hw.window_eq
      subst hwindow
      exact ⟨rfl, Layout.ofWindow_prefixed hs hw, 8, hw⟩
  | power hl hr _ _ =>
      have hleft := hl.window_eq
      have hright := hr.window_eq
      subst hleft hright
      exact ⟨rfl, Layout.ofWindow_power hl hr, ⟨8, hl⟩, 7, hr⟩
  | infixed hs hop hl hr _ _ =>
      have hleft := hl.window_eq
      have hright := hr.window_eq
      subst hleft hright
      exact ⟨rfl, Layout.ofWindow_infixed hs hop hl hr, ⟨_, hl⟩, _, hr⟩
  | tighter _ ih => exact ih

/-- The layout of a window decides the top of its derivation, and so on downwards. -/
theorem unique (h : Derives n w T) (h' : Derives k w T') : T = T' := by
  -- Both trees are over one window, and its layout says which constructor is on top and where the
  -- window is cut.
  induction T generalizing n k w T' with
  | operand v =>
      rcases h.top with ⟨rfl, hsimple⟩
      cases T' with
      | operand v' =>
          rcases h'.top with ⟨rfl, -⟩
          rfl
      | prefixed s op t => exact absurd h'.top.2.1 (hsimple.2 op _)
      | infixed s op l r => exact absurd h'.top.2.1 (hsimple.1 op _ _)
  | prefixed s op t ih =>
      rcases h.top with ⟨hw, hlayout, i, ht⟩
      cases T' with
      | operand v' => exact absurd hlayout (h'.top.2.2 op _)
      | infixed s' op' l r => cases hlayout.symm.trans h'.top.2.1
      | prefixed s' op' t' =>
          rcases h'.top with ⟨hw', hlayout', j, ht'⟩
          have hnode := hlayout.symm.trans hlayout'
          injection hnode with hop hwindow
          injection hw.symm.trans hw' with hsign _
          injection hsign with hsign
          rw [← hwindow] at ht'
          rw [hop, hsign, ih ht ht']
  | infixed s op l r ihl ihr =>
      rcases h.top with ⟨hw, hlayout, ⟨i, hl⟩, j, hr⟩
      cases T' with
      | operand v' => exact absurd hlayout (h'.top.2.1 op _ _)
      | prefixed s' op' t' => cases hlayout.symm.trans h'.top.2.1
      | infixed s' op' l' r' =>
          rcases h'.top with ⟨hw', hlayout', ⟨i', hl'⟩, j', hr'⟩
          have hnode := hlayout.symm.trans hlayout'
          injection hnode with hop hleft hright
          rw [← hleft] at hl' hw'
          rw [← hright] at hr' hw'
          have hsigns := List.append_cancel_left (hw.symm.trans hw')
          injection hsigns with hsign _
          injection hsign with hsign
          rw [hop, hsign, ihl hl hl', ihr hr hr']

/-- What is read is what is derived. -/
theorem phrase_eq (h : Derives n w T) : Phrase.ofWindow w = T.phrase := by
  induction T generalizing n w with
  | operand v =>
      rcases h.top with ⟨rfl, -⟩
      rfl
  | prefixed s op t ih =>
      rcases h.top with ⟨-, hlayout, i, ht⟩
      rw [Phrase.ofWindow_eq, hlayout, phrase, ← ih ht]
      rfl
  | infixed s op l r ihl ihr =>
      rcases h.top with ⟨-, hlayout, ⟨i, hl⟩, j, hr⟩
      rw [Phrase.ofWindow_eq, hlayout, phrase, ← ihl hl, ← ihr hr]
      rfl

end Derives

/-! ## Uses of signs -/

inductive Use
  | operand
  | prefixed
  | infixed
  deriving DecidableEq, Repr

namespace OperatorTree

def uses : OperatorTree → List (Token × Use)
  | .operand w => w.map (·, .operand)
  | .prefixed s _ t => (.symbol s, .prefixed) :: t.uses
  | .infixed s _ l r => l.uses ++ (.symbol s, .infixed) :: r.uses

/-- Reading the uses of its tokens from left to right gives the window of a tree. -/
theorem map_fst_uses (T : OperatorTree) : T.uses.map Prod.fst = T.window := by
  induction T with
  | operand w =>
      rw [uses, List.map_map]
      exact List.map_id _
  | prefixed s op t ih => rw [uses, List.map_cons, ih, window]
  | infixed s op l r ihl ihr => rw [uses, List.map_append, List.map_cons, ihl, ihr, window]

end OperatorTree

/-- A sign is used between operands exactly when an operand ends just before it. -/
def UsesFit : Option Token → List (Token × Use) → Prop
  | _, [] => True
  | before, (t, use) :: rest =>
      (use ≠ .operand → (use = .infixed ↔ before.any Token.endsOperand = true)) ∧
        UsesFit (some t) rest

/-- Uses fit in a row if those of the second part fit after the last token of the first. -/
theorem UsesFit.append {before : Option Token} {us vs : List (Token × Use)}
    (hus : UsesFit before us) (hvs : UsesFit ((us.map Prod.fst).getLast?.or before) vs) :
    UsesFit before (us ++ vs) := by
  induction us generalizing before with
  | nil => simpa using hvs
  | cons u us ih =>
      refine ⟨hus.1, ih hus.2 ?_⟩
      simpa [List.getLast?_cons] using hvs

theorem usesFit_operand (w : Window) (before : Option Token) :
    UsesFit before (w.map (·, .operand)) := by
  induction w generalizing before with
  | nil => trivial
  | cons t w ih => exact ⟨fun hne => absurd rfl hne, ih (some t)⟩

/-- Between two operands the left one has just ended. -/
theorem usesFit_infixed {n : Nat} {l : Window} {t u : OperatorTree} {s : Symbol}
    {before : Option Token} (hl : Derives n l t) (ht : UsesFit before t.uses)
    (hu : UsesFit (some (.symbol s)) u.uses) :
    UsesFit before (t.uses ++ (.symbol s, .infixed) :: u.uses) := by
  refine ht.append ⟨fun _ => ⟨fun _ => ?_, fun _ => rfl⟩, hu⟩
  rw [t.map_fst_uses, hl.window_eq]
  exact any_or_of_any hl.ends

/-- In a derivation every sign is used as the token before it demands. -/
theorem Derives.uses_fit {n : Nat} {w : Window} {T : OperatorTree} (h : Derives n w T)
    {before : Option Token} (hbefore : before.any Token.endsOperand = false) :
    UsesFit before T.uses := by
  induction h generalizing before with
  | operand ha => exact usesFit_operand _ _
  | prefixed hs _ ih =>
      have hclose := (Symbol.ne_paren_of_unary? hs).2
      refine ⟨fun _ => ⟨nofun, fun htrue => ?_⟩, ih (any_symbol hclose)⟩
      rw [hbefore] at htrue
      cases htrue
  | power hl _ ihl ihr => exact usesFit_infixed hl (ihl hbefore) (ihr rfl)
  | infixed hs _ hl _ ihl ihr =>
      have hclose := (Symbol.ne_paren_of_binary? hs).2
      exact usesFit_infixed hl (ihl hbefore) (ihr (any_symbol hclose))
  | tighter _ ih => exact ih hbefore

end LineLang
