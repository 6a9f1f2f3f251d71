import LineLang.Proofs.Grammar.Derivation

/-!
# Sequences of operators and operands

Operands with any prefix operators, joined by any operators, are derived by the grammar: the
sequence is split at the last operator of its loosest level, or at its first power sign. Hence
reading it gives the tree of the grammar.

- `Operand`, `Link`             : operands with prefix operators, and operators before them
- `sequence`                    : the window of a sequence
- `exists_derives_sequence`     : the grammar derives it
- `parse_sequence`              : it is read as the one tree that the grammar derives
-/

namespace LineLang

/-- Any number of prefix operators in front of an operand without operators of its own. -/
structure Operand where
  signs : List Symbol
  atom : Window
  unary : ∀ s ∈ signs, s.unary?.isSome = true
  isAtom : Window.Atom atom

def Operand.window (u : Operand) : Window :=
  u.signs.map .symbol ++ u.atom

structure Link where
  sign : Symbol
  operand : Operand
  binary : sign.binary?.isSome = true

namespace Link

def operator (l : Link) : BinaryOperator :=
  l.sign.binary?.get l.binary

theorem binary?_sign (l : Link) : l.sign.binary? = some l.operator :=
  (Option.some_get l.binary).symm

end Link

/-- The tightest sign between operands is the one of powers. -/
theorem Symbol.eq_caret {s : Symbol} {op : BinaryOperator} (hs : s.binary? = some op)
    (h : 7 ≤ op.precedence) : s = .caret := by
  cases s <;> cases hs <;> first | rfl | exact absurd h (by decide)

def sequence (first : Operand) (rest : List Link) : Window :=
  first.window ++ rest.flatMap fun l => .symbol l.sign :: l.operand.window

theorem sequence_append (first : Operand) (front back : List Link) (l : Link) :
    sequence first (front ++ l :: back) =
      sequence first front ++ .symbol l.sign :: sequence l.operand back := by
  simp [sequence]

/-! ## Derivations -/

/-- Prefix operators bind more tightly than all others. -/
theorem exists_derives_operand (u : Operand) : ∃ T, Derives 8 u.window T := by
  rcases u with ⟨signs, atom, hunary, hatom⟩
  induction signs with
  | nil => exact ⟨_, .operand hatom⟩
  | cons s signs ih =>
      rw [List.forall_mem_cons] at hunary
      rcases Option.isSome_iff_exists.1 hunary.1 with ⟨op, hop⟩
      rcases ih hunary.2 with ⟨T, hT⟩
      exact ⟨_, .prefixed hop hT⟩

/-- A sequence of powers is split at its first sign. -/
theorem exists_derives_powers (first : Operand) {rest : List Link}
    (h : ∀ l ∈ rest, 7 ≤ l.operator.precedence) : ∃ T, Derives 7 (sequence first rest) T := by
  induction rest generalizing first with
  | nil =>
      rcases exists_derives_operand first with ⟨T, hT⟩
      refine ⟨T, .tighter ?_⟩
      simpa [sequence] using hT
  | cons l rest ih =>
      rw [List.forall_mem_cons] at h
      rcases exists_derives_operand first with ⟨T, hT⟩
      rcases ih l.operand h.2 with ⟨U, hU⟩
      have hsplit : sequence first (l :: rest) =
          first.window ++ .symbol .caret :: sequence l.operand rest := by
        rw [← Symbol.eq_caret l.binary?_sign h.1]
        simp [sequence]
      rw [hsplit]
      exact ⟨_, .power hT hU⟩

/-- Either no element of a list has a property, or there is a last one that has it. -/
theorem none_or_last {α : Type} (P : α → Prop) (xs : List α) :
    (∀ x ∈ xs, ¬ P x) ∨ ∃ front x back, xs = front ++ x :: back ∧ P x ∧ ∀ y ∈ back, ¬ P y := by
  induction xs with
  | nil => exact .inl nofun
  | cons x xs ih =>
      rcases ih with hnone | ⟨front, y, back, rfl, hy, hback⟩
      · by_cases hx : P x
        · exact .inr ⟨[], x, xs, rfl, hx, hnone⟩
        · exact .inl (List.forall_mem_cons.2 ⟨hx, hnone⟩)
      · exact .inr ⟨x :: front, y, back, rfl, hy, hback⟩

/-- A sequence is split at the last operator of a level, if tighter sequences are derived on the
next. -/
theorem exists_derives_level {n : Nat} (hn : n < 7)
    (hnext : ∀ (first : Operand) (rest : List Link), (∀ l ∈ rest, n + 1 ≤ l.operator.precedence) →
      ∃ T, Derives (n + 1) (sequence first rest) T)
    (first : Operand) (rest : List Link) (h : ∀ l ∈ rest, n ≤ l.operator.precedence) :
    ∃ T, Derives n (sequence first rest) T := by
  -- What stands before the last operator of the level is a shorter sequence of the same level.
  induction hlength : rest.length using Nat.strongRecOn generalizing rest with
  | ind size ih =>
      have htighter : ∀ l : Link, n ≤ l.operator.precedence → ¬ l.operator.precedence = n →
          n + 1 ≤ l.operator.precedence := fun l hle hne => by omega
      rcases none_or_last (fun l : Link => l.operator.precedence = n) rest with
        hnone | ⟨front, l, back, rfl, hl, hback⟩
      · rcases hnext first rest fun l hl => htighter l (h l hl) (hnone l hl) with ⟨T, hT⟩
        exact ⟨T, .tighter hT⟩
      · rw [List.forall_mem_append, List.forall_mem_cons] at h
        have hshorter : front.length < size := by
          rw [← hlength, List.length_append, List.length_cons]
          omega
        rcases ih front.length hshorter front h.1 rfl with ⟨T, hT⟩
        rcases hnext l.operand back fun k hk => htighter k (h.2.2 k hk) (hback k hk) with ⟨U, hU⟩
        subst hl
        rw [sequence_append]
        exact ⟨_, .infixed l.binary?_sign hn hT hU⟩

/-- The induction is on the level: a sequence is cut at its operators of that level, and what stands
between them is derived on the next one. -/
theorem exists_derives_from (k : Nat) (first : Operand) (rest : List Link)
    (h : ∀ l ∈ rest, 7 - k ≤ l.operator.precedence) :
    ∃ T, Derives (7 - k) (sequence first rest) T := by
  induction k generalizing first rest with
  | zero => exact exists_derives_powers first h
  | succ k ih =>
      by_cases hk : 7 ≤ k
      · have hsame : 7 - (k + 1) = 7 - k := by omega
        rw [hsame] at h ⊢
        exact ih first rest h
      · have hstep : 7 - k = 7 - (k + 1) + 1 := by omega
        rw [hstep] at ih
        exact exists_derives_level (by omega) ih first rest h

theorem exists_derives_sequence (first : Operand) (rest : List Link) :
    ∃ T, Derives 0 (sequence first rest) T :=
  exists_derives_from 7 first rest fun _ _ => Nat.zero_le _

/-! ## Reading -/

/-- A derived window is an expression, not the declaration of a function. -/
theorem Derives.parse_eq {n : Nat} {w : Window} {T : OperatorTree} (h : Derives n w T) :
    parse w = Resolution.resolveWith Resolution.fill {} (Phrase.ofWindow w) := by
  have htops := h.tops Option.any_none
  have hbalance := Window.checkBalance_iff.2 htops.balanced
  have hinstruction : Instruction.ofTokens w = .expression (Phrase.ofWindow w) := by
    unfold Instruction.ofTokens
    rw [hbalance]
    cases htops with
    | nil => rfl
    | token _ _ ha _ =>
        dsimp only
        split
        · next heq =>
            injection heq with hkeyword _
            subst hkeyword
            cases ha.statement
        · rfl
    | group _ _ => rfl
  rw [parse, parseWith, hinstruction]
  rfl

/-- The operands of a derived tree are read as they would be on their own. -/
theorem Derives.expression_eq {n : Nat} {w : Window} {T : OperatorTree} (h : Derives n w T) :
    (T.expression fun v => Resolution.resolveWith Resolution.fill {} (Phrase.ofWindow v)) =
      T.expression parse := by
  induction h with
  | operand ha => exact (Derives.operand ha).parse_eq.symm
  | prefixed _ _ ih => simp only [OperatorTree.expression, ih]
  | power _ _ ihl ihr => simp only [OperatorTree.expression, ihl, ihr]
  | infixed _ _ _ _ ihl ihr => simp only [OperatorTree.expression, ihl, ihr]
  | tighter _ ih => exact ih

/-- A sequence of operands and operators is derived by the grammar in one way, and the tree that is
derived is the one that is read: its operands are read from left to right and put together by the
operators. A sign is read as an operator between operands exactly when an operand ends just before
it. -/
theorem parse_sequence (first : Operand) (rest : List Link) : ∃ T : OperatorTree,
    Derives 0 (sequence first rest) T ∧
    (∀ T', Derives 0 (sequence first rest) T' → T' = T) ∧
    (∀ fill scope, Resolution.resolveWith fill scope (Phrase.ofWindow (sequence first rest)) =
      T.expression fun w => Resolution.resolveWith fill scope (Phrase.ofWindow w)) ∧
    parse (sequence first rest) = T.expression parse ∧
    T.uses.map Prod.fst = sequence first rest ∧ UsesFit none T.uses := by
  rcases exists_derives_sequence first rest with ⟨T, hT⟩
  refine ⟨T, hT, fun T' hT' => hT'.unique hT, fun fill scope => ?_, ?_, ?_, hT.uses_fit rfl⟩
  · rw [hT.phrase_eq]
    exact T.resolveWith_phrase fill scope
  · rw [hT.parse_eq, hT.phrase_eq, T.resolveWith_phrase]
    exact hT.expression_eq
  · rw [T.map_fst_uses, hT.window_eq]

/-! ## Operators of several levels -/

/-- What is derived on a level is derived on all looser ones. -/
theorem Derives.loosen {n k : Nat} {w : Window} {T : OperatorTree} (h : Derives n w T)
    (hk : k ≤ n) : Derives k w T := by
  induction hk with
  | refl => exact h
  | step _ ih => exact ih (.tighter h)

def wordAfter (signs : List Symbol) (spelling : String)
    (h : ∀ s ∈ signs, s.unary?.isSome = true) : Operand :=
  ⟨signs, [.word spelling], h, .word spelling⟩

/-- `sqrt(7)` -/
def callOperand : Operand where
  signs := []
  atom := .word "sqrt" :: .symbol .openParen :: ([.word "7"] ++ [.symbol .closeParen])
  unary := by decide
  isAtom := .call "sqrt" rfl

/-- `(8)` -/
def enclosedOperand : Operand where
  signs := []
  atom := .symbol .openParen :: ([.word "8"] ++ [.symbol .closeParen])
  unary := by decide
  isAtom := .parentheses rfl

/-- `-2` -/
def negatedOperand : Operand :=
  wordAfter [.minus] "2" (by decide)

/-- `^ 3 ^ !4 * 5 - 6 + sqrt(7) < (8)` -/
def mixedLinks : List Link :=
  [⟨.caret, wordAfter [] "3" (by decide), rfl⟩, ⟨.caret, wordAfter [.bang] "4" (by decide), rfl⟩,
    ⟨.star, wordAfter [] "5" (by decide), rfl⟩, ⟨.minus, wordAfter [] "6" (by decide), rfl⟩,
    ⟨.plus, callOperand, rfl⟩, ⟨.less, enclosedOperand, rfl⟩]

/-- `((((-2) ^ (3 ^ (!4))) * 5 - 6) + sqrt(7)) < (8)` -/
def mixedTree : OperatorTree :=
  .infixed .less .less
    (.infixed .plus .add
      (.infixed .minus .sub
        (.infixed .star .mul
          (.infixed .caret .pow (.prefixed .minus .minus (.operand [.word "2"]))
            (.infixed .caret .pow (.operand [.word "3"])
              (.prefixed .bang .not (.operand [.word "4"]))))
          (.operand [.word "5"]))
        (.operand [.word "6"]))
      (.operand callOperand.atom))
    (.operand enclosedOperand.atom)

/-- The tree is derived level by level, from the tightest operator to the loosest. -/
theorem derives_mixedTree : Derives 0 (sequence negatedOperand mixedLinks) mixedTree := by
  have hword (spelling : String) : Derives 8 [.word spelling] (.operand [.word spelling]) :=
    .operand (.word spelling)
  have hpowers : Derives 7 ([.symbol .minus, .word "2"] ++ .symbol .caret ::
      ([.word "3"] ++ .symbol .caret :: [.symbol .bang, .word "4"])) _ :=
    .power (.prefixed rfl (hword "2"))
      (.power (hword "3") (.tighter (.prefixed rfl (hword "4"))))
  have hproduct := Derives.infixed (s := .star) rfl (by decide) (hpowers.loosen (by decide))
    ((hword "5").loosen (by decide))
  have hdifference := Derives.infixed (s := .minus) rfl (by decide) (hproduct.loosen (by decide))
    ((hword "6").loosen (by decide))
  have hsum := Derives.infixed (s := .plus) rfl (by decide) hdifference
    ((Derives.operand callOperand.isAtom).loosen (by decide))
  have hcomparison := Derives.infixed (s := .less) rfl (by decide) (hsum.loosen (by decide))
    ((Derives.operand enclosedOperand.isAtom).loosen (by decide))
  exact hcomparison.loosen (Nat.zero_le _)

/-- Prefix operators bind most tightly, powers associate to the right, and a difference before a sum
associates to the left. -/
theorem parse_sequence_mixed :
    Derives 0 (sequence negatedOperand mixedLinks) mixedTree ∧
      parse (sequence negatedOperand mixedLinks) = mixedTree.expression parse := by
  obtain ⟨T, -, hunique, -, hparse, -⟩ := parse_sequence negatedOperand mixedLinks
  obtain rfl := hunique mixedTree derives_mixedTree
  exact ⟨derives_mixedTree, hparse⟩

end LineLang
