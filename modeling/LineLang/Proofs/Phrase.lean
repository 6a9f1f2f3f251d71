import LineLang.Phrase.Unfold

/-!
# What reading rejects

A phrase keeps the faults of malformed parts until a reader comes to them. All of them are faults of
the text; none was found by computing kinds or values. A parenthesis without a partner is reported
at three places only: where the parentheses of all tokens are checked, after `if`, and in front of
parameters.

- `Rejection.Syntactic`             : a fault of the text alone
- `Rejection.Plain`                 : a fault of the text other than a parenthesis without a partner
- `Phrase.RejectsOnly`              : all faults that a phrase keeps are of some sort
- `Phrase.called`                   : the functions that a phrase calls
- `Instruction.rejectsOnly_ofTokens_of`   : the sorts of faults that what is read from tokens keeps
- `Instruction.rejectsOnly_ofTokens`  : it only keeps faults of the text
-/

namespace LineLang

/-- A fault that was found without computing kinds or values. -/
def Rejection.Syntactic (r : Rejection) : Prop :=
  ∀ fault, r ≠ .static fault

def Rejection.isStatic : Rejection → Bool
  | .static _ => true
  | _ => false

theorem Rejection.syntactic_of {r : Rejection} (h : r.isStatic = false) : r.Syntactic := by
  rintro fault rfl
  cases h

/-- Whether a fault of the text concerns words and parts, not the partner of a parenthesis. -/
def Rejection.isPlain : Rejection → Bool
  | .static _ | .unmatchedParenthesis _ => false
  | _ => true

/-- A fault of the text that is not a parenthesis without a partner. -/
def Rejection.Plain (r : Rejection) : Prop :=
  r.isPlain = true

theorem Rejection.Plain.syntactic {r : Rejection} (h : r.Plain) : r.Syntactic := by
  rintro fault rfl
  cases h

/-- Every fault kept in the phrase satisfies `R`. -/
inductive Phrase.RejectsOnly (R : Rejection → Prop) : Phrase → Prop
  | malformed {r : Rejection} : R r → RejectsOnly R (.malformed r)
  | literal (value : Value) : RejectsOnly R (.literal value)
  | name (word : String) : RejectsOnly R (.name word)
  | prefixed {op : UnaryOperator} {p : Phrase} : RejectsOnly R p → RejectsOnly R (.prefixed op p)
  | infixed {op : BinaryOperator} {l r : Phrase} :
      RejectsOnly R l → RejectsOnly R r → RejectsOnly R (.infixed op l r)
  | assignment {targets : List Target} {value : Phrase} :
      (∀ r, .malformed r ∈ targets → R r) → RejectsOnly R value →
      RejectsOnly R (.assignment targets value)
  | call {function : String} {arguments : List Phrase} :
      (∀ a ∈ arguments, RejectsOnly R a) → RejectsOnly R (.call function arguments)
  | conditional {c t e : Phrase} : RejectsOnly R c → RejectsOnly R t → RejectsOnly R e →
      RejectsOnly R (.conditional c t e)
  | letIn {clauses : List (Clause Phrase)} {body : Phrase} :
      (∀ r, .malformed r ∈ clauses → R r) →
      (∀ declared name initializer, .binding declared name initializer ∈ clauses →
        RejectsOnly R initializer) →
      RejectsOnly R body → RejectsOnly R (.letIn clauses body)

/-! ## Calls -/

mutual

def Phrase.called : Phrase → List String
  | .malformed _ | .literal _ | .name _ => []
  | .prefixed _ operand => operand.called
  | .infixed _ left right => left.called ++ right.called
  | .assignment _ value => value.called
  | .call function arguments => function :: calledInAll arguments
  | .conditional condition consequent alternative =>
      condition.called ++ consequent.called ++ alternative.called
  | .letIn clauses body => calledInClauses clauses ++ body.called

def Phrase.calledInAll : List Phrase → List String
  | [] => []
  | p :: ps => p.called ++ calledInAll ps

def Phrase.calledInClauses : List (Clause Phrase) → List String
  | [] => []
  | .malformed _ :: clauses => calledInClauses clauses
  | .binding _ _ initializer :: clauses => initializer.called ++ calledInClauses clauses

end

/-- What is called in one of some phrases is called in them. -/
theorem Phrase.mem_calledInAll {name : String} {p : Phrase} {ps : List Phrase} (hp : p ∈ ps)
    (h : name ∈ p.called) : name ∈ calledInAll ps := by
  induction ps with
  | nil => cases hp
  | cons q ps ih =>
      rw [calledInAll]
      rcases List.mem_cons.1 hp with rfl | hp
      · exact List.mem_append_left _ h
      · exact List.mem_append_right _ (ih hp)

/-- What is called in an initializer is called in the bindings. -/
theorem Phrase.mem_calledInClauses {name x : String} {declared : Option Kind} {i : Phrase}
    {clauses : List (Clause Phrase)} (hi : .binding declared x i ∈ clauses) (h : name ∈ i.called) :
    name ∈ calledInClauses clauses := by
  induction clauses with
  | nil => cases hi
  | cons c cs ih =>
      rcases List.mem_cons.1 hi with rfl | htail
      · exact List.mem_append_left _ h
      · cases c with
        | malformed r => exact ih htail
        | binding declared y j => exact List.mem_append_right _ (ih htail)

namespace Layout

variable {R : Rejection → Prop}

def RejectsOnly (R : Rejection → Prop) : Layout → Prop
  | .malformed r => R r
  | .assignment targets _ => ∀ r, .malformed r ∈ targets → R r
  | .letIn clauses _ => ∀ r, .malformed r ∈ clauses → R r
  | _ => True

theorem RejectsOnly.mono {Q : Rejection → Prop} {l : Layout} (h : l.RejectsOnly R)
    (hRQ : ∀ r, R r → Q r) : l.RejectsOnly Q := by
  cases l with
  | malformed r => exact hRQ r h
  | assignment targets w => exact fun r hr => hRQ r (h r hr)
  | letIn clauses body => exact fun r hr => hRQ r (h r hr)
  | _ => trivial

/-- The faults of a phrase are those of the layout and of the phrases of its windows. -/
theorem rejectsOnly_build {part : Window → Phrase} {l : Layout} (hl : l.RejectsOnly R)
    (hpart : ∀ w ∈ l.windows, (part w).RejectsOnly R) : (l.build part).RejectsOnly R := by
  cases l with
  | malformed r => exact .malformed hl
  | literal value => exact .literal value
  | name word => exact .name word
  | prefixed op w => exact .prefixed (hpart w (by simp [windows]))
  | infixed op l r => exact .infixed (hpart l (by simp [windows])) (hpart r (by simp [windows]))
  | parenthesized w => exact hpart w (by simp [windows])
  | assignment targets w => exact .assignment hl (hpart w (by simp [windows]))
  | call function arguments =>
      refine .call fun a ha => ?_
      rcases List.mem_map.1 ha with ⟨w, hw, rfl⟩
      exact hpart w hw
  | conditional c t e =>
      exact .conditional (hpart c (by simp [windows])) (hpart t (by simp [windows]))
        (hpart e (by simp [windows]))
  | letIn clauses body =>
      refine .letIn (fun r hr => ?_) (fun declared name i hi => ?_) (hpart body (by simp [windows]))
      · rcases List.mem_map.1 hr with ⟨c, hc, h⟩
        cases c with
        | binding declared name i => cases h
        | malformed r' =>
            cases h
            exact hl r hc
      · rcases List.mem_map.1 hi with ⟨c, hc, h⟩
        cases c with
        | binding declared name w =>
            cases h
            exact hpart w (List.mem_append_left _ (List.mem_filterMap.2 ⟨_, hc, rfl⟩))
        | malformed r => cases h

/-! ## Forms -/

/-- A word that may not be declared is a fault of that word. -/
theorem plain_checkDeclared {word : String} {r : Rejection} (h : checkDeclared word = .error r) :
    r.Plain := by
  unfold checkDeclared checkIdentifier at h
  split at h
  · simp only [bind, Except.bind] at h
    split at h <;> cases h
    rfl
  · cases h
    rfl

/-- A list can only lack one of its items. -/
theorem plain_items {form : Form} {w : Window} {r : Rejection}
    (h : Window.items form w = .error r) : r.Plain := by
  unfold Window.items at h
  split at h
  · cases h
  · dsimp only at h
    split at h <;> cases h
    rfl

theorem rejectsOnly_missing {part : Part} {form : Form} :
    (missing part form).RejectsOnly Rejection.Plain :=
  rfl

/-- A binding lacks a part or has a name that may not be declared. -/
theorem plain_clause {w : Window} {r : Rejection} (h : clause w = .malformed r) : r.Plain := by
  unfold clause at h
  dsimp only at h
  split at h
  · split at h
    · cases h
      exact plain_checkDeclared (by assumption)
    all_goals cases h
    all_goals rfl
  · cases h
    rfl

theorem rejectsOnly_letForm (w : Window) : (letForm w).RejectsOnly Rejection.Plain := by
  unfold letForm
  split
  iterate 3 exact rejectsOnly_missing
  split
  · next h => exact plain_items h
  · intro r hr
    rcases List.mem_map.1 hr with ⟨c, -, hc⟩
    exact plain_clause hc

theorem rejectsOnly_branches (condition w : Window) :
    (branches condition w).RejectsOnly Rejection.Plain := by
  unfold branches
  split
  iterate 3 exact rejectsOnly_missing
  exact trivial

/-- After `if`, a parenthesis that is never closed is a fault besides. -/
theorem rejectsOnly_ifForm {w : Window} (hR : ∀ r : Rejection, r.Plain → R r)
    (hopen : ∀ ts, w = .symbol .openParen :: ts →
      Window.enclosed? .openParen .closeParen 0 ts = none → R (.unmatchedParenthesis .closing)) :
    (ifForm w).RejectsOnly R := by
  unfold ifForm
  split
  · split
    · next h => exact hopen _ rfl h
    · exact rejectsOnly_missing.mono hR
    · exact (rejectsOnly_branches _ _).mono hR
  · exact rejectsOnly_missing.mono hR

/-- A parenthesis may be found without its partner only where one follows `if`. -/
theorem rejectsOnly_statement? {w : Window} {l : Layout} (hR : ∀ r : Rejection, r.Plain → R r)
    (hopen : ∀ ts, w = .keyword .ifWord :: .symbol .openParen :: ts →
      Window.enclosed? .openParen .closeParen 0 ts = none → R (.unmatchedParenthesis .closing))
    (h : statement? w = some l) : l.RejectsOnly R := by
  unfold statement? at h
  split at h <;> cases h
  · exact (rejectsOnly_letForm _).mono hR
  · refine rejectsOnly_ifForm hR fun ts hts => hopen ts ?_
    rw [hts]
  · exact hR _ rfl
  · exact hR _ rfl

/-- An assignment may lack targets or a value, or a target may be no name. -/
theorem rejectsOnly_assignment? {head tail : Window} {l : Layout}
    (h : assignment? head tail = some l) : l.RejectsOnly Rejection.Plain := by
  obtain ⟨c, -, rfl⟩ := Option.map_eq_some_iff.1 h
  split
  iterate 2 exact rejectsOnly_missing
  split
  · next h => exact plain_items h
  · intro r hr
    rcases List.mem_map.1 hr with ⟨w, -, hw⟩
    unfold target at hw
    split at hw
    · split at hw <;> cases hw
      rfl
    · cases hw
      rfl

theorem rejectsOnly_infixedAt (op : BinaryOperator) (left right : Window) :
    (infixedAt op left right).RejectsOnly Rejection.Plain := by
  unfold infixedAt
  split
  iterate 2 exact rejectsOnly_missing
  exact trivial

theorem rejectsOnly_infixed? {head tail : Window} {l : Layout}
    (h : infixed? head tail = some l) : l.RejectsOnly Rejection.Plain := by
  obtain ⟨level, -, h⟩ := List.exists_of_findSome?_eq_some h
  obtain ⟨c, -, h⟩ := Option.bind_eq_some_iff.1 h
  obtain ⟨op, -, rfl⟩ := Option.map_eq_some_iff.1 h
  exact rejectsOnly_infixedAt op _ _

theorem rejectsOnly_power? {head tail : Window} {l : Layout}
    (h : power? head tail = some l) : l.RejectsOnly Rejection.Plain := by
  obtain ⟨c, -, rfl⟩ := Option.map_eq_some_iff.1 h
  exact rejectsOnly_infixedAt .pow _ _

theorem rejectsOnly_prefixed? {w : Window} {l : Layout} (h : prefixed? w = some l) :
    l.RejectsOnly Rejection.Plain := by
  unfold prefixed? at h
  split at h
  · split at h <;> cases h
    · exact rejectsOnly_missing
    · exact trivial
  · obtain ⟨op, -, rfl⟩ := Option.map_eq_some_iff.1 h
    split
    · exact rejectsOnly_missing
    · exact trivial
  · cases h

theorem rejectsOnly_ofWord (word : String) : (ofWord word).RejectsOnly Rejection.Plain := by
  unfold ofWord
  split
  · split
    · exact trivial
    · rfl
  · split
    · exact trivial
    · split
      · exact trivial
      · rfl

/-- A word may be no name, and a list of arguments may lack one. -/
theorem rejectsOnly_primary? {w : Window} {l : Layout} (h : primary? w = some l) :
    l.RejectsOnly Rejection.Plain := by
  unfold primary? at h
  split at h
  · cases h
    exact trivial
  · cases h
    exact trivial
  · cases h
    exact rejectsOnly_ofWord _
  · split at h
    · split at h
      · next hi =>
          cases h
          exact plain_items hi
      · cases h
        exact trivial
    · cases h
  · cases h

/-- The faults of a form are plain, but for a parenthesis after `if` that is never closed. -/
theorem rejectsOnly_ofWindow {w : Window} (hR : ∀ r : Rejection, r.Plain → R r)
    (hopen : ∀ ts, w = .keyword .ifWord :: .symbol .openParen :: ts →
      Window.enclosed? .openParen .closeParen 0 ts = none → R (.unmatchedParenthesis .closing)) :
    (ofWindow w).RejectsOnly R := by
  apply ofWindow_of
  · exact fun _ h => rejectsOnly_statement? hR hopen h
  · exact fun _ h => (rejectsOnly_assignment? h).mono hR
  · exact fun _ h => (rejectsOnly_infixed? h).mono hR
  · exact fun _ h => (rejectsOnly_power? h).mono hR
  · exact fun _ h => (rejectsOnly_prefixed? h).mono hR
  · exact fun _ h => (rejectsOnly_primary? h).mono hR
  · exact hR _ rfl

end Layout

section

variable {R : Rejection → Prop}

/-- If the parts of a window of a sort are of that sort, and its form keeps only some faults, then
so does its phrase. -/
theorem Phrase.rejectsOnly_ofWindow_of {Q : Window → Prop}
    (hparts : ∀ w, Q w → ∀ v ∈ (Layout.ofWindow w).windows, Q v)
    (hform : ∀ w, Q w → (Layout.ofWindow w).RejectsOnly R) {w : Window} (hw : Q w) :
    (ofWindow w).RejectsOnly R := by
  induction hn : w.length using Nat.strongRecOn generalizing w with
  | ind n ih =>
      subst hn
      rw [ofWindow_eq]
      refine Layout.rejectsOnly_build (hform w hw) fun v hv => ?_
      exact ih v.length (Layout.length_lt_of_mem_windows hv) (hparts w hw v hv) rfl

theorem Phrase.rejectsOnly_ofWindow (w : Window) :
    (ofWindow w).RejectsOnly Rejection.Syntactic := by
  refine rejectsOnly_ofWindow_of (Q := fun _ => True) (fun _ _ _ _ => trivial)
    (fun w _ => ?_) trivial
  exact Layout.rejectsOnly_ofWindow (fun _ h => h.syntactic) fun _ _ _ => Rejection.syntactic_of rfl

/-! ## Instructions -/

namespace Instruction

def RejectsOnly (R : Rejection → Prop) : Instruction → Prop
  | .rejected r => R r
  | .expression phrase => phrase.RejectsOnly R
  | .declaration _ (.error r) => R r
  | .declaration _ (.ok (_, body)) => body.RejectsOnly R

/-- Unmatched parentheses are found without computing kinds. -/
theorem syntactic_checkBalance {w : Window} {r : Rejection} (h : Window.checkBalance w = .error r) :
    r.Syntactic := by
  have hfrom : ∀ depth, Window.checkBalanceFrom depth w = .error r → r.Syntactic := by
    clear h
    intro depth
    fun_induction Window.checkBalanceFrom depth w with
    | case1 => exact nofun
    | case2 | case4 =>
        rintro ⟨⟩
        exact Rejection.syntactic_of rfl
    | case3 _ _ ih | case5 _ _ ih | case6 _ _ _ _ _ ih => exact ih
  exact hfrom 0 h

theorem plain_parameter {w : Window} {r : Rejection} (h : parameter w = .error r) : r.Plain := by
  unfold parameter at h
  split at h
  · next name =>
      cases hc : checkDeclared name with
      | error r' =>
          rw [hc] at h
          cases h
          exact Layout.plain_checkDeclared hc
      | ok u =>
          rw [hc] at h
          cases h
  · cases h
    rfl

/-- The first parameter that is refused is reported. -/
theorem plain_parameters {ws : List Window} {r : Rejection} (h : ws.mapM parameter = .error r) :
    r.Plain := by
  induction ws with
  | nil => cases h
  | cons w ws ih =>
      rw [List.mapM_cons] at h
      cases hw : parameter w with
      | error r' =>
          rw [hw] at h
          cases h
          exact plain_parameter hw
      | ok name =>
          cases hws : ws.mapM parameter with
          | error r' =>
              rw [hw, hws] at h
              cases h
              exact ih hws
          | ok names =>
              rw [hw, hws] at h
              cases h

/-- The faults of a definition are plain, but for a parenthesis in front that is never closed and
the faults of the body. -/
theorem rejectsOnly_definition {w : Window} (hR : ∀ r : Rejection, r.Plain → R r) (name : String)
    (hopen : ∀ ts, w = .symbol .openParen :: ts →
      Window.enclosed? .openParen .closeParen 0 ts = none → R (.unmatchedParenthesis .closing))
    (hbody : ∀ ts inside body, w = .symbol .openParen :: ts →
      Window.enclosed? .openParen .closeParen 0 ts = some (inside, .symbol .arrow :: body) →
      (Phrase.ofWindow body).RejectsOnly R) :
    (Instruction.declaration name (definition w)).RejectsOnly R := by
  unfold definition
  split
  · split
    · next h => exact hopen _ rfl h
    · next inside rest h =>
        cases hi : Window.items .functionDeclaration inside with
        | error r => exact hR _ (Layout.plain_items hi)
        | ok ws =>
            cases hp : ws.mapM parameter with
            | error r =>
                simp only [bind, Except.bind, hp]
                exact hR _ (plain_parameters hp)
            | ok parameters =>
                simp only [bind, Except.bind, hp]
                split
                · exact hR _ rfl
                · exact hbody _ _ _ rfl h
                · exact hR _ rfl
  · exact hR _ rfl

/-- The faults of an instruction are plain, but for parentheses without a partner and the faults of
its phrase. -/
theorem rejectsOnly_ofTokens_of {ts : List Token} (hR : ∀ r : Rejection, r.Plain → R r)
    (hbalance : ∀ r, Window.checkBalance ts = .error r → R r)
    (hopen : ∀ name us, ts = .keyword .functionWord :: .word name :: .symbol .openParen :: us →
      Window.checkBalance ts = .ok () → Window.enclosed? .openParen .closeParen 0 us = none →
      R (.unmatchedParenthesis .closing))
    (hbody : ∀ name us inside body, ts = .keyword .functionWord :: .word name :: .symbol
      .openParen :: us → Window.checkBalance ts = .ok () →
      Window.enclosed? .openParen .closeParen 0 us = some (inside, .symbol .arrow :: body) →
      (Phrase.ofWindow body).RejectsOnly R)
    (hphrase : Window.checkBalance ts = .ok () → (Phrase.ofWindow ts).RejectsOnly R) :
    (ofTokens ts).RejectsOnly R := by
  unfold ofTokens
  split
  · next h => exact hbalance _ h
  · next h =>
      split
      · unfold declarationOf
        split
        · next name ts =>
            split
            · next hname => exact hR _ (Layout.plain_checkDeclared hname)
            · apply rejectsOnly_definition hR
              · intro us hus
                exact hopen name us (by rw [hus]) h
              · intro us inside body hus
                exact hbody name us inside body (by rw [hus]) h
        · exact hR _ rfl
      · exact hphrase h

/-- What is read from tokens only keeps faults of the text. -/
theorem rejectsOnly_ofTokens (ts : List Token) : (ofTokens ts).RejectsOnly Rejection.Syntactic := by
  apply rejectsOnly_ofTokens_of
  · exact fun _ h => h.syntactic
  · exact fun _ h => syntactic_checkBalance h
  · exact fun _ _ _ _ _ => Rejection.syntactic_of rfl
  · exact fun _ _ _ _ _ _ _ => Phrase.rejectsOnly_ofWindow _
  · exact fun _ => Phrase.rejectsOnly_ofWindow ts

end Instruction

end

end LineLang
