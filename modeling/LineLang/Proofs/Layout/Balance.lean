import LineLang.Proofs.Layout
import LineLang.Proofs.Resolution.Faults
import LineLang.Proofs.Window.Scanning

/-!
# Parts of windows whose parentheses match

A window is cut at tokens outside parentheses, or at two parentheses that are partners. So the
parentheses of each part match again if those of the window do, and no form ever lacks the partner
of a parenthesis.

- `Window.Balanced.of_items`, `Window.Balanced.of_matching?`    : windows cut at commas and keywords
- `Layout.PartsBalanced`            : the parentheses of every part match
- `Layout.balanced_of_mem_windows`  : so they do for the form of a window
- `Instruction.Reads`               : the windows that are read when tokens are
- `Instruction.Reads.balanced`      : the parentheses of all of them match
- `Instruction.rejectsOnly_ofTokens_balanced` : no fault concerns a parenthesis if those of the
  tokens match
- `parse_balanced`                  : tokens whose parentheses match are searched soundly at every
  depth
-/

namespace LineLang

/-! ## Cuts -/

namespace Window

variable {w v u : Window} {t : Token}

theorem Balanced.of_cons (h : Balanced (t :: w)) (ho : t ≠ .symbol .openParen) : Balanced w := by
  cases h with
  | token _ _ hw => exact hw
  | group => exact absurd rfl ho

/-- A parenthesis in front has its partner, and it cuts the window. -/
theorem Balanced.enclosed?_open (h : Balanced (.symbol .openParen :: w)) :
    ∃ inside rest, Window.enclosed? .openParen .closeParen 0 w = some (inside, rest) ∧
      Balanced inside ∧ Balanced rest := by
  cases h with
  | token ho => exact absurd rfl ho
  | @group inside rest hinside hrest =>
      exact ⟨inside, rest, hinside.enclosed?_group rest, hinside, hrest⟩

theorem Balanced.of_enclosed? (h : Balanced (.symbol .openParen :: w)) {inside rest : Window}
    (he : Window.enclosed? .openParen .closeParen 0 w = some (inside, rest)) :
    Balanced inside ∧ Balanced rest := by
  obtain ⟨inside', rest', he', hinside, hrest⟩ := h.enclosed?_open
  cases he.symm.trans he'
  exact ⟨hinside, hrest⟩

/-- A window cut at a token outside parentheses. -/
structure Cut.Clean (c : Cut) : Prop where
  before : Balanced c.before
  ne_open : c.token ≠ .symbol .openParen
  ne_close : c.token ≠ .symbol .closeParen
  after : Balanced c.after

theorem Cut.clean_of_mem_tops {p : Token → Option Token → Bool} {c : Cut} (hw : Balanced c.window)
    (h : c.before.length ∈ tops p c.window) : c.Clean := by
  obtain ⟨hout, -⟩ := mem_tops_cut.1 h
  obtain ⟨hbefore, hafter⟩ := hw.parts (outside_cut.2 hout)
  exact ⟨hbefore, hout.2.1, hout.2.2, hafter⟩

theorem Balanced.of_firstTop? (hw : Balanced w) {p : Token → Bool} {c : Cut}
    (h : firstTop? p w = some c) : c.Clean := by
  obtain ⟨rfl, hleast⟩ := ((firstTop?_exact hw p).1 c).1 h
  exact Cut.clean_of_mem_tops hw hleast.1

theorem Balanced.of_lastTop? (hw : Balanced w) {p : Token → Option Token → Bool} {c : Cut}
    (h : lastTop? p w = some c) : c.Clean := by
  obtain ⟨rfl, hgreatest⟩ := ((lastTop?_exact hw p).1 c).1 h
  exact Cut.clean_of_mem_tops hw hgreatest.1

/-- A keyword that ends what another one began cuts the window outside parentheses. -/
theorem Balanced.of_matching? {opener closer : Keyword} {depth : Nat} {before after : Window}
    (hw : Balanced w) (h : Window.matching? opener closer depth w = some (before, after)) :
    Balanced before ∧ Balanced after := by
  fun_induction Window.matching? opener closer depth w generalizing before after with
  | case1 => simp at h
  | case2 w depth c hc hlt ht ih | case4 w c hc hlt ht depth ih =>
      -- The keyword belongs to another pair, and the search goes on behind it.
      obtain ⟨⟨b, a⟩, hr, hs⟩ := Option.map_eq_some_iff.1 h
      cases hs
      have hclean := hw.of_firstTop? hc
      obtain ⟨hb, ha⟩ := ih hclean.after hr
      exact ⟨hclean.before.append (.token hclean.ne_open hclean.ne_close hb), ha⟩
  | case3 w c hc hlt ht =>
      cases h
      have hclean := hw.of_firstTop? hc
      exact ⟨hclean.before, hclean.after⟩

/-- A window is cut outside parentheses, so that neither side has one without its partner. -/
theorem Balanced.beforeStatement (hw : Balanced w) :
    Balanced (Window.beforeStatement w).1 ∧ Balanced (Window.beforeStatement w).2 := by
  unfold Window.beforeStatement
  split
  · exact ⟨hw, .nil⟩
  · next c hc =>
      have hclean := hw.of_firstTop? hc
      exact ⟨hclean.before, .token hclean.ne_open hclean.ne_close hclean.after⟩

/-- Items are cut where no parenthesis is open, so the first one closes what was open and those of
the others match. -/
theorem checkBalanceFrom_itemsFrom {depth : Nat} (h : checkBalanceFrom depth w = .ok ())
    (lets : Nat) :
    checkBalanceFrom depth (itemsFrom depth lets w).1 = .ok () ∧
      ∀ item ∈ (itemsFrom depth lets w).2, checkBalanceFrom 0 item = .ok () := by
  fun_induction itemsFrom depth lets w with
  | case1 => exact ⟨h, by simp⟩
  | case2 ts item rest heq ih =>
      -- A comma outside parentheses: the item under way is empty, and the next one begins with
      -- nothing open.
      have hts : checkBalanceFrom 0 ts = .ok () := h
      rw [heq] at ih
      obtain ⟨hitem, hrest⟩ := ih hts
      exact ⟨rfl, List.forall_mem_cons.2 ⟨hitem, hrest⟩⟩
  | case3 ts lets item rest heq ih | case4 ts lets item rest heq ih =>
      have hts : checkBalanceFrom 0 ts = .ok () := h
      rw [heq] at ih
      exact ih hts
  | case5 depth lets t ts hcomma hlet hin item rest heq ih =>
      -- Any other token goes to the item under way, and opens or closes there what it does in the
      -- window.
      have hopen := open_of_checkBalanceFrom h
      rw [checkBalanceFrom_cons hopen] at h
      rw [heq] at ih
      rw [checkBalanceFrom_cons hopen]
      exact ih h

/-- Only commas outside parentheses separate items. -/
theorem Balanced.of_items {form : Form} {list : List Window} (hw : Balanced w)
    (h : items form w = .ok list) : ∀ item ∈ list, Balanced item := by
  have hcheck := checkBalance_iff.2 hw
  obtain ⟨hfirst, hrest⟩ := checkBalanceFrom_itemsFrom hcheck 0
  unfold items at h
  split at h
  · cases h
    simp
  · dsimp only at h
    split at h
    · cases h
    · cases h
      intro item hitem
      apply checkBalance_iff.1
      obtain rfl | hitem := List.mem_cons.1 hitem
      · exact hfirst
      · exact hrest item hitem

end Window

/-! ## Forms -/

namespace Layout

open Window

def PartsBalanced (l : Layout) : Prop :=
  ∀ v ∈ l.windows, Balanced v

variable {w head tail : Window} {l : Layout}

theorem partsBalanced_malformed {r : Rejection} : PartsBalanced (.malformed r) := by
  simp [PartsBalanced, windows]

theorem partsBalanced_missing {part : Part} {form : Form} : PartsBalanced (missing part form) :=
  partsBalanced_malformed

/-- What stands in front of an initializer has no parentheses. -/
theorem balanced_initializer (hw : Balanced w) {i : Window} (h : (clause w).initializer? = some i) :
    Balanced i := by
  cases hc : clause w with
  | malformed r =>
      rw [hc] at h
      cases h
  | binding declared name initializer =>
      rw [hc] at h
      cases h
      -- The heading in front of the initializer has no parenthesis.
      obtain ⟨-, rfl⟩ := clause_binding hc
      cases declared with
      | none => exact (hw.of_cons (by simp)).of_cons (by simp)
      | some kind => exact ((hw.of_cons (by simp)).of_cons (by simp)).of_cons (by simp)

/-- The bindings are cut at commas, and the body follows a keyword outside parentheses. -/
theorem partsBalanced_letForm (hw : Balanced w) : PartsBalanced (letForm w) := by
  unfold letForm
  split
  iterate 3 exact partsBalanced_missing
  next declarations body _ _ hm =>
    obtain ⟨hdeclarations, hbody⟩ := hw.of_matching? hm
    split
    · exact partsBalanced_malformed
    · next clauses hi =>
        -- Initializers are parts of the items before `in`; the body is all that comes after it.
        intro v hv
        simp only [windows, List.mem_append, List.mem_filterMap, List.mem_map, List.mem_singleton]
          at hv
        rcases hv with ⟨_, ⟨c, hc, rfl⟩, hv⟩ | rfl
        · exact balanced_initializer (hdeclarations.of_items hi c hc) hv
        · exact hbody

theorem partsBalanced_branches {condition : Window} (hc : Balanced condition) (hw : Balanced w) :
    PartsBalanced (branches condition w) := by
  unfold branches
  split
  iterate 3 exact partsBalanced_missing
  next consequent alternative _ _ hm =>
    obtain ⟨ht, he⟩ := hw.of_matching? hm
    simpa [PartsBalanced, windows] using ⟨hc, ht, he⟩

/-- The condition stands between two partners. -/
theorem partsBalanced_ifForm (hw : Balanced w) : PartsBalanced (ifForm w) := by
  unfold ifForm
  split
  · split
    · exact partsBalanced_malformed
    · exact partsBalanced_missing
    · next condition rest _ he =>
        obtain ⟨hcondition, hrest⟩ := hw.of_enclosed? he
        exact partsBalanced_branches hcondition hrest
  · exact partsBalanced_missing

theorem partsBalanced_statement? (hw : Balanced w) (h : statement? w = some l) :
    PartsBalanced l := by
  unfold statement? at h
  split at h <;> cases h
  · exact partsBalanced_letForm (hw.of_cons (by simp))
  · exact partsBalanced_ifForm (hw.of_cons (by simp))
  · exact partsBalanced_malformed
  · exact partsBalanced_malformed

/-- The sign is searched for outside parentheses. -/
theorem partsBalanced_assignment? (hhead : Balanced head) (htail : Balanced tail)
    (h : assignment? head tail = some l) : PartsBalanced l := by
  obtain ⟨c, hc, rfl⟩ := Option.map_eq_some_iff.1 h
  have hvalue := (hhead.of_firstTop? hc).after.append htail
  split
  · exact partsBalanced_missing
  · exact partsBalanced_missing
  · split
    · exact partsBalanced_malformed
    · simpa [PartsBalanced, windows] using hvalue

theorem partsBalanced_infixedAt (op : BinaryOperator) {left right : Window} (hl : Balanced left)
    (hr : Balanced right) : PartsBalanced (infixedAt op left right) := by
  unfold infixedAt
  split
  · exact partsBalanced_missing
  · exact partsBalanced_missing
  · simpa [PartsBalanced, windows] using ⟨hl, hr⟩

/-- So is every operator. -/
theorem partsBalanced_infixed? (hhead : Balanced head) (htail : Balanced tail)
    (h : infixed? head tail = some l) : PartsBalanced l := by
  obtain ⟨level, -, h⟩ := List.exists_of_findSome?_eq_some h
  obtain ⟨c, hc, h⟩ := Option.bind_eq_some_iff.1 h
  obtain ⟨op, -, rfl⟩ := Option.map_eq_some_iff.1 h
  have hclean := hhead.of_lastTop? hc
  exact partsBalanced_infixedAt op hclean.before (hclean.after.append htail)

theorem partsBalanced_power? (hhead : Balanced head) (htail : Balanced tail)
    (h : power? head tail = some l) : PartsBalanced l := by
  obtain ⟨c, hc, rfl⟩ := Option.map_eq_some_iff.1 h
  have hclean := hhead.of_firstTop? hc
  exact partsBalanced_infixedAt .pow hclean.before (hclean.after.append htail)

/-- If parentheses are taken away, the two are partners. -/
theorem partsBalanced_prefixed? (hw : Balanced w) (h : prefixed? w = some l) : PartsBalanced l := by
  unfold prefixed? at h
  split at h
  · split at h
    · cases h
      exact partsBalanced_missing
    · next inside _ he =>
        cases h
        simpa [PartsBalanced, windows] using (hw.of_enclosed? he).1
    · cases h
  · next sign ts hopen =>
      obtain ⟨op, -, rfl⟩ := Option.map_eq_some_iff.1 h
      -- The sign is not a parenthesis, since those were tried before.
      have hts : Balanced ts := hw.of_cons (by simpa using hopen)
      split
      · exact partsBalanced_missing
      · simpa [PartsBalanced, windows] using hts
  · cases h

theorem partsBalanced_ofWord (word : String) : PartsBalanced (ofWord word) := by
  unfold ofWord
  split
  · split
    · simp [PartsBalanced, windows]
    · exact partsBalanced_malformed
  · split
    · simp [PartsBalanced, windows]
    · split
      · simp [PartsBalanced, windows]
      · exact partsBalanced_malformed

/-- The arguments of a call stand between two partners. -/
theorem partsBalanced_primary? (hw : Balanced w) (h : primary? w = some l) : PartsBalanced l := by
  unfold primary? at h
  split at h
  · cases h
    simp [PartsBalanced, windows]
  · cases h
    simp [PartsBalanced, windows]
  · cases h
    exact partsBalanced_ofWord _
  · split at h
    · next inside he =>
        have hinside := ((hw.of_cons (by simp)).of_enclosed? he).1
        split at h
        · cases h
          exact partsBalanced_malformed
        · next arguments hi =>
            cases h
            exact hinside.of_items hi
    · cases h
  · cases h

/-- The parentheses of each part of a form match if those of its window do. -/
theorem balanced_of_mem_windows (hw : Balanced w) {v : Window} (h : v ∈ (ofWindow w).windows) :
    Balanced v := by
  obtain ⟨hhead, htail⟩ := hw.beforeStatement
  have hparts : PartsBalanced (ofWindow w) :=
    ofWindow_of (fun _ hl => partsBalanced_statement? hw hl)
      (fun _ hl => partsBalanced_assignment? hhead htail hl)
      (fun _ hl => partsBalanced_infixed? hhead htail hl)
      (fun _ hl => partsBalanced_power? hhead htail hl) (fun _ hl => partsBalanced_prefixed? hw hl)
      (fun _ hl => partsBalanced_primary? hw hl) partsBalanced_malformed
  exact hparts v h

/-- In a window whose parentheses match, the form has no fault but a plain one. -/
theorem rejectsOnly_ofWindow_balanced {R : Rejection → Prop} (hR : ∀ r : Rejection, r.Plain → R r)
    (hw : Balanced w) : (ofWindow w).RejectsOnly R := by
  refine rejectsOnly_ofWindow hR ?_
  -- The parenthesis after `if` has a partner in the window.
  rintro ts rfl hnone
  obtain ⟨inside, rest, hsome, -⟩ := (hw.of_cons (by simp)).enclosed?_open
  rw [hnone] at hsome
  cases hsome

end Layout

/-! ## Instructions -/

namespace Instruction

open Window

variable {ts : List Token}

/-- The windows that are read when the tokens of an instruction are: the expression or the body of
the function, and the parts of each window that is read. -/
inductive Reads (ts : List Token) : Window → Prop
  | expression : ts.head? ≠ some (.keyword .functionWord) → Reads ts ts
  | body {name : String} {us inside body : Window} :
      ts = .keyword .functionWord :: .word name :: .symbol .openParen :: us →
      Window.enclosed? .openParen .closeParen 0 us = some (inside, .symbol .arrow :: body) →
      Reads ts body
  | part {w v : Window} : Reads ts w → v ∈ (Layout.ofWindow w).windows → Reads ts v

/-- The parameters and the rest of a declaration whose parentheses match. -/
theorem balanced_declaration {name : String} {us : Window}
    (h : Balanced (.keyword .functionWord :: .word name :: .symbol .openParen :: us)) :
    Balanced (.symbol .openParen :: us) :=
  (h.of_cons (by simp)).of_cons (by simp)

theorem balanced_body {name : String} {us inside body : Window}
    (h : Balanced (.keyword .functionWord :: .word name :: .symbol .openParen :: us))
    (he : Window.enclosed? .openParen .closeParen 0 us = some (inside, .symbol .arrow :: body)) :
    Balanced body :=
  ((balanced_declaration h).of_enclosed? he).2.of_cons (by simp)

/-- The parentheses of every window that is read match if those of the tokens do. -/
theorem Reads.balanced {w : Window} (hts : Balanced ts) (h : Reads ts w) : Balanced w := by
  induction h with
  | expression => exact hts
  | body heq he =>
      subst heq
      exact balanced_body hts he
  | part _ hv ih => exact Layout.balanced_of_mem_windows ih hv

/-- What is read from tokens whose parentheses match keeps no fault but plain ones. -/
theorem rejectsOnly_ofTokens_balanced {R : Rejection → Prop} (hR : ∀ r : Rejection, r.Plain → R r)
    (hts : Balanced ts) : (ofTokens ts).RejectsOnly R := by
  have hphrase : ∀ w, Balanced w → (Phrase.ofWindow w).RejectsOnly R := by
    intro w hw
    -- Each part hands on to its own parts that its parentheses match.
    refine Phrase.rejectsOnly_ofWindow_of (Q := Balanced) ?_ ?_ hw
    · exact fun _ hv _ hu => Layout.balanced_of_mem_windows hv hu
    · exact fun _ hv => Layout.rejectsOnly_ofWindow_balanced hR hv
  apply rejectsOnly_ofTokens_of hR
  · intro r hr
    rw [checkBalance_iff.2 hts] at hr
    cases hr
  · -- The parenthesis before the parameters has a partner.
    rintro name us rfl - hnone
    obtain ⟨inside, rest, hsome, -⟩ := (balanced_declaration hts).enclosed?_open
    rw [hnone] at hsome
    cases hsome
  · rintro name us inside body rfl - he
    exact hphrase body (balanced_body hts he)
  · exact fun _ => hphrase ts hts

end Instruction

/-! ## Resolution -/

def Rejection.Paired (r : Rejection) : Prop :=
  ∀ side, r ≠ .unmatchedParenthesis side

theorem Rejection.Plain.paired {r : Rejection} (h : r.Plain) : r.Paired := by
  rintro side rfl
  cases h

theorem admits_paired : Resolution.Admits Rejection.Paired where
  plain _ h := h.paired
  static _ := by simp [Rejection.Paired]

/-- If the parentheses of the tokens match, then so do those of every window that is read, at any
depth, and every window whose parentheses match is searched soundly. So neither an `if` nor a
declaration lacks the partner of a parenthesis. -/
theorem parse_balanced {ts : List Token} (h : Window.checkBalance ts = .ok ()) :
    (∀ w, Instruction.Reads ts w → Window.checkBalance w = .ok ()) ∧
      (∀ w, Window.checkBalance w = .ok () → Window.Searchable w) ∧
      (∀ w side, Instruction.Reads ts w →
        Layout.ofWindow w ≠ .malformed (.unmatchedParenthesis side)) ∧
      (∀ name definition side, Instruction.ofTokens ts = .declaration name definition →
        definition ≠ .error (.unmatchedParenthesis side)) ∧
      ∀ m n side, parse ts m ≠ .error (.unmatchedParenthesis side) n := by
  have hts := Window.checkBalance_iff.1 h
  -- No rejection of a balanced text is about parentheses, whatever part of it is read.
  have hkept :=
    Instruction.rejectsOnly_ofTokens_balanced (fun _ hr => Rejection.Plain.paired hr) hts
  refine ⟨?_, ?_, ?_, ?_, ?_⟩
  · exact fun w hw => Window.checkBalance_iff.2 (hw.balanced hts)
  · exact fun w hw => (Window.checkBalance_iff.1 hw).searchable
  · intro w side hw hform
    have hpaired := Layout.rejectsOnly_ofWindow_balanced (fun _ hr => Rejection.Plain.paired hr)
      (hw.balanced hts)
    rw [hform] at hpaired
    exact hpaired side rfl
  · rintro name definition side hdeclared rfl
    rw [hdeclared] at hkept
    exact hkept side rfl
  · intro m n side hfails
    have hparse : Resolution.FailsOnly Rejection.Paired (parse ts) :=
      Resolution.failsOnly_ofInstructionWith admits_paired
        (Resolution.failsOnly_fill admits_paired) hkept
    exact (hparse.of_error trivial hfails).1 side rfl

/-- The body of a function with a condition in parentheses, and parentheses inside. -/
def guardedBody : Window :=
  [.keyword .ifWord, .symbol .openParen, .symbol .openParen, .word "x", .symbol .closeParen,
    .symbol .less,
    .word "1", .symbol .closeParen, .symbol .openParen, .word "x", .symbol .closeParen,
    .keyword .elseWord,
    .word "f", .symbol .openParen, .symbol .openParen, .word "x", .symbol .closeParen,
    .symbol .closeParen]

def guardedDeclaration : List Token :=
  [.keyword .functionWord, .word "f", .symbol .openParen, .word "x", .symbol .closeParen,
    .symbol .arrow] ++ guardedBody

/-- A declaration whose body has a condition in parentheses, with parentheses inside. -/
theorem parse_balanced_guarded : Window.checkBalance guardedDeclaration = .ok () ∧
    Instruction.Reads guardedDeclaration guardedBody ∧ Window.checkBalance guardedBody = .ok () ∧
    Window.Searchable guardedBody ∧
    (∀ side, Layout.ofWindow guardedBody ≠ .malformed (.unmatchedParenthesis side)) ∧
    ∀ m n side, parse guardedDeclaration m ≠ .error (.unmatchedParenthesis side) n := by
  have hmatch : Window.checkBalance guardedDeclaration = .ok () := rfl
  have hbody : Instruction.Reads guardedDeclaration guardedBody := .body rfl rfl
  obtain ⟨hwindows, hsearch, hforms, -, hparse⟩ := parse_balanced hmatch
  have hbalanced := hwindows guardedBody hbody
  exact ⟨hmatch, hbody, hbalanced, hsearch guardedBody hbalanced, fun side =>
    hforms guardedBody side hbody, hparse⟩

end LineLang
