import LineLang.Proofs.Grammar.Derivation
import LineLang.Proofs.Name
import LineLang.Proofs.Window.Nesting

/-!
# Forms that nest

Conditionals, bindings and calls nest without parentheses of their own, since each of them says
where its parts end. The window of a tree of such forms is passed over as a whole wherever it
stands, so that every form finds its own keywords and commas, and the phrase of the window is the
phrase of the tree.

- `StatementTree`                  : trees of conditionals, bindings, calls and what is simpler
- `StatementTree.window`           : the tokens that a tree is written as
- `StatementTree.phrase`           : the phrase of a tree
- `StatementTree.Search.window`    : searches pass over the window of a tree
- `StatementTree.Written`          : the words of a tree are what they are used as
- `StatementTree.ofWindow_window`  : what is read is what was written
-/

namespace LineLang

open Window

/-- A binding of a `let` with the kind that is written in front of it. -/
structure Binding (α : Type) where
  declared : Option Kind
  name : String
  initializer : α

/-- Conditionals, bindings and calls, with literals and names inside. -/
inductive StatementTree
  | number (word : String) (value : Float)
  | boolean (value : Bool)
  | text (contents : String)
  | name (word : String)
  | call (function : String) (arguments : List StatementTree)
  | conditional (condition consequent alternative : StatementTree)
  | letIn (bindings : List (Binding StatementTree)) (body : StatementTree)

namespace StatementTree

/-- Induction on trees; parts in lists are known by membership. -/
@[elab_as_elim]
theorem induction {motive : StatementTree → Prop}
    (number : ∀ word value, motive (.number word value))
    (boolean : ∀ value, motive (.boolean value))
    (text : ∀ contents, motive (.text contents))
    (name : ∀ word, motive (.name word))
    (call : ∀ function arguments, (∀ a ∈ arguments, motive a) → motive (.call function arguments))
    (conditional : ∀ condition consequent alternative, motive condition → motive consequent →
      motive alternative → motive (.conditional condition consequent alternative))
    (letIn : ∀ bindings body, (∀ d ∈ bindings, motive d.initializer) → motive body →
      motive (.letIn bindings body))
    (T : StatementTree) : motive T :=
  @StatementTree.rec motive (fun arguments => ∀ a ∈ arguments, motive a)
    (fun bindings => ∀ d ∈ bindings, motive d.initializer) (fun d => motive d.initializer)
    number boolean text name call conditional letIn
    (fun _ h => absurd h List.not_mem_nil)
    (fun _ _ ha has => List.forall_mem_cons.2 ⟨ha, has⟩)
    (fun _ h => absurd h List.not_mem_nil)
    (fun _ _ hd hds => List.forall_mem_cons.2 ⟨hd, hds⟩)
    (fun _ _ _ h => h) T

/-! ## Windows -/

mutual

/-- The tokens that a tree is written as. Only conditions and arguments stand in parentheses. -/
def window : StatementTree → Window
  | .number word _ => [.word word]
  | .boolean b => [.boolean b]
  | .text s => [.text s]
  | .name word => [.word word]
  | .call f arguments =>
      .word f :: .symbol .openParen :: (listed (windows arguments) ++ [.symbol .closeParen])
  | .conditional c t e =>
      .keyword .ifWord :: .symbol .openParen ::
        (c.window ++ .symbol .closeParen :: (t.window ++ .keyword .elseWord :: e.window))
  | .letIn bindings b =>
      .keyword .letWord :: (listed (clauseWindows bindings) ++ .keyword .inWord :: b.window)

def windows : List StatementTree → List Window
  | [] => []
  | T :: Ts => T.window :: windows Ts

def clauseWindows : List (Binding StatementTree) → List Window
  | [] => []
  | ⟨declared, binder, initializer⟩ :: bindings =>
      (heading declared binder ++ initializer.window) :: clauseWindows bindings

end

def clauseWindow (d : Binding StatementTree) : Window :=
  heading d.declared d.name ++ d.initializer.window

theorem windows_eq (Ts : List StatementTree) : windows Ts = Ts.map window := by
  induction Ts with
  | nil => rfl
  | cons T Ts ih => rw [windows, List.map_cons, ih]

theorem clauseWindows_eq (ds : List (Binding StatementTree)) :
    clauseWindows ds = ds.map clauseWindow := by
  induction ds with
  | nil => rfl
  | cons d ds ih =>
      rw [clauseWindows, List.map_cons, ih]
      rfl

theorem window_ne_nil (T : StatementTree) : T.window ≠ [] := by
  cases T <;> simp [window]

/-! ## Phrases -/

mutual

def phrase : StatementTree → Phrase
  | .number _ x => .literal (.number x)
  | .boolean b => .literal (.boolean b)
  | .text s => .literal (.text s)
  | .name word => .name word
  | .call f arguments => .call f (phrases arguments)
  | .conditional c t e => .conditional c.phrase t.phrase e.phrase
  | .letIn bindings b => .letIn (clauses bindings) b.phrase

def phrases : List StatementTree → List Phrase
  | [] => []
  | T :: Ts => T.phrase :: phrases Ts

def clauses : List (Binding StatementTree) → List (Clause Phrase)
  | [] => []
  | ⟨declared, binder, initializer⟩ :: bindings =>
      .binding declared binder initializer.phrase :: clauses bindings

end

theorem phrases_eq (Ts : List StatementTree) : phrases Ts = Ts.map phrase := by
  induction Ts with
  | nil => rfl
  | cons T Ts ih => rw [phrases, List.map_cons, ih]

theorem clauses_eq (ds : List (Binding StatementTree)) :
    clauses ds = ds.map fun d => .binding d.declared d.name d.initializer.phrase := by
  induction ds with
  | nil => rfl
  | cons d ds ih =>
      rw [clauses, List.map_cons, ih]

/-! ## Searches pass over trees -/

/-- A token that is neither a parenthesis, nor a comma, nor one of the keywords. -/
structure Plain (t : Token) : Prop where
  openParen : t ≠ .symbol .openParen
  closeParen : t ≠ .symbol .closeParen
  comma : t ≠ .symbol .comma
  keyword : ∀ k, t ≠ .keyword k

theorem balanced_listed {ws : List Window} (hws : ∀ w ∈ ws, Balanced w) : Balanced (listed ws) :=
  listed_induction .nil (.token nofun nofun .nil) Balanced.append hws

theorem balanced_heading (declared : Option Kind) (name : String) :
    Balanced (heading declared name) := by
  have hname : Balanced [.word name, .symbol .equals] :=
    .token nofun nofun (.token nofun nofun .nil)
  cases declared with
  | none => exact hname
  | some k => exact .token nofun nofun hname

/-- What a search has to pass over: tokens that mean nothing to it, what stands in parentheses, and
what stands between two keywords that belong together. Between `let` and `in` also commas are passed
over. -/
structure Search (P Q : Window → Prop) : Prop where
  append : ∀ {v w}, P v → P w → P (v ++ w)
  plain : ∀ {t}, Plain t → P [t]
  group : ∀ {w}, Balanced w → P (.symbol .openParen :: (w ++ [.symbol .closeParen]))
  branches : ∀ {w}, P w → P (.keyword .ifWord :: (w ++ [.keyword .elseWord]))
  bindings : ∀ {w}, Q w → P (.keyword .letWord :: (w ++ [.keyword .inWord]))
  inside : ∀ {w}, P w → Q w
  nil : Q []
  comma : Q [.symbol .comma]
  join : ∀ {v w}, Q v → Q w → Q (v ++ w)

namespace Search

variable {P Q : Window → Prop}

theorem listed (h : Search P Q) {ws : List Window} (hws : ∀ w ∈ ws, P w) : Q (Window.listed ws) :=
  listed_induction h.nil h.comma h.join fun w hw => h.inside (hws w hw)

/-- No search stops at what stands in front of an initializer. -/
theorem heading (h : Search P Q) (declared : Option Kind) (name : String) :
    P (Window.heading declared name) := by
  have hname : P [.word name, .symbol .equals] :=
    h.append (v := [.word name]) (h.plain ⟨nofun, nofun, nofun, nofun⟩)
      (h.plain ⟨nofun, nofun, nofun, nofun⟩)
  cases declared with
  | none => exact hname
  | some k => exact h.append (v := [.typeName k]) (h.plain ⟨nofun, nofun, nofun, nofun⟩) hname

theorem clause (h : Search P Q) {d : Binding StatementTree} (hd : P d.initializer.window) :
    P (clauseWindow d) :=
  h.append (h.heading d.declared d.name) hd

/-- A search that passes over all this passes over the window of a tree. -/
theorem window (h : Search P Q) (T : StatementTree) : Balanced T.window ∧ P T.window := by
  induction T using StatementTree.induction with
  | number word value | boolean value | text contents | name word =>
      exact ⟨.token nofun nofun .nil, h.plain ⟨nofun, nofun, nofun, nofun⟩⟩
  | call f arguments ih =>
      have hinside : Balanced (Window.listed (windows arguments)) := by
        apply balanced_listed
        intro w hw
        rw [windows_eq] at hw
        rcases List.mem_map.1 hw with ⟨T, hT, rfl⟩
        exact (ih T hT).1
      refine ⟨.token nofun nofun (.group hinside .nil), ?_⟩
      exact h.append (v := [.word f]) (h.plain ⟨nofun, nofun, nofun, nofun⟩) (h.group hinside)
  | conditional c t e ihc iht ihe =>
      refine ⟨.token nofun nofun (.group ihc.1 (iht.1.append (.token nofun nofun ihe.1))), ?_⟩
      -- The condition and the first branch stand between the two keywords.
      have hbranches := h.branches (h.append (h.group ihc.1) iht.2)
      simpa [StatementTree.window] using h.append hbranches ihe.2
  | letIn bindings b ihd ihb =>
      have hclauses : ∀ w ∈ clauseWindows bindings, Balanced w ∧ P w := by
        intro w hw
        rw [clauseWindows_eq] at hw
        rcases List.mem_map.1 hw with ⟨d, hd, rfl⟩
        exact ⟨(balanced_heading _ _).append (ihd d hd).1, h.clause (ihd d hd).2⟩
      constructor
      · have hlist := balanced_listed fun w hw => (hclauses w hw).1
        exact .token nofun nofun (hlist.append (.token nofun nofun ihb.1))
      · have hbindings := h.bindings (h.listed fun w hw => (hclauses w hw).2)
        simpa [StatementTree.window] using h.append hbindings ihb.2

end Search

/-- The search for the end of a `let` passes over trees. -/
theorem search_let : Search (Passed .letWord .inWord) (Passed .letWord .inWord) := by
  have htoken : ∀ {t : Token}, t ≠ .symbol .openParen → t ≠ .symbol .closeParen →
      t ≠ .keyword .letWord →
      t ≠ .keyword .inWord → Passed .letWord .inWord [t] := fun ho hc hlet hin =>
    passed_of_tops (.token ho hc (by simp [isEither, hlet, hin]) .nil)
  refine ⟨Passed.append, fun ht => ?_, fun hw => ?_, fun hw => ?_, Passed.pair (by decide), id, ?_,
    ?_, Passed.append⟩
  · exact htoken ht.openParen ht.closeParen (ht.keyword _) (ht.keyword _)
  · exact passed_of_tops (.group hw .nil)
  · have hif := htoken (t := .keyword .ifWord) (by decide) (by decide) (by decide) (by decide)
    have helse := htoken (t := .keyword .elseWord) (by decide) (by decide) (by decide) (by decide)
    exact hif.append (hw.append helse)
  · exact passed_of_tops .nil
  · exact htoken (by decide) (by decide) (by decide) (by decide)

/-- The search for the `else` of a conditional passes over trees. -/
theorem search_if : Search (Passed .ifWord .elseWord) (Passed .ifWord .elseWord) := by
  have htoken : ∀ {t : Token}, t ≠ .symbol .openParen → t ≠ .symbol .closeParen →
      t ≠ .keyword .ifWord →
      t ≠ .keyword .elseWord → Passed .ifWord .elseWord [t] := fun ho hc hif helse =>
    passed_of_tops (.token ho hc (by simp [isEither, hif, helse]) .nil)
  refine ⟨Passed.append, fun ht => ?_, fun hw => ?_, Passed.pair (by decide), fun hw => ?_, id, ?_,
    ?_, Passed.append⟩
  · exact htoken ht.openParen ht.closeParen (ht.keyword _) (ht.keyword _)
  · exact passed_of_tops (.group hw .nil)
  · have hlet := htoken (t := .keyword .letWord) (by decide) (by decide) (by decide) (by decide)
    have hin := htoken (t := .keyword .inWord) (by decide) (by decide) (by decide) (by decide)
    exact hlet.append (hw.append hin)
  · exact passed_of_tops .nil
  · exact htoken (by decide) (by decide) (by decide) (by decide)

/-- The search for commas passes over trees, and between `let` and `in` over commas. -/
theorem search_commas :
    Search (fun w => ∀ lets, Whole 0 lets w) (fun w => ∀ lets, Whole 0 (lets + 1) w) where
  append hv hw lets := (hv lets).append (hw lets)
  plain ht lets := whole_token ht.openParen ht.closeParen fun _ =>
    ⟨ht.keyword _, ht.keyword _, fun _ => ht.comma⟩
  group hw lets := whole_group hw
  branches hw lets := by
    have hif : Whole 0 lets [.keyword .ifWord] := whole_token nofun nofun fun _ =>
      ⟨nofun, nofun, fun _ => nofun⟩
    have helse : Whole 0 lets [.keyword .elseWord] :=
      whole_token nofun nofun fun _ => ⟨nofun, nofun, fun _ => nofun⟩
    exact hif.append ((hw lets).append helse)
  bindings hw lets := whole_let (hw lets)
  inside hw lets := hw (lets + 1)
  nil lets := whole_nil
  comma lets := whole_token nofun nofun fun _ =>
    ⟨nofun, nofun, fun h => absurd h (Nat.succ_ne_zero lets)⟩
  join hv hw lets := (hv lets).append (hw lets)

theorem balanced (T : StatementTree) : Balanced T.window :=
  (search_let.window T).1

theorem whole_window (T : StatementTree) : Whole 0 0 T.window :=
  (search_commas.window T).2 0

/-! ## Trees that may be written -/

def Takes (m : Memory) (f : String) (count : Nat) : Prop :=
  (∃ b, Builtin.ofName? f = some b ∧ b.arity = count) ∨
    ∃ id, m.lookup? f = some id ∧ (m.function id).parameters.length = count

def binders (bindings : List (Binding StatementTree)) : List String :=
  (bindings.map (·.name)).reverse

mutual

/-- Where the names in `Γ` are in force, all words of the tree are what they are used as, functions
have the right number of arguments, and there is something between each `let` and its `in`. -/
def Written (m : Memory) : List String → StatementTree → Prop
  | _, .number word x => Spells word x
  | _, .boolean _ | _, .text _ => True
  | Γ, .name word => word ∈ Γ
  | Γ, .call f arguments => Takes m f arguments.length ∧ WrittenAll m Γ arguments
  | Γ, .conditional c t e => Written m Γ c ∧ Written m Γ t ∧ Written m Γ e
  | Γ, .letIn bindings b =>
      bindings ≠ [] ∧ WrittenBindings m Γ bindings ∧ Written m (binders bindings ++ Γ) b

def WrittenAll (m : Memory) : List String → List StatementTree → Prop
  | _, [] => True
  | Γ, T :: Ts => Written m Γ T ∧ WrittenAll m Γ Ts

def WrittenBindings (m : Memory) : List String → List (Binding StatementTree) → Prop
  | _, [] => True
  | Γ, ⟨_, binder, initializer⟩ :: bindings =>
      checkDeclared binder = .ok () ∧ Written m Γ initializer ∧
        WrittenBindings m (binder :: Γ) bindings

end

section Written

variable {m : Memory} {Γ : List String}

theorem writtenAll_iff {Ts : List StatementTree} : WrittenAll m Γ Ts ↔ ∀ T ∈ Ts, Written m Γ T := by
  induction Ts with
  | nil => simp [WrittenAll]
  | cons T Ts ih => simp [WrittenAll, ih]

theorem binders_cons {d : Binding StatementTree} {ds : List (Binding StatementTree)} :
    binders (d :: ds) ++ Γ = binders ds ++ d.name :: Γ := by
  simp [binders]

/-- Bindings that come later are written where the names of the earlier ones are in force. -/
theorem writtenBindings_append {ds ds' : List (Binding StatementTree)} :
    WrittenBindings m Γ (ds ++ ds') ↔
    WrittenBindings m Γ ds ∧ WrittenBindings m (binders ds ++ Γ) ds' := by
  induction ds generalizing Γ with
  | nil => simp [WrittenBindings, binders]
  | cons d ds ih =>
      rcases d with ⟨declared, binder, initializer⟩
      rw [List.cons_append, WrittenBindings, WrittenBindings, ih, binders_cons]
      simp only [and_assoc]

/-- All names in force may be declared, also where some bindings are. -/
theorem declared_binders {ds : List (Binding StatementTree)}
    (hΓ : ∀ w ∈ Γ, checkDeclared w = .ok ()) (hds : WrittenBindings m Γ ds) :
    ∀ w ∈ binders ds ++ Γ, checkDeclared w = .ok () := by
  induction ds generalizing Γ with
  | nil => exact hΓ
  | cons d ds ih =>
      rcases d with ⟨declared, binder, initializer⟩
      rcases hds with ⟨hbinder, -, hrest⟩
      rw [binders_cons]
      exact ih (List.forall_mem_cons.2 ⟨hbinder, hΓ⟩) hrest

/-- Each binding has a name that may be declared, and its initializer is written where such names
are in force. -/
theorem written_initializer {ds : List (Binding StatementTree)}
    (hΓ : ∀ w ∈ Γ, checkDeclared w = .ok ()) (hds : WrittenBindings m Γ ds)
    {d : Binding StatementTree} (hd : d ∈ ds) :
    checkDeclared d.name = .ok () ∧
      ∃ Δ, (∀ w ∈ Δ, checkDeclared w = .ok ()) ∧ Written m Δ d.initializer := by
  rcases List.append_of_mem hd with ⟨ds₁, ds₂, rfl⟩
  rcases writtenBindings_append.1 hds with ⟨hds₁, hbinder, hinitializer, -⟩
  exact ⟨hbinder, _, declared_binders hΓ hds₁, hinitializer⟩

end Written

/-! ## How trees are read -/

/-- What has no operators of its own is a literal, a name or a call, if it does not stand in
parentheses. -/
theorem form?_of_atom {w : Window} (hw : Atom w) :
    Layout.form? w = (Layout.prefixed? w <|> Layout.primary? w) := by
  have hall := hw.tops 8 none
  rw [Layout.form?_of_tops hall, Layout.infixed?_eq_none hall (by decide),
    Layout.power?_eq_none hall]
  rfl

theorem layout_word (word : String) : Layout.ofWindow [.word word] = Layout.ofWord word := by
  rw [Layout.ofWindow, form?_of_atom (.word word)]
  rfl

theorem layout_boolean (b : Bool) : Layout.ofWindow [.boolean b] = .literal (.boolean b) := by
  rw [Layout.ofWindow, form?_of_atom (.boolean b)]
  rfl

theorem layout_text (s : String) : Layout.ofWindow [.text s] = .literal (.text s) := by
  rw [Layout.ofWindow, form?_of_atom (.text s)]
  rfl

/-- The arguments of a call are separated by its commas. -/
theorem layout_call (f : String) (Ts : List StatementTree) :
    Layout.ofWindow (StatementTree.call f Ts).window = .call f (Ts.map window) := by
  have hwhole : ∀ w ∈ Ts.map window, Whole 0 0 w := by
    intro w hw
    rcases List.mem_map.1 hw with ⟨T, -, rfl⟩
    exact T.whole_window
  have hne : [] ∉ Ts.map window := by
    intro hmem
    rcases List.mem_map.1 hmem with ⟨T, -, hT⟩
    exact T.window_ne_nil hT
  have hbalanced : Balanced (listed (Ts.map window)) := by
    apply balanced_listed
    intro w hw
    rcases List.mem_map.1 hw with ⟨T, -, rfl⟩
    exact T.balanced
  rw [window, windows_eq, Layout.ofWindow, form?_of_atom (.call f (checkBalance_iff.2 hbalanced))]
  simp only [Layout.prefixed?, Layout.primary?, hbalanced.enclosed?_group [],
    items_listed hwhole hne]
  rfl

/-- The branches of a conditional stand around its own `else`. -/
theorem layout_conditional (c t e : StatementTree) :
    Layout.ofWindow (StatementTree.conditional c t e).window = .conditional c.window t.window
      e.window := by
  have hcondition := c.balanced.enclosed?_group (t.window ++ .keyword .elseWord :: e.window)
  have hbranches : matching? .ifWord .elseWord 0 (t.window ++ .keyword .elseWord :: e.window) =
      some (t.window, e.window) := matching?_end nofun (search_if.window t).2
  have hc := c.window_ne_nil
  have ht := t.window_ne_nil
  have he := e.window_ne_nil
  have hform : Layout.ifForm (.symbol .openParen ::
      (c.window ++ .symbol .closeParen :: (t.window ++ .keyword .elseWord :: e.window))) =
        .conditional c.window t.window e.window := by
    simp only [Layout.ifForm, hcondition, Layout.branches, hbranches]
  rw [Layout.ofWindow, Layout.form?, window]
  simp only [Layout.statement?, hform]
  rfl

/-- A binding is a heading and an initializer. -/
theorem clause_window {d : Binding StatementTree} (hd : checkDeclared d.name = .ok ()) :
    Layout.clause (clauseWindow d) = .binding d.declared d.name d.initializer.window := by
  rcases d with ⟨declared, binder, initializer⟩
  have hdeclared : checkDeclared binder = .ok () := hd
  -- The equals sign is not the last token.
  obtain ⟨t, v, hwindow⟩ := List.exists_cons_of_ne_nil initializer.window_ne_nil
  cases declared with
  | none =>
      show Layout.clause (.word binder :: .symbol .equals :: initializer.window) =
        .binding none binder _
      rw [hwindow]
      unfold Layout.clause
      dsimp only
      rw [hdeclared]
  | some k =>
      show Layout.clause (.typeName k :: .word binder :: .symbol .equals :: initializer.window) =
        .binding (some k) binder _
      rw [hwindow]
      unfold Layout.clause
      dsimp only
      rw [hdeclared]

/-- The bindings of a `let` reach up to its own `in`, and commas between them separate. -/
theorem layout_letIn {ds : List (Binding StatementTree)} (b : StatementTree) (hne : ds ≠ [])
    (hds : ∀ d ∈ ds, checkDeclared d.name = .ok ()) :
    Layout.ofWindow (StatementTree.letIn ds b).window =
      .letIn (ds.map fun d => .binding d.declared d.name d.initializer.window) b.window := by
  have hclauses : ∀ w ∈ ds.map clauseWindow, Whole 0 0 w ∧ Passed .letWord .inWord w ∧ w ≠ [] := by
    intro w hw
    rcases List.mem_map.1 hw with ⟨d, -, rfl⟩
    refine ⟨search_commas.clause (search_commas.window d.initializer).2 0,
      search_let.clause (search_let.window d.initializer).2, ?_⟩
    simp [clauseWindow, heading]
  have hpassed : Passed .letWord .inWord (listed (ds.map clauseWindow)) :=
    search_let.listed fun w hw => (hclauses w hw).2.1
  have hmatching :
      matching? .letWord .inWord 0 (listed (ds.map clauseWindow) ++ .keyword .inWord :: b.window) =
        some (listed (ds.map clauseWindow), b.window) := matching?_end nofun hpassed
  -- A comma in an initializer stands in parentheses or in an inner `let`, so only those between
  -- bindings count.
  have hitems : items .letExpression (listed (ds.map clauseWindow)) = .ok (ds.map clauseWindow) :=
    items_listed (fun w hw => (hclauses w hw).1) fun hmem => (hclauses [] hmem).2.2 rfl
  have hlisted : listed (ds.map clauseWindow) ≠ [] := by
    intro hnil
    rw [hnil] at hitems
    have hmap : ds.map clauseWindow = [] := (Except.ok.inj hitems).symm
    exact hne (List.map_eq_nil_iff.1 hmap)
  have hb := b.window_ne_nil
  have hmap : (ds.map clauseWindow).map Layout.clause =
      ds.map fun d => .binding d.declared d.name d.initializer.window := by
    rw [List.map_map]
    exact List.map_congr_left fun d hd => clause_window (hds d hd)
  have hform : Layout.letForm (listed (ds.map clauseWindow) ++ .keyword .inWord :: b.window) =
      .letIn (ds.map fun d => .binding d.declared d.name d.initializer.window) b.window := by
    simp only [Layout.letForm, hmatching, hitems, hmap]
  rw [Layout.ofWindow, Layout.form?, window, clauseWindows_eq]
  simp only [Layout.statement?, hform]
  rfl

/-- What is read is what was written. -/
theorem ofWindow_window {m : Memory} {Γ : List String} {T : StatementTree}
    (hΓ : ∀ w ∈ Γ, checkDeclared w = .ok ()) (hT : Written m Γ T) :
    Phrase.ofWindow T.window = T.phrase := by
  induction T using StatementTree.induction generalizing Γ with
  | number word x =>
      have hword : Layout.ofWord word = .literal (.number x) := Layout.ofWord_of_spells hT
      rw [Phrase.ofWindow_eq, window, layout_word, hword]
      rfl
  | name word =>
      rw [Phrase.ofWindow_eq, window, layout_word, Layout.ofWord_of_declared (hΓ word hT)]
      rfl
  | boolean b =>
      rw [Phrase.ofWindow_eq, window, layout_boolean]
      rfl
  | text s =>
      rw [Phrase.ofWindow_eq, window, layout_text]
      rfl
  | call f Ts ih =>
      have hargs : ∀ T ∈ Ts, Phrase.ofWindow T.window = T.phrase := fun T hmem =>
        ih T hmem hΓ (writtenAll_iff.1 hT.2 T hmem)
      rw [Phrase.ofWindow_eq, layout_call, Layout.build, List.map_map, phrase, phrases_eq]
      congr 1
      exact List.map_congr_left hargs
  | conditional c t e ihc iht ihe =>
      rw [Phrase.ofWindow_eq, layout_conditional, Layout.build, ihc hΓ hT.1, iht hΓ hT.2.1,
        ihe hΓ hT.2.2, phrase]
  | letIn ds b ihd ihb =>
      rcases hT with ⟨hne, hds, hb⟩
      -- The names in force grow with each binding, and all of them may be declared.
      have hinits : ∀ d ∈ ds, Phrase.ofWindow d.initializer.window = d.initializer.phrase := by
        intro d hd
        rcases written_initializer hΓ hds hd with ⟨-, Δ, hΔ, hinitializer⟩
        exact ihd d hd hΔ hinitializer
      have hnames : ∀ d ∈ ds, checkDeclared d.name = .ok () :=
        fun d hd => (written_initializer hΓ hds hd).1
      rw [Phrase.ofWindow_eq, layout_letIn b hne hnames, Layout.build,
        ihb (declared_binders hΓ hds) hb, phrase, clauses_eq, List.map_map]
      congr 1
      refine List.map_congr_left fun d hd => ?_
      simp only [Function.comp, Clause.map, hinits d hd]

end StatementTree
end LineLang
