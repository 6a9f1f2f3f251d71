import LineLang.Diagnostic
import LineLang.Token

/-!
# Windows of tokens

An instruction is read by looking for the token that cuts a window of it into parts. Tokens inside
parentheses are passed over. The same search serves both directions: from the right, a window is
turned round and the two parentheses change their parts.

- `checkBalance`              : do the parentheses of a window match
- `enclosed?`                 : the inside of a parenthesis
- `firstTop?`, `lastTop?`     : the first and the last token of a sort outside parentheses
- `matching?`                 : the keyword that ends what another one begins
- `items`                     : the parts of a list
-/

namespace LineLang

abbrev Window := List Token

namespace Window

def render (w : Window) : String :=
  " ".intercalate (w.map Token.display)

/-! ## Parentheses -/

/-- Checks that the parentheses match when `depth` of them are open already. -/
def checkBalanceFrom (depth : Nat) : Window → Except Rejection Unit
  | [] => if depth = 0 then .ok () else .error (.unmatchedParenthesis .closing)
  | .symbol .openParen :: ts => checkBalanceFrom (depth + 1) ts
  | .symbol .closeParen :: ts =>
      match depth with
      | 0 => .error (.unmatchedParenthesis .opening)
      | depth + 1 => checkBalanceFrom depth ts
  | _ :: ts => checkBalanceFrom depth ts

def checkBalance (w : Window) : Except Rejection Unit :=
  checkBalanceFrom 0 w

/-- What stands before and after the `closer` of an `opener` just passed, when `depth` more of them
are open. -/
def enclosed? (opener closer : Symbol) (depth : Nat) : Window → Option (Window × Window)
  | [] => none
  | t :: ts =>
      if t = .symbol closer then
        match depth with
        | 0 => some ([], ts)
        | depth + 1 => (enclosed? opener closer depth ts).map fun (i, r) => (t :: i, r)
      else if t = .symbol opener then
        (enclosed? opener closer (depth + 1) ts).map fun (i, r) => (t :: i, r)
      else (enclosed? opener closer depth ts).map fun (i, r) => (t :: i, r)

/-- What is enclosed, the closing sign and the rest are the whole window. -/
theorem append_of_enclosed? {opener closer : Symbol} {depth : Nat} {w inside rest : Window}
    (h : enclosed? opener closer depth w = some (inside, rest)) :
    inside ++ .symbol closer :: rest = w := by
  induction w generalizing depth inside with
  | nil => simp [enclosed?] at h
  | cons t ts ih =>
      unfold enclosed? at h
      split at h
      · next ht =>
        split at h
        · cases h
          simp [ht]
        · obtain ⟨⟨i, r⟩, hr, hs⟩ := Option.map_eq_some_iff.1 h
          cases hs
          simp [ih hr]
      · split at h <;>
        · obtain ⟨⟨i, r⟩, hr, hs⟩ := Option.map_eq_some_iff.1 h
          cases hs
          simp [ih hr]

/-! ## Cuts -/

/-- A window cut at one of its tokens. -/
structure Cut where
  before : Window
  token : Token
  after : Window
  deriving DecidableEq, Repr

namespace Cut

def window (c : Cut) : Window :=
  c.before ++ c.token :: c.after

def prepend (w : Window) (c : Cut) : Cut :=
  { c with before := w ++ c.before }

def reverse (c : Cut) : Cut :=
  ⟨c.after.reverse, c.token, c.before.reverse⟩

theorem window_prepend (w : Window) (c : Cut) : (c.prepend w).window = w ++ c.window := by
  simp [prepend, window]

theorem window_reverse (c : Cut) : c.reverse.window = c.window.reverse := by
  simp [reverse, window]

end Cut

/-- The first token outside parentheses that satisfies `p`, which also sees the token after it. -/
def topBy? (opener closer : Symbol) (p : Token → Option Token → Bool) (w : Window) : Option Cut :=
  match w with
  | [] => none
  | t :: ts =>
      if t = .symbol opener then
        match h : enclosed? opener closer 0 ts with
        | none => none
        | some (inside, rest) =>
            have : rest.length ≤ ts.length := by
              rw [← append_of_enclosed? h]; simp; omega
            (topBy? opener closer p rest).map (·.prepend (t :: inside ++ [.symbol closer]))
      else if p t ts.head? then some ⟨[], t, ts⟩
      else (topBy? opener closer p ts).map (·.prepend [t])
termination_by w.length
decreasing_by
  · exact Nat.lt_succ_of_le this
  · exact Nat.lt_succ_self _

/-- A cut leaves no token out. -/
theorem window_of_topBy? {opener closer : Symbol} {p : Token → Option Token → Bool} {w : Window}
    {c : Cut} (h : topBy? opener closer p w = some c) : c.window = w := by
  fun_induction topBy? opener closer p w generalizing c with
  | case1 => simp at h
  | case2 => simp at h
  | case3 ts inside rest he hlt ih =>
      obtain ⟨d, hd, rfl⟩ := Option.map_eq_some_iff.1 h
      rw [Cut.window_prepend, ih hd, ← append_of_enclosed? he]
      simp
  | case4 t ts hp =>
      cases h
      simp [Cut.window]
  | case5 t ts ht hp ih =>
      obtain ⟨d, hd, rfl⟩ := Option.map_eq_some_iff.1 h
      rw [Cut.window_prepend, ih hd]
      rfl

/-- The window is cut at a token that was looked for. -/
theorem satisfies_of_topBy? {opener closer : Symbol} {p : Token → Option Token → Bool}
    {w : Window} {c : Cut} (h : topBy? opener closer p w = some c) :
    p c.token c.after.head? = true := by
  fun_induction topBy? opener closer p w generalizing c with
  | case1 => simp at h
  | case2 => simp at h
  | case3 ts inside rest he hlt ih =>
      obtain ⟨d, hd, rfl⟩ := Option.map_eq_some_iff.1 h
      exact ih (c := d) hd
  | case4 t ts ht hp =>
      cases h
      exact hp
  | case5 t ts ht hp ih =>
      obtain ⟨d, hd, rfl⟩ := Option.map_eq_some_iff.1 h
      exact ih (c := d) hd

def firstTop? (p : Token → Bool) (w : Window) : Option Cut :=
  topBy? .openParen .closeParen (fun t _ => p t) w

/-- The last token outside parentheses that satisfies `p`, which also sees the token before it. -/
def lastTop? (p : Token → Option Token → Bool) (w : Window) : Option Cut :=
  (topBy? .closeParen .openParen p w.reverse).map Cut.reverse

theorem window_of_firstTop? {p : Token → Bool} {w : Window} {c : Cut}
    (h : firstTop? p w = some c) : c.window = w :=
  window_of_topBy? h

theorem satisfies_of_firstTop? {p : Token → Bool} {w : Window} {c : Cut}
    (h : firstTop? p w = some c) : p c.token = true :=
  satisfies_of_topBy? h

theorem window_of_lastTop? {p : Token → Option Token → Bool} {w : Window} {c : Cut}
    (h : lastTop? p w = some c) : c.window = w := by
  obtain ⟨d, hd, rfl⟩ := Option.map_eq_some_iff.1 h
  rw [Cut.window_reverse, window_of_topBy? hd, List.reverse_reverse]

/-! ## Keywords -/

/-- What stands before and after the `closer` that ends what an `opener` just passed began, when
`depth` more openers wait for theirs. -/
def matching? (opener closer : Keyword) (depth : Nat) (w : Window) : Option (Window × Window) :=
  match h : firstTop? (fun t => t = .keyword opener || t = .keyword closer) w with
  | none => none
  | some c =>
      have : c.after.length < w.length := by
        rw [← window_of_firstTop? h]; simp [Cut.window]; omega
      if c.token = .keyword opener then
        (matching? opener closer (depth + 1) c.after).map fun (b, a) =>
          (c.before ++ c.token :: b, a)
      else
        match depth with
        | 0 => some (c.before, c.after)
        | depth + 1 =>
            (matching? opener closer depth c.after).map fun (b, a) => (c.before ++ c.token :: b, a)
termination_by w.length
decreasing_by
  · exact this
  · exact this

/-- What stands before the closing keyword, the keyword and the rest are the whole window. -/
theorem append_of_matching? {opener closer : Keyword} {depth : Nat} {w before after : Window}
    (h : matching? opener closer depth w = some (before, after)) :
    before ++ .keyword closer :: after = w := by
  fun_induction matching? opener closer depth w generalizing before after with
  | case1 => simp at h
  | case2 w depth c hc hlt ht ih =>
      obtain ⟨⟨b, a⟩, hr, hs⟩ := Option.map_eq_some_iff.1 h
      cases hs
      rw [← window_of_firstTop? hc, Cut.window, ← ih hr]
      simp
  | case3 w c hc hlt ht =>
      cases h
      have hp := satisfies_of_firstTop? hc
      simp only [ht, decide_false, Bool.false_or, decide_eq_true_eq] at hp
      rw [← window_of_firstTop? hc, Cut.window, hp]
  | case4 w c hc hlt ht depth ih =>
      obtain ⟨⟨b, a⟩, hr, hs⟩ := Option.map_eq_some_iff.1 h
      cases hs
      rw [← window_of_firstTop? hc, Cut.window, ← ih hr]
      simp

/-- Whether a token begins a form that reaches to the end of the window. -/
def opensStatement : Token → Bool
  | .keyword .letWord | .keyword .ifWord | .keyword .functionWord => true
  | _ => false

/-- A window cut before the first token outside parentheses that opens a statement. Operators are
looked for in the first part only. -/
def beforeStatement (w : Window) : Window × Window :=
  match firstTop? opensStatement w with
  | none => (w, [])
  | some c => (c.before, c.token :: c.after)

theorem append_beforeStatement (w : Window) :
    (beforeStatement w).1 ++ (beforeStatement w).2 = w := by
  unfold beforeStatement
  split
  · simp
  · next c hc => exact window_of_firstTop? hc

/-! ## Lists -/

/-- The item under way and the items after it, when `depth` parentheses are open and `lets` bindings
wait for their `in`. A comma inside either does not separate. -/
def itemsFrom (depth lets : Nat) : Window → Window × List Window
  | [] => ([], [])
  | t :: ts =>
      match t, depth, lets with
      | .symbol .comma, 0, 0 =>
          let (item, rest) := itemsFrom 0 0 ts
          ([], item :: rest)
      | .keyword .letWord, 0, lets =>
          let (item, rest) := itemsFrom 0 (lets + 1) ts
          (t :: item, rest)
      | .keyword .inWord, 0, lets =>
          let (item, rest) := itemsFrom 0 (lets - 1) ts
          (t :: item, rest)
      | t, depth, lets =>
          let (item, rest) := itemsFrom (t.depthAfter depth) lets ts
          (t :: item, rest)

/-- No item is longer than the window. -/
theorem length_itemsFrom (depth lets : Nat) (w : Window) :
    ∀ item ∈ (itemsFrom depth lets w).1 :: (itemsFrom depth lets w).2, item.length ≤ w.length := by
  induction w generalizing depth lets with
  | nil => simp [itemsFrom]
  | cons t ts ih =>
      unfold itemsFrom
      split
      · have h := ih 0 0
        simp only [List.mem_cons] at h ⊢
        rintro item (rfl | hi)
        · simp
        · exact Nat.le_succ_of_le (h item hi)
      all_goals
        rename_i lets'
        simp only [List.mem_cons]
        rintro item (rfl | hi)
        · exact Nat.succ_le_succ (ih _ _ _ (List.mem_cons_self ..))
        · exact Nat.le_succ_of_le (ih _ _ item (List.mem_cons_of_mem _ hi))

def items (form : Form) (w : Window) : Except Rejection (List Window) :=
  if w = [] then .ok []
  else
    let (item, rest) := itemsFrom 0 0 w
    if [] ∈ item :: rest then .error (.malformedList form) else .ok (item :: rest)

/-- The items of a list are parts of its window. -/
theorem length_of_items {form : Form} {w : Window} {list : List Window}
    (h : items form w = .ok list) : ∀ item ∈ list, item.length ≤ w.length := by
  unfold items at h
  split at h
  · cases h
    simp
  · dsimp only at h
    split at h
    · cases h
    · cases h
      exact length_itemsFrom 0 0 w

end Window
end LineLang
