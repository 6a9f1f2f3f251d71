import LineLang.Proofs.Window

/-!
# Windows with forms inside

A form that begins with a keyword may hold others of its sort. The search for the keyword that ends
it passes over these, and so does the search for the commas between the items of a list.

- `Window.Passed`          : the search for a keyword passes over the window
- `Window.matching?_end`   : the keyword is found after such a window
- `Window.Whole`           : no comma of the window separates items
- `Window.listed`          : windows with commas between them
- `Window.items_listed`    : their items are the windows
- `Window.listed_of_items` : the items of a window make it up
-/

namespace LineLang

def separated {α : Type} (comma : α) : List (List α) → List α
  | [] => []
  | [w] => w
  | w :: ws => w ++ comma :: separated comma ws

theorem separated_cons {α : Type} {comma : α} {w : List α} {ws : List (List α)} (hws : ws ≠ []) :
    separated comma (w :: ws) = w ++ comma :: separated comma ws := by
  cases ws with
  | nil => exact absurd rfl hws
  | cons v ws => rfl

namespace Window

def heading (declared : Option Kind) (name : String) : Window :=
  declared.toList.map Token.typeName ++ [.word name, .symbol .equals]

/-! ## Keywords in pairs -/

section Pairs

variable {opener closer : Keyword} {depth : Nat} {w v : Window}

def isEither (opener closer : Keyword) (t : Token) : Bool :=
  t = .keyword opener || t = .keyword closer

/-- Without either of the two keywords nothing is found. -/
theorem matching?_none (h : firstTop? (isEither opener closer) w = none) :
    matching? opener closer depth w = none := by
  rw [matching?]
  split
  · rfl
  · next c hc =>
      have hcut : firstTop? (isEither opener closer) w = some c := hc
      cases h.symm.trans hcut

/-- The search goes on at the first of the two keywords, one level up or down. -/
theorem matching?_some {c : Cut} (h : firstTop? (isEither opener closer) w = some c) :
    matching? opener closer depth w =
      if c.token = .keyword opener then
        (matching? opener closer (depth + 1) c.after).map fun r => (c.before ++ c.token :: r.1, r.2)
      else
        match depth with
        | 0 => some (c.before, c.after)
        | depth + 1 =>
            (matching? opener closer depth c.after).map fun r =>
                (c.before ++ c.token :: r.1, r.2) := by
  rw [matching?]
  split
  · next hnone =>
      have hcut : firstTop? (isEither opener closer) w = none := hnone
      cases h.symm.trans hcut
  · next c' hc =>
      have hcut : firstTop? (isEither opener closer) w = some c' := hc
      cases h.symm.trans hcut
      rfl

/-- The search for the keyword that ends what another one began passes over the window. -/
def Passed (opener closer : Keyword) (w : Window) : Prop :=
  ∀ depth v, matching? opener closer depth (w ++ v) =
    (matching? opener closer depth v).map fun r => (w ++ r.1, r.2)

/-- Two windows that are passed over one after the other. -/
theorem Passed.append (hw : Passed opener closer w) (hv : Passed opener closer v) :
    Passed opener closer (w ++ v) := by
  intro depth u
  rw [List.append_assoc, hw, hv, Option.map_map]
  congr 1
  funext r
  simp

/-- Outside parentheses there is neither of the two keywords. -/
theorem passed_of_tops (h : Tops (fun _ t => isEither opener closer t = false) none w) :
    Passed opener closer w := by
  intro depth v
  have hfirst := firstTop?_append h v
  cases hv : firstTop? (isEither opener closer) v with
  | none =>
      rw [hv] at hfirst
      rw [matching?_none hfirst, matching?_none hv]
      rfl
  | some c =>
      rw [hv] at hfirst
      rw [matching?_some hfirst, matching?_some hv]
      simp only [Cut.prepend, List.append_assoc]
      split
      · rw [Option.map_map]
        rfl
      · cases depth with
        | zero => rfl
        | succ depth =>
            rw [Option.map_map]
            rfl

/-- What stands between two of the keywords is passed over together with them. -/
theorem Passed.pair (hne : opener ≠ closer) (hw : Passed opener closer w) :
    Passed opener closer (.keyword opener :: (w ++ [.keyword closer])) := by
  intro depth v
  have hopener :
      firstTop? (isEither opener closer) (.keyword opener :: (w ++ .keyword closer :: v)) =
      some ⟨[], .keyword opener, w ++ .keyword closer :: v⟩ := topBy?_hit nofun (by simp [isEither])
  have hcloser : firstTop? (isEither opener closer) (.keyword closer :: v) =
      some ⟨[], .keyword closer, v⟩ := topBy?_hit nofun (by simp [isEither])
  have hword : ¬ Token.keyword closer = .keyword opener := by
    rintro ⟨⟩
    exact hne rfl
  rw [List.cons_append, List.append_assoc, List.singleton_append, matching?_some hopener,
    if_pos rfl, hw, matching?_some hcloser, if_neg hword, Option.map_map, Option.map_map]
  congr 1
  funext r
  simp

/-- The keyword is found after a window that is passed over. -/
theorem matching?_end (hne : opener ≠ closer) (hw : Passed opener closer w) :
    matching? opener closer 0 (w ++ .keyword closer :: v) = some (w, v) := by
  have hcloser : firstTop? (isEither opener closer) (.keyword closer :: v) =
      some ⟨[], .keyword closer, v⟩ := topBy?_hit nofun (by simp [isEither])
  have hword : ¬ Token.keyword closer = .keyword opener := by
    rintro ⟨⟩
    exact hne rfl
  rw [hw, matching?_some hcloser, if_neg hword]
  simp

end Pairs

/-! ## Items of lists -/

section Items

variable {depth lets : Nat} {w v : Window}

/-- The search for commas passes over the window when `depth` parentheses are open and `lets`
bindings wait for their `in`. -/
def Whole (depth lets : Nat) (w : Window) : Prop :=
  ∀ v, itemsFrom depth lets (w ++ v) = (w ++ (itemsFrom depth lets v).1, (itemsFrom depth lets v).2)

theorem whole_nil : Whole depth lets [] :=
  fun _ => rfl

theorem Whole.append (hw : Whole depth lets w) (hv : Whole depth lets v) :
    Whole depth lets (w ++ v) := by
  intro u
  rw [List.append_assoc, hw, hv, List.append_assoc]

/-- A token that is no parenthesis is passed over unless it separates, or counts bindings. -/
theorem whole_token {t : Token} (ho : t ≠ .symbol .openParen) (hc : t ≠ .symbol .closeParen)
    (hsep : depth = 0 → t ≠ .keyword .letWord ∧ t ≠ .keyword .inWord ∧
      (lets = 0 → t ≠ .symbol .comma)) : Whole depth lets [t] := by
  intro v
  rw [List.singleton_append, itemsFrom]
  · rw [depthAfter_token ho hc]
    rfl
  · exact fun hlet hd => (hsep hd).1 hlet
  · exact fun hin hd => (hsep hd).2.1 hin
  · exact fun hcomma hd hl => (hsep hd).2.2 hl hcomma

/-- Inside parentheses everything is passed over. -/
theorem Balanced.whole {w : Window} (hw : Balanced w) : ∀ depth, Whole (depth + 1) lets w := by
  induction hw with
  | nil => exact fun _ => whole_nil
  | token ho hc _ ih =>
      intro depth
      exact (whole_token ho hc fun h => absurd h (Nat.succ_ne_zero depth)).append (ih depth)
  | @group inside w _ _ ihi ihw =>
      intro depth v
      have hopen : ∀ u, itemsFrom (depth + 1) lets (.symbol .openParen :: u) =
          (.symbol .openParen :: (itemsFrom (depth + 2) lets u).1,
            (itemsFrom (depth + 2) lets u).2) :=
        fun _ => rfl
      have hclose : ∀ u, itemsFrom (depth + 2) lets (.symbol .closeParen :: u) =
          (.symbol .closeParen :: (itemsFrom (depth + 1) lets u).1,
            (itemsFrom (depth + 1) lets u).2) :=
        fun _ => rfl
      rw [List.cons_append, List.append_assoc, List.cons_append, hopen, ihi (depth + 1),
        hclose, ihw depth]
      simp

theorem whole_group {inside : Window} (hi : Balanced inside) :
    Whole 0 lets (.symbol .openParen :: (inside ++ [.symbol .closeParen])) := by
  intro v
  have hopen : ∀ u, itemsFrom 0 lets (.symbol .openParen :: u) =
      (.symbol .openParen :: (itemsFrom 1 lets u).1, (itemsFrom 1 lets u).2) := fun _ => rfl
  have hclose : ∀ u, itemsFrom 1 lets (.symbol .closeParen :: u) =
      (.symbol .closeParen :: (itemsFrom 0 lets u).1, (itemsFrom 0 lets u).2) := fun _ => rfl
  rw [List.cons_append, List.append_assoc, List.singleton_append, hopen, hi.whole 0, hclose]
  simp

/-- Between `let` and `in` a comma does not separate. -/
theorem whole_let (hw : Whole 0 (lets + 1) w) :
    Whole 0 lets (.keyword .letWord :: (w ++ [.keyword .inWord])) := by
  intro v
  have hlet : ∀ u, itemsFrom 0 lets (.keyword .letWord :: u) =
      (.keyword .letWord :: (itemsFrom 0 (lets + 1) u).1, (itemsFrom 0 (lets + 1) u).2) :=
      fun _ => rfl
  have hin : ∀ u, itemsFrom 0 (lets + 1) (.keyword .inWord :: u) =
      (.keyword .inWord :: (itemsFrom 0 lets u).1, (itemsFrom 0 lets u).2) := fun _ => rfl
  rw [List.cons_append, List.append_assoc, List.singleton_append, hlet, hw, hin]
  simp

def listed (ws : List Window) : Window :=
  separated (.symbol .comma) ws

theorem listed_cons {ws : List Window} (hws : ws ≠ []) :
    listed (w :: ws) = w ++ .symbol .comma :: listed ws :=
  separated_cons hws

/-- What holds of the empty window and of a comma, and of windows one after the other, holds of a
list if it holds of its windows. -/
theorem listed_induction {P : Window → Prop} (hnil : P []) (hcomma : P [.symbol .comma])
    (happend : ∀ {v w}, P v → P w → P (v ++ w)) {ws : List Window} (hws : ∀ w ∈ ws, P w) :
    P (listed ws) := by
  induction ws with
  | nil => exact hnil
  | cons w ws ih =>
      rw [List.forall_mem_cons] at hws
      by_cases hne : ws = []
      · subst hne
        exact hws.1
      · rw [listed_cons hne]
        exact happend hws.1 (happend hcomma (ih hws.2))

/-- The windows of a list are its items if no comma inside them separates. -/
theorem itemsFrom_listed {ws : List Window} (hw : Whole 0 0 w) (hws : ∀ v ∈ ws, Whole 0 0 v) :
    itemsFrom 0 0 (listed (w :: ws)) = (w, ws) := by
  induction ws generalizing w with
  | nil =>
      have hend := hw []
      rw [List.append_nil] at hend
      rw [listed, separated, hend]
      simp [itemsFrom]
  | cons v ws ih =>
      rw [List.forall_mem_cons] at hws
      have hcomma : ∀ u, itemsFrom 0 0 (.symbol .comma :: u) =
          ([], (itemsFrom 0 0 u).1 :: (itemsFrom 0 0 u).2) :=
        fun _ => rfl
      rw [listed_cons (List.cons_ne_nil v ws), hw, hcomma, ih hws.1 hws.2]
      simp

/-- Windows with commas between them are cut into these windows. -/
theorem items_listed {form : Form} {ws : List Window} (hws : ∀ w ∈ ws, Whole 0 0 w)
    (hne : [] ∉ ws) : items form (listed ws) = .ok ws := by
  cases ws with
  | nil => rfl
  | cons w ws =>
      rw [List.forall_mem_cons] at hws
      have hlisted : listed (w :: ws) ≠ [] := by
        cases w with
        | nil => exact absurd List.mem_cons_self hne
        | cons t w => cases ws <;> exact nofun
      rw [items, if_neg hlisted, itemsFrom_listed hws.1 hws.2]
      exact if_neg hne

/-- The items of a window with the commas between them are the window. -/
theorem listed_itemsFrom (depth lets : Nat) (w : Window) :
    listed ((itemsFrom depth lets w).1 :: (itemsFrom depth lets w).2) = w := by
  have hpush : ∀ (t : Token) (v : Window) (ws : List Window), listed ((t :: v) :: ws) =
      t :: listed (v :: ws) := by
    intro t v ws
    cases ws <;> rfl
  induction w generalizing depth lets with
  | nil => rfl
  | cons t w ih =>
      unfold itemsFrom
      split
      · exact (listed_cons (w := []) (List.cons_ne_nil _ _)).trans
          (congrArg (Token.symbol .comma :: ·) (ih 0 0))
      all_goals exact (hpush _ _ _).trans (congrArg (_ :: ·) (ih _ _))

/-- Items with commas between them are the window that they were cut from. -/
theorem listed_of_items {form : Form} {ws : List Window} (h : items form w = .ok ws) :
    listed ws = w := by
  unfold items at h
  split at h
  · next hw =>
      cases h
      exact hw.symm
  · dsimp only at h
    split at h
    · cases h
    · cases h
      exact listed_itemsFrom 0 0 w

end Items

end Window
end LineLang
