import LineLang.Window

/-!
# Windows with matching parentheses

A search for a token outside parentheses passes over a window in which there is none, whichever of
the two directions it takes.

- `Window.Balanced`               : the parentheses of a window match
- `Window.checkBalance_iff`       : exactly then the check of them succeeds
- `Window.Tops`                   : a property of the tokens outside parentheses
- `Window.firstTop?_of_tops`      : the first token of a sort
- `Window.lastTop?_of_tops`       : the last token of a sort
-/

namespace LineLang
namespace Window

/-! ## Parentheses -/

inductive Balanced : Window → Prop
  | nil : Balanced []
  | token {t : Token} {w : Window} : t ≠ .symbol .openParen → t ≠ .symbol .closeParen →
      Balanced w → Balanced (t :: w)
  | group {inside w : Window} : Balanced inside → Balanced w →
      Balanced (.symbol .openParen :: (inside ++ .symbol .closeParen :: w))

/-- Two windows side by side. -/
theorem Balanced.append {w v : Window} (hw : Balanced w) (hv : Balanced v) : Balanced (w ++ v) := by
  induction hw with
  | nil => exact hv
  | token ho hc _ ih => exact .token ho hc ih
  | group hi _ _ ih =>
      rw [List.cons_append, List.append_assoc]
      exact .group hi ih

theorem depthAfter_token {t : Token} {depth : Nat} (ho : t ≠ .symbol .openParen)
    (hc : t ≠ .symbol .closeParen) : t.depthAfter depth = depth := by
  unfold Token.depthAfter
  split
  · exact absurd rfl ho
  · exact absurd rfl hc
  · rfl

theorem checkBalanceFrom_token {t : Token} (ho : t ≠ .symbol .openParen)
    (hc : t ≠ .symbol .closeParen) (depth : Nat) (w : Window) :
    checkBalanceFrom depth (t :: w) = checkBalanceFrom depth w := by
  rw [checkBalanceFrom]
  · exact ho
  · exact hc

/-- The check passes over a window whose parentheses match. -/
theorem Balanced.check {w : Window} (hw : Balanced w) (depth : Nat) (v : Window) :
    checkBalanceFrom depth (w ++ v) = checkBalanceFrom depth v := by
  induction hw generalizing depth v with
  | nil => rfl
  | token ho hc _ ih =>
      rw [List.cons_append, checkBalanceFrom_token ho hc, ih]
  | group _ _ ihi ihw =>
      rw [List.cons_append, List.append_assoc, checkBalanceFrom, ihi, List.cons_append]
      exact ihw depth v

/-- The window closes `depth` parentheses that were opened before it, besides its own. -/
def Closes : Nat → Window → Prop
  | 0, w => Balanced w
  | depth + 1, w => ∃ inside rest, Balanced inside ∧ Closes depth rest ∧
      w = inside ++ .symbol .closeParen :: rest

/-- What matches in front makes no difference. -/
theorem Closes.prepend {depth : Nat} {v w : Window} (hv : Balanced v) (hw : Closes depth w) :
    Closes depth (v ++ w) := by
  cases depth with
  | zero => exact hv.append hw
  | succ depth =>
      rcases hw with ⟨inside, rest, hinside, hrest, rfl⟩
      exact ⟨v ++ inside, rest, hv.append hinside, hrest, (List.append_assoc _ _ _).symm⟩

/-- A window that passes the check closes what was open before it. -/
theorem closes_of_checkBalanceFrom {depth : Nat} {w : Window}
    (h : checkBalanceFrom depth w = .ok ()) : Closes depth w := by
  induction w generalizing depth with
  | nil =>
      cases depth with
      | zero => exact .nil
      | succ depth => cases h
  | cons t w ih =>
      by_cases ho : t = .symbol .openParen
      · -- What follows closes this parenthesis first.
        subst ho
        have hcloses : Closes (depth + 1) w := ih h
        rcases hcloses with ⟨inside, rest, hinside, hrest, rfl⟩
        have hgroup : Balanced (.symbol .openParen :: (inside ++ [.symbol .closeParen])) :=
          .group hinside .nil
        simpa using hrest.prepend hgroup
      · by_cases hc : t = .symbol .closeParen
        · subst hc
          cases depth with
          | zero => cases h
          | succ depth => exact ⟨[], w, .nil, ih h, rfl⟩
        · rw [checkBalanceFrom_token ho hc] at h
          exact (ih h).prepend (.token ho hc .nil)

/-- The check finds exactly the windows whose parentheses match. -/
theorem checkBalance_iff {w : Window} : checkBalance w = .ok () ↔ Balanced w := by
  constructor
  · intro h
    exact closes_of_checkBalanceFrom h
  · intro h
    have hcheck := h.check 0 []
    rwa [List.append_nil] at hcheck

/-! ## The inside of a parenthesis -/

section Enclosed

variable {opener closer : Symbol} {t : Token} {depth : Nat} {w : Window}

theorem enclosed?_token (hc : t ≠ .symbol closer) (ho : t ≠ .symbol opener) :
    enclosed? opener closer depth (t :: w) =
      (enclosed? opener closer depth w).map fun r => (t :: r.1, r.2) := by
  simp [enclosed?, hc, ho]

theorem enclosed?_opener (hne : opener ≠ closer) :
    enclosed? opener closer depth (.symbol opener :: w) =
      (enclosed? opener closer (depth + 1) w).map fun r => (.symbol opener :: r.1, r.2) := by
  simp [enclosed?, hne]

theorem enclosed?_closer :
    enclosed? opener closer (depth + 1) (.symbol closer :: w) =
      (enclosed? opener closer depth w).map fun r => (.symbol closer :: r.1, r.2) := by
  simp [enclosed?]

theorem enclosed?_end : enclosed? opener closer 0 (.symbol closer :: w) = some ([], w) := by
  simp [enclosed?]

end Enclosed

/-- From the left, the inside is passed over as a whole. -/
theorem Balanced.enclosed? {w : Window} (hw : Balanced w) (depth : Nat) (v : Window) :
    enclosed? .openParen .closeParen depth (w ++ v) =
      (enclosed? .openParen .closeParen depth v).map fun r => (w ++ r.1, r.2) := by
  induction hw generalizing depth v with
  | nil => simp
  | token ho hc _ ih =>
      rw [List.cons_append, enclosed?_token hc ho, ih, Option.map_map]
      rfl
  | group _ _ ihi ihw =>
      have hne : Symbol.openParen ≠ .closeParen := nofun
      rw [List.cons_append, List.append_assoc, List.cons_append, enclosed?_opener hne, ihi,
        enclosed?_closer, ihw]
      simp only [Option.map_map]
      congr 1
      funext r
      simp

/-- From the right, too; there the parentheses change their parts. -/
theorem Balanced.enclosed?_reverse {w : Window} (hw : Balanced w) (depth : Nat) (v : Window) :
    Window.enclosed? .closeParen .openParen depth (w.reverse ++ v) =
      (Window.enclosed? .closeParen .openParen depth v).map fun r => (w.reverse ++ r.1, r.2) := by
  induction hw generalizing depth v with
  | nil => simp
  | token ho hc _ ih =>
      rw [List.reverse_cons, List.append_assoc, ih, List.singleton_append, enclosed?_token ho hc,
        Option.map_map]
      congr 1
      funext r
      simp
  | group _ _ ihi ihw =>
      have hne : Symbol.closeParen ≠ .openParen := nofun
      simp only [List.reverse_cons, List.reverse_append, List.append_assoc, List.nil_append,
        List.cons_append]
      rw [ihw, enclosed?_opener hne, ihi, enclosed?_closer]
      simp only [Option.map_map]
      rfl

theorem Balanced.enclosed?_group {w : Window} (hw : Balanced w) (v : Window) :
    Window.enclosed? .openParen .closeParen 0 (w ++ .symbol .closeParen :: v) = some (w, v) := by
  rw [hw.enclosed?, enclosed?_end]
  simp

theorem Balanced.enclosed?_group_reverse {w : Window} (hw : Balanced w) (v : Window) :
    Window.enclosed? .closeParen .openParen 0 (w.reverse ++ .symbol .openParen :: v) =
      some (w.reverse, v) := by
  rw [hw.enclosed?_reverse, enclosed?_end]
  simp

/-! ## Tokens outside parentheses -/

/-- The parentheses match, and `P` holds of each token outside them and the token before it. Before
the window stands `before`. -/
inductive Tops (P : Option Token → Token → Prop) : Option Token → Window → Prop
  | nil {before : Option Token} : Tops P before []
  | token {before : Option Token} {t : Token} {w : Window} : t ≠ .symbol .openParen →
      t ≠ .symbol .closeParen → P before t → Tops P (some t) w → Tops P before (t :: w)
  | group {before : Option Token} {inside w : Window} : Balanced inside →
      Tops P (some (.symbol .closeParen)) w →
      Tops P before (.symbol .openParen :: (inside ++ .symbol .closeParen :: w))

namespace Tops

variable {P Q : Option Token → Token → Prop} {before : Option Token} {w v : Window}

theorem mono (h : Tops P before w) (hPQ : ∀ before t, P before t → Q before t) :
    Tops Q before w := by
  induction h with
  | nil => exact .nil
  | token ho hc hp _ ih => exact .token ho hc (hPQ _ _ hp) ih
  | group hi _ ih => exact .group hi ih

theorem balanced (h : Tops P before w) : Balanced w := by
  induction h with
  | nil => exact .nil
  | token ho hc _ _ ih => exact .token ho hc ih
  | group hi _ ih => exact .group hi ih

/-- The second window follows the last token of the first one. -/
theorem append (h : Tops P before w) (hv : Tops P (w.getLast?.or before) v) :
    Tops P before (w ++ v) := by
  induction h with
  | nil => simpa using hv
  | token ho hc hp _ ih =>
      refine .token ho hc hp (ih ?_)
      simpa [List.getLast?_cons] using hv
  | group hi _ ih =>
      rw [List.cons_append, List.append_assoc]
      refine .group hi (ih ?_)
      simpa [List.getLast?_cons] using hv

end Tops

/-! ## Searches -/

section Search

variable {opener closer : Symbol} {p : Token → Option Token → Bool} {t : Token} {w : Window}

theorem topBy?_miss (ht : t ≠ .symbol opener) (hp : p t w.head? = false) :
    topBy? opener closer p (t :: w) = (topBy? opener closer p w).map (·.prepend [t]) := by
  rw [topBy?]
  simp [ht, hp]

theorem topBy?_hit (ht : t ≠ .symbol opener) (hp : p t w.head? = true) :
    topBy? opener closer p (t :: w) = some ⟨[], t, w⟩ := by
  rw [topBy?]
  simp [ht, hp]

/-- A search goes on after parentheses, whatever stands in them. -/
theorem topBy?_group {inside rest : Window}
    (h : enclosed? opener closer 0 w = some (inside, rest)) :
    topBy? opener closer p (.symbol opener :: w) =
      (topBy? opener closer p rest).map
        (·.prepend (.symbol opener :: inside ++ [.symbol closer])) := by
  rw [topBy?]
  simp only [if_true]
  split
  · next hnone =>
      rw [h] at hnone
      cases hnone
  · next i r hsome =>
      rw [h] at hsome
      cases hsome
      rfl

end Search

def Cut.extend (w : Window) (c : Cut) : Cut :=
  { c with after := c.after ++ w }

/-- A search from the left passes over a window that has nothing to be found. -/
theorem firstTop?_append {p : Token → Bool} {before : Option Token} {w : Window}
    (h : Tops (fun _ t => p t = false) before w) (v : Window) :
    firstTop? p (w ++ v) = (firstTop? p v).map (·.prepend w) := by
  unfold firstTop?
  induction h with
  | nil =>
      have hnil : Cut.prepend [] = id := rfl
      rw [hnil, Option.map_id]
      rfl
  | token ho hc hp _ ih =>
      rw [List.cons_append, topBy?_miss ho hp, ih, Option.map_map]
      rfl
  | @group before inside w hi _ ih =>
      have henclosed := hi.enclosed?_group (w ++ v)
      rw [List.cons_append, List.append_assoc, List.cons_append, topBy?_group henclosed, ih,
        Option.map_map]
      congr 1
      funext c
      simp [Cut.prepend]

/-- So does a search from the right. It looks at the token before, which may stand in the other
window. -/
theorem lastTop?_append {p : Token → Option Token → Bool} {before : Option Token} {v w : Window}
    (hv : v.getLast? = before) (h : Tops (fun before t => p t before = false) before w) :
    lastTop? p (v ++ w) = (lastTop? p v).map (·.extend w) := by
  -- The induction is on the window that is passed over, and what stands before it grows.
  induction h generalizing v with
  | nil =>
      have hnil : Cut.extend [] = id := by
        funext c
        simp [Cut.extend]
      rw [List.append_nil, hnil, Option.map_id]
      rfl
  | @token before t w ho hc hp _ ih =>
      have hstep : lastTop? p (v ++ [t]) = (lastTop? p v).map (·.extend [t]) := by
        have hlast : p t v.reverse.head? = false := by rw [List.head?_reverse, hv, hp]
        unfold lastTop?
        rw [List.reverse_append, List.reverse_singleton, List.singleton_append,
          topBy?_miss hc hlast, Option.map_map, Option.map_map]
        congr 1
        funext c
        simp [Cut.reverse, Cut.prepend, Cut.extend]
      have hrest := ih (v := v ++ [t]) (by simp)
      rw [List.append_assoc, List.singleton_append] at hrest
      rw [hrest, hstep, Option.map_map]
      congr 1
      funext c
      simp [Cut.extend]
  | @group before inside w hi _ ih =>
      let group : Window := .symbol .openParen :: (inside ++ [.symbol .closeParen])
      have hstep : lastTop? p (v ++ group) = (lastTop? p v).map (·.extend group) := by
        have hreverse : (v ++ group).reverse =
            .symbol .closeParen :: (inside.reverse ++ .symbol .openParen :: v.reverse) := by
          simp [group]
        unfold lastTop?
        rw [hreverse, topBy?_group (hi.enclosed?_group_reverse v.reverse), Option.map_map,
          Option.map_map]
        congr 1
        funext c
        simp [Cut.reverse, Cut.prepend, Cut.extend, group]
      have hlast : (v ++ group).getLast? = some (.symbol .closeParen) := by
        simp [group, List.getLast?_cons]
      have hrest := ih hlast
      have hsplit : v ++ group ++ w =
          v ++ .symbol .openParen :: (inside ++ .symbol .closeParen :: w) := by
        simp [group]
      rw [← hsplit, hrest, hstep, Option.map_map]
      congr 1
      funext c
      simp [Cut.extend, group]

/-- The first token that satisfies `p` stands after a window without one. -/
theorem firstTop?_of_tops {p : Token → Bool} {before : Option Token} {w v : Window} {t : Token}
    (h : Tops (fun _ t => p t = false) before w) (ht : t ≠ .symbol .openParen) (hp : p t = true) :
    firstTop? p (w ++ t :: v) = some ⟨w, t, v⟩ := by
  have hhit : firstTop? p (t :: v) = some ⟨[], t, v⟩ := topBy?_hit ht hp
  rw [firstTop?_append h, hhit]
  simp [Cut.prepend]

theorem firstTop?_eq_none {p : Token → Bool} {before : Option Token} {w : Window}
    (h : Tops (fun _ t => p t = false) before w) : firstTop? p w = none := by
  have happend := firstTop?_append h []
  rw [List.append_nil] at happend
  rw [happend, firstTop?, topBy?]
  rfl

/-- The last token that satisfies `p` stands before a window without one. -/
theorem lastTop?_of_tops {p : Token → Option Token → Bool} {v w : Window} {t : Token}
    (ht : t ≠ .symbol .closeParen) (hp : p t v.getLast? = true)
    (h : Tops (fun before t => p t before = false) (some t) w) :
    lastTop? p (v ++ t :: w) = some ⟨v, t, w⟩ := by
  have hhit : lastTop? p (v ++ [t]) = some ⟨v, t, []⟩ := by
    have hlast : p t v.reverse.head? = true := by rw [List.head?_reverse, hp]
    unfold lastTop?
    rw [List.reverse_append, List.reverse_singleton, List.singleton_append, topBy?_hit ht hlast]
    simp [Cut.reverse]
  have happend := lastTop?_append (v := v ++ [t]) (by simp) h
  rw [List.append_assoc, List.singleton_append] at happend
  rw [happend, hhit]
  simp [Cut.extend]

theorem lastTop?_eq_none {p : Token → Option Token → Bool} {w : Window}
    (h : Tops (fun before t => p t before = false) none w) : lastTop? p w = none := by
  have happend := lastTop?_append (v := []) rfl h
  rw [List.nil_append] at happend
  rw [happend, lastTop?, List.reverse_nil, topBy?]
  rfl

end Window
end LineLang
