import LineLang.Proofs.Window
import Mathlib.Order.Lattice.Nat

/-!
# Searches in windows whose parentheses match

In a window whose parentheses match, a place lies outside all of them if as many are closed as
opened before it. A search from the left finds the least of these places with a token of the sort it
looks for, and a search from the right the greatest. Each parenthesis has a partner, which is found
from either side; until it is found, more parentheses were met of the one sort than of the other.

- `Window.opened`, `Window.closed`    : how many parentheses are opened and closed
- `Window.Balanced.split`             : a window cut where all parentheses are closed
- `Window.Outside`, `Window.tops`     : places outside parentheses
- `Window.firstTop?_exact`, `Window.lastTop?_exact`   : what the two searches find
- `Window.closerOf?`, `Window.openerOf?`    : the partner of a parenthesis
- `Window.Searchable`                 : all that searches of a window can be relied on for
-/

namespace LineLang
namespace Window

variable {u v w inside : Window} {t : Token} {depth i j k : Nat}

/-! ## Counting parentheses -/

def opened (w : Window) : Nat :=
  w.count (.symbol .openParen)

def closed (w : Window) : Nat :=
  w.count (.symbol .closeParen)

@[simp] theorem opened_nil : opened [] = 0 := rfl

@[simp] theorem closed_nil : closed [] = 0 := rfl

@[simp] theorem opened_append (u v : Window) : opened (u ++ v) = opened u + opened v :=
  List.count_append

@[simp] theorem closed_append (u v : Window) : closed (u ++ v) = closed u + closed v :=
  List.count_append

theorem opened_cons (t : Token) (w : Window) : opened (t :: w) = opened [t] + opened w :=
  opened_append [t] w

theorem closed_cons (t : Token) (w : Window) : closed (t :: w) = closed [t] + closed w :=
  closed_append [t] w

@[simp] theorem opened_open (w : Window) : opened (.symbol .openParen :: w) = opened w + 1 :=
  List.count_cons_self

@[simp] theorem closed_open (w : Window) : closed (.symbol .openParen :: w) = closed w :=
  List.count_cons_of_ne (by decide)

@[simp] theorem opened_close (w : Window) : opened (.symbol .closeParen :: w) = opened w :=
  List.count_cons_of_ne (by decide)

@[simp] theorem closed_close (w : Window) : closed (.symbol .closeParen :: w) = closed w + 1 :=
  List.count_cons_self

theorem opened_token (h : t ≠ .symbol .openParen) (w : Window) : opened (t :: w) = opened w :=
  List.count_cons_of_ne h

theorem closed_token (h : t ≠ .symbol .closeParen) (w : Window) : closed (t :: w) = closed w :=
  List.count_cons_of_ne h

/-- What is open after a token is what was open before it, and what the token opens and closes. -/
theorem depthAfter_add (h : t = .symbol .closeParen → depth ≠ 0) :
    t.depthAfter depth + closed [t] = depth + opened [t] := by
  by_cases ho : t = .symbol .openParen
  · subst ho
    rfl
  · by_cases hc : t = .symbol .closeParen
    · subst hc
      obtain ⟨d, rfl⟩ := Nat.exists_eq_succ_of_ne_zero (h rfl)
      rfl
    · rw [depthAfter_token ho hc, opened_token ho, closed_token hc]
      rfl

/-- The check of a window goes on with the parentheses that are open after a token, unless the token
closes one that is not open. -/
theorem checkBalanceFrom_cons (h : t = .symbol .closeParen → depth ≠ 0) (w : Window) :
    checkBalanceFrom depth (t :: w) = checkBalanceFrom (t.depthAfter depth) w := by
  by_cases ho : t = .symbol .openParen
  · subst ho
    rfl
  · by_cases hc : t = .symbol .closeParen
    · subst hc
      obtain ⟨d, rfl⟩ := Nat.exists_eq_succ_of_ne_zero (h rfl)
      rfl
    · rw [checkBalanceFrom_token ho hc, depthAfter_token ho hc]

theorem open_of_checkBalanceFrom (h : checkBalanceFrom depth (t :: w) = .ok ()) :
    t = .symbol .closeParen → depth ≠ 0 := by
  rintro rfl rfl
  cases h

/-- The check of a window has counted the parentheses of its first part when it comes to the
second. -/
theorem checkBalanceFrom_append (h : checkBalanceFrom depth (u ++ v) = .ok ()) :
    ∃ e, depth + opened u = e + closed u ∧ checkBalanceFrom e v = .ok () ∧
      (e = 0 → checkBalanceFrom depth u = .ok ()) := by
  induction u generalizing depth with
  | nil =>
      refine ⟨depth, rfl, h, ?_⟩
      rintro rfl
      rfl
  | cons t u ih =>
      have hopen := open_of_checkBalanceFrom h
      rw [List.cons_append, checkBalanceFrom_cons hopen] at h
      obtain ⟨e, hcount, hv, hu⟩ := ih h
      refine ⟨e, ?_, hv, ?_⟩
      · have hstep := depthAfter_add hopen
        rw [opened_cons, closed_cons]
        omega
      · rw [checkBalanceFrom_cons hopen]
        exact hu

namespace Balanced

/-- A window cut where all parentheses are closed. -/
theorem split (h : Balanced (u ++ v)) (hcount : opened u = closed u) : Balanced u ∧ Balanced v := by
  obtain ⟨e, hdepth, hv, hu⟩ := checkBalanceFrom_append (checkBalance_iff.2 h)
  have he : e = 0 := by omega
  subst he
  exact ⟨checkBalance_iff.1 (hu rfl), checkBalance_iff.1 hv⟩

/-- No beginning closes more parentheses than it opens. -/
theorem closed_le (h : Balanced (u ++ v)) : closed u ≤ opened u := by
  obtain ⟨e, hdepth, -, -⟩ := checkBalanceFrom_append (checkBalance_iff.2 h)
  omega

/-- As many parentheses are opened as closed. -/
theorem opened_eq (h : Balanced w) : opened w = closed w := by
  induction h with
  | nil => rfl
  | token ho hc _ ih => rw [opened_token ho, closed_token hc, ih]
  | group _ _ ihi ihw =>
      simp only [opened_open, closed_open, opened_append, closed_append, opened_close,
        closed_close, ihi, ihw]
      omega

/-- No end opens more parentheses than it closes. -/
theorem opened_le (h : Balanced (u ++ v)) : opened v ≤ closed v := by
  have hall := h.opened_eq
  have hbegin := h.closed_le
  rw [opened_append, closed_append] at hall
  omega

end Balanced

/-! ## Places outside parentheses -/

/-- The place holds no parenthesis, and before it as many are closed as opened. -/
def Outside (w : Window) (i : Nat) : Prop :=
  opened (w.take i) = closed (w.take i) ∧
    ∃ t, w[i]? = some t ∧ t ≠ .symbol .openParen ∧ t ≠ .symbol .closeParen

/-- The places outside parentheses whose token satisfies `p`, which also sees the token before
it. -/
def tops (p : Token → Option Token → Bool) (w : Window) : Set Nat :=
  {i | Outside w i ∧ ∃ t, w[i]? = some t ∧ p t (w.take i).getLast? = true}

section Places

variable {p : Token → Option Token → Bool}

theorem exists_cut (h : w[i]? = some t) : ∃ u v, w = u ++ t :: v ∧ i = u.length := by
  obtain ⟨hi, rfl⟩ := List.getElem?_eq_some_iff.1 h
  refine ⟨w.take i, w.drop (i + 1), ?_, ?_⟩
  · rw [List.getElem_cons_drop, List.take_append_drop]
  · rw [List.length_take, Nat.min_eq_left hi.le]

theorem outside_cut : Outside (u ++ t :: v) u.length ↔
    opened u = closed u ∧ t ≠ .symbol .openParen ∧ t ≠ .symbol .closeParen := by
  simp [Outside]

theorem mem_tops_cut :
    u.length ∈ tops p (u ++ t :: v) ↔
    (opened u = closed u ∧ t ≠ .symbol .openParen ∧ t ≠ .symbol .closeParen) ∧
      p t u.getLast? = true := by
  rw [tops, Set.mem_ofPred_eq, outside_cut]
  simp

/-- A place of the sort cuts the window into a part before it and a part after it. -/
theorem exists_of_mem_tops (h : i ∈ tops p w) : ∃ u t v, w = u ++ t :: v ∧ i = u.length := by
  obtain ⟨-, t, ht, -⟩ := h
  obtain ⟨u, v, hw, hi⟩ := exists_cut ht
  exact ⟨u, t, v, hw, hi⟩

/-- Cut at a place outside parentheses, both parts have matching parentheses. -/
theorem Balanced.parts (h : Balanced (u ++ t :: v)) (hi : Outside (u ++ t :: v) u.length) :
    Balanced u ∧ Balanced v := by
  obtain ⟨hcount, ho, hc⟩ := outside_cut.1 hi
  obtain ⟨hu, hv⟩ := h.split hcount
  cases hv with
  | token _ _ hv => exact ⟨hu, hv⟩
  | group => exact absurd rfl ho

/-- What holds at each place outside parentheses, with the token before it. -/
theorem Balanced.tops_of {P : Option Token → Token → Prop} {before : Option Token} (hw : Balanced w)
    (h : ∀ u t v, w = u ++ t :: v → Outside w u.length → P (u.getLast?.or before) t) :
    Tops P before w := by
  -- The induction is on how the parentheses match; what has been passed is kept in front of each
  -- place.
  induction hw generalizing before with
  | nil => exact .nil
  | @token t w ho hc hw ih =>
      refine .token ho hc (h [] t w rfl ⟨rfl, t, rfl, ho, hc⟩) (ih fun u s v hv hs => ?_)
      subst hv
      obtain ⟨hcount, hso, hsc⟩ := outside_cut.1 hs
      have hout : Outside ((t :: u) ++ s :: v) (t :: u).length :=
        outside_cut.2 ⟨by rw [opened_token ho, closed_token hc, hcount], hso, hsc⟩
      simpa [List.getLast?_cons] using h (t :: u) s v rfl hout
  | @group inside w hi hw _ ih =>
      refine .group hi (ih fun u s v hv hs => ?_)
      subst hv
      obtain ⟨hcount, hso, hsc⟩ := outside_cut.1 hs
      have hfront : opened (.symbol .openParen :: (inside ++ .symbol .closeParen :: u)) =
          closed (.symbol .openParen :: (inside ++ .symbol .closeParen :: u)) := by
        simp only [opened_open, closed_open, opened_append, closed_append,
          opened_close, closed_close, hi.opened_eq, hcount]
        omega
      have hout : Outside ((.symbol .openParen :: (inside ++ .symbol .closeParen :: u)) ++ s :: v)
          (.symbol .openParen :: (inside ++ .symbol .closeParen :: u)).length :=
        outside_cut.2 ⟨hfront, hso, hsc⟩
      have hplace := h (.symbol .openParen :: (inside ++ .symbol .closeParen :: u)) s v (by simp)
        (by simpa using hout)
      simpa [List.getLast?_cons] using hplace

/-- If there is no place of the sort, then no token outside parentheses is of it. -/
theorem Balanced.tops_of_empty (hw : Balanced w) (h : tops p w = ∅) :
    Tops (fun before t => p t before = false) none w := by
  refine hw.tops_of fun u t v hv hi => ?_
  by_contra hp
  have hmem : u.length ∈ tops p w := by
    subst hv
    exact mem_tops_cut.2 ⟨outside_cut.1 hi, by simpa using hp⟩
  rw [h] at hmem
  exact hmem

end Places

/-! ## Searches -/

section Search

variable {p : Token → Option Token → Bool}

/-- A search that finds the best place of a sort, whenever it is given, and nothing if there is
none, finds exactly the best place. -/
theorem search_exact {search : Option Cut} {best : Nat → Prop}
    (hbest : (tops p w).Nonempty → ∃ i ∈ tops p w, best i)
    (hfound : ∀ c : Cut, c.window = w ∧ best c.before.length → search = some c)
    (hempty : tops p w = ∅ → search = none) :
    (∀ c, search = some c ↔ c.window = w ∧ best c.before.length) ∧
      (search = none ↔ tops p w = ∅) := by
  rcases (tops p w).eq_empty_or_nonempty with hnone | hne
  · refine ⟨fun c => ⟨fun h => ?_, hfound c⟩, fun _ => hnone, hempty⟩
    cases (hempty hnone).symm.trans h
  · obtain ⟨i, hmem, hi⟩ := hbest hne
    obtain ⟨u, t, v, hcut, rfl⟩ := exists_of_mem_tops hmem
    have hsome := hfound ⟨u, t, v⟩ ⟨hcut.symm, hi⟩
    refine ⟨fun c => ⟨fun h => ?_, hfound c⟩, fun h => ?_, fun h => absurd h hne.ne_empty⟩
    · cases hsome.symm.trans h
      exact ⟨hcut.symm, hi⟩
    · cases hsome.symm.trans h

/-- The search from the left finds the least place of the sort. -/
theorem firstTop?_exact (hw : Balanced w) (p : Token → Bool) :
    (∀ c, firstTop? p w = some c ↔ c.window = w ∧
      IsLeast (tops (fun t _ => p t) w) c.before.length) ∧
      (firstTop? p w = none ↔ tops (fun t _ => p t) w = ∅) := by
  refine search_exact
    (fun hne => ⟨_, Nat.sInf_mem hne, Nat.sInf_mem hne, fun _ hi => Nat.sInf_le hi⟩) ?_ ?_
  · rintro c ⟨rfl, hmem, hleast⟩
    obtain ⟨hout, hp⟩ := mem_tops_cut.1 hmem
    obtain ⟨hbefore, -⟩ := hw.parts (outside_cut.2 hout)
    have htops : Tops (fun _ t => p t = false) none c.before := by
      refine hbefore.tops_of fun u t v hv hi => ?_
      -- A place before this one would be less than the least.
      by_contra hp'
      have hwindow : c.window = u ++ t :: (v ++ c.token :: c.after) := by
        rw [Cut.window, hv, List.append_assoc, List.cons_append]
      have hearlier : u.length ∈ tops (fun t _ => p t) c.window := by
        rw [hv] at hi
        rw [hwindow]
        exact mem_tops_cut.2 ⟨outside_cut.1 hi, by simpa using hp'⟩
      have hle := hleast hearlier
      rw [hv, List.length_append, List.length_cons] at hle
      omega
    exact firstTop?_of_tops htops hout.2.1 hp
  · exact fun hempty => firstTop?_eq_none (hw.tops_of_empty hempty)

/-- The search from the right finds the greatest place of the sort. -/
theorem lastTop?_exact (hw : Balanced w) (p : Token → Option Token → Bool) :
    (∀ c, lastTop? p w = some c ↔ c.window = w ∧ IsGreatest (tops p w) c.before.length) ∧
      (lastTop? p w = none ↔ tops p w = ∅) := by
  have hbound : BddAbove (tops p w) := by
    refine ⟨w.length, fun i hi => ?_⟩
    obtain ⟨u, t, v, rfl, rfl⟩ := exists_of_mem_tops hi
    simp
  refine search_exact
    (fun hne =>
    ⟨_, Nat.sSup_mem hne hbound, Nat.sSup_mem hne hbound, fun _ hi => le_csSup hbound hi⟩) ?_ ?_
  · rintro c ⟨rfl, hmem, hgreatest⟩
    obtain ⟨hout, hp⟩ := mem_tops_cut.1 hmem
    obtain ⟨hbefore, hafter⟩ := hw.parts (outside_cut.2 hout)
    refine lastTop?_of_tops hout.2.2 hp (hafter.tops_of fun u t v hv hi => ?_)
    -- A place after this one would be greater than the greatest.
    by_contra hp'
    have hwindow : c.window = (c.before ++ c.token :: u) ++ t :: v := by
      rw [Cut.window, hv, List.append_assoc, List.cons_append]
    have hlater : (c.before ++ c.token :: u).length ∈ tops p c.window := by
      rw [hv] at hi
      obtain ⟨hcount, ho, hc⟩ := outside_cut.1 hi
      have hfront : opened (c.before ++ c.token :: u) = closed (c.before ++ c.token :: u) := by
        rw [opened_append, closed_append, opened_token hout.2.1, closed_token hout.2.2,
          hout.1, hcount]
      rw [hwindow]
      refine mem_tops_cut.2 ⟨⟨hfront, ho, hc⟩, ?_⟩
      simpa [List.getLast?_cons] using hp'
    have hle := hgreatest hlater
    rw [List.length_append, List.length_cons] at hle
    omega
  · exact fun hempty => lastTop?_eq_none (hw.tops_of_empty hempty)

end Search

/-! ## Partners -/

section Partners

/-- The place of the parenthesis that closes the one at a place, found from the left. -/
def closerOf? (w : Window) (i : Nat) : Option Nat :=
  if w[i]? = some (.symbol .openParen) then
    (enclosed? .openParen .closeParen 0 (w.drop (i + 1))).map fun r => i + 1 + r.1.length
  else none

/-- The place of the parenthesis that opens the one at a place, found from the right. -/
def openerOf? (w : Window) (j : Nat) : Option Nat :=
  if w[j]? = some (.symbol .closeParen) then
    (enclosed? .closeParen .openParen 0 (w.take j).reverse).map fun r => r.2.length
  else none

/-- Two places hold parentheses around a window whose own parentheses match. -/
def Partners (w : Window) (i j : Nat) : Prop :=
  ∃ u inside v, w = u ++ .symbol .openParen :: (inside ++ .symbol .closeParen :: v) ∧
    Balanced inside ∧ i = u.length ∧ j = u.length + 1 + inside.length

/-- A window that opens more parentheses than it closes ends with one that is open. -/
theorem exists_opener (h : closed u < opened u) :
    ∃ v inside, u = v ++ .symbol .openParen :: inside ∧ Balanced inside := by
  -- The induction is on the length: before a parenthesis that is closed again, an open one is
  -- looked for anew.
  induction hn : u.length using Nat.strong_induction_on generalizing u with
  | _ n ih =>
      subst hn
      rcases List.eq_nil_or_concat u with rfl | ⟨v, t, rfl⟩
      · simp at h
      rw [List.concat_eq_append] at h ih ⊢
      rw [opened_append, closed_append] at h
      by_cases ho : t = .symbol .openParen
      · subst ho
        exact ⟨v, [], rfl, .nil⟩
      by_cases hc : t = .symbol .closeParen
      · subst hc
        rw [opened_close, closed_close, opened_nil, closed_nil] at h
        obtain ⟨v', inside, rfl, hinside⟩ := ih v.length (by simp) (u := v) (by omega) rfl
        rw [opened_append, closed_append, opened_open, closed_open, hinside.opened_eq] at h
        obtain ⟨v'', inside', rfl, hinside'⟩ := ih v'.length (by simp) (u := v') (by omega) rfl
        refine ⟨v'',
          inside' ++ .symbol .openParen :: (inside ++ [.symbol .closeParen]), by simp, ?_⟩
        exact hinside'.append (.group hinside .nil)
      · rw [opened_token ho, closed_token hc] at h
        obtain ⟨v', inside, rfl, hinside⟩ := ih v.length (by simp) (u := v) (by simpa using h) rfl
        exact ⟨v', inside ++ [t], by simp, hinside.append (.token ho hc .nil)⟩

/-- Every parenthesis that opens has its partner. -/
theorem exists_closer (hw : Balanced w) (hi : w[i]? = some (.symbol .openParen)) :
    ∃ j, Partners w i j := by
  obtain ⟨u, v, rfl, rfl⟩ := exists_cut hi
  obtain ⟨e, -, hv, -⟩ := checkBalanceFrom_append (checkBalance_iff.2 hw)
  have hrest : checkBalanceFrom (e + 1) v = .ok () := hv
  obtain ⟨inside, rest, hinside, -, rfl⟩ := closes_of_checkBalanceFrom hrest
  exact ⟨_, u, inside, rest, rfl, hinside, rfl, rfl⟩

/-- So has every one that closes. -/
theorem exists_opener_of_closer (hw : Balanced w) (hj : w[j]? = some (.symbol .closeParen)) :
    ∃ i, Partners w i j := by
  obtain ⟨u, v, rfl, rfl⟩ := exists_cut hj
  have hclosed : closed (u ++ [.symbol .closeParen]) ≤ opened (u ++ [.symbol .closeParen]) :=
    Balanced.closed_le (v := v) (by simpa using hw)
  rw [opened_append, closed_append, opened_close, closed_close, opened_nil, closed_nil] at hclosed
  obtain ⟨u', inside, rfl, hinside⟩ := exists_opener (u := u) (by omega)
  refine ⟨u'.length, u', inside, v, by simp, hinside, rfl, ?_⟩
  simp
  omega

/-- The partner is found from the left, by counting. -/
theorem closerOf?_of_partners (h : Partners w i j) : closerOf? w i = some j := by
  obtain ⟨u, inside, v, rfl, hinside, rfl, rfl⟩ := h
  have hdrop : (u ++ .symbol .openParen :: (inside ++ .symbol .closeParen :: v)).drop
      (u.length + 1) = inside ++ .symbol .closeParen :: v := by
    rw [List.drop_append]
    simp
  rw [closerOf?, if_pos (by simp), hdrop, hinside.enclosed?_group]
  rfl

/-- It is found from the right as well. -/
theorem openerOf?_of_partners (h : Partners w i j) : openerOf? w j = some i := by
  obtain ⟨u, inside, v, rfl, hinside, rfl, rfl⟩ := h
  have hsplit : u ++ .symbol .openParen :: (inside ++ .symbol .closeParen :: v) =
      (u ++ .symbol .openParen :: inside) ++ .symbol .closeParen :: v := by simp
  have hlength : u.length + 1 + inside.length = (u ++ .symbol .openParen :: inside).length := by
    simp
    omega
  have hreverse : (u ++ .symbol .openParen :: inside).reverse =
      inside.reverse ++ .symbol .openParen :: u.reverse := by simp
  rw [hsplit, hlength, openerOf?, if_pos (by simp), List.take_left, hreverse,
    hinside.enclosed?_group_reverse]
  simp

/-- From the left, a parenthesis that is opened finds its partner. -/
theorem closerOf?_eq_some_iff (hw : Balanced w) : closerOf? w i = some j ↔ Partners w i j := by
  refine ⟨fun h => ?_, closerOf?_of_partners⟩
  by_cases hi : w[i]? = some (.symbol .openParen)
  · obtain ⟨j', hj'⟩ := exists_closer hw hi
    cases (closerOf?_of_partners hj').symm.trans h
    exact hj'
  · rw [closerOf?, if_neg hi] at h
    cases h

/-- From the right, a parenthesis that is closed finds its partner. -/
theorem openerOf?_eq_some_iff (hw : Balanced w) : openerOf? w j = some i ↔ Partners w i j := by
  refine ⟨fun h => ?_, openerOf?_of_partners⟩
  by_cases hj : w[j]? = some (.symbol .closeParen)
  · obtain ⟨i', hi'⟩ := exists_opener_of_closer hw hj
    cases (openerOf?_of_partners hi').symm.trans h
    exact hi'
  · rw [openerOf?, if_neg hj] at h
    cases h

/-- From a parenthesis up to its partner, more are opened than closed. -/
theorem Partners.closed_lt (h : Partners w i j) (hik : i < k) (hkj : k ≤ j) :
    closed ((w.take k).drop i) < opened ((w.take k).drop i) := by
  obtain ⟨u, inside, v, rfl, hinside, rfl, rfl⟩ := h
  obtain ⟨n, rfl⟩ : ∃ n, k = u.length + (1 + n) := ⟨k - u.length - 1, by omega⟩
  have hbetween :
      ((u ++ .symbol .openParen :: (inside ++ .symbol .closeParen :: v)).take
        (u.length + (1 + n))).drop u.length = .symbol .openParen :: inside.take n := by
    rw [List.take_length_add_append, List.drop_left, Nat.add_comm 1 n, List.take_succ_cons,
      List.take_append_of_le_length (by omega)]
  have hle : closed (inside.take n) ≤ opened (inside.take n) :=
    Balanced.closed_le (v := inside.drop n) (by rwa [List.take_append_drop])
  rw [hbetween, opened_open, closed_open]
  omega

/-- From a parenthesis back to its partner, more are closed than opened. -/
theorem Partners.opened_lt (h : Partners w i j) (hik : i ≤ k) (hkj : k < j) :
    opened ((w.take (j + 1)).drop (k + 1)) < closed ((w.take (j + 1)).drop (k + 1)) := by
  obtain ⟨u, inside, v, rfl, hinside, rfl, rfl⟩ := h
  obtain ⟨n, rfl⟩ : ∃ n, k = u.length + n := ⟨k - u.length, by omega⟩
  have hbetween : ((u ++ .symbol .openParen :: (inside ++ .symbol .closeParen :: v)).take
      (u.length + 1 + inside.length + 1)).drop (u.length + n + 1) =
      inside.drop n ++ [.symbol .closeParen] := by
    have hsplit : u ++ .symbol .openParen :: (inside ++ .symbol .closeParen :: v) =
        (u ++ .symbol .openParen :: (inside ++ [.symbol .closeParen])) ++ v := by simp
    have hlength : u.length + 1 + inside.length + 1 =
        (u ++ Token.symbol .openParen :: (inside ++ [.symbol .closeParen])).length := by
      simp
      omega
    rw [hsplit, hlength, List.take_left, Nat.add_assoc, List.drop_length_add_append,
      List.drop_succ_cons, List.drop_append_of_le_length (by omega)]
  have hle : opened (inside.drop n) ≤ closed (inside.drop n) :=
    Balanced.opened_le (u := inside.take n) (by rwa [List.take_append_drop])
  rw [hbetween, opened_append, closed_append, opened_close, closed_close, opened_nil, closed_nil]
  omega

end Partners

/-! ## What searches can be relied on for -/

/-- Searches of the window find what they look for: the least and the greatest place outside
parentheses, and the partner of each parenthesis. On the way to a partner the count of parentheses
that are open is never zero. -/
structure Searchable (w : Window) : Prop where
  first (p : Token → Bool) (c : Cut) : firstTop? p w = some c ↔
    c.window = w ∧ IsLeast (tops (fun t _ => p t) w) c.before.length
  first_none (p : Token → Bool) : firstTop? p w = none ↔ tops (fun t _ => p t) w = ∅
  last (p : Token → Option Token → Bool) (c : Cut) : lastTop? p w = some c ↔
    c.window = w ∧ IsGreatest (tops p w) c.before.length
  last_none (p : Token → Option Token → Bool) : lastTop? p w = none ↔ tops p w = ∅
  closer (i : Nat) : w[i]? = some (.symbol .openParen) → ∃ j, closerOf? w i = some j
  opener (j : Nat) : w[j]? = some (.symbol .closeParen) → ∃ i, openerOf? w j = some i
  inverse (i j : Nat) : closerOf? w i = some j ↔ openerOf? w j = some i
  count_right (i j k : Nat) : closerOf? w i = some j → i < k → k ≤ j →
    closed ((w.take k).drop i) < opened ((w.take k).drop i)
  count_left (i j k : Nat) : openerOf? w j = some i → i ≤ k → k < j →
    opened ((w.take (j + 1)).drop (k + 1)) < closed ((w.take (j + 1)).drop (k + 1))

/-- All searches find what they look for where the parentheses match. -/
theorem Balanced.searchable (hw : Balanced w) : Searchable w where
  first p := (firstTop?_exact hw p).1
  first_none p := (firstTop?_exact hw p).2
  last p := (lastTop?_exact hw p).1
  last_none p := (lastTop?_exact hw p).2
  closer i hi := by
    obtain ⟨j, hj⟩ := exists_closer hw hi
    exact ⟨j, closerOf?_of_partners hj⟩
  opener j hj := by
    obtain ⟨i, hi⟩ := exists_opener_of_closer hw hj
    exact ⟨i, openerOf?_of_partners hi⟩
  inverse i j := by rw [closerOf?_eq_some_iff hw, openerOf?_eq_some_iff hw]
  count_right i j k h := ((closerOf?_eq_some_iff hw).1 h).closed_lt
  count_left i j k h := ((openerOf?_eq_some_iff hw).1 h).opened_lt

end Window
end LineLang
