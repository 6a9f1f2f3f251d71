import LineLang.Proofs.Token.Joined
import LineLang.Proofs.Window.Scanning
import Mathlib.Data.List.Induction

/-!
# Instructions of tokens

Tokens are cut at each semicolon. The count of open parentheses runs on over the cuts, and it takes
no notice of a parenthesis that closes nothing. It is positive exactly when some parenthesis before
it is still open. Where a cut is made the count is zero, so each instruction that a semicolon ends
begins with nothing open and leaves nothing open.

- `StaysOpen`, `OpenAtSemicolon`   : a parenthesis that is still open where a semicolon stands
- `foldl_depthAfter_pos_iff`       : when the count is positive
- `splitInstructions_eq_error_iff` : when tokens are refused
- `Cuts`                           : tokens cut at their semicolons
- `SplitsInto`                     : all that is known of the instructions of tokens
- `splitInstructions_exact`        : tokens are refused, or they are split as they should be
-/

namespace LineLang

open Window Effect

variable {ts us vs g : List Token} {t : Token} {depth : Nat}

/-! ## Open parentheses -/

/-- A parenthesis in front of the tokens is still open after them: at no place has more been closed
than opened. -/
def StaysOpen (ts : List Token) : Prop :=
  ∀ us, us <+: ts → closed us ≤ opened us

/-- Before some semicolon there is a parenthesis that is still open. -/
def OpenAtSemicolon (ts : List Token) : Prop :=
  ∃ before inside after, ts = before ++ .symbol .openParen ::
    (inside ++ .symbol .semicolon :: after) ∧ StaysOpen inside

theorem staysOpen_nil : StaysOpen [] := by
  intro us hus
  rw [List.prefix_nil.1 hus]
  exact Nat.le_refl _

theorem StaysOpen.concat (h : StaysOpen ts) (ht : closed (ts ++ [t]) ≤ opened (ts ++ [t])) :
    StaysOpen (ts ++ [t]) := by
  intro us hus
  obtain rfl | hus := List.prefix_concat_iff.1 hus
  · exact ht
  · exact h us hus

/-- The count is exact as long as nothing is closed that is not open. -/
theorem foldl_depthAfter_add (h : ∀ us, us <+: ts → closed us ≤ depth + opened us) :
    ts.foldl Token.depthAfter depth + closed ts = depth + opened ts := by
  induction ts generalizing depth with
  | nil => rfl
  | cons t ts ih =>
      have hfirst : t = .symbol .closeParen → depth ≠ 0 := by
        rintro rfl rfl
        have hle := h [.symbol .closeParen] (List.prefix_append _ ts)
        rw [opened_close, closed_close, opened_nil, closed_nil] at hle
        omega
      have hstep := depthAfter_add hfirst
      have hrest : ts.foldl Token.depthAfter (t.depthAfter depth) + closed ts =
          t.depthAfter depth + opened ts := by
        apply ih
        intro us hus
        have hle := h (t :: us) (List.prefix_cons_inj t |>.2 hus)
        rw [opened_cons, closed_cons] at hle
        omega
      rw [List.foldl_cons, opened_cons t ts, closed_cons t ts]
      omega

/-- If the count is positive, then a parenthesis is open, and before the outermost one none is. -/
theorem exists_staysOpen (h : 0 < ts.foldl Token.depthAfter 0) :
    ∃ us vs, ts = us ++ .symbol .openParen :: vs ∧ us.foldl Token.depthAfter 0 = 0 ∧
      StaysOpen vs := by
  induction ts using List.reverseRecOn with
  | nil => cases h
  | append_singleton ts t ih =>
      rw [List.foldl_append, List.foldl_cons, List.foldl_nil] at h
      rcases Nat.eq_zero_or_pos (ts.foldl Token.depthAfter 0) with hzero | hpos
      · -- Nothing is open before the last token, so it is the one that opens.
        rw [hzero] at h
        have ht : t = .symbol .openParen := by
          by_contra ho
          by_cases hc : t = .symbol .closeParen
          · subst hc
            cases h
          · rw [depthAfter_token ho hc] at h
            cases h
        subst ht
        exact ⟨ts, [], rfl, hzero, staysOpen_nil⟩
      · -- The outermost parenthesis is open before the last token, and the count says that it stays
        -- so.
        obtain ⟨us, vs, rfl, hus, hvs⟩ := ih hpos
        have hcount : (us ++ .symbol .openParen :: vs).foldl Token.depthAfter 0 + closed vs =
            1 + opened vs := by
          rw [List.foldl_append, hus]
          exact foldl_depthAfter_add fun ws hws => Nat.le_add_left_of_le (hvs ws hws)
        have hstep := depthAfter_add (t := t) fun _ => hpos.ne'
        refine ⟨us, vs ++ [t], by simp, hus, hvs.concat ?_⟩
        rw [opened_append, closed_append]
        omega

/-- The count is positive exactly when some parenthesis is still open. -/
theorem foldl_depthAfter_pos_iff : 0 < ts.foldl Token.depthAfter 0 ↔
    ∃ us vs, ts = us ++ .symbol .openParen :: vs ∧ StaysOpen vs := by
  constructor
  · intro h
    obtain ⟨us, vs, hts, -, hvs⟩ := exists_staysOpen h
    exact ⟨us, vs, hts, hvs⟩
  · rintro ⟨us, vs, rfl, hvs⟩
    have hcount : vs.foldl Token.depthAfter (us.foldl Token.depthAfter 0 + 1) + closed vs =
        us.foldl Token.depthAfter 0 + 1 + opened vs :=
      foldl_depthAfter_add fun ws hws => Nat.le_add_left_of_le (hvs ws hws)
    have hle := hvs vs List.prefix_rfl
    have hstep : (us ++ .symbol .openParen :: vs).foldl Token.depthAfter 0 =
        vs.foldl Token.depthAfter (us.foldl Token.depthAfter 0 + 1) := by
      rw [List.foldl_append]
      rfl
    omega

/-! ## Refusals -/

/-- A semicolon among tokens is the first of them, or it is among the others. -/
theorem exists_semicolon_cons {P : List Token → Prop} :
    (∃ before after, t :: ts = before ++ .symbol .semicolon :: after ∧ P before) ↔
      t = .symbol .semicolon ∧ P [] ∨
        ∃ before after, ts = before ++ .symbol .semicolon :: after ∧ P (t :: before) := by
  constructor
  · rintro ⟨before, after, heq, hP⟩
    cases before with
    | nil =>
        cases heq
        exact .inl ⟨rfl, hP⟩
    | cons s before =>
        cases heq
        exact .inr ⟨before, after, rfl, hP⟩
  · rintro (⟨rfl, hP⟩ | ⟨before, after, rfl, hP⟩)
    · exact ⟨[], ts, rfl, hP⟩
    · exact ⟨t :: before, after, rfl, hP⟩

/-- Tokens are refused at a semicolon where the count is positive. -/
theorem splitAtSemicolons_eq_error_iff {r : Rejection} :
    splitAtSemicolons depth ts = .error r ↔
    r = .unmatchedParenthesis .closing ∧
      ∃ before after, ts = before ++ .symbol .semicolon :: after ∧
        0 < before.foldl Token.depthAfter depth := by
  induction ts generalizing depth with
  | nil => simp [splitAtSemicolons]
  | cons t ts ih =>
      rw [exists_semicolon_cons]
      by_cases ht : t = .symbol .semicolon
      · subst ht
        rw [splitAtSemicolons_semicolon]
        rcases Nat.eq_zero_or_pos depth with rfl | hpos
        · rw [if_pos rfl, map_eq_error_iff, ih]
          simp [Token.depthAfter]
        · rw [if_neg hpos.ne']
          simp [hpos, eq_comm]
      · rw [splitAtSemicolons_cons ht, map_eq_error_iff, ih]
        simp [ht]

/-- Tokens are refused exactly when a parenthesis is still open at a semicolon. -/
theorem splitInstructions_eq_error_iff {r : Rejection} : splitInstructions ts = .error r ↔
    r = .unmatchedParenthesis .closing ∧ OpenAtSemicolon ts := by
  rw [splitInstructions, splitAtSemicolons_eq_error_iff]
  refine and_congr_right fun _ => ?_
  constructor
  · rintro ⟨before, after, rfl, hpos⟩
    obtain ⟨us, vs, rfl, hvs⟩ := foldl_depthAfter_pos_iff.1 hpos
    exact ⟨us, vs, after, by simp, hvs⟩
  · rintro ⟨us, vs, after, rfl, hvs⟩
    exact ⟨us ++ .symbol .openParen :: vs,
      after, by simp, foldl_depthAfter_pos_iff.2 ⟨us, vs, rfl, hvs⟩⟩

/-! ## Instructions -/

/-- Tokens cut at their semicolons, where `depth` parentheses are open before the first one and none
at a cut. -/
inductive Cuts : Nat → List Token → List (List Token) → Prop
  | nil {depth : Nat} : Cuts depth [] []
  | last {depth : Nat} {g : List Token} : g ≠ [] → .symbol .semicolon ∉ g → Cuts depth g [g]
  | cut {depth : Nat} {g ts : List Token} {groups : List (List Token)} : .symbol .semicolon ∉ g →
      g.foldl Token.depthAfter depth = 0 → Cuts 0 ts groups →
      Cuts depth (g ++ .symbol .semicolon :: ts) (g :: groups)

variable {groups : List (List Token)}

/-- Splitting cuts at semicolons where no parenthesis is open. -/
theorem cuts_of_split (h : splitAtSemicolons depth ts = .ok groups) : Cuts depth ts groups := by
  induction ts generalizing depth groups with
  | nil =>
      cases h
      exact .nil
  | cons t ts ih =>
      by_cases ht : t = .symbol .semicolon
      · subst ht
        rw [splitAtSemicolons_semicolon] at h
        by_cases hzero : depth = 0
        · subst hzero
          rw [if_pos rfl] at h
          obtain ⟨gs, hts, rfl⟩ := ok_of_map h
          exact .cut (g := []) (by simp) rfl (ih hts)
        · rw [if_neg hzero] at h
          cases h
      · rw [splitAtSemicolons_cons ht] at h
        obtain ⟨gs, hts, rfl⟩ := ok_of_map h
        -- The token goes to the head of the first instruction, or begins the last one.
        cases ih hts with
        | nil => exact .last (by simp) (by simpa using Ne.symm ht)
        | last hne hnot => exact .last (by simp) (by simpa using ⟨Ne.symm ht, hnot⟩)
        | @cut _ g us gs hnot hzero hus =>
            have hcons : .symbol .semicolon ∉ t :: g := by simpa using ⟨Ne.symm ht, hnot⟩
            exact .cut hcons hzero hus

theorem Cuts.eq_nil_iff (h : Cuts depth ts groups) : groups = [] ↔ ts = [] := by
  cases h with
  | nil => simp
  | last hne => simpa using hne
  | cut => simp

/-- Tokens that leave nothing open pass the check, or they close something that is not open. -/
theorem checkBalanceFrom_of_foldl (h : ts.foldl Token.depthAfter depth = 0) :
    checkBalanceFrom depth ts = .ok () ∨
      checkBalanceFrom depth ts = .error (.unmatchedParenthesis .opening) := by
  induction ts generalizing depth with
  | nil =>
      cases h
      exact .inl rfl
  | cons t ts ih =>
      by_cases hearly : t = .symbol .closeParen ∧ depth = 0
      · obtain ⟨rfl, rfl⟩ := hearly
        exact .inr rfl
      · rw [checkBalanceFrom_cons fun ht hd => hearly ⟨ht, hd⟩]
        exact ih h

abbrev EndsInSemicolon (ts : List Token) : Prop :=
  ts.getLast? = some (.symbol .semicolon)

theorem endsInSemicolon_cut :
    EndsInSemicolon (g ++ .symbol .semicolon :: ts) ↔ ts = [] ∨ EndsInSemicolon ts := by
  rw [EndsInSemicolon, List.getLast?_append]
  cases ts with
  | nil => simp
  | cons t ts => simp [EndsInSemicolon, List.getLast?_cons]

/-- The instructions are what stands between the semicolons. One that a semicolon ends leaves no
parenthesis open. -/
structure SplitsInto (ts : List Token) (groups : List (List Token)) : Prop where
  no_semicolon : ∀ g ∈ groups, .symbol .semicolon ∉ g
  joined : [Token.symbol .semicolon].intercalate groups ++
    (if EndsInSemicolon ts then [.symbol .semicolon] else []) = ts
  count : groups.length = ts.count (.symbol .semicolon) +
    if ts = [] ∨ EndsInSemicolon ts then 0 else 1
  last_nonempty : ts ≠ [] → ¬ EndsInSemicolon ts → ∃ g ∈ groups.getLast?, g ≠ []
  ended : ∀ before g after, groups = before ++ g :: after → after ≠ [] ∨ EndsInSemicolon ts →
    checkBalance g = .ok () ∨ checkBalance g = .error (.unmatchedParenthesis .opening)

theorem splitsInto_nil : SplitsInto [] [] where
  no_semicolon := by simp
  joined := rfl
  count := rfl
  last_nonempty h := absurd rfl h
  ended := by simp

/-- What no semicolon ends is an instruction by itself. -/
theorem splitsInto_last (hne : g ≠ []) (hnot : .symbol .semicolon ∉ g) : SplitsInto g [g] := by
  have hends : ¬ EndsInSemicolon g := fun h => hnot (List.mem_of_getLast? h)
  constructor
  · simpa using hnot
  · simp [hends, List.intercalate]
  · simp [hne, hends, List.count_eq_zero.2 hnot]
  · exact fun _ _ => ⟨g, rfl, hne⟩
  · intro before h after heq hended
    cases before with
    | nil =>
        cases heq
        simp [hends] at hended
    | cons b before => simp at heq

/-- An instruction and its semicolon in front of tokens that have been split. -/
theorem SplitsInto.cut (h : SplitsInto ts groups) (hnil : groups = [] ↔ ts = [])
    (hnot : .symbol .semicolon ∉ g) (hzero : g.foldl Token.depthAfter 0 = 0) :
    SplitsInto (g ++ .symbol .semicolon :: ts) (g :: groups) := by
  have hcount : (g ++ .symbol .semicolon :: ts).count (.symbol .semicolon) =
      ts.count (.symbol .semicolon) + 1 := by
    rw [List.count_append, List.count_eq_zero.2 hnot, List.count_cons_self, Nat.zero_add]
  by_cases hts : ts = []
  · -- The semicolon is the last token, and its instruction the only one.
    obtain rfl := hnil.2 hts
    subst hts
    have hends : EndsInSemicolon (g ++ [.symbol .semicolon]) := endsInSemicolon_cut.2 (.inl rfl)
    constructor
    · simpa using hnot
    · simp [hends, List.intercalate]
    · simp [hends, hcount]
    · exact fun _ h => absurd hends h
    · intro before g' after heq _
      cases before with
      | nil =>
          cases heq
          exact checkBalanceFrom_of_foldl hzero
      | cons b before => simp at heq
  · obtain ⟨first, rest, rfl⟩ := List.exists_cons_of_ne_nil fun hempty => hts (hnil.1 hempty)
    -- More tokens follow, so the last one is the last one of them.
    have hends : EndsInSemicolon (g ++ .symbol .semicolon :: ts) ↔ EndsInSemicolon ts := by
      rw [endsInSemicolon_cut, or_iff_right hts]
    constructor
    · exact List.forall_mem_cons.2 ⟨hnot, h.no_semicolon⟩
    · calc [Token.symbol .semicolon].intercalate (g :: first :: rest) ++
            (if EndsInSemicolon (g ++ .symbol .semicolon :: ts) then [.symbol .semicolon] else [])
        _ = g ++ .symbol .semicolon :: ([Token.symbol .semicolon].intercalate (first :: rest) ++
              if EndsInSemicolon ts then [.symbol .semicolon] else []) := by
            simp [hends, List.intercalate]
        _ = g ++ .symbol .semicolon :: ts := by rw [h.joined]
    · have hrest := h.count
      simp only [List.length_cons, hcount, hends, hts, false_or] at hrest ⊢
      simp
      omega
    · intro _ hnotend
      obtain ⟨g', hg', hne⟩ := h.last_nonempty hts fun he => hnotend (hends.2 he)
      exact ⟨g', by simpa [List.getLast?_cons] using hg', hne⟩
    · intro before g' after heq hended
      cases before with
      | nil =>
          cases heq
          exact checkBalanceFrom_of_foldl hzero
      | cons b before =>
          obtain ⟨-, hrest⟩ := List.cons.inj heq
          exact h.ended before g' after hrest (hended.imp_right hends.1)

/-- Where tokens are cut at their semicolons, what is known of instructions holds. -/
theorem Cuts.splitsInto (h : Cuts depth ts groups) (hdepth : depth = 0) : SplitsInto ts groups := by
  induction h with
  | nil => exact splitsInto_nil
  | last hne hnot => exact splitsInto_last hne hnot
  | cut hnot hzero hcuts ih =>
      subst hdepth
      exact (ih rfl).cut hcuts.eq_nil_iff hnot hzero

/-- Tokens are refused exactly when a parenthesis is still open at a semicolon. Otherwise they are
split into instructions, of which only the last one can lack the end of a parenthesis, and only if
no semicolon ends it. -/
theorem splitInstructions_exact (ts : List Token) :
    (∀ r, splitInstructions ts = .error r ↔ r = .unmatchedParenthesis .closing ∧
      OpenAtSemicolon ts) ∧
      (¬ OpenAtSemicolon ts → ∃ groups, splitInstructions ts = .ok groups ∧ SplitsInto ts groups ∧
        ∀ before g after, groups = before ++ g :: after →
          checkBalance g = .error (.unmatchedParenthesis .closing) → after = [] ∧
            ¬ EndsInSemicolon ts) := by
  refine ⟨fun r => splitInstructions_eq_error_iff, fun hclosed => ?_⟩
  cases hsplit : splitInstructions ts with
  | error r => exact absurd (splitInstructions_eq_error_iff.1 hsplit).2 hclosed
  | ok groups =>
      have hinto := (cuts_of_split hsplit).splitsInto rfl
      refine ⟨groups, rfl, hinto, fun before g after heq hopen => ?_⟩
      -- An instruction that a semicolon ends would have passed the check or failed it otherwise.
      by_contra hlast
      have hended : after ≠ [] ∨ EndsInSemicolon ts := (not_and_or.1 hlast).imp_right not_not.1
      rcases hinto.ended before g after heq hended with hok | herror
      · rw [hok] at hopen
        cases hopen
      · rw [herror] at hopen
        cases hopen

/-- One instruction closes what is not open, one is empty, and the last one leaves something
open. -/
def unevenTokens : List Token :=
  [.word "1", .symbol .closeParen, .symbol .semicolon, .symbol .semicolon,
    .symbol .openParen, .word "2"]

/-- Parentheses are counted within each instruction, and those that close nothing are passed
over. -/
theorem splitInstructions_exact_uneven : ¬ OpenAtSemicolon unevenTokens ∧
    SplitsInto unevenTokens
      [[.word "1", .symbol .closeParen], [], [.symbol .openParen, .word "2"]] ∧
    checkBalance [.symbol .openParen, .word "2"] = .error (.unmatchedParenthesis .closing) ∧
    ¬ EndsInSemicolon unevenTokens := by
  have hsplit : splitInstructions unevenTokens =
      .ok [[.word "1", .symbol .closeParen], [], [.symbol .openParen, .word "2"]] := rfl
  obtain ⟨hrefused, hsplits⟩ := splitInstructions_exact unevenTokens
  have hclosed : ¬ OpenAtSemicolon unevenTokens := by
    intro hopen
    cases hsplit.symm.trans ((hrefused _).2 ⟨rfl, hopen⟩)
  obtain ⟨groups, hok, hinto, hlast⟩ := hsplits hclosed
  cases hsplit.symm.trans hok
  exact ⟨hclosed, hinto, rfl, (hlast [[.word "1", .symbol .closeParen], []] _ [] rfl rfl).2⟩

end LineLang
