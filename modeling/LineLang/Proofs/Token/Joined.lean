import LineLang.Proofs.Effect
import LineLang.Token.Instructions

/-!
# Sources joined by a semicolon

A semicolon ends the token before it and is part of no other sign, so that the tokens of two sources
joined by one are those of the first, the semicolon and those of the second. If the first source
leaves no parenthesis open, the instructions are those of the first and those of the second. Where
the first one ends with a semicolon already, an empty instruction stands between them.

- `Token.scan_append`           : tokens of joined sources
- `splitAtSemicolons_append`    : instructions of joined lists of tokens
- `instructionsOf_append`       : instructions of joined sources
-/

namespace LineLang

open Effect

/-! ## Signs -/

namespace Symbol

theorem pair?_semicolon_right (c : Char) : pair? c ';' = none := by
  unfold pair?
  split <;> simp_all

theorem pair?_semicolon_left (d : Char) : pair? ';' d = none := by
  unfold pair?
  split <;> simp_all

theorem scan?_semicolon (bs : List Char) : scan? ';' bs = some (.semicolon, bs) := by
  cases bs with
  | nil => rfl
  | cons d bs =>
      simp only [scan?, pair?_semicolon_left]
      rfl

/-- A sign at the end of a text does not grow over a semicolon. -/
theorem scan?_append {c : Char} {cs rest : List Char} {sign : Symbol} (bs : List Char)
    (h : scan? c cs = some (sign, rest)) :
    scan? c (cs ++ ';' :: bs) = some (sign, rest ++ ';' :: bs) := by
  cases cs with
  | nil =>
      obtain ⟨s, hs, heq⟩ := Option.map_eq_some_iff.1 h
      cases heq
      simp only [List.nil_append, scan?, pair?_semicolon_right, hs, Option.map_some]
  | cons d cs =>
      simp only [List.cons_append, scan?] at h ⊢
      cases hp : pair? c d with
      | some s =>
          rw [hp] at h
          cases h
          rfl
      | none =>
          rw [hp] at h
          obtain ⟨s, hs, heq⟩ := Option.map_eq_some_iff.1 h
          cases heq
          simp only [hs, Option.map_some, List.cons_append]

end Symbol

/-! ## Tokens -/

namespace Token

/-- A run of characters ends at the first one that does not belong to it. -/
theorem takeWhile_stop {p : Char → Bool} {c : Char} (hc : p c = false) (as bs : List Char) :
    (as ++ c :: bs).takeWhile p = as.takeWhile p := by
  induction as with
  | nil => simp [hc]
  | cons a as ih =>
      simp only [List.cons_append, List.takeWhile_cons, ih]

/-- What is dropped ends at the first character that is kept, whatever follows. -/
theorem dropWhile_stop {p : Char → Bool} {c : Char} (hc : p c = false) (as bs : List Char) :
    (as ++ c :: bs).dropWhile p = as.dropWhile p ++ c :: bs := by
  induction as with
  | nil => simp [hc]
  | cons a as ih =>
      simp only [List.cons_append, List.dropWhile_cons, ih]
      split <;> rfl

/-- What follows a text that is stopped already does not matter to the run at its head. -/
theorem takeWhile_of_stopped {p : Char → Bool} {as rest : List Char} {c : Char}
    (h : as.dropWhile p = c :: rest) (bs : List Char) :
    (as ++ bs).takeWhile p = as.takeWhile p ∧ (as ++ bs).dropWhile p = c :: (rest ++ bs) := by
  induction as with
  | nil => cases h
  | cons a as ih =>
      simp only [List.cons_append, List.takeWhile_cons, List.dropWhile_cons] at h ⊢
      cases ha : p a with
      | true =>
          rw [ha] at h
          rcases ih h with ⟨htake, hdrop⟩
          exact ⟨congrArg (a :: ·) htake, hdrop⟩
      | false =>
          rw [ha] at h
          cases h
          exact ⟨rfl, rfl⟩

theorem isWordChar_semicolon : isWordChar ';' = false := by decide

theorem next_semicolon (bs : List Char) : next ';' bs = .ok (.symbol .semicolon, bs) := by
  simp [next, isWordChar_semicolon, Symbol.scan?_semicolon]

/-- A token at the head of a text is the same if a semicolon follows the text. -/
theorem next_append {c : Char} {cs rest : List Char} {t : Token} (bs : List Char)
    (h : next c cs = .ok (t, rest)) : next c (cs ++ ';' :: bs) = .ok (t, rest ++ ';' :: bs) := by
  unfold next at h ⊢
  by_cases hquote : c = '"'
  · rw [if_pos hquote] at h ⊢
    cases hd : cs.dropWhile isQuotable with
    | nil =>
        rw [hd] at h
        cases h
    | cons q tail =>
        rw [hd] at h
        cases h
        rcases takeWhile_of_stopped hd (';' :: bs) with ⟨htake, hdrop⟩
        rw [htake, hdrop]
  · rw [if_neg hquote] at h ⊢
    by_cases hword : isWordChar c
    · rw [if_pos hword] at h ⊢
      cases h
      rw [takeWhile_stop isWordChar_semicolon, dropWhile_stop isWordChar_semicolon]
    · rw [if_neg hword] at h ⊢
      cases hs : Symbol.scan? c cs with
      | none =>
          rw [hs] at h
          cases h
      | some p =>
          rw [hs] at h
          cases h
          rw [Symbol.scan?_append bs hs]

/-- A token is followed by the tokens of the rest. -/
theorem scan_cons_of_next {c : Char} {cs rest : List Char} {t : Token} (hblank : isBlank c = false)
    (h : next c cs = .ok (t, rest)) : scan (c :: cs) = (scan rest).map (t :: ·) := by
  rw [scan, if_neg (by simp [hblank])]
  split
  · next r hr => cases hr.symm.trans h
  · next t' rest' hnext =>
      cases hnext.symm.trans h
      rfl

/-- The tokens of two texts with a semicolon between them. -/
theorem scan_append {as : List Char} {ts : List Token} (bs : List Char) (h : scan as = .ok ts) :
    scan (as ++ ';' :: bs) = (scan bs).map (ts ++ .symbol .semicolon :: ·) := by
  -- Token by token, as the first text is scanned.
  fun_induction scan as generalizing ts with
  | case1 =>
      cases h
      exact scan_cons_of_next (by decide) (next_semicolon bs)
  | case2 c cs hblank ih =>
      rw [List.cons_append, scan, if_pos hblank]
      exact ih h
  | case3 c cs hblank r hnext => cases h
  | case4 c cs hblank t rest hnext _ ih =>
      rcases ok_of_map h with ⟨us, hrest, rfl⟩
      rw [List.cons_append,
        scan_cons_of_next (by simpa using hblank) (next_append bs hnext), ih hrest]
      cases scan bs <;> rfl

end Token

/-! ## Instructions -/

theorem splitAtSemicolons_semicolon (depth : Nat) (ts : List Token) :
    splitAtSemicolons depth (.symbol .semicolon :: ts) =
      if depth = 0 then (splitAtSemicolons depth ts).map ([] :: ·)
      else .error (.unmatchedParenthesis .closing) := by
  rw [splitAtSemicolons]

theorem splitAtSemicolons_cons {t : Token} (ht : t ≠ .symbol .semicolon) (depth : Nat)
    (ts : List Token) :
    splitAtSemicolons depth (t :: ts) = (splitAtSemicolons (t.depthAfter depth) ts).map fun
      | [] => [[t]]
      | group :: groups => (t :: group) :: groups :=
  splitAtSemicolons.eq_3 depth t ts ht

/-- The instructions of two lists of tokens with a semicolon between them, if the first one leaves
no parenthesis open. -/
theorem splitAtSemicolons_append {depth : Nat} {ts : List Token} {groups : List (List Token)}
    (h : splitAtSemicolons depth ts = .ok groups) (hdepth : ts.foldl Token.depthAfter depth = 0) :
    ∃ closed, closed ≠ [] ∧ (closed = groups ∨ closed = groups ++ [[]]) ∧
      ∀ us, splitAtSemicolons depth (ts ++ .symbol .semicolon :: us) =
        (splitAtSemicolons 0 us).map (closed ++ ·) := by
  induction ts generalizing depth groups with
  | nil =>
      cases h
      cases hdepth
      exact ⟨[[]], nofun, .inr rfl, splitAtSemicolons_semicolon 0⟩
  | cons t ts ih =>
      by_cases ht : t = .symbol .semicolon
      · subst ht
        rw [splitAtSemicolons_semicolon] at h
        by_cases hzero : depth = 0
        · rw [if_pos hzero] at h
          rcases ok_of_map h with ⟨gs, hts, rfl⟩
          rcases ih hts hdepth with ⟨closed, -, hclosed, heq⟩
          refine ⟨[] :: closed, nofun, ?_, fun us => ?_⟩
          · rcases hclosed with rfl | rfl
            · exact .inl rfl
            · exact .inr rfl
          · rw [List.cons_append, splitAtSemicolons_semicolon, if_pos hzero, heq us]
            cases splitAtSemicolons 0 us <;> rfl
        · rw [if_neg hzero] at h
          cases h
      · rw [splitAtSemicolons_cons ht] at h
        rcases ok_of_map h with ⟨gs, hts, rfl⟩
        rcases ih hts hdepth with ⟨closed, hnonempty, hclosed, heq⟩
        -- The token goes to the head of the first instruction, which there is in any case.
        rcases List.exists_cons_of_ne_nil hnonempty with ⟨group, rest, rfl⟩
        refine ⟨(t :: group) :: rest, nofun, ?_, fun us => ?_⟩
        · cases gs with
          | nil =>
              rcases hclosed with hnil | hsingle
              · cases hnil
              · cases hsingle
                exact .inl rfl
          | cons g gs =>
              rcases hclosed with heq | heq
              · cases heq
                exact .inl rfl
              · cases heq
                exact .inr rfl
        · rw [List.cons_append, splitAtSemicolons_cons ht, heq us]
          cases splitAtSemicolons 0 us <;> rfl

/-- The instructions of two sources with a semicolon between them. -/
theorem instructionsOf_append {a b : String} {ts us : List Token}
    {groups groups' : List (List Token)} (ha : Token.ofSource a = .ok ts)
    (hb : Token.ofSource b = .ok us) (hdepth : ts.foldl Token.depthAfter 0 = 0)
    (hgroups : splitInstructions ts = .ok groups) (hgroups' : splitInstructions us = .ok groups') :
    instructionsOf (a ++ ";" ++ b) = .ok (groups ++ groups') ∨
      instructionsOf (a ++ ";" ++ b) = .ok (groups ++ [] :: groups') := by
  have htokens : Token.ofSource (a ++ ";" ++ b) = .ok (ts ++ .symbol .semicolon :: us) := by
    have hchars : (a ++ ";" ++ b).toList = a.toList ++ ';' :: b.toList := by simp
    have hb' : Token.scan b.toList = .ok us := hb
    rw [Token.ofSource, hchars, Token.scan_append b.toList ha, hb']
    rfl
  rcases splitAtSemicolons_append hgroups hdepth with ⟨closed, -, hclosed, heq⟩
  have hsplit : instructionsOf (a ++ ";" ++ b) = .ok (closed ++ groups') := by
    have hus : splitAtSemicolons 0 us = .ok groups' := hgroups'
    rw [instructionsOf, htokens]
    show splitAtSemicolons 0 _ = _
    rw [heq us, hus]
    rfl
  rcases hclosed with rfl | rfl
  · exact .inl hsplit
  · rw [List.append_assoc] at hsplit
    exact .inr hsplit

end LineLang
