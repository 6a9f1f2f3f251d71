import LineLang.Proofs.Token.Joined
import Mathlib.Data.List.TakeWhile

/-!
# Longest tokens

A source is read from left to right, and at each place the longest token is taken. Nothing of the
source is lost but blanks between tokens: the tokens, written out again with the same blanks, are
the source. Reading fails at a colon that begins no sign and at a quote that is never closed, and
nowhere else.

- `Token.Visits`, `Token.Spoiled`   : the places that are come to, and those that begin no token
- `Symbol.scan?_eq_some`            : the sign at the head of a text is the longest one there
- `Token.next_ok`, `Token.next_of_legible`    : what it takes to be the token at the head of a text
- `Token.scan_ok`, `Token.scan_error`         : all tokens of a text, and where reading stops
- `Token.ofSource_longest`          : reading is lossless and takes the longest tokens
-/

namespace LineLang

open Effect

/-! ## Signs -/

namespace Symbol

variable {c d : Char} {cs rest : List Char} {sign : Symbol}

/-- The table of signs of two characters is the inverse of their spelling. -/
theorem pair?_eq_some : pair? c d = some sign ↔ sign.spelling.toList = [c, d] := by
  constructor
  · intro h
    unfold pair? at h
    split at h <;> cases h <;> rfl
  · intro h
    cases sign <;> cases h <;> rfl

theorem single?_eq_some : single? c = some sign ↔ sign.spelling.toList = [c] := by
  constructor
  · intro h
    unfold single? at h
    split at h <;> cases h <;> rfl
  · intro h
    cases sign <;> cases h <;> rfl

theorem spelling_cases (sign : Symbol) :
    (∃ c, sign.spelling.toList = [c]) ∨ ∃ c d, sign.spelling.toList = [c, d] := by
  cases sign <;> first | exact .inl ⟨_, rfl⟩ | exact .inr ⟨_, _, rfl⟩

theorem length_spelling_le (sign : Symbol) : sign.spelling.toList.length ≤ 2 := by
  rcases sign.spelling_cases with ⟨c, h⟩ | ⟨c, d, h⟩ <;> simp [h]

/-- No longer sign begins where this one stands before `rest`. -/
def EndsBefore (sign : Symbol) (rest : List Char) : Prop :=
  ∀ longer : Symbol, sign.spelling.toList.length < longer.spelling.toList.length →
    ¬ longer.spelling.toList <+: sign.spelling.toList ++ rest

/-- A sign of one character ends before another character if the two are no sign together. -/
theorem endsBefore_cons (h : sign.spelling.toList = [c]) :
    sign.EndsBefore (d :: rest) ↔ pair? c d = none := by
  unfold EndsBefore
  rw [h]
  constructor
  · intro hends
    cases hpair : pair? c d with
    | none => rfl
    | some longer =>
        have hlonger := pair?_eq_some.1 hpair
        refine absurd ?_ (hends longer (by simp [hlonger]))
        simp [hlonger]
  · intro hpair longer hlength hbegins
    rcases longer.spelling_cases with ⟨a, ha⟩ | ⟨a, b, hab⟩
    · simp [ha] at hlength
    · rw [hab] at hbegins
      obtain ⟨rfl, rfl⟩ : a = c ∧ b = d := by simpa using hbegins
      cases hpair.symm.trans (pair?_eq_some.2 hab)

/-- At the end of a text no sign goes on. -/
theorem endsBefore_nil (sign : Symbol) : sign.EndsBefore [] := by
  intro longer hlength hbegins
  have hle := hbegins.length_le
  rw [List.append_nil] at hle
  omega

theorem endsBefore_of_pair (h : sign.spelling.toList = [c, d]) : sign.EndsBefore rest := by
  intro longer hlength
  have hle := longer.length_spelling_le
  rw [h, List.length_cons, List.length_singleton] at hlength
  omega

/-- The sign at the head of a text is the longest one that begins there. -/
theorem scan?_eq_some : scan? c cs = some (sign, rest) ↔
    c :: cs = sign.spelling.toList ++ rest ∧ sign.EndsBefore rest := by
  constructor
  · intro h
    cases cs with
    | nil =>
        obtain ⟨s, hs, heq⟩ := Option.map_eq_some_iff.1 h
        cases heq
        exact ⟨by simp [single?_eq_some.1 hs], endsBefore_nil sign⟩
    | cons d cs =>
        simp only [scan?] at h
        -- Two characters are tried first, so a sign of one is only found where no longer one is.
        cases hpair : pair? c d with
        | some s =>
            rw [hpair] at h
            cases h
            have hspelling := pair?_eq_some.1 hpair
            exact ⟨by simp [hspelling], endsBefore_of_pair hspelling⟩
        | none =>
            rw [hpair] at h
            obtain ⟨s, hs, heq⟩ := Option.map_eq_some_iff.1 h
            cases heq
            have hspelling := single?_eq_some.1 hs
            exact ⟨by simp [hspelling], (endsBefore_cons hspelling).2 hpair⟩
  · rintro ⟨htext, hends⟩
    rcases sign.spelling_cases with ⟨a, hspelling⟩ | ⟨a, b, hspelling⟩
    · rw [hspelling] at htext
      cases htext
      have hsingle := single?_eq_some.2 hspelling
      cases rest with
      | nil => simp [scan?, hsingle]
      | cons d rest => simp [scan?, (endsBefore_cons hspelling).1 hends, hsingle]
    · rw [hspelling] at htext
      cases htext
      simp [scan?, pair?_eq_some.2 hspelling]

/-- No sign of one character or of two begins there. -/
theorem scan?_eq_none (h : scan? c cs = none) :
    single? c = none ∧ ∀ d ∈ cs.head?, pair? c d = none := by
  cases cs with
  | nil => exact ⟨Option.map_eq_none_iff.1 h, by simp⟩
  | cons d cs =>
      simp only [scan?] at h
      cases hpair : pair? c d with
      | some sign =>
          rw [hpair] at h
          cases h
      | none =>
          rw [hpair] at h
          exact ⟨Option.map_eq_none_iff.1 h, by simpa using hpair⟩

end Symbol

namespace Token

variable {c : Char} {cs rest s r : List Char} {t : Token} {fragment : String}

/-! ## What tokens are -/

def isWord : Token → Bool
  | .text _ | .symbol _ => false
  | _ => true

/-- What a token holds is what its text stands for. -/
def Legible : Token → Prop
  | .text contents => '"' ∉ contents.toList
  | .symbol _ => True
  | t =>
      t.display.toList ≠ [] ∧ (∀ c ∈ t.display.toList, isWordChar c = true) ∧ ofWord t.display = t

/-- The token does not go on into what follows it. -/
def EndsBefore (rest : List Char) : Token → Prop
  | .text _ => True
  | .symbol sign => sign.EndsBefore rest
  | _ => ∀ c ∈ rest.head?, isWordChar c = false

theorem display_ofWord (w : String) : (ofWord w).display = w := by
  unfold ofWord
  split <;> rfl

theorem isWord_ofWord (w : String) : (ofWord w).isWord = true := by
  unfold ofWord
  split <;> rfl

theorem legible_word (h : t.isWord = true) :
    t.Legible ↔
    t.display.toList ≠ [] ∧ (∀ c ∈ t.display.toList, isWordChar c = true) ∧
      ofWord t.display = t := by
  cases t with
  | text | symbol => cases h
  | boolean | typeName | keyword | word => exact .rfl

theorem endsBefore_word (h : t.isWord = true) :
    t.EndsBefore rest ↔ ∀ c ∈ rest.head?, isWordChar c = false := by
  cases t with
  | text | symbol => cases h
  | boolean | typeName | keyword | word => exact .rfl

/-- No sign contains a character of words, a blank or a quote. -/
theorem sign_char {sign : Symbol} (h : c ∈ sign.spelling.toList) :
    isWordChar c = false ∧ isBlank c = false ∧ c ≠ '"' := by
  have hall : sign.spelling.toList.all (fun c => isWordChar c = false ∧ isBlank c = false ∧
      c ≠ '"') = true := by
    cases sign <;> decide
  exact of_decide_eq_true (List.all_eq_true.1 hall c h)

theorem isBlank_of_isWordChar (h : isWordChar c = true) : isBlank c = false := by
  simp only [isWordChar, Bool.and_eq_true, Bool.not_eq_true'] at h
  exact h.1

theorem isWordChar_of_isBlank (h : isBlank c = true) : isWordChar c = false := by
  simp [isWordChar, h]

/-- A character of words is none of the delimiters. -/
theorem ne_of_isWordChar {d : Char} (h : isWordChar c = true) (hd : isWordChar d = false) :
    c ≠ d := by
  rintro rfl
  cases h.symm.trans hd

/-- A run ends where a character does not belong to it. -/
theorem dropWhile_head {p : Char → Bool} (h : cs.dropWhile p = c :: rest) : p c = false := by
  have hhead := List.head?_dropWhile_not p cs
  rw [h] at hhead
  exact hhead

theorem isQuotable_iff : isQuotable c = true ↔ c ≠ '"' := by
  simp [isQuotable]

/-! ## The token at the head of a text -/

/-- The text at the head, after its opening quote. -/
theorem next_quote :
    next '"' cs = .ok (t, rest) ↔
    ∃ contents, '"' ∉ contents ∧ cs = contents ++ '"' :: rest ∧
      t = .text (String.ofList contents) := by
  unfold next
  rw [if_pos rfl]
  constructor
  · intro h
    cases hdrop : cs.dropWhile isQuotable with
    | nil =>
        rw [hdrop] at h
        cases h
    | cons q tail =>
        rw [hdrop] at h
        cases h
        have hq : q = '"' := by simpa [isQuotable] using dropWhile_head hdrop
        refine ⟨cs.takeWhile isQuotable, fun hmem => ?_, ?_, rfl⟩
        · exact absurd (List.mem_takeWhile_imp hmem) (by decide)
        · rw [← hq, ← hdrop, List.takeWhile_append_dropWhile]
  · rintro ⟨contents, hcontents, rfl, rfl⟩
    have hall : ∀ a ∈ contents, isQuotable a = true := by
      rintro a ha
      exact isQuotable_iff.2 fun h => hcontents (h ▸ ha)
    rw [List.dropWhile_append_of_pos hall, List.takeWhile_append_of_pos hall]
    simp [isQuotable]

theorem next_word (hc : isWordChar c = true) : next c cs =
    .ok (ofWord (String.ofList (c :: cs.takeWhile isWordChar)), cs.dropWhile isWordChar) := by
  unfold next
  rw [if_neg (ne_of_isWordChar hc (by decide)), if_pos hc]

theorem next_sign (hc : isWordChar c = false) (hquote : c ≠ '"') {sign : Symbol}
    (h : Symbol.scan? c cs = some (sign, rest)) : next c cs = .ok (.symbol sign, rest) := by
  simp [next, hc, hquote, h]

/-- The token at the head of a text is what is written there, and it is the longest one. -/
theorem next_ok (h : next c cs = .ok (t, rest)) :
    c :: cs = t.display.toList ++ rest ∧ t.Legible ∧ t.EndsBefore rest := by
  by_cases hquote : c = '"'
  · subst hquote
    obtain ⟨contents, hcontents, rfl, rfl⟩ := next_quote.1 h
    exact ⟨by simp [display], by simpa [Legible] using hcontents, trivial⟩
  cases hword : isWordChar c with
  | true =>
      rw [next_word hword] at h
      cases h
      have hw := isWord_ofWord (String.ofList (c :: cs.takeWhile isWordChar))
      rw [legible_word hw, endsBefore_word hw, display_ofWord, String.toList_ofList]
      refine ⟨by simp, ⟨by simp, ?_, rfl⟩, ?_⟩
      · intro a ha
        rcases List.mem_cons.1 ha with rfl | ha
        · exact hword
        · exact List.mem_takeWhile_imp ha
      · intro a ha
        cases hdrop : cs.dropWhile isWordChar with
        | nil =>
            rw [hdrop] at ha
            cases ha
        | cons b tail =>
            rw [hdrop] at ha
            cases ha
            exact dropWhile_head hdrop
  | false =>
      cases hscan : Symbol.scan? c cs with
      | none => simp [next, hquote, hword, hscan] at h
      | some p =>
          rw [next_sign hword hquote hscan] at h
          cases h
          rcases Symbol.scan?_eq_some.1 hscan with ⟨htext, hends⟩
          exact ⟨htext, trivial, hends⟩

/-- A legible token that does not go on into the rest is the one that is read. -/
theorem next_of_legible (htext : c :: cs = t.display.toList ++ rest) (ht : t.Legible)
    (hends : t.EndsBefore rest) : isBlank c = false ∧ next c cs = .ok (t, rest) := by
  cases hword : t.isWord with
  | true =>
      obtain ⟨hnonempty, hchars, hof⟩ := (legible_word hword).1 ht
      obtain ⟨a, w, hw⟩ := List.exists_cons_of_ne_nil hnonempty
      rw [hw] at htext hchars
      obtain ⟨rfl, rfl⟩ : c = a ∧ cs = w ++ rest := by simpa using htext
      have hc := hchars c (List.mem_cons_self ..)
      have htail : ∀ b ∈ w, isWordChar b = true := fun b hb => hchars b (List.mem_cons_of_mem _ hb)
      -- The run of word characters is the word itself, since the rest begins with none.
      have hrun : (w ++ rest).takeWhile isWordChar = w ∧
          (w ++ rest).dropWhile isWordChar = rest := by
        rw [List.takeWhile_append_of_pos htail, List.dropWhile_append_of_pos htail]
        cases rest with
        | nil => simp
        | cons b rest =>
            have hb := (endsBefore_word hword).1 hends b rfl
            simp [hb]
      refine ⟨isBlank_of_isWordChar hc, ?_⟩
      rw [next_word hc, hrun.1, hrun.2, ← hw, String.ofList_toList, hof]
  | false =>
      cases t with
      | text contents =>
          have hquote : c :: cs = '"' :: (contents.toList ++ '"' :: rest) := by
            rw [htext]
            simp [display]
          cases hquote
          exact ⟨by decide, next_quote.2 ⟨_, ht, rfl, by rw [String.ofList_toList]⟩⟩
      | symbol sign =>
          have hc : c ∈ sign.spelling.toList := by
            rcases sign.spelling_cases with ⟨a, h⟩ | ⟨a, b, h⟩
            · have hhead : c :: cs = [a] ++ rest := h ▸ htext
              cases hhead
              simp [h]
            · have hhead : c :: cs = [a, b] ++ rest := h ▸ htext
              cases hhead
              simp [h]
          rcases sign_char hc with ⟨hnoword, hnoblank, hnoquote⟩
          exact ⟨hnoblank, next_sign hnoword hnoquote (Symbol.scan?_eq_some.2 ⟨htext, hends⟩)⟩
      | boolean | typeName | keyword | word => cases hword

/-! ## Places that begin no token -/

/-- The rest `r` of the text `s` is come to when `s` is read from left to right and each quotation
that is closed is passed over as a whole. -/
inductive Visits : List Char → List Char → Prop
  | here (s : List Char) : Visits s s
  | char {c : Char} {s r : List Char} : c ≠ '"' → Visits s r → Visits (c :: s) r
  | quoted {contents s r : List Char} : '"' ∉ contents → Visits s r →
      Visits ('"' :: (contents ++ '"' :: s)) r

/-- A text that begins with no token, with the fragment of it that is reported. -/
inductive Spoiled : List Char → String → Prop
  | colon {cs : List Char} : cs.head? ≠ some '=' → Spoiled (':' :: cs) ":"
  | quote {cs : List Char} : '"' ∉ cs → Spoiled ('"' :: cs) (String.ofList ('"' :: cs))

theorem Visits.length_le (h : Visits s r) : r.length ≤ s.length := by
  induction h with
  | here s => exact Nat.le_refl _
  | char _ _ ih =>
      rw [List.length_cons]
      omega
  | quoted _ _ ih =>
      simp only [List.length_cons, List.length_append]
      omega

/-- A character that spoils nothing may be passed over. -/
theorem spoiled_cons (hc : c ≠ '"') (hcolon : c = ':' → s.head? = some '=') :
    Visits (c :: s) r ∧ Spoiled r fragment ↔ Visits s r ∧ Spoiled r fragment := by
  constructor
  · rintro ⟨hvisits, hspoiled⟩
    cases hvisits with
    | here =>
        cases hspoiled with
        | colon h => exact absurd (hcolon rfl) h
        | quote => exact absurd rfl hc
    | char _ h => exact ⟨h, hspoiled⟩
    | quoted => exact absurd rfl hc
  · rintro ⟨hvisits, hspoiled⟩
    exact ⟨.char hc hvisits, hspoiled⟩

/-- What is closed at the first quote is one text only. -/
theorem closed_inj {q q' s' : List Char} (hq : '"' ∉ q) (hq' : '"' ∉ q')
    (h : q ++ '"' :: s = q' ++ '"' :: s') : s = s' := by
  have hnext : next '"' (q ++ '"' :: s) = .ok (.text (String.ofList q), s) :=
    next_quote.2 ⟨q, hq, rfl, rfl⟩
  rw [h, next_quote.2 ⟨q', hq', rfl, rfl⟩] at hnext
  exact (Prod.mk.inj (Except.ok.inj hnext)).2.symm

/-- What is quoted cannot be spoiled. -/
theorem spoiled_quoted {q : List Char} (hq : '"' ∉ q) :
    Visits ('"' :: (q ++ '"' :: s)) r ∧ Spoiled r fragment ↔ Visits s r ∧ Spoiled r fragment := by
  constructor
  · rintro ⟨hvisits, hspoiled⟩
    generalize htext : '"' :: (q ++ '"' :: s) = text at hvisits
    cases hvisits with
    | here =>
        subst htext
        cases hspoiled with
        | quote h => exact absurd (by simp) h
    | char hc _ =>
        cases htext
        exact absurd rfl hc
    | quoted hq' h =>
        cases closed_inj hq hq' (List.cons.inj htext).2
        exact ⟨h, hspoiled⟩
  · rintro ⟨hvisits, hspoiled⟩
    exact ⟨.quoted hq hvisits, hspoiled⟩

/-- Neither a word nor a sign other than `:=` contains a character that may spoil a place. -/
theorem spoiled_run {w : List Char} (hw : ∀ c ∈ w, c ≠ '"' ∧ c ≠ ':') :
    Visits (w ++ s) r ∧ Spoiled r fragment ↔ Visits s r ∧ Spoiled r fragment := by
  induction w with
  | nil => exact .rfl
  | cons c w ih =>
      rcases hw c (List.mem_cons_self ..) with ⟨hquote, hcolon⟩
      rw [List.cons_append, spoiled_cons hquote fun h => absurd h hcolon]
      exact ih fun d hd => hw d (List.mem_cons_of_mem _ hd)

theorem sign_unspoiled {sign : Symbol} (h : sign ≠ .assign) :
    ∀ c ∈ sign.spelling.toList, c ≠ '"' ∧ c ≠ ':' := by
  have hall : sign.spelling.toList.all (fun c => c ≠ '"' ∧ c ≠ ':') = true := by
    cases sign <;> first | exact absurd rfl h | decide
  exact fun c hc => of_decide_eq_true (List.all_eq_true.1 hall c hc)

/-- No place inside a token is spoiled. -/
theorem spoiled_token (ht : t.Legible) :
    Visits (t.display.toList ++ rest) r ∧ Spoiled r fragment ↔ Visits rest r ∧
      Spoiled r fragment := by
  cases hword : t.isWord with
  | true =>
      obtain ⟨-, hchars, -⟩ := (legible_word hword).1 ht
      refine spoiled_run fun c hc => ?_
      exact ⟨ne_of_isWordChar (hchars c hc) (by decide), ne_of_isWordChar (hchars c hc) (by decide)⟩
  | false =>
      cases t with
      | text contents =>
          have htext : (Token.text contents).display.toList ++ rest =
              '"' :: (contents.toList ++ '"' :: rest) := by simp [display]
          rw [htext]
          exact spoiled_quoted ht
      | symbol sign =>
          by_cases hassign : sign = .assign
          · -- The colon of `:=` is followed by its other half.
            subst hassign
            have htext : (Token.symbol .assign).display.toList ++ rest = ':' :: '=' :: rest := rfl
            rw [htext, spoiled_cons (by decide) fun _ => rfl,
              spoiled_cons (by decide) fun h => absurd h (by decide)]
          · exact spoiled_run (sign_unspoiled hassign)
      | boolean | typeName | keyword | word => cases hword

/-- Where no token begins, the place is spoiled. -/
theorem next_error (hblank : isBlank c = false) {rejection : Rejection}
    (h : next c cs = .error rejection) :
    ∃ fragment, rejection = .unrecognizedToken fragment ∧ Spoiled (c :: cs) fragment := by
  by_cases hquote : c = '"'
  · subst hquote
    unfold next at h
    rw [if_pos rfl] at h
    cases hdrop : cs.dropWhile isQuotable with
    | nil =>
        rw [hdrop] at h
        cases h
        refine ⟨_, rfl, .quote fun hmem => ?_⟩
        exact isQuotable_iff.1 (List.dropWhile_eq_nil_iff.1 hdrop _ hmem) rfl
    | cons q tail =>
        rw [hdrop] at h
        cases h
  · cases hword : isWordChar c with
    | true =>
        rw [next_word hword] at h
        cases h
    | false =>
        cases hscan : Symbol.scan? c cs with
        | some p =>
            rw [next_sign hword hquote hscan] at h
            cases h
        | none =>
            -- Of the delimiters only the colon is no sign of its own.
            have hdelimiter : c ∈ delimiters := by simpa [isWordChar, hblank] using hword
            have hall :
                delimiters.all (fun d => d = '"' ∨ d = ':' ∨ (Symbol.single? d).isSome = true) =
                  true := by
              decide
            have hsigns := of_decide_eq_true (List.all_eq_true.1 hall c hdelimiter)
            rcases Symbol.scan?_eq_none hscan with ⟨hsingle, hpair⟩
            have hc : c = ':' := by simpa [hquote, hsingle] using hsigns
            subst hc
            rw [next, if_neg hquote, hword, hscan] at h
            cases h
            refine ⟨":", rfl, .colon fun hequals => ?_⟩
            cases hpair '=' hequals

/-- The first of the spoiled places that are come to. -/
structure FirstSpoiled (s r : List Char) (fragment : String) : Prop where
  visits : Visits s r
  spoiled : Spoiled r fragment
  first : ∀ r' fragment', Visits s r' → Spoiled r' fragment' → r'.length ≤ r.length

/-- What is passed over without harm does not matter to the first spoiled place. -/
theorem FirstSpoiled.of_rest (h : FirstSpoiled rest r fragment)
    (hsame : ∀ r fragment, Visits s r ∧ Spoiled r fragment ↔ Visits rest r ∧ Spoiled r fragment) :
    FirstSpoiled s r fragment := by
  obtain ⟨hvisits, hspoiled⟩ := (hsame r fragment).2 ⟨h.visits, h.spoiled⟩
  refine ⟨hvisits, hspoiled, fun r' fragment' hr' hf' => ?_⟩
  obtain ⟨hrest, hfragment⟩ := (hsame r' fragment').1 ⟨hr', hf'⟩
  exact h.first r' fragment' hrest hfragment

/-! ## All tokens of a text -/

theorem scan_blank (h : isBlank c = true) (cs : List Char) : scan (c :: cs) = scan cs := by
  rw [scan, if_pos h]

/-- Blanks in front make no difference. -/
theorem scan_blanks {gap : List Char} (h : ∀ c ∈ gap, isBlank c = true) (cs : List Char) :
    scan (gap ++ cs) = scan cs := by
  induction gap with
  | nil => rfl
  | cons c gap ih =>
      rw [List.cons_append, scan_blank (h c (List.mem_cons_self ..))]
      exact ih fun d hd => h d (List.mem_cons_of_mem _ hd)

theorem spoiled_blank (h : isBlank c = true) :
    Visits (c :: s) r ∧ Spoiled r fragment ↔ Visits s r ∧ Spoiled r fragment := by
  refine spoiled_cons ?_ ?_
  · rintro rfl
    cases h
  · rintro rfl
    cases h

/-- A text of which all tokens are read comes to no spoiled place. -/
theorem scan_unspoiled {ts : List Token} (h : scan s = .ok ts) :
    ¬ (Visits s r ∧ Spoiled r fragment) := by
  fun_induction scan s generalizing ts with
  | case1 =>
      rintro ⟨hvisits, hspoiled⟩
      cases hvisits
      cases hspoiled
  | case2 c cs hblank ih =>
      rw [spoiled_blank hblank]
      exact ih h
  | case3 c cs hblank rejection hnext => cases h
  | case4 c cs hblank t rest hnext _ ih =>
      rcases ok_of_map h with ⟨us, hrest, -⟩
      rcases next_ok hnext with ⟨htext, ht, -⟩
      rw [htext, spoiled_token ht]
      exact ih hrest

/-- Where reading stops, it has come to the first spoiled place. -/
theorem scan_error {rejection : Rejection} (h : scan s = .error rejection) :
    ∃ r fragment, rejection = .unrecognizedToken fragment ∧ FirstSpoiled s r fragment := by
  fun_induction scan s with
  | case1 => cases h
  | case2 c cs hblank ih =>
      obtain ⟨r, fragment, hrejection, hfirst⟩ := ih h
      exact ⟨r, fragment, hrejection, hfirst.of_rest fun _ _ => spoiled_blank hblank⟩
  | case3 c cs hblank rejection' hnext =>
      cases h
      -- Every place that is visited lies in what is left of the text, so this one is the first.
      obtain ⟨fragment, hrejection, hspoiled⟩ := next_error (by simpa using hblank) hnext
      exact ⟨c :: cs, fragment, hrejection, .here _, hspoiled, fun _ _ hr _ => hr.length_le⟩
  | case4 c cs hblank t rest hnext _ ih =>
      obtain ⟨r, fragment, hrejection, hfirst⟩ := ih (error_of_map h)
      rcases next_ok hnext with ⟨htext, ht, -⟩
      refine ⟨r, fragment, hrejection, ?_⟩
      rw [htext]
      exact hfirst.of_rest fun _ _ => spoiled_token ht

def laidOut (l : List (Token × List Char)) : List Char :=
  l.flatMap fun p => p.1.display.toList ++ p.2

/-- Tokens with blanks after them, each one as long as it can be: no word touches a word, and no
longer sign begins where a sign stands. -/
def Spaced : List (Token × List Char) → Prop
  | [] => True
  | (t, gap) :: l => (∀ c ∈ gap, isBlank c = true) ∧ t.Legible ∧
      (t.isWord = true → gap = [] → ∀ p ∈ l.head?, p.1.isWord = false) ∧
      (∀ sign longer : Symbol, t = .symbol sign →
        sign.spelling.toList.length < longer.spelling.toList.length →
        ¬ longer.spelling.toList <+: laidOut ((t, gap) :: l)) ∧ Spaced l

theorem laidOut_cons (t : Token) (gap : List Char) (l : List (Token × List Char)) :
    laidOut ((t, gap) :: l) = t.display.toList ++ (gap ++ laidOut l) := by
  simp [laidOut]

/-- Words begin with a character of words, and other tokens do not. -/
theorem display_head (ht : t.Legible) :
    ∃ c cs, t.display.toList = c :: cs ∧ isWordChar c = t.isWord := by
  cases hword : t.isWord with
  | true =>
      obtain ⟨hnonempty, hchars, -⟩ := (legible_word hword).1 ht
      obtain ⟨c, cs, hdisplay⟩ := List.exists_cons_of_ne_nil hnonempty
      exact ⟨c, cs, hdisplay, hchars c (by simp [hdisplay])⟩
  | false =>
      cases t with
      | text contents => exact ⟨'"', contents.toList ++ ['"'], by simp [display], by decide⟩
      | symbol sign =>
          rcases sign.spelling_cases with ⟨a, h⟩ | ⟨a, b, h⟩
          · have ha : a ∈ sign.spelling.toList := by simp [h]
            exact ⟨a, [], h, (sign_char ha).1⟩
          · have ha : a ∈ sign.spelling.toList := by simp [h]
            exact ⟨a, [b], h, (sign_char ha).1⟩
      | boolean | typeName | keyword | word => cases hword

/-- A word ends before the tokens after it exactly if it does not touch another word. -/
theorem endsBefore_laidOut {gap : List Char} {l : List (Token × List Char)}
    (hword : t.isWord = true) (hgap : ∀ c ∈ gap, isBlank c = true)
    (hl : ∀ p ∈ l.head?, p.1.Legible) :
    t.EndsBefore (gap ++ laidOut l) ↔ (gap = [] → ∀ p ∈ l.head?, p.1.isWord = false) := by
  rw [endsBefore_word hword]
  cases gap with
  | cons d gap =>
      have hd := isWordChar_of_isBlank (hgap d (List.mem_cons_self ..))
      simp [hd]
  | nil =>
      cases l with
      | nil => simp [laidOut]
      | cons p l =>
          obtain ⟨c, cs, hdisplay, hc⟩ := display_head (hl p rfl)
          simp [laidOut, hdisplay, hc]

theorem spaced_legible {l : List (Token × List Char)} (h : Spaced l) :
    ∀ p ∈ l.head?, p.1.Legible := by
  cases l with
  | nil => simp
  | cons p l =>
      rintro _ ⟨⟩
      exact h.2.1

/-- Tokens are spaced if each one is legible and ends before those after it. -/
theorem spaced_cons {gap : List Char} {l : List (Token × List Char)} (hl : Spaced l) :
    Spaced ((t, gap) :: l) ↔
      (∀ c ∈ gap, isBlank c = true) ∧ t.Legible ∧ t.EndsBefore (gap ++ laidOut l) := by
  constructor
  · rintro ⟨hgap, ht, hwords, hsigns, -⟩
    refine ⟨hgap, ht, ?_⟩
    cases hword : t.isWord with
    | true => exact (endsBefore_laidOut hword hgap (spaced_legible hl)).2 (hwords hword)
    | false =>
        cases t with
        | text => trivial
        | symbol sign =>
            intro longer hlength
            have hbegins := hsigns sign longer rfl hlength
            rwa [laidOut_cons] at hbegins
        | boolean | typeName | keyword | word => cases hword
  · rintro ⟨hgap, ht, hends⟩
    refine ⟨hgap, ht, fun hword => ?_, ?_, hl⟩
    · exact (endsBefore_laidOut hword hgap (spaced_legible hl)).1 hends
    · rintro sign longer rfl hlength
      rw [laidOut_cons]
      exact hends longer hlength

/-- The tokens of a text, with the blanks between them, are the text. -/
theorem scan_ok {ts : List Token} (h : scan s = .ok ts) :
    ∃ start l, l.map Prod.fst = ts ∧ (∀ c ∈ start, isBlank c = true) ∧ Spaced l ∧
      s = start ++ laidOut l := by
  fun_induction scan s generalizing ts with
  | case1 =>
      cases h
      exact ⟨[], [], rfl, by simp, trivial, rfl⟩
  | case2 c cs hblank ih =>
      -- A blank goes to what stands before the first token.
      obtain ⟨start, l, hts, hstart, hl, rfl⟩ := ih h
      refine ⟨c :: start, l, hts, ?_, hl, rfl⟩
      intro d hd
      rcases List.mem_cons.1 hd with rfl | hd
      · exact hblank
      · exact hstart d hd
  | case3 c cs hblank rejection hnext => cases h
  | case4 c cs hblank t rest hnext _ ih =>
      obtain ⟨us, hrest, rfl⟩ := ok_of_map h
      -- What stands before the first token of the rest stands after this one.
      obtain ⟨start, l, rfl, hstart, hl, rfl⟩ := ih hrest
      rcases next_ok hnext with ⟨htext, ht, hends⟩
      refine ⟨[], (t, start) :: l, rfl, by simp, (spaced_cons hl).2 ⟨hstart, ht, hends⟩, ?_⟩
      rw [htext, laidOut_cons, List.nil_append]

/-- A legible token is read back, whatever follows it. -/
theorem scan_legible (ht : t.Legible) (hends : t.EndsBefore rest) :
    scan (t.display.toList ++ rest) = (scan rest).map (t :: ·) := by
  obtain ⟨c, cs, hdisplay, -⟩ := display_head ht
  have htext : c :: (cs ++ rest) = t.display.toList ++ rest := by rw [hdisplay, List.cons_append]
  obtain ⟨hblank, hnext⟩ := next_of_legible htext ht hends
  rw [← htext, scan_cons_of_next hblank hnext]

/-- Spaced tokens are read back from their text. -/
theorem scan_laidOut {l : List (Token × List Char)} (h : Spaced l) :
    scan (laidOut l) = .ok (l.map Prod.fst) := by
  induction l with
  | nil => rw [laidOut, List.flatMap_nil, scan, List.map_nil]
  | cons p l ih =>
      obtain ⟨t, gap⟩ := p
      have hl : Spaced l := h.2.2.2.2
      obtain ⟨hgap, ht, hends⟩ := (spaced_cons hl).1 h
      calc scan (laidOut ((t, gap) :: l))
          = (scan (gap ++ laidOut l)).map (t :: ·) := by rw [laidOut_cons, scan_legible ht hends]
        _ = .ok (t :: l.map Prod.fst) := by
            rw [scan_blanks hgap, ih hl]
            rfl

/-- Reading takes the longest tokens and loses only blanks. It fails exactly if it comes to a colon
that is not followed by an equals sign or to a quote that is never closed; the first of these is
reported, the colon alone or all that follows the quote. A source that is read consists of the texts
of its tokens and of blanks between them, where no word touches a word and no sign could be longer,
and there is no other way to take it apart. -/
theorem ofSource_longest (source : String) :
    ((∃ rejection, ofSource source = .error rejection) ↔
        ∃ r fragment, Visits source.toList r ∧ Spoiled r fragment) ∧
      (∀ rejection, ofSource source = .error rejection →
        ∃ r fragment, rejection = .unrecognizedToken fragment ∧
          FirstSpoiled source.toList r fragment) ∧
      ∀ ts, ofSource source = .ok ts ↔
        ∃ start l, l.map Prod.fst = ts ∧ (∀ c ∈ start, isBlank c = true) ∧ Spaced l ∧
          source.toList = start ++ laidOut l := by
  refine ⟨⟨?_, ?_⟩, fun rejection h => scan_error h, fun ts => ⟨fun h => scan_ok h, ?_⟩⟩
  · rintro ⟨rejection, h⟩
    obtain ⟨r, fragment, -, hfirst⟩ := scan_error h
    exact ⟨r, fragment, hfirst.visits, hfirst.spoiled⟩
  · rintro ⟨r, fragment, hspoiled⟩
    cases hscan : ofSource source with
    | ok ts => exact absurd hspoiled (scan_unspoiled hscan)
    | error rejection => exact ⟨rejection, rfl⟩
  · rintro ⟨start, l, rfl, hstart, hl, htext⟩
    rw [ofSource, htext, scan_blanks hstart, scan_laidOut hl]

example :
    ofSource "x:==@@@ y" =
    .ok [.word "x", .symbol .assign, .symbol .equals, .symbol .doubleAt, .symbol .atSign,
      .word "y"] := by
  decide +kernel

end Token
end LineLang
