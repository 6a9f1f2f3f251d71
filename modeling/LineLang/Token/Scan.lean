import LineLang.Diagnostic
import LineLang.Token

/-!
# Scanning source text

Tokens are read from left to right, the longest one at each place. Blanks only separate.

- `Token.next`       : the token at the head of the text and what follows it
- `Token.scan`       : all tokens of a text
- `Token.ofSource`   : all tokens of a source
-/

namespace LineLang

namespace Symbol

def pair? : Char → Char → Option Symbol
  | '=', '>' => some .arrow
  | ':', '=' => some .assign
  | '=', '=' => some .equalEqual
  | '!', '=' => some .bangEqual
  | '<', '=' => some .lessEqual
  | '>', '=' => some .greaterEqual
  | '&', '&' => some .doubleAmpersand
  | '|', '|' => some .doublePipe
  | '@', '@' => some .doubleAt
  | _, _ => none

def single? : Char → Option Symbol
  | '(' => some .openParen
  | ')' => some .closeParen
  | ',' => some .comma
  | ';' => some .semicolon
  | '=' => some .equals
  | '<' => some .less
  | '>' => some .greater
  | '!' => some .bang
  | '&' => some .ampersand
  | '|' => some .pipe
  | '@' => some .atSign
  | '+' => some .plus
  | '-' => some .minus
  | '*' => some .star
  | '/' => some .slash
  | '%' => some .percent
  | '^' => some .caret
  | _ => none

/-- The longest sign that begins with `c` and goes on with `cs`, and what follows it. -/
def scan? (c : Char) (cs : List Char) : Option (Symbol × List Char) :=
  match cs with
  | [] => (single? c).map (·, [])
  | d :: rest =>
      match pair? c d with
      | some sign => some (sign, rest)
      | none => (single? c).map (·, cs)

/-- A sign takes its characters from the front. -/
theorem length_scan? {c : Char} {cs rest : List Char} {sign : Symbol}
    (h : scan? c cs = some (sign, rest)) : rest.length ≤ cs.length := by
  unfold scan? at h
  split at h
  · obtain ⟨_, _, hs⟩ := Option.map_eq_some_iff.1 h
    cases hs
    exact Nat.le_refl _
  · split at h
    · cases h
      exact Nat.le_succ _
    · obtain ⟨_, _, hs⟩ := Option.map_eq_some_iff.1 h
      cases hs
      exact Nat.le_refl _

end Symbol

namespace Token

def isBlank (c : Char) : Bool :=
  c = ' ' || c = '\t' || c = '\r' || c = '\n' || c = '\x0c'

/-- Characters that no word contains, besides blanks. -/
def delimiters : List Char :=
  ['"', '(', ')', ',', ';', ':', '=', '<', '>', '!', '&', '|', '@', '+', '-', '*', '/', '%', '^']

def isWordChar (c : Char) : Bool :=
  !isBlank c && !delimiters.contains c

/-- Whether a character may stand inside a quoted text. -/
def isQuotable (c : Char) : Bool :=
  c != '"'

/-- The token that begins with `c`, which is not a blank, and goes on with `cs`, and what follows
it. A quote that is never closed spoils the rest of the text; any other failure is that of one
character. -/
def next (c : Char) (cs : List Char) : Except Rejection (Token × List Char) :=
  if c = '"' then
    match cs.dropWhile isQuotable with
    | [] => .error (.unrecognizedToken (String.ofList (c :: cs)))
    | _ :: rest => .ok (.text (String.ofList (cs.takeWhile isQuotable)), rest)
  else if isWordChar c then
    .ok (.ofWord (String.ofList (c :: cs.takeWhile isWordChar)), cs.dropWhile isWordChar)
  else
    match Symbol.scan? c cs with
    | some (sign, rest) => .ok (.symbol sign, rest)
    | none => .error (.unrecognizedToken (String.ofList [c]))

theorem length_dropWhile_le (p : Char → Bool) (cs : List Char) :
    (cs.dropWhile p).length ≤ cs.length :=
  (List.dropWhile_sublist p).length_le

/-- Every token takes up some of the text, so that scanning comes to an end. -/
theorem length_next {c : Char} {cs rest : List Char} {t : Token}
    (h : next c cs = .ok (t, rest)) : rest.length ≤ cs.length := by
  unfold next at h
  split at h
  · split at h
    · cases h
    · next d tail hd =>
      cases h
      have := length_dropWhile_le isQuotable cs
      rw [hd, List.length_cons] at this
      omega
  · split at h
    · cases h
      exact length_dropWhile_le _ _
    · split at h
      · next sign tail hs =>
        cases h
        exact Symbol.length_scan? hs
      · cases h

def scan (cs : List Char) : Except Rejection (List Token) :=
  match cs with
  | [] => .ok []
  | c :: cs =>
      if isBlank c then scan cs
      else
        match h : next c cs with
        | .error rejection => .error rejection
        | .ok (t, rest) =>
            have := length_next h
            (scan rest).map (t :: ·)
termination_by cs.length

def ofSource (source : String) : Except Rejection (List Token) :=
  scan source.toList

end Token
end LineLang
