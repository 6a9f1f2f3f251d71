import LineLang.Proofs.Token.Longest
import LineLang.Window

/-!
# Tokens written out again

Diagnostics quote a window by the texts of its tokens with one blank between them. A blank ends
every token and belongs to none but a quoted text, so that a quotation is read as the tokens of the
window again, whatever stood between them in the source.

- `Token.legible_of_scan`     : what is read from a text is legible
- `Token.endsBefore_blank`    : every token ends before a blank
- `Token.scan_render`         : legible tokens are read back from their quotation
- `Token.ofSource_render`     : so are the tokens of any part of a source
-/

namespace LineLang
namespace Token

open Effect

variable {c : Char} {rest s : List Char} {ts ws : List Token}

/-! ## Legible tokens -/

/-- Every one of the tokens stands for itself. -/
theorem Spaced.legible {l : List (Token × List Char)} (h : Spaced l) :
    ∀ t ∈ l.map Prod.fst, t.Legible := by
  induction l with
  | nil => simp
  | cons p l ih =>
      obtain ⟨-, ht, -, -, hl⟩ := h
      rw [List.map_cons, List.forall_mem_cons]
      exact ⟨ht, ih hl⟩

/-- What is read from a text is legible. -/
theorem legible_of_scan (h : scan s = .ok ts) : ∀ t ∈ ts, t.Legible := by
  obtain ⟨start, l, rfl, -, hl, -⟩ := scan_ok h
  exact hl.legible

/-! ## Where a token ends -/

/-- No sign has a blank in it. -/
theorem pair?_blank (a : Char) (hc : isBlank c = true) : Symbol.pair? a c = none := by
  cases hpair : Symbol.pair? a c with
  | none => rfl
  | some sign =>
      have hmem : c ∈ sign.spelling.toList := by simp [Symbol.pair?_eq_some.1 hpair]
      cases hc.symm.trans (sign_char hmem).2.1

/-- A blank ends every token. -/
theorem endsBefore_blank (t : Token) (hc : isBlank c = true) : t.EndsBefore (c :: rest) := by
  cases t with
  | text contents => trivial
  | symbol sign =>
      rcases sign.spelling_cases with ⟨a, h⟩ | ⟨a, b, h⟩
      · exact (Symbol.endsBefore_cons h).2 (pair?_blank a hc)
      · exact Symbol.endsBefore_of_pair h
  | boolean | typeName | keyword | word =>
      rintro _ ⟨⟩
      exact isWordChar_of_isBlank hc

theorem endsBefore_nil (t : Token) : t.EndsBefore [] := by
  cases t with
  | text contents => trivial
  | symbol sign => exact sign.endsBefore_nil
  | boolean | typeName | keyword | word => rintro _ ⟨⟩

/-! ## Quotations -/

/-- Legible tokens are read back from their quotation. -/
theorem scan_render (h : ∀ t ∈ ws, t.Legible) : scan (Window.render ws).toList = .ok ws := by
  induction ws with
  | nil => rw [Window.render, List.map_nil, String.intercalate_nil, String.toList_empty, scan]
  | cons t ws ih =>
      rw [List.forall_mem_cons] at h
      by_cases hws : ws = []
      · subst hws
        have hquotation : (Window.render [t]).toList = t.display.toList ++ [] := by
          simp [Window.render]
        rw [hquotation, scan_legible h.1 t.endsBefore_nil, scan]
        rfl
      · have hquotation : (Window.render (t :: ws)).toList =
            t.display.toList ++ ' ' :: (Window.render ws).toList := by
          rw [Window.render, List.map_cons, String.intercalate_cons_of_ne_nil (by simpa using hws)]
          simp [Window.render]
        rw [hquotation, scan_legible h.1 (t.endsBefore_blank rfl), scan_blank rfl, ih h.2]
        rfl

/-- The tokens of any part of a source are read back from its quotation. -/
theorem ofSource_render {source : String} (h : ofSource source = .ok ts) (hws : ws <:+: ts) :
    ofSource (Window.render ws) = .ok ws := by
  apply scan_render
  intro t ht
  exact legible_of_scan h t (hws.subset ht)

/-- Signs, a text that looks like code, the name of a kind and a word that is no name. -/
def crowdedWindow : Window :=
  [.symbol .equals, .symbol .minus, .word "1", .symbol .doubleAt, .symbol .atSign, .text "if  (;",
    .typeName .number, .word "π²"]

/-- In the source nothing stands between the signs. -/
theorem ofSource_render_crowded :
    ofSource "a:==-1@@@\"if  (;\"number π²" = .ok ([.word "a", .symbol .assign] ++ crowdedWindow) ∧
      Window.render crowdedWindow = "= - 1 @@ @ \"if  (;\" number π²" ∧
      ofSource (Window.render crowdedWindow) = .ok crowdedWindow := by
  have hsource : ofSource "a:==-1@@@\"if  (;\"number π²" =
      .ok ([.word "a", .symbol .assign] ++ crowdedWindow) := by
    decide +kernel
  exact ⟨hsource, by decide +kernel, ofSource_render hsource (List.suffix_append _ _).isInfix⟩

end Token
end LineLang
