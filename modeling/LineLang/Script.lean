import LineLang.Session

/-!
# Scripts

A script is a text of several lines, taken by one session.

- `Script.lines`        : the lines of a text
- `Script.divides_iff`  : with their ends they make up the text
- `Script.printed`      : the texts printed by a script that has no failure
-/

namespace LineLang
namespace Script

/-- The lines of a text. A line ends with a line feed, before which one carriage return is dropped;
an empty last line does not count. -/
def splitLines : List Char → List (List Char)
  | [] => []
  | '\r' :: '\n' :: cs => [] :: splitLines cs
  | '\n' :: cs => [] :: splitLines cs
  | c :: cs =>
      match splitLines cs with
      | [] => [[c]]
      | line :: rest => (c :: line) :: rest

def lines (text : String) : List String :=
  (splitLines text.toList).map String.ofList

/-! ## Lines and their ends -/

/-- A text is made up of lines, each followed by its end: a line feed, a carriage return and a line
feed, or the end of the text after a line that is not empty. -/
inductive Divides : List Char → List (List Char) → Prop
  | empty : Divides [] []
  | last {line : List Char} : line ≠ [] → '\n' ∉ line → Divides line [line]
  | feed {line rest : List Char} {lines : List (List Char)} :
      '\n' ∉ line → line.getLast? ≠ some '\r' → Divides rest lines →
        Divides (line ++ '\n' :: rest) (line :: lines)
  | returnFeed {line rest : List Char} {lines : List (List Char)} :
      '\n' ∉ line → Divides rest lines →
        Divides (line ++ '\r' :: '\n' :: rest) (line :: lines)

/-- A character that ends no line becomes the first of the line after it. -/
theorem splitLines_cons {c : Char} {cs : List Char} (hc : c ≠ '\n')
    (hreturn : c = '\r' → cs.head? ≠ some '\n') :
    splitLines (c :: cs) = match splitLines cs with
      | [] => [[c]]
      | line :: rest => (c :: line) :: rest := by
  rw [splitLines]
  · rintro tail rfl rfl
    exact hreturn rfl rfl
  · exact hc

theorem splitLines_eq_nil_iff {cs : List Char} : splitLines cs = [] ↔ cs = [] := by
  refine ⟨fun h => ?_, fun h => h ▸ rfl⟩
  fun_cases splitLines cs with
  | case1 => rfl
  | _ => simp_all [splitLines]

/-- What begins with a line that has no line feed does not begin with one. -/
theorem head?_append_ne {line rest : List Char} (hfree : '\n' ∉ line)
    (hrest : line = [] → rest.head? ≠ some '\n') :
    (line ++ rest).head? ≠ some '\n' := by
  cases line with
  | nil => exact hrest rfl
  | cons c cs =>
      intro h
      exact hfree (Option.some.inj h ▸ List.mem_cons_self)

/-- What ends a line is looked for behind the characters that belong to it. -/
theorem splitLines_append {line ending : List Char} {rest : List (List Char)} (hfree : '\n' ∉ line)
    (hreturn : line.getLast? = some '\r' → ending.head? ≠ some '\n')
    (hending : splitLines ending = [] :: rest) : splitLines (line ++ ending) = line :: rest := by
  induction line with
  | nil => exact hending
  | cons c cs ih =>
      obtain ⟨hc, hcs⟩ : '\n' ≠ c ∧ '\n' ∉ cs := by simpa using hfree
      have hnext : c = '\r' → (cs ++ ending).head? ≠ some '\n' := by
        rintro rfl
        refine head?_append_ne hcs ?_
        rintro rfl
        exact hreturn rfl
      have hrest := ih hcs fun h => hreturn (by rw [List.getLast?_cons, h]; rfl)
      rw [List.cons_append, splitLines_cons (Ne.symm hc) hnext, hrest]

/-- A line that no end follows is the last one. -/
theorem splitLines_last {line : List Char} (hne : line ≠ []) (hfree : '\n' ∉ line) :
    splitLines line = [line] := by
  induction line with
  | nil => exact absurd rfl hne
  | cons c cs ih =>
      obtain ⟨hc, hcs⟩ : '\n' ≠ c ∧ '\n' ∉ cs := by simpa using hfree
      have hnext : c = '\r' → cs.head? ≠ some '\n' := fun _ h => hcs (List.mem_of_head? h)
      rw [splitLines_cons (Ne.symm hc) hnext]
      cases cs with
      | nil => rfl
      | cons d ds => rw [ih (List.cons_ne_nil d ds) hcs]

/-- The lines that make up a text are the ones that it is cut into. -/
theorem Divides.splitLines_eq {text : List Char} {ls : List (List Char)} (h : Divides text ls) :
    splitLines text = ls := by
  induction h with
  | empty => rfl
  | last hne hfree => exact splitLines_last hne hfree
  | feed hfree hbare _ ih =>
      refine splitLines_append hfree (fun h => absurd h hbare) ?_
      rw [← ih]
      rfl
  | returnFeed hfree _ ih =>
      refine splitLines_append hfree (fun _ => by simp) ?_
      rw [← ih]
      rfl

/-- A character that ends no line may be put in front of the first one. -/
theorem Divides.cons {c : Char} {text line : List Char} {ls : List (List Char)} (hc : c ≠ '\n')
    (hreturn : c = '\r' → text.head? ≠ some '\n') (h : Divides text (line :: ls)) :
    Divides (c :: text) ((c :: line) :: ls) := by
  have hfree' : '\n' ∉ line → '\n' ∉ c :: line := fun hfree => by simp [hfree, hc.symm]
  cases h with
  | last hne hfree => exact .last (List.cons_ne_nil c _) (hfree' hfree)
  | @feed _ rest _ hfree hbare hrest =>
      refine .feed (hfree' hfree) ?_ hrest
      cases line with
      | nil => simpa using fun h => hreturn h rfl
      | cons d ds => simpa using hbare
  | returnFeed hfree hrest => exact .returnFeed (hfree' hfree) hrest

/-- Cutting a text into lines loses nothing but their ends. -/
theorem divides_splitLines (text : List Char) : Divides text (splitLines text) := by
  fun_induction splitLines text with
  | case1 => exact .empty
  | case2 cs ih =>
      show Divides ([] ++ '\r' :: '\n' :: cs) _
      exact .returnFeed List.not_mem_nil ih
  | case3 cs ih =>
      show Divides ([] ++ '\n' :: cs) _
      exact .feed List.not_mem_nil (by simp) ih
  | case4 c cs hreturn hc hnil ih =>
      obtain rfl := splitLines_eq_nil_iff.1 hnil
      exact .last (List.cons_ne_nil c _) (by simpa using Ne.symm hc)
  | case5 c cs hreturn hc line rest hlines ih =>
      refine .cons hc ?_ (hlines ▸ ih)
      rintro rfl hhead
      obtain ⟨tail, rfl⟩ := List.head?_eq_some_iff.1 hhead
      exact hreturn tail rfl rfl

/-- There is one way to divide a text into lines. -/
theorem divides_iff {text : String} {ls : List String} :
    Divides text.toList (ls.map String.toList) ↔ ls = lines text := by
  have hback : (lines text).map String.toList = splitLines text.toList := by
    simp [lines, Function.comp_def]
  constructor
  · intro h
    rw [lines, h.splitLines_eq]
    simp [Function.comp_def]
  · rintro rfl
    rw [hback]
    exact divides_splitLines text.toList

/-! ## What is printed -/

def firstFailure? (results : List Result) : Option Diagnostic :=
  results.findSome? fun
    | .error diagnostic => some diagnostic
    | .ok _ => none

/-- Takes lines until one has a failure. Such a line is still carried out to its end. -/
def printedFrom (s : Session) : List String → Except Diagnostic (List String)
  | [] => .ok []
  | line :: rest =>
      let report := s.submit line
      match firstFailure? report.results with
      | some diagnostic => .error diagnostic
      | none => (printedFrom report.session rest).map (report.printed ++ ·)

/-- The texts printed by a script, or its first failure. -/
def printed (text : String) : Except Diagnostic (List String) :=
  printedFrom {} (lines text)

end Script
end LineLang
