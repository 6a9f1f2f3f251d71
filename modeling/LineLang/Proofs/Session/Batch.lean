import Mathlib.Data.List.Forall2
import LineLang.Proofs.Token.Joined
import LineLang.Proofs.Session.Reachable

/-!
# Batches and lines

Instructions may be submitted on one line or on several. The storage they are carried out in is the
same, so that they have the same results and print the same. Only where a line holds several
instructions does the diagnostic of a failure name the place of the instruction.

- `SameResult`, `SameText`      : results and texts that differ at most in the place of an
  instruction
- `Report.Same`                 : reports whose results and texts are the same in this sense
- `Session.executeAll_same`     : how the instructions of a line are counted does not matter
- `Session.executeAll_append`   : instructions one after the other
- `Session.submit_joined`       : one line or two
-/

namespace LineLang

/-! ## Up to the place of an instruction -/

def SameResult (r r' : Result) : Prop :=
  r.mapError Diagnostic.cause = r'.mapError Diagnostic.cause

inductive SameText : String → String → Prop
  | printed (text : String) : SameText text text
  | diagnosed (cause : Cause) (place place' : Option Position) :
      SameText (Diagnostic.message ⟨cause, place⟩) (Diagnostic.message ⟨cause, place'⟩)

/-- The same session, and results and texts that are the same one by one. -/
structure Report.Same (r r' : Report) : Prop where
  session : r.session = r'.session
  results : List.Forall₂ SameResult r.results r'.results
  printed : List.Forall₂ SameText r.printed r'.printed

def Report.followedBy (r r' : Report) : Report :=
  { session := r'.session
    results := r.results ++ r'.results
    printed := r.printed ++ r'.printed }

theorem SameText.refl_all (texts : List String) : List.Forall₂ SameText texts texts :=
  List.forall₂_same.2 fun text _ => .printed text

theorem Report.Same.followedBy {r r' q q' : Report} (h : r.Same r') (h' : q.Same q') :
    (r.followedBy q).Same (r'.followedBy q') where
  session := h'.session
  results := List.rel_append h.results h'.results
  printed := List.rel_append h.printed h'.printed

namespace Session

/-! ## Instructions of a line -/

theorem locate_eq (index total : Nat) (cause : Cause) :
    ∃ place, locate index total cause = ⟨cause, place⟩ := by
  unfold locate
  split
  · exact ⟨_, rfl⟩
  · exact ⟨none, rfl⟩

/-- One result, located in two ways. -/
theorem result_same (r : Except Cause Value) (i i' total total' : Nat) :
    SameResult (r.mapError (locate i total)) (r.mapError (locate i' total')) ∧
      List.Forall₂ SameText (diagnosed (r.mapError (locate i total)))
        (diagnosed (r.mapError (locate i' total'))) := by
  cases r with
  | ok v => exact ⟨rfl, .nil⟩
  | error cause =>
      rcases locate_eq i total cause with ⟨place, h⟩
      rcases locate_eq i' total' cause with ⟨place', h'⟩
      simp only [SameResult, Except.mapError, diagnosed, h, h', true_and]
      exact .cons (.diagnosed cause place place') .nil

/-- How the instructions of a line are counted does not matter. -/
theorem executeAll_same (groups : List (List Token)) (total total' i i' : Nat) (m : Memory) :
    (executeAll total i m groups).Same (executeAll total' i' m groups) := by
  induction groups generalizing i i' m with
  | nil => exact ⟨rfl, .nil, .nil⟩
  | cons ts groups ih =>
      cases ts with
      | nil => exact ih (i + 1) (i' + 1) m
      | cons t ts =>
          have hrest := ih (i + 1) (i' + 1) (execute m (t :: ts)).memory
          rcases result_same (execute m (t :: ts)).result i i' total total' with ⟨hresult, htexts⟩
          refine ⟨hrest.session, .cons hresult hrest.results, ?_⟩
          exact List.rel_append (List.rel_append (SameText.refl_all _) htexts) hrest.printed

/-- Instructions one after the other: the later ones start where the earlier ones left the
storage. -/
theorem executeAll_append (groups groups' : List (List Token)) (total i : Nat) (m : Memory) :
    executeAll total i m (groups ++ groups') =
      (executeAll total i m groups).followedBy
        (executeAll total (i + groups.length) (executeAll total i m groups).session.memory
          groups') := by
  induction groups generalizing i m with
  | nil => rfl
  | cons ts groups ih =>
      have hindex : i + (groups.length + 1) = i + 1 + groups.length := by omega
      cases ts with
      | nil =>
          rw [List.length_cons, hindex]
          exact ih (i + 1) m
      | cons t ts =>
          simp only [List.cons_append, executeAll, ih, List.length_cons, hindex, Report.followedBy,
            List.append_assoc]

/-! ## Lines -/

theorem submit_eq {s : Session} {source : String} {groups : List (List Token)}
    (h : instructionsOf source = .ok groups) :
    s.submit source = executeAll groups.length 1 s.memory groups := by
  simp only [submit, h]

theorem instructionsOf_eq {source : String} {ts : List Token} {groups : List (List Token)}
    (hts : Token.ofSource source = .ok ts) (h : splitInstructions ts = .ok groups) :
    instructionsOf source = .ok groups := by
  rw [instructionsOf, hts]
  exact h

/-- Instructions on one line and on two. The line may have an empty instruction between them, which
does nothing but shift the places of those after it. -/
theorem executeAll_append_same {groups groups' joined : List (List Token)}
    (h : joined = groups ++ groups' ∨ joined = groups ++ [] :: groups')
    (total total₁ total₂ i i₁ i₂ : Nat) (m : Memory) :
    (executeAll total i m joined).Same
      ((executeAll total₁ i₁ m groups).followedBy
        (executeAll total₂ i₂ (executeAll total₁ i₁ m groups).session.memory groups')) := by
  have hfirst : (executeAll total i m groups).Same (executeAll total₁ i₁ m groups) :=
    executeAll_same groups _ _ _ _ m
  rcases h with rfl | rfl
  · rw [executeAll_append, hfirst.session]
    exact hfirst.followedBy (executeAll_same groups' _ _ _ _ _)
  · rw [executeAll_append, hfirst.session]
    -- the empty instruction is passed over, so that only the count of the others changes
    exact hfirst.followedBy (executeAll_same groups' total _ (i + groups.length + 1) _ _)

/-- Two sources that can be cut into instructions, the first of which leaves no parenthesis open,
come to the same whether they are submitted one after the other or as one line with a semicolon
between them: the same session, the same results one after the other, and the same texts in the same
order. Only the places that diagnostics name differ. -/
theorem submit_joined (s : Session) {a b : String} {ts us : List Token}
    {groups groups' : List (List Token)} (ha : Token.ofSource a = .ok ts)
    (hb : Token.ofSource b = .ok us) (hdepth : ts.foldl Token.depthAfter 0 = 0)
    (hgroups : splitInstructions ts = .ok groups) (hgroups' : splitInstructions us = .ok groups') :
    (s.submit (a ++ ";" ++ b)).session = ((s.submit a).session.submit b).session ∧
      List.Forall₂ SameResult (s.submit (a ++ ";" ++ b)).results
        ((s.submit a).results ++ ((s.submit a).session.submit b).results) ∧
      List.Forall₂ SameText (s.submit (a ++ ";" ++ b)).printed
        ((s.submit a).printed ++ ((s.submit a).session.submit b).printed) := by
  have hfirst : s.submit a = executeAll groups.length 1 s.memory groups :=
    submit_eq (instructionsOf_eq ha hgroups)
  have hsecond : ∀ s' : Session, s'.submit b = executeAll groups'.length 1 s'.memory groups' :=
    fun s' => submit_eq (instructionsOf_eq hb hgroups')
  have hjoined : (s.submit (a ++ ";" ++ b)).Same
      ((s.submit a).followedBy ((s.submit a).session.submit b)) := by
    rw [hsecond, hfirst]
    rcases instructionsOf_append ha hb hdepth hgroups hgroups' with h | h
    · rw [submit_eq h]
      exact executeAll_append_same (.inl rfl) ..
    · rw [submit_eq h]
      exact executeAll_append_same (.inr rfl) ..
  exact ⟨hjoined.session, hjoined.results, hjoined.printed⟩

def sameCall : List Token :=
  [.word "same", .symbol .openParen, .word "2", .symbol .closeParen]

/-- A declaration and an instruction that fails, then a call of what was declared. -/
theorem submit_joined_same :
    (falling.submit ("function same(x) => x; missing" ++ ";" ++ "same(2)")).session =
        ((falling.submit "function same(x) => x; missing").session.submit "same(2)").session ∧
      List.Forall₂ SameResult
        (falling.submit ("function same(x) => x; missing" ++ ";" ++ "same(2)")).results
        ((falling.submit "function same(x) => x; missing").results ++
          ((falling.submit "function same(x) => x; missing").session.submit "same(2)").results) ∧
      List.Forall₂ SameText
        (falling.submit ("function same(x) => x; missing" ++ ";" ++ "same(2)")).printed
        ((falling.submit "function same(x) => x; missing").printed ++
          ((falling.submit "function same(x) => x; missing").session.submit
            "same(2)").printed) := by
  have htokens : Token.ofSource "function same(x) => x; missing" =
      .ok (sameDeclaration ++ [.symbol .semicolon, .word "missing"]) := by
    decide +kernel
  have htokens' : Token.ofSource "same(2)" = .ok sameCall := by
    decide +kernel
  have hgroups : splitInstructions (sameDeclaration ++ [.symbol .semicolon, .word "missing"]) =
      .ok [sameDeclaration, [.word "missing"]] := by
    decide +kernel
  have hgroups' : splitInstructions sameCall = .ok [sameCall] := by
    decide +kernel
  exact submit_joined falling htokens htokens' rfl hgroups hgroups'

end Session
end LineLang
