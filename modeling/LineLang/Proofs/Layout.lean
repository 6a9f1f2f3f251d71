import LineLang.Layout.Size
import LineLang.Proofs.Name
import LineLang.Proofs.Window.Nesting

/-!
# Forms take up their windows

A window that has a form consists of the windows of its parts and of the tokens that belong to the
form itself. Nothing is left over, whichever token the window was cut at.

- `Layout.Covers`           : the parts of a form with its tokens between them
- `Layout.clause_binding`, `Layout.target_variable`  : bindings and targets
- `Layout.covers_ofWindow`  : the form of a window takes up the window
-/

namespace LineLang
namespace Layout

open Window

/-- The window consists of the parts of the form and of the tokens of the form itself, unless there
is a fault. -/
inductive Covers : Layout → Window → Prop
  | malformed {r w} : Covers (.malformed r) w
  | number {word x} (h : Spells word x) : Covers (.literal (.number x)) [.word word]
  | boolean {b} : Covers (.literal (.boolean b)) [.boolean b]
  | text {s} : Covers (.literal (.text s)) [.text s]
  | name {word} : Covers (.name word) [.word word]
  | prefixed {sign : Symbol} {op w} (h : sign.unary? = some op) :
      Covers (.prefixed op w) (.symbol sign :: w)
  | infixed {sign : Symbol} {op l r} (h : sign.binary? = some op) :
      Covers (.infixed op l r) (l ++ .symbol sign :: r)
  | parenthesized {w} :
      Covers (.parenthesized w) (.symbol .openParen :: (w ++ [.symbol .closeParen]))
  | assignment {ws v} : Covers (.assignment (ws.map target) v) (listed ws ++ .symbol .assign :: v)
  | call {f ws} :
      Covers (.call f ws) (.word f :: .symbol .openParen :: (listed ws ++ [.symbol .closeParen]))
  | conditional {c t e} : Covers (.conditional c t e)
      (.keyword .ifWord :: .symbol .openParen ::
        (c ++ .symbol .closeParen :: (t ++ .keyword .elseWord :: e)))
  | letIn {ws b} :
      Covers (.letIn (ws.map clause) b) (.keyword .letWord :: (listed ws ++ .keyword .inWord :: b))

theorem covers_missing {part : Part} {form : Form} {w : Window} : Covers (missing part form) w :=
  .malformed

/-! ## Bindings and targets -/

/-- A binding is a heading and an initializer. -/
theorem clause_binding {w i : Window} {declared : Option Kind} {name : String}
    (h : clause w = .binding declared name i) :
    checkDeclared name = .ok () ∧ w = heading declared name ++ i := by
  rcases w with _ | ⟨t, v⟩
  · cases h
  -- The kind, if there is one, is taken off first; only a word may come next.
  cases t with
  | typeName kind =>
      unfold clause at h
      dsimp only at h
      split at h
      · split at h <;> cases h
        next hchecked _ => exact ⟨hchecked, rfl⟩
      · cases h
  | word word =>
      unfold clause at h
      dsimp only at h
      split at h <;> cases h
      next hchecked _ => exact ⟨hchecked, rfl⟩
  | _ => cases h

theorem target_variable {w : Window} {name : String} (h : target w = .variable name) :
    w = [.word name] := by
  unfold target at h
  split at h
  · split at h <;> cases h
    rfl
  · cases h

/-! ## Forms -/

/-- The bindings and the body are cut at the `in` that belongs to the `let`. -/
theorem covers_letForm (w : Window) : Covers (letForm w) (.keyword .letWord :: w) := by
  unfold letForm
  split
  · exact covers_missing
  · exact covers_missing
  · exact covers_missing
  · next declarations body _ _ hm =>
      rw [← append_of_matching? hm]
      split
      · exact .malformed
      · next clauses hi =>
          rw [← listed_of_items hi]
          exact .letIn

theorem covers_branches (condition w : Window) : Covers (branches condition w)
    (.keyword .ifWord :: .symbol .openParen :: (condition ++ .symbol .closeParen :: w)) := by
  unfold branches
  split
  · exact covers_missing
  · exact covers_missing
  · exact covers_missing
  · next consequent alternative _ _ hm =>
      rw [← append_of_matching? hm]
      exact .conditional

/-- The condition is cut at its closing parenthesis and the branches at their `else`. -/
theorem covers_ifForm (w : Window) : Covers (ifForm w) (.keyword .ifWord :: w) := by
  unfold ifForm
  split
  · split
    · exact .malformed
    · exact covers_missing
    · next condition rest _ he =>
        rw [← append_of_enclosed? he]
        exact covers_branches condition rest
  · exact covers_missing

theorem covers_statement? {w : Window} {l : Layout} (h : statement? w = some l) : Covers l w := by
  unfold statement? at h
  split at h <;> cases h
  · exact covers_letForm _
  · exact covers_ifForm _
  · exact .malformed
  · exact .malformed

/-- The targets stand before the first assignment sign, and the value after it. -/
theorem covers_assignment? {head tail : Window} {l : Layout} (h : assignment? head tail = some l) :
    Covers l (head ++ tail) := by
  obtain ⟨c, hc, rfl⟩ := Option.map_eq_some_iff.1 h
  have hsign : c.token = .symbol .assign := by simpa using satisfies_of_firstTop? hc
  rw [← window_of_firstTop? hc, Cut.window, hsign, List.append_assoc, List.cons_append]
  split
  · exact covers_missing
  · exact covers_missing
  · split
    · exact .malformed
    · next targets hi =>
        rw [← listed_of_items hi]
        exact .assignment

theorem covers_infixedAt {sign : Symbol} {op : BinaryOperator} (h : sign.binary? = some op)
    (left right : Window) : Covers (infixedAt op left right) (left ++ .symbol sign :: right) := by
  unfold infixedAt
  split
  · exact covers_missing
  · exact covers_missing
  · exact .infixed h

/-- Only a sign can be an operator between two operands. -/
theorem symbol_of_binary? {t : Token} {op : BinaryOperator} (h : t.binary? = some op) :
    ∃ sign : Symbol, t = .symbol sign ∧ sign.binary? = some op := by
  cases t with
  | symbol sign => exact ⟨sign, rfl, h⟩
  | _ => cases h

/-- A window is cut at an operator, whose token belongs to neither side. -/
theorem covers_infixed? {head tail : Window} {l : Layout} (h : infixed? head tail = some l) :
    Covers l (head ++ tail) := by
  obtain ⟨level, -, h⟩ := List.exists_of_findSome?_eq_some h
  obtain ⟨c, hc, h⟩ := Option.bind_eq_some_iff.1 h
  obtain ⟨op, hop, rfl⟩ := Option.map_eq_some_iff.1 h
  obtain ⟨sign, hsign, hbinary⟩ := symbol_of_binary? hop
  rw [← window_of_lastTop? hc, Cut.window, hsign, List.append_assoc, List.cons_append]
  exact covers_infixedAt hbinary _ _

theorem covers_power? {head tail : Window} {l : Layout} (h : power? head tail = some l) :
    Covers l (head ++ tail) := by
  obtain ⟨c, hc, rfl⟩ := Option.map_eq_some_iff.1 h
  have hsign : c.token = .symbol .caret := by simpa using satisfies_of_firstTop? hc
  rw [← window_of_firstTop? hc, Cut.window, hsign, List.append_assoc, List.cons_append]
  exact covers_infixedAt rfl _ _

/-- A prefix operator stands in front, and parentheses stand around the whole. -/
theorem covers_prefixed? {w : Window} {l : Layout} (h : prefixed? w = some l) : Covers l w := by
  unfold prefixed? at h
  split at h
  · split at h
    · cases h
      exact covers_missing
    · next he =>
        cases h
        rw [← append_of_enclosed? he]
        exact .parenthesized
    · cases h
  · obtain ⟨op, hop, rfl⟩ := Option.map_eq_some_iff.1 h
    split
    · exact covers_missing
    · exact .prefixed hop
  · cases h

theorem covers_ofWord (word : String) : Covers (ofWord word) [.word word] := by
  rw [ofWord_eq]
  split
  · next hbegins =>
      split
      · next x hx => exact .number (.inl ⟨hbegins, hx⟩)
      · exact .malformed
  · split
    · next x hx => exact .number (.inr hx)
    · split
      · exact .name
      · exact .malformed

/-- A literal or a name is a single token, and the arguments of a call stand between its
parentheses. -/
theorem covers_primary? {w : Window} {l : Layout} (h : primary? w = some l) : Covers l w := by
  unfold primary? at h
  split at h
  · cases h
    exact .boolean
  · cases h
    exact .text
  · cases h
    exact covers_ofWord _
  · split at h
    · next inside he =>
        rw [← append_of_enclosed? he]
        split at h
        · cases h
          exact .malformed
        · next arguments hi =>
            cases h
            rw [← listed_of_items hi]
            exact .call
    · cases h
  · cases h

/-- The form of a window takes up the window. -/
theorem covers_ofWindow (w : Window) : Covers (ofWindow w) w := by
  have hw := append_beforeStatement w
  apply ofWindow_of (P := fun l => Covers l w)
  · exact fun _ h => covers_statement? h
  · exact fun _ h => hw ▸ covers_assignment? h
  · exact fun _ h => hw ▸ covers_infixed? h
  · exact fun _ h => hw ▸ covers_power? h
  · exact fun _ h => covers_prefixed? h
  · exact fun _ h => covers_primary? h
  · exact .malformed

end Layout
end LineLang
