import LineLang.Layout

/-!
# Parts are shorter

The windows of the parts of a form are shorter than the window of the form, because each form spends
at least one token on itself.

- `Layout.length_lt_of_mem_windows`  : the bound for every form
-/

namespace LineLang
namespace Layout

def PartsBelow (n : Nat) (l : Layout) : Prop :=
  ∀ w ∈ l.windows, w.length < n

theorem partsBelow_malformed {n : Nat} {r : Rejection} : PartsBelow n (.malformed r) := by
  simp [PartsBelow, windows]

theorem partsBelow_missing {n : Nat} {part : Part} {form : Form} :
    PartsBelow n (missing part form) :=
  partsBelow_malformed

/-- A binding begins with a name and an equals sign, so that its initializer is shorter. -/
theorem length_clause {w i : Window} (h : (clause w).initializer? = some i) :
    i.length < w.length := by
  unfold clause at h
  dsimp only at h
  split at h
  · next word rest hr =>
    have hw : rest.length + 1 ≤ w.length := by
      split at hr <;> simp_all
    split at h <;> simp [Clause.initializer?] at h
    subst h
    simp at hw
    omega
  · simp [Clause.initializer?] at h

/-- The keyword that stands in front counts too. -/
theorem partsBelow_letForm (w : Window) : PartsBelow (w.length + 1) (letForm w) := by
  unfold letForm
  split
  · exact partsBelow_missing
  · exact partsBelow_missing
  · exact partsBelow_missing
  · next declarations body _ _ hm =>
    have hw := congrArg List.length (Window.append_of_matching? hm)
    simp only [List.length_append, List.length_cons] at hw
    split
    · exact partsBelow_malformed
    · next clauses hi =>
      intro v hv
      simp only [windows, List.mem_append, List.mem_filterMap, List.mem_map,
        List.mem_singleton] at hv
      rcases hv with ⟨_, ⟨c, hc, rfl⟩, hv⟩ | rfl
      · have h₁ := length_clause hv
        have h₂ := Window.length_of_items hi c hc
        omega
      · omega

/-- The condition and the two branches lie apart in what follows the `if`. -/
theorem partsBelow_branches (condition w : Window) {n : Nat}
    (h : condition.length + w.length < n) : PartsBelow n (branches condition w) := by
  unfold branches
  split
  · exact partsBelow_missing
  · exact partsBelow_missing
  · exact partsBelow_missing
  · next consequent alternative _ _ hm =>
    have hw := congrArg List.length (Window.append_of_matching? hm)
    simp only [List.length_append, List.length_cons] at hw
    intro v hv
    simp only [windows, List.mem_cons, List.not_mem_nil, or_false] at hv
    rcases hv with rfl | rfl | rfl <;> omega

theorem partsBelow_ifForm (w : Window) : PartsBelow (w.length + 1) (ifForm w) := by
  unfold ifForm
  split
  · next ts =>
    split
    · exact partsBelow_malformed
    · exact partsBelow_missing
    · next condition rest _ he =>
      have hw := congrArg List.length (Window.append_of_enclosed? he)
      simp only [List.length_append, List.length_cons] at hw
      apply partsBelow_branches
      simp only [List.length_cons]
      omega
  · exact partsBelow_missing

theorem partsBelow_statement? {w : Window} {l : Layout} (h : statement? w = some l) :
    PartsBelow w.length l := by
  unfold statement? at h
  split at h <;> cases h
  · exact partsBelow_letForm _
  · exact partsBelow_ifForm _
  · exact partsBelow_malformed
  · exact partsBelow_malformed

/-- The assignment sign belongs to no part. -/
theorem partsBelow_assignment? {head tail : Window} {l : Layout}
    (h : assignment? head tail = some l) : PartsBelow (head ++ tail).length l := by
  obtain ⟨c, hc, rfl⟩ := Option.map_eq_some_iff.1 h
  have hw := congrArg List.length (Window.window_of_firstTop? hc)
  simp only [Window.Cut.window, List.length_append, List.length_cons] at hw
  split
  · exact partsBelow_missing
  · exact partsBelow_missing
  · split
    · exact partsBelow_malformed
    · intro v hv
      simp only [windows, List.mem_cons, List.not_mem_nil, or_false] at hv
      subst hv
      simp only [List.length_append]
      omega

theorem partsBelow_infixedAt (op : BinaryOperator) {left right : Window} {n : Nat}
    (h : left.length + right.length < n) : PartsBelow n (infixedAt op left right) := by
  unfold infixedAt
  split
  · exact partsBelow_missing
  · exact partsBelow_missing
  · intro v hv
    simp only [windows, List.mem_cons, List.not_mem_nil, or_false] at hv
    rcases hv with rfl | rfl <;> omega

/-- The operator belongs to neither operand. -/
theorem partsBelow_infixed? {head tail : Window} {l : Layout}
    (h : infixed? head tail = some l) : PartsBelow (head ++ tail).length l := by
  obtain ⟨level, _, h⟩ := List.exists_of_findSome?_eq_some h
  obtain ⟨c, hc, h⟩ := Option.bind_eq_some_iff.1 h
  obtain ⟨op, _, rfl⟩ := Option.map_eq_some_iff.1 h
  have hw := congrArg List.length (Window.window_of_lastTop? hc)
  simp only [Window.Cut.window, List.length_append, List.length_cons] at hw
  apply partsBelow_infixedAt
  simp only [List.length_append]
  omega

theorem partsBelow_power? {head tail : Window} {l : Layout}
    (h : power? head tail = some l) : PartsBelow (head ++ tail).length l := by
  obtain ⟨c, hc, rfl⟩ := Option.map_eq_some_iff.1 h
  have hw := congrArg List.length (Window.window_of_firstTop? hc)
  simp only [Window.Cut.window, List.length_append, List.length_cons] at hw
  apply partsBelow_infixedAt
  simp only [List.length_append]
  omega

/-- A sign is taken off in front, or a pair of parentheses around the whole. -/
theorem partsBelow_prefixed? {w : Window} {l : Layout} (h : prefixed? w = some l) :
    PartsBelow w.length l := by
  unfold prefixed? at h
  split at h
  · split at h
    · cases h
      exact partsBelow_missing
    · next inside _ he =>
      cases h
      have hw := congrArg List.length (Window.append_of_enclosed? he)
      simp only [List.length_append, List.length_cons] at hw
      intro v hv
      simp only [windows, List.mem_cons, List.not_mem_nil, or_false] at hv
      subst hv
      simp only [List.length_cons]
      omega
    · cases h
  · obtain ⟨op, _, rfl⟩ := Option.map_eq_some_iff.1 h
    split
    · exact partsBelow_missing
    · intro v hv
      simp only [windows, List.mem_cons, List.not_mem_nil, or_false] at hv
      subst hv
      simp
  · cases h

theorem partsBelow_ofWord {n : Nat} {word : String} : PartsBelow n (ofWord word) := by
  unfold ofWord
  split
  · split
    · simp [PartsBelow, windows]
    · exact partsBelow_malformed
  · split
    · simp [PartsBelow, windows]
    · split
      · simp [PartsBelow, windows]
      · exact partsBelow_malformed

/-- Only a call has parts. They stand between its parentheses. -/
theorem partsBelow_primary? {w : Window} {l : Layout} (h : primary? w = some l) :
    PartsBelow w.length l := by
  unfold primary? at h
  split at h
  · cases h
    simp [PartsBelow, windows]
  · cases h
    simp [PartsBelow, windows]
  · cases h
    exact partsBelow_ofWord
  · split at h
    · next inside he =>
      have hw := congrArg List.length (Window.append_of_enclosed? he)
      simp only [List.length_append, List.length_cons] at hw
      split at h
      · cases h
        exact partsBelow_malformed
      · next arguments hi =>
        cases h
        intro v hv
        have hv := Window.length_of_items hi v hv
        simp only [List.length_cons]
        omega
    · cases h
  · cases h

/-- What holds of each of two forms holds of the first one there is. -/
theorem of_orElse {P : Layout → Prop} {a b : Option Layout} (ha : ∀ l, a = some l → P l)
    (hb : ∀ l, b = some l → P l) : ∀ l, (a <|> b) = some l → P l := by
  cases a with
  | none => simpa using hb
  | some l => simpa using ha

/-- What holds of every form that is tried, and of a window without a form, holds of the form of a
window. -/
theorem ofWindow_of {P : Layout → Prop} {w : Window} (hstatement : ∀ l, statement? w = some l → P l)
    (hassignment : ∀ l, assignment? (Window.beforeStatement w).1
      (Window.beforeStatement w).2 = some l → P l)
    (hinfixed : ∀ l, infixed? (Window.beforeStatement w).1 (Window.beforeStatement w).2 = some l →
      P l)
    (hpower : ∀ l, power? (Window.beforeStatement w).1 (Window.beforeStatement w).2 = some l → P l)
    (hprefixed : ∀ l, prefixed? w = some l → P l) (hprimary : ∀ l, primary? w = some l → P l)
    (hinvalid : P (.malformed (.invalidExpression w.render))) : P (ofWindow w) := by
  have hform : ∀ l, form? w = some l → P l :=
    of_orElse hstatement (of_orElse hassignment (of_orElse hinfixed (of_orElse hpower
      (of_orElse hprefixed hprimary))))
  unfold ofWindow
  cases hl : form? w with
  | none => exact hinvalid
  | some l => exact hform l hl

/-- The parts of a form are shorter than the form. -/
theorem length_lt_of_mem_windows {w v : Window} (h : v ∈ (ofWindow w).windows) :
    v.length < w.length := by
  have hw := Window.append_beforeStatement w
  have hparts : PartsBelow w.length (ofWindow w) :=
    ofWindow_of (fun _ hl => partsBelow_statement? hl) (fun _ hl => hw ▸ partsBelow_assignment? hl)
      (fun _ hl => hw ▸ partsBelow_infixed? hl) (fun _ hl => hw ▸ partsBelow_power? hl)
      (fun _ hl => partsBelow_prefixed? hl) (fun _ hl => partsBelow_primary? hl)
      partsBelow_malformed
  exact hparts v h

end Layout
end LineLang
