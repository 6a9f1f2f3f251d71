import LineLang.Layout.Size
import LineLang.Phrase

/-!
# The tree of a window, one form at a time

The bound on how deep forms are taken apart is never reached, so that the tree of a window is built
from the trees of its parts.

- `Phrase.ofWindow_eq`  : the tree of a window from the trees of its parts
-/

namespace LineLang

/-- A tree depends on the trees of the parts only. -/
theorem Layout.build_congr {f g : Window → Phrase} {l : Layout}
    (h : ∀ w ∈ l.windows, f w = g w) : l.build f = l.build g := by
  cases l with
  | call function arguments =>
      have ha : arguments.map f = arguments.map g := List.map_congr_left h
      simp [build, ha]
  | letIn clauses body =>
      have hc : clauses.map (·.map f) = clauses.map (·.map g) := by
        apply List.map_congr_left
        intro c hc
        cases c with
        | binding declared name initializer =>
            have hi : f initializer = g initializer :=
              h _ (by simpa [windows] using .inl ⟨_, hc, rfl⟩)
            simp [Clause.map, hi]
        | malformed rejection => rfl
      have hb : f body = g body := h _ (by simp [windows])
      simp [build, hc, hb]
  | _ => simp_all [build, windows]

namespace Phrase

/-- A bound above the number of tokens gives the same tree as any other. -/
theorem ofWindowWithin_eq {m n : Nat} {w : Window} (hm : w.length < m) (hn : w.length < n) :
    ofWindowWithin m w = ofWindowWithin n w := by
  induction m generalizing n w with
  | zero => omega
  | succ m ih =>
      cases n with
      | zero => omega
      | succ n =>
          apply Layout.build_congr
          intro v hv
          have hlt := Layout.length_lt_of_mem_windows hv
          exact ih (by omega) (by omega)

/-- The tree of a window from the trees of its parts. -/
theorem ofWindow_eq (w : Window) : ofWindow w = (Layout.ofWindow w).build ofWindow := by
  apply Layout.build_congr
  intro v hv
  exact ofWindowWithin_eq (Layout.length_lt_of_mem_windows hv) (Nat.lt_succ_self _)

end Phrase
end LineLang
