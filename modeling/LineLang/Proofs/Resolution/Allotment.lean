import LineLang.Proofs.Places
import LineLang.Proofs.Resolution.Linked
import Mathlib.Data.List.Nodup
import Mathlib.Data.List.Perm.Basic

/-!
# Slots of bindings

Each binding of an expression that was read got a slot that was new at the time. The slots of all
bindings, in the order in which the initializers end, therefore ascend, and no two bindings have the
same one.

- `Expr.allotted`           : the slots of all bindings
- `Linked.ascending`        : they ascend
- `introduces_distinct`     : a slot belongs to one binding only
-/

namespace LineLang

structure Ascending (lo : Nat) (ts : List SlotId) (hi : Nat) : Prop where
  le : lo ≤ hi
  pairwise : ts.Pairwise (· < ·)
  within : ∀ t ∈ ts, lo ≤ t ∧ t < hi

namespace Ascending

variable {lo k hi : Nat} {ts us : List SlotId} {t : SlotId}

theorem nil : Ascending lo [] lo :=
  ⟨Nat.le_refl lo, .nil, nofun⟩

/-- Slots that go up, and others that go on from there. -/
theorem append (h : Ascending lo ts k) (h' : Ascending k us hi) : Ascending lo (ts ++ us) hi where
  le := Nat.le_trans h.le h'.le
  pairwise := by
    refine List.pairwise_append.2 ⟨h.pairwise, h'.pairwise, fun t ht u hu => ?_⟩
    exact Nat.lt_of_lt_of_le (h.within t ht).2 (h'.within u hu).1
  within t ht := by
    rcases List.mem_append.1 ht with ht | ht
    · exact ⟨(h.within t ht).1, Nat.lt_of_lt_of_le (h.within t ht).2 h'.le⟩
    · exact ⟨Nat.le_trans h.le (h'.within t ht).1, (h'.within t ht).2⟩

/-- One more slot in front. -/
theorem cons (hlt : t < k) (h : Ascending k ts hi) : Ascending t (t :: ts) hi where
  le := Nat.le_trans (Nat.le_of_lt hlt) h.le
  pairwise :=
    List.pairwise_cons.2 ⟨fun u hu => Nat.lt_of_lt_of_le hlt (h.within u hu).1, h.pairwise⟩
  within := by
    refine List.forall_mem_cons.2 ⟨⟨Nat.le_refl t, Nat.lt_of_lt_of_le hlt h.le⟩, fun u hu => ?_⟩
    exact ⟨Nat.le_trans (Nat.le_of_lt hlt) (h.within u hu).1, (h.within u hu).2⟩

theorem nodup (h : Ascending lo ts hi) : ts.Nodup :=
  h.pairwise.imp fun hlt => Nat.ne_of_lt hlt

end Ascending

namespace Expr

mutual

/-- The slots of all bindings in the expression, in the order in which their initializers end. -/
def allotted : Expr → List SlotId
  | .literal _ => []
  | .variable _ => []
  | .unary _ e => e.allotted
  | .binary _ l r => l.allotted ++ r.allotted
  | .assign _ e => e.allotted
  | .call _ _ arguments _ => allottedInAll arguments
  | .print e => e.allotted
  | .declaration _ _ => []
  | .letIn declarations body => allottedInBindings declarations ++ body.allotted
  | .conditional c t e => c.allotted ++ (t.allotted ++ e.allotted)

def allottedInAll : List Expr → List SlotId
  | [] => []
  | e :: es => e.allotted ++ allottedInAll es

def allottedInBindings : List (Declaration Expr) → List SlotId
  | [] => []
  | ⟨_, slot, _, initializer, _⟩ :: declarations =>
      initializer.allotted ++ slot :: allottedInBindings declarations

end

theorem allottedInAll_eq (es : List Expr) : allottedInAll es = es.flatMap allotted := by
  induction es with
  | nil => rfl
  | cons e es ih => rw [allottedInAll, List.flatMap_cons, ih]

/-- The slots of bindings are their own and those of their initializers. -/
theorem allottedInBindings_perm (ds : List (Declaration Expr)) :
    (allottedInBindings ds).Perm
      (ds.map (·.slot) ++ (ds.map (·.initializer)).flatMap allotted) := by
  induction ds with
  | nil => exact .nil
  | cons d ds ih =>
      rw [allottedInBindings, List.map_cons, List.map_cons, List.flatMap_cons]
      refine List.perm_middle.trans (.cons d.slot ?_)
      calc
        (d.initializer.allotted ++ allottedInBindings ds).Perm
          (d.initializer.allotted ++
            (ds.map (·.slot) ++ (ds.map (·.initializer)).flatMap allotted)) :=
            ih.append_left _
        List.Perm _ (ds.map (·.slot) ++
          (d.initializer.allotted ++ (ds.map (·.initializer)).flatMap allotted)) :=
            List.perm_append_comm_assoc _ _ _

/-- A slot belongs to a binding of the expression itself or to one in its parts. -/
theorem allotted_perm (e : Expr) :
    e.allotted.Perm (e.ownDeclarations.map (·.slot) ++ e.children.flatMap allotted) := by
  cases e with
  | letIn ds b =>
      have hds := (allottedInBindings_perm ds).append_right b.allotted
      simpa [allotted, ownDeclarations, children] using hds
  | call name f es dependent =>
      rw [allotted, allottedInAll_eq]
      exact .refl _
  | _ => simp [allotted, ownDeclarations, children]

theorem allotted_builtinCall {b : Builtin} {es : List Expr} {e : Expr}
    (h : Resolution.builtinCall b es = some e) : e.allotted = allottedInAll es := by
  unfold Resolution.builtinCall at h
  split at h <;> cases h <;> simp [allotted, allottedInAll]

end Expr

/-! ## Reading -/

mutual

/-- The slots of the bindings ascend. -/
theorem Linked.ascending {functions : List (String × FunctionId)} {Γ : List (String × SlotId)}
    {lo hi : Nat} {p : Phrase} {e : Expr} :
    Linked functions Γ lo p e hi → Ascending lo e.allotted hi
  | .literal => .nil
  | .name _ => .nil
  | .prefixed h => h.ascending
  | .infixed hl hr => hl.ascending.append hr.ascending
  | .assignment _ h => h.ascending
  | .builtin _ he h => by
      rw [Expr.allotted_builtinCall he]
      exact h.ascending
  | .call _ _ h => h.ascending
  | .conditional hc ht he => hc.ascending.append (ht.ascending.append he.ascending)
  | .letIn hds h => hds.ascending.append h.ascending

theorem LinkedAll.ascending {functions : List (String × FunctionId)} {Γ : List (String × SlotId)}
    {lo hi : Nat} {ps : List Phrase} {es : List Expr} :
    LinkedAll functions Γ lo ps es hi → Ascending lo (Expr.allottedInAll es) hi
  | .nil => .nil
  | .cons h hes => h.ascending.append hes.ascending

/-- The slot of a binding comes after those inside its initializer. -/
theorem LinkedClauses.ascending {functions : List (String × FunctionId)}
    {Γ Δ : List (String × SlotId)} {lo hi : Nat} {cs : List (Clause Phrase)}
    {ds : List (Declaration Expr)} :
    LinkedClauses functions Γ lo cs ds Δ hi → Ascending lo (Expr.allottedInBindings ds) hi
  | .nil => .nil
  | .cons h hslot _ hds => h.ascending.append (.cons hslot hds.ascending)

end

/-! ## Binders -/

section Distinct

variable {e : Expr} {x x' : String} {t : SlotId}

/-- The slot of a binding is one of those that were allotted. -/
theorem Introduces.slot_mem {b : Binder} (h : Introduces [] e b x t) : t ∈ e.allotted := by
  rcases introduces_nil h with ⟨π, i, rfl⟩
  induction π generalizing e with
  | nil =>
      rcases introduces_here.1 h with ⟨d, hd, -, rfl⟩
      have hown : d.slot ∈ e.ownDeclarations.map (·.slot) :=
        List.mem_map_of_mem (List.mem_of_getElem? hd)
      exact e.allotted_perm.mem_iff.2 (List.mem_append_left _ hown)
  | cons j π ih =>
      rcases introduces_cons.1 h with ⟨c, hc, h⟩
      have hinside : t ∈ e.children.flatMap Expr.allotted :=
        List.mem_flatMap.2 ⟨c, List.mem_of_getElem? hc, ih h⟩
      exact e.allotted_perm.mem_iff.2 (List.mem_append_right _ hinside)

/-- Different parts of an expression have different slots. -/
theorem children_distinct (he : e.allotted.Nodup) {j j' : Nat} {c c' : Expr}
    (hc : e.children[j]? = some c) (hc' : e.children[j']? = some c') (ht : t ∈ c.allotted)
    (ht' : t ∈ c'.allotted) : j = j' := by
  have hparts := (List.nodup_append.1 (e.allotted_perm.nodup_iff.1 he)).2.1
  have hdisjoint := List.pairwise_iff_getElem.1 (List.nodup_flatMap.1 hparts).2
  rcases List.getElem?_eq_some_iff.1 hc with ⟨hlt, rfl⟩
  rcases List.getElem?_eq_some_iff.1 hc' with ⟨hlt', rfl⟩
  rcases Nat.lt_trichotomy j j' with h | h | h
  · exact absurd ht' (hdisjoint j j' hlt hlt' h ht)
  · exact h
  · exact absurd ht (hdisjoint j' j hlt' hlt h ht')

theorem allotted_child (he : e.allotted.Nodup) {c : Expr} (hc : c ∈ e.children) :
    c.allotted.Nodup := by
  have hparts := (List.nodup_append.1 (e.allotted_perm.nodup_iff.1 he)).2.1
  exact (List.nodup_flatMap.1 hparts).1 c hc

/-- Different bindings of one `let` have different slots. -/
theorem own_distinct (he : e.allotted.Nodup) {i i' : Nat}
    (h : Introduces [] e (.declaration [] i) x t) (h' : Introduces [] e (.declaration [] i') x' t) :
    i = i' := by
  have hown := (List.nodup_append.1 (e.allotted_perm.nodup_iff.1 he)).1
  rcases introduces_here.1 h with ⟨d, hd, -, hslot⟩
  rcases introduces_here.1 h' with ⟨d', hd', -, hslot'⟩
  have hi : (e.ownDeclarations.map (·.slot))[i]? = some t := by simp [hd, hslot]
  have hi' : (e.ownDeclarations.map (·.slot))[i']? = some t := by simp [hd', hslot']
  have hlt := (List.getElem?_eq_some_iff.1 hi).1
  exact (List.getElem?_inj hlt hown).1 (hi.trans hi'.symm)

/-- A binding of a `let` does not share its slot with a binding inside. -/
theorem not_introduces_inside (he : e.allotted.Nodup) {i j k : Nat} {π : Place}
    (h : Introduces [] e (.declaration [] i) x t) :
    ¬ Introduces [] e (.declaration (j :: π) k) x' t := by
  intro h'
  have hapart := (List.nodup_append.1 (e.allotted_perm.nodup_iff.1 he)).2.2
  rcases introduces_here.1 h with ⟨d, hd, -, rfl⟩
  rcases introduces_cons.1 h' with ⟨c, hc, hinside⟩
  have hown : d.slot ∈ e.ownDeclarations.map (·.slot) :=
    List.mem_map_of_mem (List.mem_of_getElem? hd)
  have hparts : d.slot ∈ e.children.flatMap Expr.allotted :=
    List.mem_flatMap.2 ⟨c, List.mem_of_getElem? hc, hinside.slot_mem⟩
  exact hapart d.slot hown d.slot hparts rfl

/-- If no slot was allotted twice, a slot belongs to one binding only. -/
theorem introduces_distinct {b b' : Binder} (he : e.allotted.Nodup) (h : Introduces [] e b x t)
    (h' : Introduces [] e b' x' t) : b = b' := by
  rcases introduces_nil h with ⟨π, i, rfl⟩
  rcases introduces_nil h' with ⟨π', i', rfl⟩
  induction π generalizing e π' with
  | nil =>
      cases π' with
      | nil => rw [own_distinct he h h']
      | cons j' π' => exact absurd h' (not_introduces_inside he h)
  | cons j π ih =>
      cases π' with
      | nil => exact absurd h (not_introduces_inside he h')
      | cons j' π' =>
          -- Parts share no slots, so both binders are in the same part.
          rcases introduces_cons.1 h with ⟨c, hc, hinside⟩
          rcases introduces_cons.1 h' with ⟨c', hc', hinside'⟩
          cases children_distinct he hc hc' hinside.slot_mem hinside'.slot_mem
          cases hc.symm.trans hc'
          cases ih (allotted_child he (List.mem_of_getElem? hc)) hinside π' hinside'
          rfl

end Distinct

end LineLang
