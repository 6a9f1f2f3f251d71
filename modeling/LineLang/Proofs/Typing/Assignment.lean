import LineLang.Proofs.Effect
import LineLang.Typing

/-!
# Which assignments have a kind

The targets of an assignment are checked from left to right against a kind that the first definite
one fixes. What this accepts can be said without an order: among the kind of the value and the kinds
of the targets there is at most one that is not dynamic. The order of the targets decides only which
of them is blamed for a second kind.

- `Kind.Uniform`                  : there is at most one kind that is not dynamic
- `Memory.Clashes`                : a target brings in a second kind, and those before it do not
- `Typing.checkTargets_ok_iff`    : targets are accepted if the kinds are uniform, and only then
- `Typing.checkTargets_error_iff` : otherwise the first target that clashes is named
- `Typing.assignmentKind_exact`   : both for assignments, whatever the order of their targets
-/

namespace LineLang

open Effect

/-! ## At most one kind -/

namespace Kind

/-- There is at most one kind among them that is not dynamic, however often it stands there. -/
def Uniform (kinds : List Kind) : Prop :=
  ∀ a ∈ kinds, ∀ b ∈ kinds, a ≠ .dynamic → b ≠ .dynamic → a = b

instance : DecidablePred Uniform := fun kinds =>
  inferInstanceAs (Decidable (∀ a ∈ kinds, ∀ b ∈ kinds, a ≠ .dynamic → b ≠ .dynamic → a = b))

variable {a b : Kind} {kinds kinds' : List Kind}

/-- It counts only which definite kinds there are, not where and how often they stand. -/
theorem Uniform.mono (h : Uniform kinds) (hsub : ∀ k ∈ kinds', k ≠ .dynamic → k ∈ kinds) :
    Uniform kinds' :=
  fun a ha b hb hda hdb => h a (hsub a ha hda) b (hsub b hb hdb) hda hdb

theorem uniform_perm (h : kinds.Perm kinds') : Uniform kinds ↔ Uniform kinds' :=
  ⟨fun hu => hu.mono fun _ hk _ => h.mem_iff.2 hk, fun hu => hu.mono fun _ hk _ => h.mem_iff.1 hk⟩

theorem uniform_singleton (a : Kind) : Uniform [a] := by
  intro b hb c hc _ _
  rw [List.mem_singleton.1 hb, List.mem_singleton.1 hc]

theorem accepts_iff : a.accepts b = true ↔ Uniform [b, a] := by
  cases a <;> cases b <;> decide

/-- Of two kinds that go together, the one that says less is dynamic or the same as the other. -/
theorem mem_fixed_iff {k : Kind} (hab : b.accepts a = true) (hk : k ≠ .dynamic) :
    k ∈ (if a = .dynamic then b else a) :: kinds ↔ k ∈ a :: b :: kinds := by
  have hpair := accepts_iff.1 hab a (by simp) b (by simp)
  split <;> grind

/-- One kind is compared with the next, and the definite one of the two goes on. -/
theorem uniform_cons_cons : Uniform (a :: b :: kinds) ↔
    b.accepts a = true ∧ Uniform ((if a = .dynamic then b else a) :: kinds) := by
  constructor
  · intro h
    have hab : b.accepts a = true := accepts_iff.2 (h.mono (by grind))
    exact ⟨hab, h.mono fun k hk hd => (mem_fixed_iff hab hd).1 hk⟩
  · rintro ⟨hab, h⟩
    exact h.mono fun k hk hd => (mem_fixed_iff hab hd).2 hk

end Kind

open Kind

namespace Memory

def targetKinds (m : Memory) (targets : List Reference) : List Kind :=
  targets.map fun target => (m.slot target.slot).kind

/-- The value and the targets in `before` have no definite kind but `common`, and `target` has
another one. -/
structure Clashes (m : Memory) (kind : Kind) (before : List Reference) (target : Reference)
    (common : Kind) : Prop where
  uniform : Uniform (kind :: m.targetKinds before)
  common_mem : common ∈ kind :: m.targetKinds before
  common_definite : common ≠ .dynamic
  definite : (m.slot target.slot).kind ≠ .dynamic
  different : (m.slot target.slot).kind ≠ common

end Memory

/-! ## Going through the targets -/

namespace Typing

variable {m : Memory} {kind : Kind} {targets : List Reference}

theorem expect_ok_iff {site : Site} {expected received : Kind} :
    expect site expected received = .ok () ↔ expected.accepts received = true := by
  unfold expect
  split <;> simp_all

/-- What one target does: it is compared with the kind so far and fixes it if nothing did before. -/
theorem checkTargets_cons (target : Reference) : checkTargets m kind (target :: targets) =
    if (m.slot target.slot).kind.accepts kind then
      checkTargets m (if kind = .dynamic then (m.slot target.slot).kind else kind) targets
    else .error (.kindMismatch (.assignment target.name) (m.slot target.slot).kind kind) := by
  simp only [checkTargets, expect]
  split <;> rfl

/-- The targets pass the check if there is at most one definite kind among them and the value. -/
theorem checkTargets_ok_iff :
    checkTargets m kind targets = .ok () ↔ Uniform (kind :: m.targetKinds targets) := by
  -- The kind so far stands for those of the value and of all targets that were passed.
  induction targets generalizing kind with
  | nil => exact iff_of_true rfl (uniform_singleton kind)
  | cons target targets ih =>
      rw [checkTargets_cons, Memory.targetKinds, List.map_cons, uniform_cons_cons]
      split
      · next haccepts => exact ih.trans (and_iff_right haccepts).symm
      · next haccepts => exact iff_of_false (by simp) fun h => haccepts h.1

/-- Each target by itself accepts the kind of the value. -/
theorem checkTargets_accepts (h : checkTargets m kind targets = .ok ()) :
    ∀ target ∈ targets, (m.slot target.slot).kind.accepts kind = true := by
  intro target htarget
  have hslot : (m.slot target.slot).kind ∈ m.targetKinds targets := List.mem_map_of_mem htarget
  refine accepts_iff.2 ((checkTargets_ok_iff.1 h).mono fun k hk _ => ?_)
  simp only [List.mem_cons, List.not_mem_nil, or_false] at hk
  rcases hk with rfl | rfl
  · exact List.mem_cons_self
  · exact List.mem_cons_of_mem _ hslot

/-- The first target fails at once if its kind clashes with that of the value. -/
theorem clashes_nil_iff {target : Reference} {common : Kind} : m.Clashes kind [] target common ↔
    common = kind ∧ ¬(m.slot target.slot).kind.accepts kind = true := by
  constructor
  · rintro ⟨-, hmem, hcommon, hdefinite, hdifferent⟩
    obtain rfl := List.mem_singleton.1 hmem
    exact ⟨rfl, fun h => hdifferent
      (accepts_iff.1 h _ (by simp) _ (by simp) hdefinite hcommon)⟩
  · rintro ⟨rfl, h⟩
    refine ⟨uniform_singleton _, List.mem_singleton_self _, ?_, ?_, ?_⟩ <;>
      · intro heq
        simp [accepts, heq] at h

/-- A clash further on is one with the kind that the first target leaves. -/
theorem clashes_cons_iff {first target : Reference} {before : List Reference} {common : Kind} :
    m.Clashes kind (first :: before) target common ↔ (m.slot first.slot).kind.accepts kind = true ∧
      m.Clashes (if kind = .dynamic then (m.slot first.slot).kind else kind) before
        target common := by
  constructor
  · rintro ⟨huniform, hmem, hcommon, hdefinite, hdifferent⟩
    obtain ⟨haccepts, hrest⟩ := uniform_cons_cons.1 huniform
    exact ⟨haccepts, hrest, (mem_fixed_iff haccepts hcommon).2 hmem, hcommon, hdefinite, hdifferent⟩
  · rintro ⟨haccepts, huniform, hmem, hcommon, hdefinite, hdifferent⟩
    exact ⟨uniform_cons_cons.2 ⟨haccepts, huniform⟩, (mem_fixed_iff haccepts hcommon).1 hmem,
      hcommon, hdefinite, hdifferent⟩

/-- The check fails at the first target that clashes with what came before it. -/
theorem checkTargets_error_iff {fault : Fault} : checkTargets m kind targets = .error fault ↔
    ∃ before target after common, targets = before ++ target :: after ∧
      m.Clashes kind before target common ∧
      fault = .kindMismatch (.assignment target.name) (m.slot target.slot).kind common := by
  constructor
  · intro h
    induction targets generalizing kind with
    | nil => cases h
    | cons target targets ih =>
        rw [checkTargets_cons] at h
        split at h
        · next haccepts =>
            obtain ⟨before, clashing, after, common, rfl, hclash, hfault⟩ := ih h
            exact ⟨target :: before, clashing, after, common, rfl,
              clashes_cons_iff.2 ⟨haccepts, hclash⟩, hfault⟩
        · next haccepts =>
            cases h
            exact ⟨[], target, targets, kind, rfl, clashes_nil_iff.2 ⟨rfl, haccepts⟩, rfl⟩
  · rintro ⟨before, target, after, common, rfl, hclash, rfl⟩
    -- What comes after the clash is not looked at, so the induction is on the targets before it.
    induction before generalizing kind with
    | nil =>
        obtain ⟨rfl, haccepts⟩ := clashes_nil_iff.1 hclash
        rw [List.nil_append, checkTargets_cons, if_neg haccepts]
    | cons first before ih =>
        obtain ⟨haccepts, hrest⟩ := clashes_cons_iff.1 hclash
        rw [List.cons_append, checkTargets_cons, if_pos haccepts]
        exact ih hrest

/-! ## Assignments -/

/-- An assignment that passes its check has the kind of its value. -/
theorem assignmentKind_ok_iff {k : Kind} : assignmentKind m targets kind = .ok k ↔
    k = kind ∧ Uniform (kind :: m.targetKinds targets) := by
  rw [← checkTargets_ok_iff]
  constructor
  · intro h
    obtain ⟨⟨⟩, hcheck, hkind⟩ := ok_of_bind h
    cases hkind
    exact ⟨rfl, hcheck⟩
  · rintro ⟨rfl, hcheck⟩
    simp only [assignmentKind, hcheck]
    rfl

theorem assignmentKind_error_iff {fault : Fault} :
    assignmentKind m targets kind = .error fault ↔ checkTargets m kind targets = .error fault := by
  unfold assignmentKind
  cases checkTargets m kind targets with
  | ok => constructor <;> (intro h; cases h)
  | error => constructor <;> (rintro ⟨⟩; rfl)

/-- The order of the targets does not count. -/
theorem assignmentKind_perm {targets' : List Reference} (h : targets'.Perm targets) {k : Kind} :
    assignmentKind m targets' kind = .ok k ↔ assignmentKind m targets kind = .ok k := by
  have hkinds : (kind :: m.targetKinds targets').Perm (kind :: m.targetKinds targets) :=
    (h.map _).cons kind
  rw [assignmentKind_ok_iff, assignmentKind_ok_iff, uniform_perm hkinds]

/-- The kind of the value is computed first, which may change what is remembered. -/
theorem kindOf_assign_ok_iff {value : Expr} {k : Kind} {n : Memory} :
    kindOf (.assign targets value) m = .ok k n ↔
      ∃ kind, kindOf value m = .ok kind n ∧ assignmentKind n targets kind = .ok k := by
  -- Both enter bodies equally deep, since they start in the same storage.
  have hvalue : kindOf value m = kindWith (kindWithin (callLimit * m.functions.size)) value m := rfl
  have hassign : kindOf (.assign targets value) m =
      (kindWith (kindWithin (callLimit * m.functions.size)) value >>= fun kind => do
        Effect.ofExcept (assignmentKind (← get) targets kind)) m := rfl
  rw [hvalue, hassign]
  constructor
  · intro h
    obtain ⟨kind, u, hkind, hrest⟩ := of_bind_ok h
    obtain ⟨hok, rfl⟩ := of_ofExcept_ok hrest
    exact ⟨kind, hkind, hok⟩
  · rintro ⟨kind, hkind, hok⟩
    rw [bind_ok hkind]
    show Effect.ofExcept (assignmentKind n targets kind) n = _
    rw [hok]
    rfl

/-- An assignment has the kind of its value if there is at most one definite kind among that and the
kinds of the targets, and it has no kind otherwise, because of the first target with a second one.
So the order of the targets never decides whether there is a kind, be it of the assignment as such
or with the value still to be looked at. -/
theorem assignmentKind_exact (m : Memory) (targets : List Reference) (kind : Kind) :
    (∀ k, assignmentKind m targets kind = .ok k ↔
      k = kind ∧ Uniform (kind :: m.targetKinds targets)) ∧
    (∀ fault, assignmentKind m targets kind = .error fault ↔
      ∃ before target after common, targets = before ++ target :: after ∧
        m.Clashes kind before target common ∧
        fault = .kindMismatch (.assignment target.name) (m.slot target.slot).kind common) ∧
    ∀ targets', targets'.Perm targets →
      (∀ k, assignmentKind m targets' kind = .ok k ↔ assignmentKind m targets kind = .ok k) ∧
      ∀ value k n, kindOf (.assign targets' value) m = .ok k n ↔
        kindOf (.assign targets value) m = .ok k n := by
  refine ⟨fun k => assignmentKind_ok_iff,
    fun fault => assignmentKind_error_iff.trans checkTargets_error_iff, fun targets' hperm => ?_⟩
  refine ⟨fun k => assignmentKind_perm hperm, fun value k n => ?_⟩
  simp only [kindOf_assign_ok_iff, assignmentKind_perm hperm]

/-- A slot of which nothing is known, one for a number and one for a text. -/
def mixedSlots : Memory :=
  { slots := #[⟨"p", .dynamic, true, .uninitialized⟩, ⟨"x", .number, false, .uninitialized⟩,
      ⟨"y", .text, false, .uninitialized⟩] }

/-- Nothing is known of the value or of the first target. With the number and the text after it
there is no order in which the assignment has a kind; with the number alone there is none in which
it has not. -/
theorem assignmentKind_exact_mixed :
    (∀ targets', targets'.Perm [⟨"p", 0, true⟩, ⟨"x", 1, false⟩, ⟨"y", 2, false⟩] →
      ∀ k, assignmentKind mixedSlots targets' .dynamic ≠ .ok k) ∧
    (∀ targets', targets'.Perm [⟨"p", 0, true⟩, ⟨"x", 1, false⟩, ⟨"p", 0, true⟩] →
      assignmentKind mixedSlots targets' .dynamic = .ok .dynamic) ∧
    assignmentKind mixedSlots [⟨"y", 2, false⟩, ⟨"p", 0, true⟩, ⟨"x", 1, false⟩] .dynamic =
      .error (.kindMismatch (.assignment "x") .number .text) := by
  refine ⟨fun targets' hperm k h => ?_, fun targets' hperm => ?_, ?_⟩
  · have hk := (((assignmentKind_exact mixedSlots _ _).2.2 targets' hperm).1 k).1 h
    exact absurd (((assignmentKind_exact mixedSlots _ _).1 k).1 hk).2 (by decide)
  · exact (((assignmentKind_exact mixedSlots _ _).2.2 targets' hperm).1 _).2
      (((assignmentKind_exact mixedSlots _ _).1 _).2 ⟨rfl, by decide⟩)
  · refine ((assignmentKind_exact mixedSlots _ _).2.1 _).2
      ⟨[⟨"y", 2, false⟩, ⟨"p", 0, true⟩], ⟨"x", 1, false⟩, [], .text, rfl, ?_, rfl⟩
    exact ⟨by decide, by decide, by decide, by decide, by decide⟩

end Typing
end LineLang
