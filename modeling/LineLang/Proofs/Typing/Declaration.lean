import LineLang.Proofs.Typing.Given

/-!
# The kind of a function that calls itself

The body of a function that has just been declared is entered again at each call of itself, until
the limit on calls is reached. Level by level, counted from the innermost, each call has the kind
that the body has when calls one level further in are given theirs. Remembered kinds and overflows
are those of the level further in and never change an answer.

- `Typing.nested`                   : the kind of a call on each level
- `Memory.during`                   : the storage while the kind of a function is computed
- `Typing.declarationKind_level`    : the kind of a declaration is the one of the outermost level
  left
- `Typing.declarationKind_nested`   : where no call is active, that is the outermost of all
-/

namespace LineLang

open Effect

namespace Memory

/-- The remembered kinds, but for one function, whose calls are given a kind. -/
def answering (m : Memory) (id : FunctionId) (r : Except Fault Kind) (f : FunctionId) :
    Except Fault Kind :=
  if f = id then r else m.answer f

theorem answering_ne {m : Memory} {id : FunctionId} {r : Except Fault Kind} {fault : Fault}
    (h : r ≠ .error fault) (f : FunctionId) : m.answering id r f ≠ .error fault := by
  unfold answering
  split
  · exact h
  · exact nofun

theorem answering_ok_ne {m : Memory} {id f : FunctionId} {k : Kind} {fault : Fault} :
    m.answering id (.ok k) f ≠ .error fault := by
  apply answering_ne
  exact nofun

def during (m : Memory) (id : FunctionId) (depth : Nat) (kind : Option Kind) (overflowed : Bool) :
    Memory :=
  m.modifyFunction id fun f => { f with depth, returnKind := kind, overflowed }

variable {m : Memory} {id : FunctionId} {d : Nat} {k : Option Kind} {o : Bool}

theorem function_during_self (hid : id < m.functions.size) :
    (m.during id d k o).function id =
      { m.function id with depth := d, returnKind := k, overflowed := o } :=
  function_modify_self hid

theorem function_during_of_ne {f : FunctionId} (h : f ≠ id) :
    (m.during id d k o).function f = m.function f :=
  function_modify_of_ne h

/-- Below the limit one more call may be entered. -/
theorem enter_during_lt (hid : id < m.functions.size) (hd : d < callLimit) :
    (m.during id d k o).enter id = .ok (m.during id (d + 1) k o) := by
  have hlimit : ¬ callLimit ≤ ((m.during id d k o).function id).depth := by
    rw [function_during_self hid]
    exact Nat.not_le_of_lt hd
  simp only [enter, hlimit, if_false]
  simp only [during, modifyFunction_modifyFunction]

theorem enter_during_limit (hid : id < m.functions.size) :
    (m.during id callLimit k o).enter id = .error (.stackOverflow (m.function id).name) := by
  have hlimit : callLimit ≤ ((m.during id callLimit k o).function id).depth := by
    rw [function_during_self hid]
  simp only [enter, hlimit, if_true]
  rw [function_during_self hid]

theorem leave_during : (m.during id (d + 1) k o).leave id = m.during id d k o := by
  simp only [leave, during, modifyFunction_modifyFunction, Nat.add_sub_cancel]

theorem setReturnKind_during {kind : Kind} :
    (m.during id d k o).setReturnKind id kind = m.during id d (some kind) o := by
  simp only [setReturnKind, during, modifyFunction_modifyFunction]

theorem markOverflowed_during :
    (m.during id d k o).markOverflowed id = m.during id d k true := by
  simp only [markOverflowed, during, modifyFunction_modifyFunction]

end Memory

namespace Typing

/-- The kind of a call of a function with the given body when `n` more of its calls may be
active. -/
def nested (m : Memory) (id : FunctionId) (body : Expr) : Nat → Except Fault Kind
  | 0 => .error (.stackOverflow (m.function id).name)
  | n + 1 => kindGiven m (m.answering id (nested m id body n)) body

/-- A function with a body whose kind is not known yet. The kinds of all others are. -/
structure Declaring (m : Memory) (id : FunctionId) (body : Expr) : Prop where
  lt : id < m.functions.size
  body : (m.function id).body = some body
  kind : (m.function id).returnKind = none
  overflowed : (m.function id).overflowed = false
  depth : (m.function id).depth = 0
  others : ∀ f, f ≠ id → (m.function f).returnKind = none → (m.function f).body = none

variable {m : Memory} {id : FunctionId} {b : Expr}

theorem nested_succ (n : Nat) :
    nested m id b (n + 1) = kindGiven m (m.answering id (nested m id b n)) b :=
  rfl

/-! ## Overflow -/

theorem nested_ne_endless (n : Nat) : nested m id b n ≠ .error .endless := by
  induction n with
  | zero => exact nofun
  | succ n ih => exact kindGiven_ne_endless (Memory.answering_ne ih) b

/-- An overflow comes from the level further in. -/
theorem nested_overflow_of_succ {n : Nat} {name : String}
    (h : nested m id b (n + 1) = .error (.stackOverflow name)) :
    nested m id b n = .error (.stackOverflow name) := by
  by_contra hn
  exact kindGiven_ne_overflow (Memory.answering_ne hn) b h

/-- An overflow on one level is an overflow of the body whatever its calls do. -/
theorem nested_overflow_one {n : Nat} {name : String}
    (h : nested m id b (n + 1) = .error (.stackOverflow name)) :
    nested m id b 1 = .error (.stackOverflow (m.function id).name) := by
  induction n with
  | zero =>
      have h0 := nested_overflow_of_succ h
      simp only [nested, Except.error.injEq, Fault.stackOverflow.injEq] at h0
      rw [h0]
      exact h
  | succ n ih => exact ih (nested_overflow_of_succ h)

/-- If the body overflows on the innermost level, it does so on all. -/
theorem nested_overflow (h : nested m id b 1 = .error (.stackOverflow (m.function id).name))
    (n : Nat) : nested m id b n = .error (.stackOverflow (m.function id).name) := by
  induction n with
  | zero => rfl
  | succ n ih =>
      rw [nested_succ, ih]
      exact h

/-! ## Levels -/

/-- The storage while the body of a function is entered `d` times. -/
def Entered (m : Memory) (id : FunctionId) (d : Nat) (s : Memory) : Prop :=
  ∃ k o, s = m.during id d k o

/-- Besides, what is remembered is what a call has on a level. -/
def Faithful (m : Memory) (id : FunctionId) (b : Expr) (n d : Nat) (s : Memory) : Prop :=
  ∃ k o, s = m.during id d k o ∧ (∀ a, k = some a → nested m id b n = .ok a) ∧
    (o = true → nested m id b 1 = .error (.stackOverflow (m.function id).name))

def Broken (m : Memory) (id : FunctionId) (b : Expr) (n : Nat) : Prop :=
  ∃ fault, nested m id b n = .error fault ∧ ∀ g, fault ≠ .stackOverflow g

/-- Where failing leaves the storage. On a broken level anything may be remembered. -/
def Left (m : Memory) (id : FunctionId) (b : Expr) (n d : Nat) (s : Memory) : Prop :=
  Faithful m id b n d s ∨ (Broken m id b n ∧ Entered m id d s)

theorem Faithful.entered {n d : Nat} {s : Memory} (h : Faithful m id b n d s) :
    Entered m id d s := by
  rcases h with ⟨k, o, hs, -⟩
  exact ⟨k, o, hs⟩

theorem Left.entered {n d : Nat} {s : Memory} (h : Left m id b n d s) : Entered m id d s :=
  h.elim Faithful.entered And.right

/-- Entering a body changes no kind of a slot and no number of parameters. -/
theorem Entered.sameKinds {d : Nat} {s : Memory} (hid : id < m.functions.size)
    (h : Entered m id d s) : SameKinds m s := by
  rcases h with ⟨k, o, rfl⟩
  refine ⟨fun _ => rfl, fun f count => ?_⟩
  by_cases hf : f = id
  · subst hf
    rw [Memory.function_during_self hid]
    rfl
  · rw [Memory.function_during_of_ne hf]

/-- The kinds of all other functions are remembered, so that their bodies are not entered. -/
theorem answerWith_other {d : Nat} {s : Memory} {f : FunctionId} (hm : Declaring m id b)
    (hf : f ≠ id) (hs : Entered m id d s) (enter : Expr → Typing Kind) :
    answerWith enter f s = .ok ((m.function f).returnKind.getD .dynamic) s := by
  rcases hs with ⟨k, o, rfl⟩
  have hfun : (m.during id d k o).function f = m.function f := Memory.function_during_of_ne hf
  cases hk : (m.function f).returnKind with
  | some a => exact answerWith_known (hfun ▸ hk)
  | none => exact answerWith_bodyless (hfun ▸ hk) (hfun ▸ hm.others f hf hk)

/-- What an outcome has to be for `Q` or `E` to hold once it is remembered. -/
def ToRemember (id : FunctionId) (Q : Kind → Memory → Prop) (E : Fault → Memory → Prop) :
    Except Fault Kind → Memory → Prop
  | .ok k, s => Q k (s.setReturnKind id k)
  | .error fault, s => (∀ g, fault = .stackOverflow g → E fault (s.markOverflowed id)) ∧
      ((∀ g, fault ≠ .stackOverflow g) → E fault s)

/-- A kind is remembered with its function, and so is an overflow. Other faults are not. -/
theorem remember_triple {P : Memory → Prop} {Q : Kind → Memory → Prop} {E : Fault → Memory → Prop}
    {x : Typing Kind}
    (h : Triple P x (fun k s => Q k (s.setReturnKind id k)) (fun fault s =>
      (∀ g, fault = .stackOverflow g → E fault (s.markOverflowed id)) ∧
        ((∀ g, fault ≠ .stackOverflow g) → E fault s))) :
    Triple P (remember id x) Q E := by
  refine Triple.bind (Triple.attempt (Q := ToRemember id Q E) h) fun r => ?_
  cases r with
  | ok k => exact fun s hs => hs
  | error fault =>
      cases fault with
      | stackOverflow g => exact fun s hs => hs.1 g rfl
      | _ => exact fun s hs => hs.2 (by simp)

section Answer

variable {enter : Expr → Typing Kind} {d : Nat} {k : Option Kind} {o : Bool}

theorem answerWith_during_some (hm : Declaring m id b) {a : Kind} :
    answerWith enter id (m.during id d (some a) o) = .ok a (m.during id d (some a) o) :=
  answerWith_known (by rw [Memory.function_during_self hm.lt])

/-- At the limit, or once an overflow is remembered, calls of the function overflow. -/
theorem answerWith_during_overflow (hm : Declaring m id b) (h : o = true ∨ d = callLimit) :
    answerWith enter id (m.during id d none o) =
      .error (.stackOverflow (m.function id).name) (m.during id d none o) := by
  have hfun := Memory.function_during_self (d := d) (k := none) (o := o) hm.lt
  rw [answerWith_body (by rw [hfun]) (by rw [hfun]; exact hm.body), hfun]
  cases o with
  | true => rfl
  | false =>
      rcases h with h | rfl
      · cases h
      · exact bind_error (update_error (Memory.enter_during_limit hm.lt))

theorem answerWith_during_enter (hm : Declaring m id b) (hd : d < callLimit) :
    answerWith enter id (m.during id d none false) =
      ensuring (Memory.leave id) (remember id (enter b)) (m.during id (d + 1) none false) := by
  have hfun := Memory.function_during_self (d := d) (k := none) (o := false) hm.lt
  rw [answerWith_body (by rw [hfun]) (by rw [hfun]; exact hm.body), hfun]
  exact bind_ok (update_ok (Memory.enter_during_lt hm.lt hd))

end Answer

/-- Entering the body again and again comes to an end. -/
theorem kindWithin_entered (hm : Declaring m id b) {n j d : Nat} (hd : d + j = callLimit)
    (hn : j < n) (e : Expr) : Keeps (· ≠ .endless) (Entered m id d) (kindWithin n e) := by
  induction n generalizing j d e with
  | zero => exact absurd hn (Nat.not_lt_zero j)
  | succ n ih =>
      refine kindWith_keeps (fun _ _ _ => nofun) (fun _ _ _ => nofun) (fun f s hs => ?_) e
      by_cases hf : f = id
      · subst hf
        rcases hs with ⟨_ | a, o, rfl⟩
        · -- Every entry uses up one of the calls that may still be active, and `j` counts those.
          by_cases ho : o = true ∨ d = callLimit
          · rw [answerWith_during_overflow hm ho]
            exact ⟨nofun, none, o, rfl⟩
          · rw [not_or, Bool.not_eq_true] at ho
            rcases ho with ⟨rfl, hlt⟩
            rw [answerWith_during_enter hm (by omega)]
            have hbody := ih (j := j - 1) (d := d + 1) (by omega) (by omega) b
            refine Triple.ensuring
              (remember_triple (hbody.weaken (fun _ h => h) ?_ ?_)) _ ⟨_, _, rfl⟩
            · rintro a _ ⟨k, o, rfl⟩
              exact ⟨some a, o, by rw [Memory.setReturnKind_during, Memory.leave_during]⟩
            · rintro fault _ ⟨hf, k, o, rfl⟩
              refine ⟨fun g _ => ⟨hf, k, true, ?_⟩, fun _ => ⟨hf, k, o, Memory.leave_during⟩⟩
              rw [Memory.markOverflowed_during, Memory.leave_during]
        · rw [answerWith_during_some hm]
          exact ⟨some a, o, rfl⟩
      · rw [answerWith_other hm hf hs]
        exact hs

/-- What a level further in comes to is remembered as the kind of a call. -/
theorem remember_level {j d : Nat} {x : Typing Kind}
    (hx : Yields (Faithful m id b j (d + 1)) (Left m id b j (d + 1)) x (nested m id b (j + 1))) :
    Triple (Faithful m id b j (d + 1)) (ensuring (Memory.leave id) (remember id x))
      (fun a s => nested m id b (j + 1) = .ok a ∧ Faithful m id b (j + 1) d s)
      (fun fault s => nested m id b (j + 1) = .error fault ∧ Left m id b (j + 1) d s) := by
  refine Triple.ensuring (remember_triple (hx.weaken (fun _ h => h) ?_ ?_))
  · -- Whatever was remembered further in is replaced by what this level came to.
    rintro a _ ⟨ha, k, o, rfl, hk, ho⟩
    refine ⟨ha, some a, o, by rw [Memory.setReturnKind_during, Memory.leave_during], ?_, ho⟩
    rintro _ ⟨⟩
    exact ha
  · rintro fault s ⟨hfault, hs⟩
    refine ⟨?_, fun hother => ⟨hfault, .inr ⟨⟨fault, hfault, hother⟩, ?_⟩⟩⟩
    · -- An overflow one level up is one on this level, so the level is not broken.
      rintro g rfl
      have hin := nested_overflow_of_succ hfault
      rcases hs with ⟨k, o, rfl, hk, ho⟩ | ⟨⟨fault, hfault, hother⟩, -⟩
      · have hnone : k = none := by
          cases k with
          | none => rfl
          | some a => exact absurd (hin.symm.trans (hk a rfl)) nofun
        subst hnone
        refine ⟨hfault, .inl ⟨none, true, ?_, nofun, fun _ => nested_overflow_one hfault⟩⟩
        rw [Memory.markOverflowed_during, Memory.leave_during]
      · exact absurd (Except.error.inj (hfault.symm.trans hin)) (hother g)
    · rcases hs.entered with ⟨k, o, rfl⟩
      exact ⟨k, o, Memory.leave_during⟩

/-- On each level computing a kind yields the one that is found when calls have the kind of that
level. -/
theorem kindWithin_level (hm : Declaring m id b) {n j d : Nat} (hd : d + j = callLimit) (hn : j < n)
    (e : Expr) : Yields (Faithful m id b j d) (Left m id b j d) (kindWithin n e)
      (kindGiven m (m.answering id (nested m id b j)) e) := by
  induction n generalizing j d e with
  | zero => exact absurd hn (Nat.not_lt_zero j)
  | succ n ih =>
      refine kindWith_yields (fun s => .inl) (fun s hs => hs.entered.sameKinds hm.lt)
        (fun f s hs => ?_) (fun f => ?_) ?_ e
      · by_cases hf : f = id
        · subst hf
          rw [Memory.answering, if_pos rfl]
          rcases hs with ⟨_ | a, o, rfl, hk, ho⟩
          · by_cases hover : o = true ∨ d = callLimit
            · rw [answerWith_during_overflow hm hover]
              refine ⟨?_, .inl ⟨none, o, rfl, hk, ho⟩⟩
              -- A mark is only left by a body that overflows on all levels.
              rcases hover with hover | hover
              · exact nested_overflow (ho hover) j
              · obtain rfl : j = 0 := by omega
                rfl
            · rw [not_or, Bool.not_eq_true] at hover
              rcases hover with ⟨rfl, hlt⟩
              rw [answerWith_during_enter hm (by omega)]
              obtain ⟨j, rfl⟩ : ∃ i, j = i + 1 := ⟨j - 1, by omega⟩
              have hbody := ih (j := j) (d := d + 1) (by omega) (by omega) b
              exact remember_level hbody _ ⟨none, false, rfl, nofun, nofun⟩
          · rw [answerWith_during_some hm]
            exact ⟨hk a rfl, some a, o, rfl, hk, ho⟩
        · rw [answerWith_other hm hf hs.entered, Memory.answering, if_neg hf]
          exact ⟨rfl, hs⟩
      · exact Memory.answering_ne (nested_ne_endless j) f
      · -- On a broken level no answer is an overflow, so no branch is forgiven and states do not
        -- matter.
        by_cases hbroken : Broken m id b j
        · refine .inr ⟨fun f g => ?_, fun e => ?_⟩
          · rcases hbroken with ⟨fault, hfault, hother⟩
            refine Memory.answering_ne ?_ f
            rw [hfault]
            exact fun h => hother g (Except.error.inj h)
          · exact (kindWithin_entered hm hd hn e).weaken (fun s => Left.entered)
              (fun _ s h => .inr ⟨hbroken, h⟩) fun _ s h => ⟨h.1, .inr ⟨hbroken, h.2⟩⟩
        · exact .inl fun s hs => hs.resolve_right fun h => hbroken h.1

theorem Declaring.during_eq (hm : Declaring m id b) : m.during id 0 none false = m := by
  apply Memory.modifyFunction_eq_self
  rw [← hm.depth, ← hm.kind, ← hm.overflowed]

/-- The kind of a function that has just been declared is the one of a call on the outermost level
that is left. A success leaves nothing but the kind. -/
theorem declarationKind_level (hm : Declaring m id b) {d j : Nat} (hd : d + (j + 1) = callLimit) :
    Triple (· = m.during id d none false) (declarationKind id)
      (fun k s => nested m id b (j + 1) = .ok k ∧ s = m.during id d (some k) false)
      (fun fault s => nested m id b (j + 1) = .error fault ∧ Entered m id d s) := by
  -- The declaration itself is one call, so one less may be active inside.
  have hkind : Yields (Faithful m id b j (d + 1)) (Left m id b j (d + 1)) (kindOf b)
      (nested m id b (j + 1)) := by
    refine Yields.get_bind fun s hs => kindWithin_level hm (by omega) ?_ b
    rcases hs.entered with ⟨k, o, rfl⟩
    have hsize : (m.during id (d + 1) k o).functions.size = m.functions.size := by
      simp [Memory.during, Memory.modifyFunction]
    have hlt : 0 < m.functions.size := Nat.zero_lt_of_lt hm.lt
    have hlimit : callLimit * 1 ≤ callLimit * m.functions.size := Nat.mul_le_mul_left _ hlt
    rw [depthBound, hsize]
    omega
  have hbody : ((m.during id d none false).function id).body = some b := by
    rw [Memory.function_during_self hm.lt, hm.body]
  refine Triple.get_bind fun s hs => ?_
  simp only [hs, hbody]
  refine Triple.bind (R := fun _ => Faithful m id b j (d + 1)) ?_ fun _ => ?_
  · rintro _ rfl
    rw [update_ok (Memory.enter_during_lt hm.lt (by omega))]
    exact ⟨none, false, rfl, by simp, by simp⟩
  · refine Triple.bind
      (R := fun k s => nested m id b (j + 1) = .ok k ∧ ∃ k', s = m.during id d k' false)
      (Triple.ensuring (hkind.weaken (fun _ h => h) ?_ ?_)) fun k => ?_
    · rintro k _ ⟨hk, k', o, rfl, -, ho⟩
      -- A mark would mean that the outermost level overflows too.
      have hflag : o = false := by
        cases o with
        | false => rfl
        | true => cases hk.symm.trans (nested_overflow (ho rfl) _)
      exact ⟨hk, k', by rw [Memory.leave_during, hflag]⟩
    · rintro fault s ⟨hfault, hs⟩
      rcases hs.entered with ⟨k, o, rfl⟩
      exact ⟨hfault, k, o, Memory.leave_during⟩
    · rintro _ ⟨hk, k', rfl⟩
      exact ⟨hk, Memory.setReturnKind_during⟩

/-- Where no call is active, all levels are left. -/
theorem declarationKind_nested (hm : Declaring m id b) :
    Triple (· = m) (declarationKind id)
      (fun k s => nested m id b callLimit = .ok k ∧ s = m.during id 0 (some k) false)
      (fun fault s => nested m id b callLimit = .error fault ∧ Entered m id 0 s) := by
  have h := declarationKind_level hm (d := 0) (j := callLimit - 1) (by decide)
  rwa [hm.during_eq] at h

end Typing
end LineLang
