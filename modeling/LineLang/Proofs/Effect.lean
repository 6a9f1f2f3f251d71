import LineLang.Effect

/-!
# Reasoning about actions

Ways to say what an action on a state does, each with one rule for every way of building actions.

- `Effect.Triple`        : what an action ensures when it succeeds and when it fails
- `Effect.Keeps`         : an action keeps a property of the state and fails only in given ways
- `Effect.Yields`        : an action has one outcome, whichever of some states it starts from
- `Effect.outcome`       : what an action came to, without the state
- `Effect.Approximates`  : an action does what another does, or gives up
- `Effect.Agree`         : two runs, on states of their own, come to the same
-/

namespace LineLang
namespace Effect

variable {ε ε₁ σ α β : Type}

/-! ## Steps -/

theorem bind_ok {x : EStateM ε σ α} {f : α → EStateM ε σ β} {s t : σ} {a : α} (h : x s = .ok a t) :
    (x >>= f) s = f a t := by
  show EStateM.bind x f s = f a t
  simp only [EStateM.bind, h]

theorem bind_error {x : EStateM ε σ α} {f : α → EStateM ε σ β} {s t : σ} {e : ε}
    (h : x s = .error e t) : (x >>= f) s = .error e t := by
  show EStateM.bind x f s = .error e t
  simp only [EStateM.bind, h]

/-- A sequence that succeeds has succeeded in both parts. -/
theorem of_bind_ok {x : EStateM ε σ α} {f : α → EStateM ε σ β} {s t : σ} {b : β}
    (h : (x >>= f) s = .ok b t) : ∃ a u, x s = .ok a u ∧ f a u = .ok b t := by
  cases hx : x s with
  | ok a u => exact ⟨a, u, rfl, (bind_ok hx).symm.trans h⟩
  | error e u => cases (bind_error hx).symm.trans h

/-- A sequence that fails has failed in its first part, or in the second after the first
succeeded. -/
theorem of_bind_error {x : EStateM ε σ α} {f : α → EStateM ε σ β} {s t : σ} {e : ε}
    (h : (x >>= f) s = .error e t) :
    x s = .error e t ∨ ∃ a u, x s = .ok a u ∧ f a u = .error e t := by
  cases hx : x s with
  | ok a u => exact .inr ⟨a, u, rfl, (bind_ok hx).symm.trans h⟩
  | error e' u =>
      have hfirst : (x >>= f) s = .error e' u := bind_error hx
      cases hfirst.symm.trans h
      exact .inl rfl

/-- The change at the end does not make an action succeed. -/
theorem of_ensuring_ok {after : σ → σ} {x : EStateM ε σ α} {s t : σ} {a : α}
    (h : ensuring after x s = .ok a t) : ∃ u, x s = .ok a u := by
  unfold ensuring at h
  split at h
  · next hx =>
      cases h
      exact ⟨_, hx⟩
  · cases h

/-- The change at the end does not make an action fail. -/
theorem of_ensuring_error {after : σ → σ} {x : EStateM ε σ α} {s t : σ} {e : ε}
    (h : ensuring after x s = .error e t) : ∃ u, x s = .error e u := by
  unfold ensuring at h
  split at h
  · cases h
  · next hx =>
      cases h
      exact ⟨_, hx⟩

theorem attempt_ok {x : EStateM ε σ α} {s t : σ} {a : α} (h : x s = .ok a t) :
    (attempt x : EStateM ε₁ σ (Except ε α)) s = .ok (.ok a) t := by
  simp only [attempt, h]

theorem attempt_error {x : EStateM ε σ α} {s t : σ} {e : ε} (h : x s = .error e t) :
    (attempt x : EStateM ε₁ σ (Except ε α)) s = .ok (.error e) t := by
  simp only [attempt, h]

theorem mapError_ok {f : ε → ε₁} {x : EStateM ε σ α} {s t : σ} {a : α} (h : x s = .ok a t) :
    mapError f x s = .ok a t := by
  simp only [mapError, h]

theorem mapError_error {f : ε → ε₁} {x : EStateM ε σ α} {s t : σ} {e : ε} (h : x s = .error e t) :
    mapError f x s = .error (f e) t := by
  simp only [mapError, h]

theorem of_mapError_ok {f : ε → ε₁} {x : EStateM ε σ α} {s t : σ} {a : α}
    (h : mapError f x s = .ok a t) : x s = .ok a t := by
  unfold mapError at h
  split at h
  · next hx =>
      cases h
      exact hx
  · cases h

theorem of_mapError_error {f : ε → ε₁} {x : EStateM ε σ α} {s t : σ} {e₁ : ε₁}
    (h : mapError f x s = .error e₁ t) : ∃ e, x s = .error e t ∧ e₁ = f e := by
  unfold mapError at h
  split at h
  · cases h
  · next hx =>
      cases h
      exact ⟨_, hx, rfl⟩

/-- Checking a result leaves the state alone. -/
theorem of_ofExcept_ok {r : Except ε α} {s t : σ} {a : α} (h : ofExcept r s = .ok a t) :
    r = .ok a ∧ t = s := by
  cases r with
  | ok b =>
      cases h
      exact ⟨rfl, rfl⟩
  | error e => cases h

theorem of_ofExcept_error {r : Except ε α} {s t : σ} {e : ε} (h : ofExcept r s = .error e t) :
    r = .error e := by
  cases r with
  | ok a => cases h
  | error e' =>
      cases h
      rfl

theorem update_ok {f : σ → Except ε σ} {s t : σ} (h : f s = .ok t) : update f s = .ok () t := by
  simp only [update, h]

theorem update_error {f : σ → Except ε σ} {s : σ} {e : ε} (h : f s = .error e) :
    update f s = .error e s := by
  simp only [update, h]

theorem of_update_ok {f : σ → Except ε σ} {s t : σ} (h : update f s = .ok () t) : f s = .ok t := by
  unfold update at h
  split at h
  · next hf =>
      cases h
      exact hf
  · cases h

theorem of_update_error {f : σ → Except ε σ} {s t : σ} {e : ε} (h : update f s = .error e t) :
    f s = .error e := by
  unfold update at h
  split at h
  · cases h
  · next hf =>
      cases h
      exact hf

/-- What a result that was continued to a success must have been. -/
theorem ok_of_bind {r : Except ε α} {f : α → Except ε β} {b : β} (h : (r >>= f) = .ok b) :
    ∃ a, r = .ok a ∧ f a = .ok b := by
  cases r with
  | ok a => exact ⟨a, rfl, h⟩
  | error e => cases h

/-- Mapping a result does not make it fail. -/
theorem error_of_map {r : Except ε α} {f : α → β} {e : ε} (h : r.map f = .error e) :
    r = .error e := by
  cases r with
  | ok a => cases h
  | error e' =>
      cases h
      rfl

theorem map_eq_error_iff {r : Except ε α} {f : α → β} {e : ε} :
    r.map f = .error e ↔ r = .error e := by
  refine ⟨error_of_map, ?_⟩
  rintro rfl
  rfl

theorem ok_of_map {r : Except ε α} {f : α → β} {b : β} (h : r.map f = .ok b) :
    ∃ a, r = .ok a ∧ f a = b := by
  cases r with
  | error e => cases h
  | ok a => exact ⟨a, rfl, Except.ok.inj h⟩

/-! ## Conditions before and after -/

/-- Started where `P` holds, the action succeeds with `Q` or fails with `E`. -/
def Triple (P : σ → Prop) (action : EStateM ε σ α) (Q : α → σ → Prop) (E : ε → σ → Prop) : Prop :=
  ∀ s, P s → match action s with
    | .ok a t => Q a t
    | .error e t => E e t

namespace Triple

variable {P : σ → Prop} {Q : α → σ → Prop} {E : ε → σ → Prop}

theorem of_ok {x : EStateM ε σ α} {s t : σ} {a : α} (h : Triple P x Q E) (hs : P s)
    (hx : x s = .ok a t) : Q a t := by
  have := h s hs
  rwa [hx] at this

theorem of_error {x : EStateM ε σ α} {s t : σ} {e : ε} (h : Triple P x Q E) (hs : P s)
    (hx : x s = .error e t) : E e t := by
  have := h s hs
  rwa [hx] at this

/-- The rule of consequence. -/
theorem weaken {P' : σ → Prop} {Q' : α → σ → Prop} {E' : ε → σ → Prop} {x : EStateM ε σ α}
    (h : Triple P x Q E) (hP : ∀ s, P' s → P s) (hQ : ∀ a s, Q a s → Q' a s)
    (hE : ∀ e s, E e s → E' e s) : Triple P' x Q' E' := by
  intro s hs
  have hx := h s (hP s hs)
  cases hr : x s with
  | ok a t =>
      rw [hr] at hx
      exact hQ a t hx
  | error e t =>
      rw [hr] at hx
      exact hE e t hx

/-- What is known of the one state that the action starts from may be used in what it ends with. -/
theorem weaken_at {Q' : α → σ → Prop} {E' : ε → σ → Prop} {x : EStateM ε σ α} (h : Triple P x Q E)
    {s : σ} (hs : P s) (hQ : ∀ a t, Q a t → Q' a t) (hE : ∀ e t, E e t → E' e t) :
    Triple (· = s) x Q' E' := by
  refine h.weaken ?_ hQ hE
  rintro _ rfl
  exact hs

theorem pure {a : α} (h : ∀ s, P s → Q a s) : Triple P (pure a) Q E :=
  h

theorem throw {e : ε} (h : ∀ s, P s → E e s) : Triple P (throw e) Q E :=
  h

/-- Sequential composition: what the first action leaves is where the second one starts. -/
theorem bind {R : α → σ → Prop} {Q : β → σ → Prop} {x : EStateM ε σ α} {f : α → EStateM ε σ β}
    (hx : Triple P x R E) (hf : ∀ a, Triple (R a) (f a) Q E) : Triple P (x >>= f) Q E := by
  intro s hs
  have h := hx s hs
  cases hr : x s with
  | ok a t =>
      rw [hr] at h
      rw [bind_ok hr]
      exact hf a t h
  | error e t =>
      rw [hr] at h
      rw [bind_error hr]
      exact h

/-- An action that begins by looking at the state. -/
theorem get_bind {Q : β → σ → Prop} {f : σ → EStateM ε σ β}
    (h : ∀ s, P s → Triple (· = s) (f s) Q E) : Triple P (get >>= f) Q E :=
  fun s hs => h s hs s rfl

theorem modify {f : σ → σ} {Q : PUnit → σ → Prop} (h : ∀ s, P s → Q ⟨⟩ (f s)) :
    Triple P (modify f : EStateM ε σ PUnit) Q E :=
  h

theorem ofExcept {r : Except ε α} (hok : ∀ a s, r = .ok a → P s → Q a s)
    (herror : ∀ e s, r = .error e → P s → E e s) : Triple P (Effect.ofExcept r) Q E := by
  intro s hs
  cases r with
  | ok a => exact hok a s rfl hs
  | error e => exact herror e s rfl hs

theorem update {f : σ → Except ε σ} {Q : Unit → σ → Prop}
    (hok : ∀ s t, P s → f s = .ok t → Q () t) (herror : ∀ s e, P s → f s = .error e → E e s) :
    Triple P (Effect.update f) Q E := by
  intro s hs
  cases hf : f s with
  | ok t => simpa [Effect.update, hf] using hok s t hs hf
  | error e => simpa [Effect.update, hf] using herror s e hs hf

/-- What holds at the end has to hold after the last change, however the action ends. -/
theorem ensuring {after : σ → σ} {x : EStateM ε σ α}
    (h : Triple P x (fun a s => Q a (after s)) (fun e s => E e (after s))) :
    Triple P (Effect.ensuring after x) Q E := by
  intro s hs
  have hx := h s hs
  cases hr : x s with
  | ok a t =>
      rw [hr] at hx
      simpa [Effect.ensuring, hr] using hx
  | error e t =>
      rw [hr] at hx
      simpa [Effect.ensuring, hr] using hx

/-- A caught failure is a result like any other. -/
theorem attempt {E₁ : ε₁ → σ → Prop} {Q : Except ε α → σ → Prop} {x : EStateM ε σ α}
    (h : Triple P x (fun a s => Q (.ok a) s) (fun e s => Q (.error e) s)) :
    Triple P (Effect.attempt x : EStateM ε₁ σ (Except ε α)) Q E₁ := by
  intro s hs
  have hx := h s hs
  cases hr : x s with
  | ok a t =>
      rw [hr] at hx
      simpa [Effect.attempt, hr] using hx
  | error e t =>
      rw [hr] at hx
      simpa [Effect.attempt, hr] using hx

theorem mapError {E₁ : ε₁ → σ → Prop} {f : ε → ε₁} {x : EStateM ε σ α}
    (h : Triple P x Q (fun e s => E₁ (f e) s)) : Triple P (Effect.mapError f x) Q E₁ := by
  intro s hs
  have hx := h s hs
  cases hr : x s with
  | ok a t =>
      rw [hr] at hx
      simpa [Effect.mapError, hr] using hx
  | error e t =>
      rw [hr] at hx
      simpa [Effect.mapError, hr] using hx

end Triple

/-! ## Properties that are kept -/

/-- The action keeps `I`, however it ends, and fails only with `G`. -/
def Keeps (G : ε → Prop) (I : σ → Prop) (action : EStateM ε σ α) : Prop :=
  Triple I action (fun _ s => I s) (fun e s => G e ∧ I s)

namespace Keeps

variable {G : ε → Prop} {I : σ → Prop}

theorem pure {a : α} : Keeps G I (pure a) :=
  Triple.pure fun _ h => h

theorem throw {e : ε} (h : G e) : Keeps G I (throw e : EStateM ε σ α) :=
  Triple.throw fun _ hs => ⟨h, hs⟩

theorem bind {x : EStateM ε σ α} {f : α → EStateM ε σ β} (hx : Keeps G I x)
    (hf : ∀ a, Keeps G I (f a)) : Keeps G I (x >>= f) :=
  Triple.bind hx hf

theorem ofExcept {r : Except ε α} (h : ∀ e, r = .error e → G e) :
    Keeps G I (Effect.ofExcept r) :=
  Triple.ofExcept (fun _ _ _ hs => hs) fun e _ he hs => ⟨h e he, hs⟩

end Keeps

/-! ## Actions with one outcome -/

/-- From every state in `J` the outcome is `r`. A success ends in `J` again, a failure in `K`. -/
def Yields (J K : σ → Prop) (action : EStateM ε σ α) (r : Except ε α) : Prop :=
  Triple J action (fun a s => r = .ok a ∧ J s) (fun e s => r = .error e ∧ K s)

namespace Yields

variable {J K : σ → Prop}

theorem pure {a : α} : Yields J K (pure a : EStateM ε σ α) (.ok a) :=
  Triple.pure fun _ hs => ⟨rfl, hs⟩

/-- An action that begins by looking at the state, but whose outcome does not hang on it. -/
theorem get_bind {f : σ → EStateM ε σ α} {r : Except ε α} (h : ∀ s, J s → Yields J K (f s) r) :
    Yields J K (get >>= f) r :=
  fun s hs => h s hs s hs

theorem ofExcept {r : Except ε α} (hJK : ∀ s, J s → K s) : Yields J K (Effect.ofExcept r) r :=
  Triple.ofExcept (fun _ _ hr hs => ⟨hr, hs⟩) fun _ s hr hs => ⟨hr, hJK s hs⟩

/-- A sequence of actions has the outcome of the sequence of results. -/
theorem bind {x : EStateM ε σ α} {r : Except ε α} {f : α → EStateM ε σ β} {g : α → Except ε β}
    (hx : Yields J K x r) (hf : ∀ a, r = .ok a → Yields J K (f a) (g a)) :
    Yields J K (x >>= f) (r >>= g) := by
  intro s hs
  have h := hx s hs
  cases hr : x s with
  | ok a t =>
      rw [hr] at h
      rcases h with ⟨rfl, ht⟩
      rw [bind_ok hr]
      exact hf a rfl t ht
  | error e t =>
      rw [hr] at h
      rcases h with ⟨rfl, ht⟩
      rw [bind_error hr]
      exact ⟨rfl, ht⟩

end Yields

def outcome : EStateM.Result ε σ α → Except ε α
  | .ok a _ => .ok a
  | .error e _ => .error e

theorem ok_of_isOk {r : EStateM.Result ε σ α} (h : (outcome r).isOk = true) :
    ∃ a s, r = .ok a s := by
  cases r with
  | ok a s => exact ⟨a, s, rfl⟩
  | error e s => cases h

/-- An outcome that is a value was reached in some state. -/
theorem ok_of_outcome {r : EStateM.Result ε σ α} {a : α} (h : outcome r = .ok a) :
    ∃ s, r = .ok a s := by
  cases r with
  | ok b s =>
      cases h
      exact ⟨s, rfl⟩
  | error e s => cases h

theorem Yields.outcome {J K : σ → Prop} {x : EStateM ε σ α} {r : Except ε α} (h : Yields J K x r)
    {s : σ} (hs : J s) : outcome (x s) = r := by
  have hx := h s hs
  cases hr : x s with
  | ok a t =>
      rw [hr] at hx
      exact hx.1.symm
  | error e t =>
      rw [hr] at hx
      exact hx.1.symm

/-- An action that leaves the state as it is does no more than its outcome. -/
theorem Yields.eq {x : EStateM ε σ α} {r : Except ε α} {s : σ} (h : Yields (· = s) (· = s) x r) :
    x s = Effect.ofExcept r s := by
  have hx := h s rfl
  cases hr : x s with
  | ok a t =>
      rw [hr] at hx
      rcases hx with ⟨rfl, rfl⟩
      rfl
  | error e t =>
      rw [hr] at hx
      rcases hx with ⟨rfl, rfl⟩
      rfl

/-! ## Giving up -/

/-- Where the action does not fail with `e`, it does what `other` does. -/
def Approximates (e : ε) (action other : EStateM ε σ α) : Prop :=
  ∀ s, action s = other s ∨ ∃ t, action s = .error e t

namespace Approximates

variable {e : ε}

theorem refl (x : EStateM ε σ α) : Approximates e x x :=
  fun _ => .inl rfl

/-- Approximation goes through sequences. -/
theorem bind {x y : EStateM ε σ α} {f g : α → EStateM ε σ β} (hx : Approximates e x y)
    (hf : ∀ a, Approximates e (f a) (g a)) : Approximates e (x >>= f) (y >>= g) := by
  intro s
  rcases hx s with h | ⟨t, h⟩
  · cases hr : y s with
    | ok a t =>
        rw [bind_ok (h.trans hr), bind_ok hr]
        exact hf a t
    | error e₁ t =>
        rw [bind_error (h.trans hr), bind_error hr]
        exact .inl rfl
  · exact .inr ⟨t, bind_error h⟩

theorem ensuring {after : σ → σ} {x y : EStateM ε σ α} (h : Approximates e x y) :
    Approximates e (Effect.ensuring after x) (Effect.ensuring after y) := by
  intro s
  rcases h s with h | ⟨t, h⟩
  · exact .inl (by simp only [Effect.ensuring, h])
  · exact .inr ⟨after t, by simp only [Effect.ensuring, h]⟩

end Approximates

/-! ## Two runs -/

/-- Two outcomes are results related by `Q`, or the same failure in states related by `E`. -/
inductive Agree {τ : Type} (Q : α → σ → β → τ → Prop) (E : σ → τ → Prop) :
    EStateM.Result ε σ α → EStateM.Result ε τ β → Prop
  | ok {a : α} {s : σ} {b : β} {t : τ} : Q a s b t → Agree Q E (.ok a s) (.ok b t)
  | error {e : ε} {s : σ} {t : τ} : E s t → Agree Q E (.error e s) (.error e t)

namespace Agree

variable {τ γ δ : Type} {Q : α → σ → β → τ → Prop} {E : σ → τ → Prop} {s : σ} {t : τ}

theorem imp {Q' : α → σ → β → τ → Prop} {E' : σ → τ → Prop} {r : EStateM.Result ε σ α}
    {r' : EStateM.Result ε τ β} (h : Agree Q E r r') (hQ : ∀ a s b t, Q a s b t → Q' a s b t)
    (hE : ∀ s t, E s t → E' s t) : Agree Q' E' r r' := by
  cases h with
  | ok hq => exact .ok (hQ _ _ _ _ hq)
  | error he => exact .error (hE _ _ he)

/-- What both runs come to may be used to say more about it. -/
theorem known {r : EStateM.Result ε σ α} {r' : EStateM.Result ε τ β} (h : Agree Q E r r') :
    Agree (fun a s b t => Q a s b t ∧ r = .ok a s ∧ r' = .ok b t) E r r' := by
  cases h with
  | ok hq => exact .ok ⟨hq, rfl, rfl⟩
  | error he => exact .error he

/-- Two sequences agree if their first parts do, and the second ones after related results. -/
theorem bind {Q' : γ → σ → δ → τ → Prop} {x : EStateM ε σ α} {y : EStateM ε τ β}
    {f : α → EStateM ε σ γ} {g : β → EStateM ε τ δ} (hx : Agree Q E (x s) (y t))
    (hf : ∀ a s' b t', Q a s' b t' → Agree Q' E (f a s') (g b t')) :
    Agree Q' E ((x >>= f) s) ((y >>= g) t) := by
  generalize hr : x s = r at hx
  generalize hr' : y t = r' at hx
  cases hx with
  | ok hq =>
      rw [bind_ok hr, bind_ok hr']
      exact hf _ _ _ _ hq
  | error he =>
      rw [bind_error hr, bind_error hr']
      exact .error he

/-- Both runs come to the same value and go on with it. -/
theorem bind_same {R : σ → τ → Prop} {Q' : γ → σ → δ → τ → Prop} {x : EStateM ε σ α}
    {y : EStateM ε τ α} {f : α → EStateM ε σ γ} {g : α → EStateM ε τ δ}
    (hx : Agree (fun a s' b t' => a = b ∧ R s' t') E (x s) (y t))
    (hf : ∀ a s' t', x s = .ok a s' → R s' t' → Agree Q' E (f a s') (g a t')) :
    Agree Q' E ((x >>= f) s) ((y >>= g) t) := by
  refine bind hx.known ?_
  rintro a s' _ t' ⟨⟨rfl, ht⟩, hok, -⟩
  exact hf a s' t' hok ht

/-- Both runs are followed by something that is done however they end. -/
theorem ensuring {Q' : α → σ → β → τ → Prop} {E' : σ → τ → Prop} {x : EStateM ε σ α}
    {y : EStateM ε τ β} {after : σ → σ} {after' : τ → τ} (hx : Agree Q E (x s) (y t))
    (hQ : ∀ a s' b t', Q a s' b t' → Q' a (after s') b (after' t'))
    (hE : ∀ s' t', E s' t' → E' (after s') (after' t')) :
    Agree Q' E' (Effect.ensuring after x s) (Effect.ensuring after' y t) := by
  unfold Effect.ensuring
  revert hx
  generalize x s = r
  generalize y t = r'
  intro hx
  cases hx with
  | ok hq => exact .ok (hQ _ _ _ _ hq)
  | error he => exact .error (hE _ _ he)

theorem get_bind {f : σ → EStateM ε σ α} {g : τ → EStateM ε τ β} (h : Agree Q E (f s s) (g t t)) :
    Agree Q E ((get >>= f) s) ((get >>= g) t) :=
  h

theorem ofExcept {Q : α → σ → α → τ → Prop} {r : Except ε α} (hok : ∀ a, r = .ok a → Q a s a t)
    (herror : E s t) : Agree Q E (Effect.ofExcept r s) (Effect.ofExcept r t) := by
  cases r with
  | ok a => exact .ok (hok a rfl)
  | error e => exact .error herror

theorem mapError {f : ε → ε₁} {x : EStateM ε σ α} {y : EStateM ε τ β} (h : Agree Q E (x s) (y t)) :
    Agree Q E (Effect.mapError f x s) (Effect.mapError f y t) := by
  generalize hr : x s = r at h
  generalize hr' : y t = r' at h
  cases h with
  | ok hq =>
      rw [mapError_ok hr, mapError_ok hr']
      exact .ok hq
  | error he =>
      rw [mapError_error hr, mapError_error hr']
      exact .error he

end Agree

end Effect
end LineLang
