import LineLang.Proofs.Renaming.Memory
import LineLang.Proofs.Session.Valid

/-!
# Handles that change places

What is added to a storage first gets the lower handles. If two additions to a storage are made in
one order and in the other one, the handles that they get change places.

- `Renaming.above`             : handles leave room for an addition
- `Renaming.exchanging`        : the handles of two additions change places
- `Memory.Valid.renamed_above` : a storage is found in every one that extends it
- `Memory.Renamed.exchange`    : the order of two additions does not matter
-/

namespace LineLang

/-! ## Renamings -/

namespace Renaming

variable {lo k l t : Nat}

/-- The handles from `lo` on leave room for those up to `k`. -/
def skip (lo k t : Nat) : Nat :=
  if t < lo then t else t + (k - lo)

/-- The handles from `lo` up to `k` change places with the next ones, as many as from `lo` up to
`l`. -/
def exchange (lo k l t : Nat) : Nat :=
  if t < lo then t
  else if t < k then t + (l - lo)
  else if t < k + (l - lo) then t - (k - lo)
  else t

theorem skip_injective (lo k : Nat) : Function.Injective (skip lo k) := by
  intro t u h
  unfold skip at h
  grind

theorem exchange_injective (lo k l : Nat) : Function.Injective (exchange lo k l) := by
  intro t u h
  unfold exchange at h
  grind

theorem skip_of_lt (h : t < lo) : skip lo k t = t :=
  if_pos h

theorem skip_of_le (h : lo ≤ t) : skip lo k t = t + (k - lo) :=
  if_neg (Nat.not_lt_of_le h)

theorem skip_comm (hk : lo ≤ k) (hl : lo ≤ l) : skip lo k l = skip lo l k := by
  rw [skip_of_le hk, skip_of_le hl]
  omega

theorem exchange_of_lt (h : t < k) : exchange lo k l t = skip lo l t := by
  unfold exchange skip
  grind

theorem exchange_skip (hk : lo ≤ k) (h : t < l) : exchange lo k l (skip lo k t) = t := by
  unfold exchange skip
  grind

theorem exchange_of_le (hk : lo ≤ k) (hl : lo ≤ l) (h : skip lo k l ≤ t) :
    exchange lo k l t = t := by
  rw [skip_of_le hl] at h
  unfold exchange
  grind

/-- A handle is one of those up to `k`, one of the next ones, or one that is still free. -/
theorem exchange_cases (hk : lo ≤ k) (hl : lo ≤ l) (t : Nat) :
    t < k ∨ (∃ u < l, skip lo k u = t) ∨ skip lo k l ≤ t := by
  rw [skip_of_le hl]
  rcases Nat.lt_or_ge t k with hlt | hge
  · exact .inl hlt
  · rcases Nat.lt_or_ge t (l + (k - lo)) with hlt | hge'
    · refine .inr (.inl ⟨t - (k - lo), by omega, ?_⟩)
      rw [skip_of_le (by omega)]
      omega
    · exact .inr (.inr hge')

/-- The handles in `m` stay, and the next ones leave room for what `n` has besides. -/
def above (m n : Memory) : Renaming where
  slot := skip m.slots.size n.slots.size
  function := skip m.functions.size n.functions.size
  slot_injective := skip_injective _ _
  function_injective := skip_injective _ _

/-- The handles of what `k` has besides `m` change places with those of what `l` has. -/
def exchanging (m k l : Memory) : Renaming where
  slot := exchange m.slots.size k.slots.size l.slots.size
  function := exchange m.functions.size k.functions.size l.functions.size
  slot_injective := exchange_injective _ _ _
  function_injective := exchange_injective _ _ _

end Renaming

/-! ## Functions -/

namespace Function

variable {ρ σ : Renaming} {F F' : Function}

/-- The function only uses slots in `S` and functions in `C`. -/
structure Uses (S : SlotId → Prop) (C : FunctionId → Prop) (F : Function) : Prop where
  parameters : ∀ t ∈ F.parameterSlots, S t
  slots : ∀ b, F.body = some b → b.SlotsIn S
  calls : ∀ b, F.body = some b → b.Calls C

theorem Uses.imp {S S' : SlotId → Prop} {C C' : FunctionId → Prop} (h : F.Uses S C)
    (hS : ∀ t, S t → S' t) (hC : ∀ f, C f → C' f) : F.Uses S' C' where
  parameters t ht := hS t (h.parameters t ht)
  slots b hb := (h.slots b hb).imp fun _ hp t ht => hS t (hp t ht)
  calls b hb := (h.calls b hb).imp fun _ hp f hf => hC f (hp f hf)

theorem renamed_id (F : Function) : F.Renamed .id F where
  name := rfl
  parameters := rfl
  slots := (List.map_id _).symm
  body := by
    cases F.body with
    | none => rfl
    | some b => exact congrArg some b.rename_id.symm
  returnKind := rfl

/-- Only the handles that the function uses matter. -/
theorem Renamed.congr (h : F.Renamed ρ F')
    (hF : F.Uses (fun t => σ.slot t = ρ.slot t) fun f => σ.function f = ρ.function f) :
    F.Renamed σ F' where
  name := h.name
  parameters := h.parameters
  slots := h.slots.trans (List.map_congr_left fun t ht => (hF.parameters t ht).symm)
  body := by
    rw [h.body]
    cases hb : F.body with
    | none => rfl
    | some b => exact congrArg some (Expr.rename_congr (hF.slots b hb) (hF.calls b hb)).symm
  returnKind := h.returnKind

/-- The renaming is undone. -/
theorem Renamed.back (h : F.Renamed ρ F')
    (hF : F.Uses (fun t => σ.slot (ρ.slot t) = t) fun f => σ.function (ρ.function f) = f) :
    F'.Renamed σ F where
  name := h.name.symm
  parameters := h.parameters.symm
  slots := by
    rw [h.slots, List.map_map]
    exact (List.map_id _).symm.trans (List.map_congr_left fun t ht => (hF.parameters t ht).symm)
  body := by
    rw [h.body]
    cases hb : F.body with
    | none => rfl
    | some b =>
        have hself : (b.rename ρ).rename σ = b := by
          rw [b.rename_rename]
          exact Expr.rename_eq_self (hF.slots b hb) (hF.calls b hb)
        exact congrArg some hself.symm
  returnKind := h.returnKind.symm

end Function

/-! ## Storages -/

namespace Memory

variable {N N' : Set String} {base m n n' k l : Memory}

/-- A function of a complete storage uses nothing that the storage does not have. -/
theorem Complete.uses (h : m.Complete) (f : FunctionId) :
    (m.function f).Uses (· < m.slots.size) (· < m.functions.size) := by
  rcases Nat.lt_or_ge f m.functions.size with hlt | hge
  · rcases h f hlt with ⟨b, k, hc⟩
    refine ⟨fun t ht => (hc.parameters t ht).1, fun b' hb => ?_, fun b' hb => ?_⟩
    · cases hc.body.symm.trans hb
      exact hc.slots
    · cases hc.body.symm.trans hb
      exact hc.calls_lt hlt
  · rw [function_of_size_le hge]
    exact ⟨nofun, nofun, nofun⟩

/-- A storage is found in every one that extends it, up to the names of what was added. -/
theorem Valid.renamed_above (hm : m.Valid) (h : m.Extends n)
    (hlookup : ∀ name ∈ N, n.lookup? name = m.lookup? name) : m.Renamed (.above m n) N n where
  nextSlot i := by
    have hsize := h.size_slots
    show Renaming.skip _ _ _ = _
    rw [Renaming.skip_of_le (Nat.le_add_right _ _)]
    omega
  nextFunction i := by
    have hsize := h.size_functions
    show Renaming.skip _ _ _ = _
    rw [Renaming.skip_of_le (Nat.le_add_right _ _)]
    omega
  shape t := by
    have hsize := h.size_slots
    show (n.slot (Renaming.skip _ _ t)).shape = _
    rcases Nat.lt_or_ge t m.slots.size with hlt | hge
    · rw [Renaming.skip_of_lt hlt, h.slot hlt]
    · rw [Renaming.skip_of_le hge, slot_of_size_le hge, slot_of_size_le (by omega)]
  function f := by
    have hsize := h.size_functions
    show Function.Renamed _ _ (n.function (Renaming.skip _ _ f))
    rcases Nat.lt_or_ge f m.functions.size with hlt | hge
    · rw [Renaming.skip_of_lt hlt, h.function hlt]
      -- Functions of `m` mention slots and functions of `m` only, and those stay in place.
      refine (Function.renamed_id _).congr
        ((hm.complete.uses f).imp (fun t ht => ?_) fun g hg => ?_)
      · exact Renaming.skip_of_lt ht
      · exact Renaming.skip_of_lt hg
    · rw [Renaming.skip_of_le hge, function_of_size_le hge, function_of_size_le (by omega)]
      exact Function.renamed_absent
  lookup name hname := by
    rw [hlookup name hname]
    cases hid : m.lookup? name with
    | none => rfl
    | some id =>
        exact congrArg some (Renaming.skip_of_lt (hm.lookup_lt hid)).symm

/-- What is added to `base` in `k` and in `l` may be added in either order: `n` is `k` with the
addition of `l`, and `n'` is `l` with that of `k`. -/
theorem Renamed.exchange (hk : k.Complete) (hl : l.Complete) (hbk : base.Extends k)
    (hbl : base.Extends l) (hkn : k.Extends n) (hln : l.Extends n')
    (hn : l.Renamed (.above base k) N n) (hn' : k.Renamed (.above base l) N' n')
    (hlookup : ∀ name, n'.lookup? name = (n.lookup? name).map
      (Renaming.exchanging base k l).function) : n.Renamed (.exchanging base k l) Set.univ n' := by
  have hslots : Renaming.skip base.slots.size k.slots.size l.slots.size =
    n.slots.size := hn.slot_size
  have hslots' : n'.slots.size = n.slots.size := by
    rw [← hslots, Renaming.skip_comm hbk.size_slots hbl.size_slots]
    exact hn'.slot_size.symm
  have hfunctions : Renaming.skip base.functions.size k.functions.size l.functions.size =
      n.functions.size :=
    hn.function_size
  have hfunctions' : n'.functions.size = n.functions.size := by
    rw [← hfunctions, Renaming.skip_comm hbk.size_functions hbl.size_functions]
    exact hn'.function_size.symm
  -- Handles that are still free stay.
  have hslot : ∀ t, n.slots.size ≤ t → (Renaming.exchanging base k l).slot t = t := fun t ht =>
    Renaming.exchange_of_le hbk.size_slots hbl.size_slots (hslots ▸ ht)
  have hfunction : ∀ f, n.functions.size ≤ f →
      (Renaming.exchanging base k l).function f = f := fun f hf =>
    Renaming.exchange_of_le hbk.size_functions hbl.size_functions (hfunctions ▸ hf)
  refine ⟨fun i => ?_, fun i => ?_, fun t => ?_, fun f => ?_, fun name _ => hlookup name⟩
  · rw [hslot _ (Nat.le_add_right _ _), hslots']
  · rw [hfunction _ (Nat.le_add_right _ _), hfunctions']
  · rcases Renaming.exchange_cases hbk.size_slots hbl.size_slots t with ht | ⟨u, hu, rfl⟩ | ht
    · rw [hkn.slot ht,
        show (Renaming.exchanging base k l).slot t = _ from Renaming.exchange_of_lt ht]
      exact hn'.shape t
    · rw [show (Renaming.exchanging base k l).slot _ = u from Renaming.exchange_skip
        hbk.size_slots hu, hln.slot hu]
      exact (hn.shape u).symm
    · rw [hslots] at ht
      rw [hslot t ht, slot_of_size_le ht, slot_of_size_le (hslots' ▸ ht)]
  · rcases Renaming.exchange_cases hbk.size_functions hbl.size_functions f with
      hf | ⟨u, hu, rfl⟩ | hf
    · rw [hkn.function hf,
        show (Renaming.exchanging base k l).function f = _ from Renaming.exchange_of_lt hf]
      exact (hn'.function f).congr ((hk.uses f).imp (fun _ => Renaming.exchange_of_lt)
        fun _ => Renaming.exchange_of_lt)
    · rw [show (Renaming.exchanging base k l).function _ = u from
        Renaming.exchange_skip hbk.size_functions hu, hln.function hu]
      exact (hn.function u).back ((hl.uses u).imp (fun _ => Renaming.exchange_skip hbk.size_slots)
        fun _ => Renaming.exchange_skip hbk.size_functions)
    · rw [hfunctions] at hf
      rw [hfunction f hf, function_of_size_le hf, function_of_size_le (hfunctions' ▸ hf)]
      exact Function.renamed_absent

end Memory
end LineLang
