import LineLang.Proofs.Session.Reachable
import Mathlib.Data.List.Nodup
import Mathlib.Data.List.Pairwise

/-!
# The storage of a session

Between instructions the storage holds the declared functions and nothing else. Their frames lie one
after the other and make up all slots, every handle leads to where it should, and each name leads to
its function.

- `Memory.Packed`         : frames, names and bodies, one function after the other
- `Memory.Represents`     : what is stored of one function
- `Memory.Represented`    : what is stored of all of them
- `Session.reachable_represented`  : the storage of every session, between any two instructions
-/

namespace LineLang

def Expr.ownFunctions : Expr → List FunctionId
  | .call _ function _ _ => [function]
  | .declaration _ function => [function]
  | _ => []

namespace Memory

variable {m n : Memory} {name : String}

/-! ## What is stored -/

/-- A function is ready to be called, and what belongs to it stays in its frame. -/
structure Represents (m : Memory) (f : FunctionId) : Prop where
  body : ∃ b, (m.function f).body = some b ∧ b.SlotsIn (· ∈ (m.function f).frame) ∧
    b.Every fun p => ∀ g ∈ p.ownFunctions, g ≤ f
  returnKind : ∃ k, (m.function f).returnKind = some k
  overflowed : (m.function f).overflowed = false
  depth : (m.function f).depth = 0
  parameters : (m.function f).parameterSlots <+: (m.function f).frame
  contents : ∀ t ∈ (m.function f).frame, ∀ e, m.content t = .dependent e →
    (m.slot t).dependent = true ∧ e.SlotsIn fun u => u ∈ (m.function f).frame ∧ u < t

/-- The registry lists the functions in order under different names, and their frames are all
slots. -/
structure Represented (m : Memory) : Prop where
  order : m.registry.map Prod.snd = List.range m.functions.size
  names : (m.registry.map Prod.fst).Nodup
  lookup : ∀ name id, m.lookup? name = some id ↔
    id < m.functions.size ∧ (m.function id).name = name
  arena : (List.range m.functions.size).flatMap (fun f => (m.function f).frame) =
    List.range m.slots.size
  disjoint : ∀ f g, f < m.functions.size → g < m.functions.size → f ≠ g →
    (m.function f).frame.Disjoint (m.function g).frame
  functions : ∀ f < m.functions.size, m.Represents f

/-! ## One function after the other -/

/-- What is kept when a function is added, besides what makes the storage valid. -/
structure Packed (m : Memory) : Prop where
  names : (m.registry.map Prod.fst).Nodup
  arena : (List.range m.functions.size).flatMap (fun f => (m.function f).frame) =
    List.range m.slots.size
  parameters : ∀ f < m.functions.size,
    (m.function f).parameterSlots <+: (m.function f).frame
  plain : ∀ f < m.functions.size, ∀ b, (m.function f).body = some b →
    b.Every fun p => ∀ name g, p ≠ .declaration name g

theorem packed_empty : Packed {} where
  names := List.nodup_nil
  arena := rfl
  parameters _ hf := absurd hf (Nat.not_lt_zero _)
  plain _ hf := absurd hf (Nat.not_lt_zero _)

/-- The new frame begins where the slots ended. -/
theorem Added.arena (h : m.Added n name) (hm : m.Packed) :
    (List.range n.functions.size).flatMap (fun f => (n.function f).frame) =
      List.range n.slots.size := by
  have hle : m.slots.size ≤ n.slots.size := h.opened.above.size_slots
  have hold : (List.range m.functions.size).flatMap (fun f => (n.function f).frame) =
      List.range m.slots.size := by
    rw [← hm.arena]
    apply List.flatMap_congr
    intro f hf
    rw [h.opened.above.function (List.mem_range.1 hf)]
  calc (List.range n.functions.size).flatMap (fun f => (n.function f).frame)
      = (List.range m.functions.size).flatMap (fun f => (n.function f).frame) ++
          (n.function m.functions.size).frame := by
        rw [h.opened.count, List.range_succ, List.flatMap_append, List.flatMap_singleton]
    _ = List.range' 0 m.slots.size ++
          List.range' (0 + m.slots.size) (n.slots.size - m.slots.size) := by
        rw [hold, h.frame, List.range_eq_range', Nat.zero_add]
    _ = List.range n.slots.size := by
        rw [List.range'_append_1, Nat.add_sub_of_le hle, List.range_eq_range']

/-- The name was free before. -/
theorem Added.names (h : m.Added n name) (hm : m.Packed) :
    ((n.registry ++ [(name, m.functions.size)]).map Prod.fst).Nodup := by
  have hnew : name ∉ m.registry.map Prod.fst := by
    intro hmem
    rcases List.mem_map.1 hmem with ⟨p, hp, rfl⟩
    simpa using List.lookup_eq_none_iff.1 h.fresh p hp
  rw [h.opened.registry, List.map_append, List.map_singleton, ← List.concat_eq_append]
  exact hm.names.concat hnew

/-- The frame of a new function follows all others, and its name is new. -/
theorem Added.packed (h : m.Added n name) (hm : m.Packed) :
    Packed { n with registry := n.registry ++ [(name, m.functions.size)] } where
  names := h.names hm
  arena := h.arena hm
  parameters f hf := by
    have hlt : f < m.functions.size + 1 := h.opened.count ▸ hf
    rcases Nat.eq_or_lt_of_le (Nat.le_of_lt_succ hlt) with rfl | hlt
    · exact h.parameters
    · show (n.function f).parameterSlots <+: (n.function f).frame
      rw [h.opened.above.function hlt]
      exact hm.parameters f hlt
  plain f hf b hb := by
    have hlt : f < m.functions.size + 1 := h.opened.count ▸ hf
    rcases Nat.eq_or_lt_of_le (Nat.le_of_lt_succ hlt) with rfl | hlt
    · exact h.plain b hb
    · have hb' : (n.function f).body = some b := hb
      rw [h.opened.above.function hlt] at hb'
      exact hm.plain f hlt b hb'

/-! ## From one function to all -/

namespace Packed

/-- The frames of two functions have no slot in common. -/
theorem disjoint (h : m.Packed) {f g : FunctionId} (hf : f < m.functions.size)
    (hg : g < m.functions.size) (hne : f ≠ g) :
    (m.function f).frame.Disjoint (m.function g).frame := by
  have hnodup : ((List.range m.functions.size).flatMap fun f => (m.function f).frame).Nodup := by
    rw [h.arena]
    exact List.nodup_range
  have hsymm : Std.Symm (Function.onFun List.Disjoint fun f => (m.function f).frame) :=
    ⟨fun _ _ hd _ hg hf => hd hf hg⟩
  have hpairwise := (List.nodup_flatMap.1 hnodup).2
  exact hpairwise.forall (List.mem_range.2 hf) (List.mem_range.2 hg) hne

/-- The owner of a slot is the function whose frame holds it. -/
theorem owner_eq (h : m.Packed) (hm : m.Complete) {owner : SlotId → FunctionId}
    (hc : m.Coherent owner) (howners : ∀ t < m.slots.size, owner t < m.functions.size)
    {f : FunctionId} (hf : f < m.functions.size) {t : SlotId} (ht : t ∈ (m.function f).frame) :
    owner t = f := by
  have hsize : t < m.slots.size := by
    rw [← List.mem_range, ← h.arena]
    exact List.mem_flatMap.2 ⟨f, List.mem_range.2 hf, ht⟩
  have hg := howners t hsize
  rcases hm (owner t) hg with ⟨b, k, hbody⟩
  have hown := hc.frame (owner t) b hbody.body t rfl hsize
  -- The slot is in the frame of its owner, and other frames are disjoint from that one.
  by_contra hne
  exact h.disjoint hg hf hne hown ht

end Packed

/-- A name stands for the one function that has it. -/
theorem Valid.lookup (hm : m.Valid) (hp : m.Packed) (name : String) (id : FunctionId) :
    m.lookup? name = some id ↔ id < m.functions.size ∧ (m.function id).name = name := by
  have hmem : (name, id) ∈ m.registry ↔ id < m.functions.size ∧ (m.function id).name = name := by
    rw [hm.registry]
    constructor
    · intro h
      rcases List.mem_map.1 h with ⟨f, hf, heq⟩
      cases heq
      exact ⟨List.mem_range.1 hf, rfl⟩
    · rintro ⟨hid, rfl⟩
      exact List.mem_map.2 ⟨id, List.mem_range.2 hid, rfl⟩
  rw [← hmem]
  constructor
  · intro h
    rcases List.lookup_eq_some_iff.1 h with ⟨l₁, l₂, hl, -⟩
    rw [hl]
    exact List.mem_append_right _ List.mem_cons_self
  · intro h
    rcases List.append_of_mem h with ⟨l₁, l₂, hl⟩
    refine List.lookup_eq_some_iff.2 ⟨l₁, l₂, hl, fun p hp₁ => ?_⟩
    -- The name stands in the registry once, so not before this entry.
    have hnodup := hp.names
    rw [hl, List.map_append, List.map_cons, List.nodup_append] at hnodup
    have hne := hnodup.2.2 p.1 (List.mem_map_of_mem hp₁) name List.mem_cons_self
    simpa using Ne.symm hne

/-- A function of a valid storage is ready to be called. -/
theorem Valid.represents (hm : m.Valid) (hp : m.Packed) {f : FunctionId}
    (hf : f < m.functions.size) : m.Represents f := by
  rcases hm.complete f hf with ⟨b, k, hc⟩
  rcases hm.owners with ⟨owner, hcoherent, howners⟩
  -- What belongs to the function is in its frame.
  have hframe : ∀ t, owner t = f → t < m.slots.size → t ∈ (m.function f).frame :=
    hcoherent.frame f b hc.body
  refine ⟨⟨b, hc.body, ?_, fun p hpb g hg => ?_⟩, ⟨k, hc.returnKind⟩, hc.overflowed, hc.depth,
    hp.parameters f hf, fun t ht e he => ⟨(hm.flagged t e he).1, ?_⟩⟩
  · have hlocal := hcoherent.body f b hc.body
    exact Expr.Every.imp (hlocal.1.slots.and hlocal.2) fun p hpb t ht =>
      hframe t (hpb.1 t ht) (hpb.2 t ht)
  · cases p with
    | call name id es dependent => exact hc.calls _ hpb g hg
    | declaration name id => exact absurd rfl (hp.plain f hf b hc.body _ hpb name id)
    | _ => cases hg
  · have hown := hp.owner_eq hm.complete hcoherent howners hf ht
    have hsize := lt_size_of_dependent he
    rcases hcoherent.deferred t e he with ⟨hlocal, hlt⟩
    rw [hown] at hlocal
    exact Expr.Every.imp (hlocal.slots.and hlt) fun p hpe u hu =>
      ⟨hframe u (hpe.1 u hu) (Nat.lt_trans (hpe.2 u hu) hsize), hpe.2 u hu⟩

theorem Valid.represented (hm : m.Valid) (hp : m.Packed) : m.Represented where
  order := by
    rw [hm.registry, List.map_map]
    exact List.map_id _
  names := hp.names
  lookup := hm.lookup hp
  arena := hp.arena
  disjoint _ _ := hp.disjoint
  functions _ := hm.represents hp

end Memory

/-! ## Sessions -/

namespace Session

variable {m : Memory}

/-- Every instruction keeps the frames together. -/
theorem execute_packed (h : m.Valid ∧ m.Packed) (ts : List Token) :
    (execute m ts).memory.Valid ∧ (execute m ts).memory.Packed := by
  refine ⟨execute_valid h.1 ts, ?_⟩
  rcases execute_outcome h.1 ts with ⟨n, name, hadded, -, hexecute⟩ | ⟨hsame, -⟩
  · rw [hexecute]
    exact hadded.packed h.2
  · rw [hsame]
    exact h.2

def after (m : Memory) (instructions : List (List Token)) : Memory :=
  instructions.foldl (fun m ts => (execute m ts).memory) m

theorem after_packed (h : m.Valid ∧ m.Packed) (instructions : List (List Token)) :
    (after m instructions).Valid ∧ (after m instructions).Packed := by
  induction instructions generalizing m with
  | nil => exact h
  | cons ts instructions ih => exact ih (execute_packed h ts)

/-- Whatever lines a session took, and however many instructions of the next line have been carried
out, the storage is represented: it holds the registered functions, each complete and confined to
its own frame, and nothing else. -/
theorem reachable_represented {s : Session} (hs : Reachable s) (instructions : List (List Token)) :
    (after s.memory instructions).Represented := by
  have hstart : s.memory.Valid ∧ s.memory.Packed :=
    hs.keeps (P := fun m => m.Valid ∧ m.Packed) ⟨Memory.valid_empty, Memory.packed_empty⟩
      fun _ ts hm => execute_packed hm ts
  rcases after_packed hstart instructions with ⟨hvalid, hpacked⟩
  exact hvalid.represented hpacked

def doubling : Session :=
  let s := (submit {} "function twice(x) => let y = x + x in y").session
  (s.submit "function often(n, x) => if (n < 1) x else often(n - 1, twice(x))").session

/-- One more function is declared after them. -/
theorem reachable_represented_doubling :
    Reachable doubling ∧ doubling.memory.functions.size = 2 ∧ doubling.memory.slots.size = 4 ∧
      (after doubling.memory [sameDeclaration]).functions.size = 3 ∧
      (after doubling.memory [sameDeclaration]).Represented := by
  have hreachable : Reachable doubling := .submit (.submit .start _) _
  obtain ⟨hfunctions, hslots, hmore⟩ : doubling.memory.functions.size = 2 ∧
      doubling.memory.slots.size = 4 ∧
      (after doubling.memory [sameDeclaration]).functions.size = 3 := by
    decide +kernel
  exact ⟨hreachable, hfunctions, hslots, hmore, reachable_represented hreachable [sameDeclaration]⟩

end Session
end LineLang
