import LineLang.Proofs.Evaluation.Flagging
import LineLang.Proofs.Evaluation.Noninterference
import LineLang.Proofs.Resolution.Order
import LineLang.Proofs.Session.Probing

/-!
# Independent code of a session

An expression that is not marked as dependent may be evaluated at several moments, perhaps in
several calls of the function it belongs to. It does not see in which of them it is: it comes to the
same as long as the slots that are not flagged hold the same, whatever the parameters are.

- `Memory.HonestBodies`           : the marks in bodies of functions are right
- `Session.Evaluates.flagged`     : initializers are only left in flagged slots, at every moment of
  an instruction
- `Session.Evaluates.independent` : independent code stands among variables that are not flagged
- `Session.Evaluates.read`        : where the expression that is evaluated was read
- `Memory.SameFixed`              : two storages that hold the same where nothing is flagged
- `Session.independent_code_blind`  : independent code comes to the same in both
-/

namespace LineLang

open Effect Evaluation

/-! ## Functions of a session -/

def Memory.HonestBodies (m : Memory) : Prop :=
  ∀ f b, (m.function f).body = some b → b.Every m.Honest

namespace Session

/-- What was honest before slots and functions were added is honest afterwards. -/
theorem honest_above {m n : Memory} (hm : m.Valid) (hhonest : m.HonestBodies) (h : m.Extends n)
    {f : FunctionId} {b : Expr} (hf : f < m.functions.size) (hb : (n.function f).body = some b) :
    b.Every n.Honest := by
  rw [h.function hf] at hb
  rcases hm.complete.of_body hb with ⟨k, hc⟩
  intro p hp
  refine (hhonest f b hb p hp).congr fun t ht => ?_
  rw [h.slot (hc.slots p hp t ht)]

/-- A declaration adds a body whose marks were right when it was read, and no instruction changes
one. -/
theorem execute_honest {m : Memory} (hm : m.Valid ∧ m.HonestBodies) (ts : List Token) :
    (execute m ts).memory.Valid ∧ (execute m ts).memory.HonestBodies := by
  refine ⟨execute_valid hm.1 ts, ?_⟩
  rcases execute_outcome hm.1 ts with ⟨n, name, hadded, hparse, h⟩ | ⟨h, -⟩
  · rw [h]
    intro f b hb
    have hlt : f < n.functions.size := Memory.lt_size_of_body hb
    rw [hadded.opened.count] at hlt
    -- The older functions are as they were, and the last one has just been read.
    rcases Nat.lt_succ_iff_lt_or_eq.1 hlt with hold | rfl
    · exact honest_above hm.1 hm.2 hadded.opened.above hold hb
    · rcases Resolution.parse_ok hm.1 hparse with
        ⟨p, owner, -, hstaged, -⟩ | ⟨name', _, _, b', he, hdefines⟩
      · exact absurd rfl (hstaged.resolved.every.self.plain name m.functions.size)
      · rcases hdefines.function with ⟨kind, hfunction⟩
        rcases hdefines.resolved with ⟨owner, l, hslots, hresolved⟩
        have hbody : (n.function m.functions.size).body = some b := hb
        rw [hfunction] at hbody
        cases hbody
        refine hresolved.honest.imp fun p hp => hp.congr fun t _ => ?_
        show (n.slot t).dependent = (l.slot t).dependent
        rw [Memory.slot, Memory.slot, hslots]
  · rw [h]
    exact hm.2

/-- Marks are right in every session. -/
theorem Reachable.honest {s : Session} (hs : Reachable s) : s.memory.HonestBodies := by
  have hempty : ({} : Memory).Valid ∧ ({} : Memory).HonestBodies := by
    refine ⟨Memory.valid_empty, fun f b hb => ?_⟩
    exact absurd (Memory.lt_size_of_body hb) (Nat.not_lt_zero f)
  exact (hs.keeps (P := fun m => m.Valid ∧ m.HonestBodies) hempty fun _ ts hm =>
    execute_honest hm ts).2

/-! ## Moments of an instruction -/

/-- An instruction has one phrase. -/
theorem starts_unique {m : Memory} {ts : List Token} {r r' : Reading} (h : r.Starts m ts)
    (h' : r'.Starts m ts) : r = r' := by
  cases h with
  | expression hts =>
      cases h' with
      | expression hts' =>
          cases hts.symm.trans hts'
          rfl
      | declaration hts' => cases hts.symm.trans hts'
  | declaration hts hname hid =>
      cases h' with
      | expression hts' => cases hts.symm.trans hts'
      | declaration hts' hname' hid' =>
          cases hts.symm.trans hts'
          cases hid.symm.trans hid'
          rfl

namespace Evaluates

variable {m : Memory} {ts : List Token} {p p' q : Moment} {r r' : Record}

/-- An evaluation starts with an expression whose names have been resolved, in the storage of the
session, to which slots were added and perhaps a function without a body. -/
theorem start (h : Evaluates m ts p r) (hm : m.Valid) :
    ∃ owner Γ, p.machine.memory.Working owner m.functions.size m.slots.size ∧
      p.machine.memory.Resolved owner m.functions.size Γ p.expr ∧ m.Extends p.machine.memory ∧
      ∀ f b, (p.machine.memory.function f).body = some b → f < m.functions.size := by
  cases h with
  | run hp hplain hkind =>
      rcases Resolution.parse_ok hm hp with ⟨_, owner, -, hstaged, -⟩ | ⟨name, _, _, _, he, -⟩
      · rw [Typing.kindOf_eq hstaged.working.settled] at hkind
        rcases of_ofExcept_ok hkind with ⟨-, rfl⟩
        refine ⟨owner, ∅, hstaged.working, hstaged.resolved, hstaged.grown.extends,
          fun f b hb => ?_⟩
        rw [hstaged.grown.function f] at hb
        exact Memory.lt_size_of_body hb
      · exact absurd he (hplain name _)
  | probe hr hprobes =>
      rcases hr.open hm with ⟨owner, hopen⟩
      rcases hopen.probes hprobes with ⟨hscope, hresolved, -⟩
      exact ⟨owner, _, hscope.working, hresolved, hscope.above, hscope.bodies⟩

/-- Slots are neither added nor renamed, and of functions only the numbers of active calls
change. -/
theorem unchanged (h : Evaluates m ts p r) (hm : m.Valid) (hq : p.Reaches q) :
    q.machine.memory.slots.size = p.machine.memory.slots.size ∧
    (∀ t < p.machine.memory.slots.size, (q.machine.memory.slot t).shape =
      (p.machine.memory.slot t).shape) ∧
    ∀ f, ∃ d, q.machine.memory.function f = { p.machine.memory.function f with depth := d } := by
  rcases h.tracked hm hq with ⟨owner, o, live, Γ, a, hholds⟩
  exact ⟨hholds.agrees.size, hholds.agrees.shape, fun f => ⟨_, hholds.agrees.functions f⟩⟩

/-- A body of a function is one of the session. -/
theorem body_slots (h : Evaluates m ts p r) (hm : m.Valid) {f : FunctionId} {b : Expr}
    (hb : (p.machine.memory.function f).body = some b) :
    b.SlotsIn (· < m.slots.size) ∧ ∀ t ∈ (p.machine.memory.function f).parameterSlots,
      t < m.slots.size := by
  rcases h.start hm with ⟨owner, Γ, -, -, habove, hbodies⟩
  have hsame := habove.function (hbodies f b hb)
  rw [hsame] at hb ⊢
  rcases hm.complete.of_body hb with ⟨k, hc⟩
  exact ⟨hc.slots, fun t ht => (hc.parameters t ht).1⟩

/-- The marks of every expression that is evaluated on the way are right. -/
theorem honestly (h : Evaluates m ts p r) (hm : m.Valid) (harranged : m.Arranged)
    (hhonest : m.HonestBodies) (hq : p.Reaches q) :
    ∃ owner Γ, q.Orderly owner p.machine.memory.Honest Γ := by
  rcases h.start hm with ⟨owner, Γ, -, hresolved, habove, hbodies⟩
  exact h.orderly_with hm harranged hresolved.honest
    (fun f b hb => honest_above hm hhonest habove (hbodies f b hb) hb) hq

/-- So they are when they are compared with the slots of that moment. -/
theorem honest_now (h : Evaluates m ts p r) (hm : m.Valid) (hq : p.Reaches q) {e : Expr}
    (he : e.Every p.machine.memory.Honest) (hslots : e.SlotsIn (· < q.machine.memory.slots.size)) :
    e.Every q.machine.memory.Honest := by
  rcases h.unchanged hm hq with ⟨hsize, hshape, -⟩
  intro e' he'
  refine (he e' he').congr fun t ht => Memory.dependent_of_shape (hshape t ?_)
  rw [← hsize]
  exact hslots e' he' t ht

/-- Initializers are only left in flagged slots. -/
theorem flagged (h : Evaluates m ts p r) (hm : m.Valid) (harranged : m.Arranged)
    (hhonest : m.HonestBodies) (hq : p.Reaches q) : q.machine.memory.Flagged := by
  induction hq with
  | refl =>
      rcases h.start hm with ⟨owner, Γ, hworking, -⟩
      exact hworking.flagged
  | tail hreaches hleads ih =>
      rcases h.honestly hm harranged hhonest hreaches with ⟨owner, Γ, horderly⟩
      rcases horderly.owned with ⟨o, howned⟩
      have hhonest := h.honest_now hm hreaches horderly.every howned.slots
      exact hleads.flagged howned (Memory.flags_of_honest hhonest) ih

/-- Independent code stands among variables that are not flagged, and nothing is left in their
slots. -/
theorem independent (h : Evaluates m ts p r) (hm : m.Valid) (harranged : m.Arranged)
    (hhonest : m.HonestBodies) (hq : p.Reaches q) (hindependent : q.expr.isDependent = false)
    {S : Set SlotId} (hold : ∀ t < m.slots.size, t ∈ S) (hslots : q.expr.SlotsIn (· ∈ S)) :
    ∃ owner Γ, q.Orderly owner (fun e => ∀ x ∈ e.ownSlots, x ∈ S) Γ ∧
      ∀ t ∈ Γ, (q.machine.memory.slot t).dependent = false := by
  rcases h.honestly hm harranged hhonest hq with ⟨owner, Γ, horderly⟩
  rcases horderly.owned with ⟨o, howned⟩
  rcases horderly.placed with ⟨lo, hi, hplaced⟩
  rcases h.unchanged hm hq with ⟨-, -, hfunctions⟩
  have hmarks := h.honest_now hm hq horderly.every howned.slots
  have hstarted : p.machine.memory.BodiesPlaced fun e => ∀ x ∈ e.ownSlots, x ∈ S := by
    refine (h.placed hm harranged (P := fun _ => True) fun _ _ => trivial).2.bodiesPlaced
      fun _ f _ _ b _ hb => ?_
    exact (h.body_slots hm hb).1.imp fun e he x hx => hold x (he x hx)
  refine ⟨owner, q.machine.memory.fixed Γ,
    ⟨⟨o, howned⟩, ⟨lo, hi, ?_, ?_⟩, hstarted.of_depths hfunctions⟩, fun t ht => ht.2⟩
  · refine ⟨hslots, ?_, hplaced.here.ascending, fun u hu => hplaced.here.outside u hu.1⟩
    exact hplaced.here.uses.restrict (Memory.independent_slots hmarks hindependent)
        fun t ht hflag =>
      ⟨⟨ht.1, hflag⟩, ht.2⟩
  · intro t ht _ e he
    have hflag := (h.flagged hm harranged hhonest hq t e he).1
    cases hflag.symm.trans ht.2

/-! ### Where an expression was read -/

/-- The expression of an evaluation is what a part of the instruction was read to. The storage has
grown since then by a slot at most. -/
theorem read (h : Evaluates m ts p r) (hm : m.Valid) :
    ∃ (r₀ c : Reading) (k : Memory), r₀.Starts m ts ∧ r₀.Reaches c ∧ c.Reads p.expr k ∧
      k.Grown m.slots.size p.machine.memory := by
  cases h with
  | @run e n k n' hp hplain hkind =>
      rcases Resolution.parse_ok hm hp with
        ⟨phrase, owner, hts, hstaged, -⟩ | ⟨name, _, _, _, he, -⟩
      · rw [Typing.kindOf_eq hstaged.working.settled] at hkind
        rcases of_ofExcept_ok hkind with ⟨-, rfl⟩
        unfold parse parseWith at hp
        rw [hts] at hp
        exact ⟨⟨{}, phrase, m⟩, _, _, .expression hts, .refl, hp, .refl _⟩
      · exact absurd he (hplain name _)
  | @probe r scope e n hr hprobes =>
      rcases hr.open hm with ⟨owner, hopen⟩
      rcases hprobes with ⟨r', d, hreaches, hallots, -, rfl⟩
      have hr' := hopen.reaches hreaches
      cases hallots with
      | @binding scope cs declared name p cs' b m' ds inner k e k' inferred l kind hcs hp
          hinferred hkind =>
          have hc := hr'.leads (.initializer hcs)
          have hk := Resolution.resolveWith_open hc.syntactic hc.here hp
          rw [Typing.kindOf_eq hk.working.settled] at hinferred
          rcases of_ofExcept_ok hinferred with ⟨-, rfl⟩
          exact ⟨r, _, _, hr, hreaches.tail (.initializer hcs), hp, .allocate hk.working.low _⟩

/-- An expression that is evaluated on the way uses slots of the session or such as had been added
when the first one was read. -/
theorem slots_lt (h : Evaluates m ts p r) (hm : m.Valid) (harranged : m.Arranged) {bound : Nat}
    (hle : m.slots.size ≤ bound) (hp : p.expr.SlotsIn (· < bound)) (hq : p.Reaches q) :
    q.expr.SlotsIn (· < bound) := by
  have hbodies : ∀ f b, (p.machine.memory.function f).body = some b → b.SlotsIn (· < bound) := by
    intro f b hb
    exact (h.body_slots hm hb).1.imp fun e he t ht => Nat.lt_of_lt_of_le (he t ht) hle
  rcases h.orderly_with hm harranged hp hbodies hq with ⟨owner, Γ, horderly⟩
  exact horderly.every

/-- Two evaluations of one instruction have slots in common, which have the same names and kinds in
both. An expression that is evaluated in both uses no others. -/
theorem common (h : Evaluates m ts p r) (h' : Evaluates m ts p' r') (hm : m.Valid)
    (harranged : m.Arranged) :
    ∃ S : Set SlotId, (∀ t < m.slots.size, t ∈ S) ∧
      (∀ t ∈ S, t < p.machine.memory.slots.size ∧ t < p'.machine.memory.slots.size ∧
        (p'.machine.memory.slot t).shape = (p.machine.memory.slot t).shape) ∧
      ∀ q q', p.Reaches q → p'.Reaches q' → q'.expr = q.expr → q.expr.SlotsIn (· ∈ S) := by
  rcases h.read hm with ⟨r₀, c, k, hr₀, hc, hreads, hgrown⟩
  rcases h'.read hm with ⟨r₁, c', k', hr₁, hc', hreads', hgrown'⟩
  cases starts_unique hr₀ hr₁
  rcases hr₀.open hm with ⟨owner, hopen⟩
  rcases (hopen.reaches hc).steps hreads with ⟨-, hworking, hresolved⟩
  rcases (hopen.reaches hc').steps hreads' with ⟨-, hworking', hresolved'⟩
  refine ⟨{t | t < k.slots.size ∧ t < k'.slots.size}, fun t ht => ?_, ?_,
    fun q q' hq hq' he e hmem t ht => ?_⟩
  · exact ⟨Nat.lt_of_lt_of_le ht hworking.low, Nat.lt_of_lt_of_le ht hworking'.low⟩
  · rintro t ⟨ht, ht'⟩
    refine ⟨Nat.lt_of_lt_of_le ht hgrown.size, Nat.lt_of_lt_of_le ht' hgrown'.size, ?_⟩
    -- One of the storages has grown out of the other, so the slot had its name and its kind in the
    -- first of them.
    have hsame : (k'.slot t).shape = (k.slot t).shape := by
      rcases hopen.comparable hc hc' hreads hreads' with hkk' | hk'k
      · exact hkk'.shape t ht
      · exact (hk'k.shape t ht').symm
    calc (p'.machine.memory.slot t).shape
      _ = (k'.slot t).shape := hgrown'.shape t ht'
      _ = (k.slot t).shape := hsame
      _ = (p.machine.memory.slot t).shape := (hgrown.shape t ht).symm
  · have hslots' := h'.slots_lt hm harranged hworking'.low hresolved'.slots hq'
    rw [he] at hslots'
    exact ⟨h.slots_lt hm harranged hworking.low hresolved.slots hq e hmem t ht, hslots' e hmem t ht⟩

end Evaluates

end Session

/-! ## Independent code -/

/-- The storages have the same functions, with as many active calls, and hold the same in slots that
are flagged in neither. -/
structure Memory.SameFixed (m n : Memory) : Prop where
  functions : n.functions = m.functions
  content : ∀ t, t < m.slots.size → t < n.slots.size → (m.slot t).dependent = false →
    (n.slot t).dependent = false → n.content t = m.content t

def Memory.fixedSlots (m n : Memory) : Set SlotId :=
  {t | (t < m.slots.size ∧ t < n.slots.size) ∧ (m.slot t).dependent = false ∧
    (n.slot t).dependent = false}

namespace Session

variable {ts ts' : List Token} {p p' q q' : Moment} {r r' : Record}

/-- Independent code comes to the same at two moments, if the slots that it uses have the same names
and kinds. -/
theorem independent_inStep {m : Memory} (hm : m.Valid) (harranged : m.Arranged)
    (hhonest : m.HonestBodies) (hp : Evaluates m ts p r) (hq : p.Reaches q)
    (hindependent : q.expr.isDependent = false) {S : Set SlotId} (hold : ∀ t < m.slots.size, t ∈ S)
    (hslots : q.expr.SlotsIn (· ∈ S)) {n : Memory}
    (hS : ∀ t ∈ S, t < q.machine.memory.slots.size ∧ t < n.slots.size ∧
      (n.slot t).shape = (q.machine.memory.slot t).shape)
    (hsame : q.machine.memory.SameFixed n) (depth : Nat) (mode : Mode) :
    Machine.InStep S (q.machine.memory.fixedSlots n) (q.machine.memory.fixedSlots n)
      (evaluateWithin depth mode q.expr { memory := q.machine.memory })
      (evaluateWithin depth mode q.expr { memory := n }) := by
  rcases hp.independent hm harranged hhonest hq hindependent hold hslots with
    ⟨owner, Γ, horderly, hΓ⟩
  rcases horderly.owned with ⟨o, howned⟩
  rcases horderly.placed with ⟨lo, hi, hplaced⟩
  -- Depth, mode and printed lines are not part of what makes a moment orderly.
  have hstart : Moment.Orderly owner (fun e => ∀ x ∈ e.ownSlots, x ∈ S) Γ
      ⟨depth, mode, q.expr, { memory := q.machine.memory }⟩ :=
    ⟨⟨o, howned.coherent, howned.here, howned.slots, howned.limited⟩,
      ⟨lo, hi, hplaced.here, hplaced.layered⟩, horderly.bodies⟩
  refine hstart.inStep (fun _ he => he)
    ⟨⟨hsame.functions, ?_, fun t ht => (hS t ht).2.2, ?_, ?_⟩, rfl⟩ ?_
  · rintro t (ht | ht)
    · exact ⟨(hS t ht).1, (hS t ht).2.1⟩
    · exact ht.1
  · rintro t ⟨⟨hlt, hlt'⟩, hflag, hflag'⟩
    exact hsame.content t hlt hlt' hflag hflag'
  · intro f b hb t ht
    rcases (hp.unchanged hm hq).2.2 f with ⟨d, hd⟩
    rw [hd] at hb ht
    exact hold t ((hp.body_slots hm hb).2 t ht)
  · intro t ht hmem
    rcases hS t hmem with ⟨hlt, hlt', hshape⟩
    exact ⟨⟨hlt, hlt'⟩, hΓ t ht, (Memory.dependent_of_shape hshape).trans (hΓ t ht)⟩

/-- Two moments have slots in common, which have the same names and kinds at both. An expression of
one instruction, or of functions of the session, uses no others. -/
theorem shared_slots {m : Memory} (hm : m.Valid) (harranged : m.Arranged) (hp : Evaluates m ts p r)
    (hq : p.Reaches q) (hp' : Evaluates m ts' p' r') (hq' : p'.Reaches q') (he : q'.expr = q.expr)
    (hsource : ts' = ts ∨ q.expr.SlotsIn (· < m.slots.size)) :
    ∃ S : Set SlotId, (∀ t < m.slots.size, t ∈ S) ∧ q.expr.SlotsIn (· ∈ S) ∧
      ∀ t ∈ S, t < q.machine.memory.slots.size ∧ t < q'.machine.memory.slots.size ∧
        (q'.machine.memory.slot t).shape = (q.machine.memory.slot t).shape := by
  have hstart : ∃ S : Set SlotId, (∀ t < m.slots.size, t ∈ S) ∧ q.expr.SlotsIn (· ∈ S) ∧
      ∀ t ∈ S, t < p.machine.memory.slots.size ∧ t < p'.machine.memory.slots.size ∧
        (p'.machine.memory.slot t).shape = (p.machine.memory.slot t).shape := by
    rcases hsource with rfl | hslots
    · rcases hp.common hp' hm harranged with ⟨S, hold, hshape, hslots⟩
      exact ⟨S, hold, hslots q q' hq hq' he, hshape⟩
    · -- The slots of the session are as they were before both instructions.
      rcases hp.start hm with ⟨-, -, -, -, habove, -⟩
      rcases hp'.start hm with ⟨-, -, -, -, habove', -⟩
      refine ⟨{t | t < m.slots.size}, fun t ht => ht, hslots, fun t ht => ⟨?_, ?_, ?_⟩⟩
      · exact Nat.lt_of_lt_of_le ht habove.size_slots
      · exact Nat.lt_of_lt_of_le ht habove'.size_slots
      · rw [habove.slot ht, habove'.slot ht]
  rcases hstart with ⟨S, hold, hslots, hS⟩
  -- A run changes what slots hold, never their number or shapes.
  rcases hp.unchanged hm hq with ⟨hsize, hshape, -⟩
  rcases hp'.unchanged hm hq' with ⟨hsize', hshape', -⟩
  refine ⟨S, hold, hslots, fun t ht => ?_⟩
  rcases hS t ht with ⟨hlt, hlt', hsame⟩
  refine ⟨hsize.symm ▸ hlt, hsize'.symm ▸ hlt', ?_⟩
  calc (q'.machine.memory.slot t).shape
    _ = (p'.machine.memory.slot t).shape := hshape' t hlt'
    _ = (p.machine.memory.slot t).shape := hsame
    _ = (q.machine.memory.slot t).shape := (hshape t hlt).symm

/-- Take two moments of a session at which the same expression is about to be evaluated: it belongs
to one instruction, or it only uses slots of functions of the session. Let it not be marked as
dependent. If the storages have the same functions, with as many active calls, and hold the same in
all slots that are not flagged, whatever the parameters and other flagged slots hold, then the
expression comes to the same value or fault in both, in either mode, prints the same texts, and
leaves storages that hold the same again in all slots that are not flagged. -/
theorem independent_code_blind {s : Session} (hs : Reachable s) (hp : Evaluates s.memory ts p r)
    (hq : p.Reaches q) (hp' : Evaluates s.memory ts' p' r') (hq' : p'.Reaches q')
    (he : q'.expr = q.expr) (hsource : ts' = ts ∨ q.expr.SlotsIn (· < s.memory.slots.size))
    (hindependent : q.expr.isDependent = false)
    (hsame : q.machine.memory.SameFixed q'.machine.memory) (mode : Mode) :
    let first := evaluate mode q.expr { memory := q.machine.memory }
    let second := evaluate mode q'.expr { memory := q'.machine.memory }
    outcome second = outcome first ∧ (final second).printed = (final first).printed ∧
      (final first).memory.SameFixed (final second).memory := by
  intro first second
  have hm := hs.valid
  rcases hp.owned hm hq with ⟨owner, o, howned⟩
  rcases hp'.owned hm hq' with ⟨owner', o', howned'⟩
  rcases shared_slots hm hs.arranged hp hq hp' hq' he hsource with ⟨S, hold, hslots, hS⟩
  -- The two storages may have different bounds on how deep stored expressions are followed. Both
  -- are large enough.
  let depth := max (depthBound q.machine.memory) (depthBound q'.machine.memory)
  have hfirst : evaluateWithin depth mode q.expr { memory := q.machine.memory } = first :=
    evaluateWithin_eq_evaluate (s := { memory := q.machine.memory }) howned.coherent
      howned.here howned.slots (Nat.le_max_left _ _)
  have hsecond : evaluateWithin depth mode q'.expr { memory := q'.machine.memory } = second :=
    evaluateWithin_eq_evaluate (s := { memory := q'.machine.memory }) howned'.coherent
      howned'.here howned'.slots (Nat.le_max_right _ _)
  have hinStep := independent_inStep hm hs.arranged hs.honest hp hq hindependent hold hslots hS
    hsame depth mode
  rw [hfirst, ← he, hsecond] at hinStep
  have hend := hinStep.final (P := Machine.Alike S _) (fun _ _ _ _ hq => hq.2) fun _ _ he => he
  refine ⟨(hinStep.outcome_eq fun _ _ _ _ hq => hq.1).symm, hend.printed, hend.memory.functions, ?_⟩
  -- No evaluation adds slots or changes their flags.
  have hconfined : Confined owner o q.machine.memory (final first) :=
    hfirst ▸ (evaluateWithin_confined depth howned.here howned.slots).final (.refl howned.coherent)
  have hconfined' : Confined owner' o' q'.machine.memory (final second) :=
    hsecond ▸ (evaluateWithin_confined depth howned'.here howned'.slots).final
      (.refl howned'.coherent)
  intro t hlt hlt' hflag hflag'
  rw [hconfined.2.size] at hlt
  rw [hconfined'.2.size] at hlt'
  rw [Memory.dependent_of_shape (hconfined.2.shape t)] at hflag
  rw [Memory.dependent_of_shape (hconfined'.2.shape t)] at hflag'
  exact hend.memory.content t ⟨⟨hlt, hlt'⟩, hflag, hflag'⟩

def weighing : Session :=
  (submit {} "function weigh(x) => (let c = true in print(c := !c)) | x").session

def weighingCall (b : Bool) : List Token :=
  [.word "weigh", .symbol .openParen, .boolean b, .symbol .closeParen]

/-- The first operand is independent and uses slots of the session. -/
def independentLeft (m : Memory) : Expr → Bool
  | .binary _ l _ => !l.isDependent && l.parts.all fun p => p.ownSlots.all (· < m.slots.size)
  | _ => false

/-- The function is known by its name and may be called with one value of any kind, and the call has
a kind. -/
theorem weighing_facts :
    weighing.memory.lookup? "weigh" = some 0 ∧ (weighing.memory.function 0).checkArity 1 = .ok () ∧
    (weighing.memory.function 0).parameterSlots = [0] ∧
      (weighing.memory.function 0).depth < callLimit ∧
    (weighing.memory.function 0).body.any (independentLeft weighing.memory) = true ∧
    0 < weighing.memory.slots.size ∧ (weighing.memory.slot 0).kind = .dynamic ∧
    (weighing.memory.slot 0).dependent = true ∧ 2 ≤ depthBound weighing.memory ∧
    ∀ b, outcome (Typing.kindOf (.call "weigh" 0 [.literal (.boolean b)] false) weighing.memory) =
      .ok .boolean := by
  decide +kernel

/-- The body is an operator, and its first operand is independent. -/
theorem weighing_body : ∃ op l r, (weighing.memory.function 0).body = some (.binary op l r) ∧
    l.isDependent = false ∧ l.SlotsIn (· < weighing.memory.slots.size) := by
  obtain ⟨-, -, -, -, hany, -⟩ := weighing_facts
  rcases (Option.any_eq_true _ _).1 hany with ⟨body, hbody, hleft⟩
  cases body with
  | binary op l r =>
      rcases Bool.and_eq_true_iff.1 hleft with ⟨hindependent, hslots⟩
      refine ⟨op, l, r, hbody, by simpa using hindependent, fun p hp t ht => ?_⟩
      have hp := List.all_eq_true.1 hslots p hp
      exact of_decide_eq_true (List.all_eq_true.1 hp t ht)
  | _ => cases hleft

theorem weighingCall_read (b : Bool) : (match Instruction.ofTokens (weighingCall b) with
    | .expression (.call "weigh" [.literal (.boolean c)]) => c == b
    | _ => false) = true := by
  cases b <;> decide +kernel

/-- The call is read as it is written, and reading it adds nothing. -/
theorem parse_weighingCall (b : Bool) :
    parse (weighingCall b) weighing.memory = .ok (.call "weigh" 0 [.literal (.boolean b)] false)
      weighing.memory := by
  have htokens : Instruction.ofTokens (weighingCall b) =
      .expression (.call "weigh" [.literal (.boolean b)]) := by
    have hread := weighingCall_read b
    split at hread
    · next c hc => rw [hc, eq_of_beq hread]
    · cases hread
  have harguments : Resolution.resolveAllWith Resolution.fill {} [.literal (.boolean b)]
      weighing.memory = .ok [.literal (.boolean b)] weighing.memory := rfl
  have hcallee : Resolution.callee {} "weigh" [.literal (.boolean b)] weighing.memory =
      .ok (.call "weigh" 0 [.literal (.boolean b)] false) weighing.memory := by
    rw [Resolution.callee_of_name (by decide) (by decide), weighing_facts.1]
    rfl
  unfold parse parseWith
  rw [htokens]
  exact (bind_ok harguments).trans hcallee

/-- The storage in which the body of the function is evaluated when it was called with a value. -/
def weighingFrame (b : Bool) : Memory :=
  (weighing.memory.modifyFunction 0 fun f => { f with depth := f.depth + 1 }).replace 0
    (.value (.boolean b))

/-- The first operand is about to be evaluated in a call with any value. -/
theorem weighing_inside (b : Bool) {op : BinaryOperator} {l r : Expr}
    (hbody : (weighing.memory.function 0).body = some (.binary op l r)) :
    ∃ p q, Evaluates weighing.memory (weighingCall b) p .empty ∧ p.Reaches q ∧ q.expr = l ∧
      q.machine.memory = weighingFrame b := by
  have hs : Reachable weighing := .submit .start _
  obtain ⟨-, harity, hparameters, hdepth, -, -, hdynamic, -, hbound, hkinds⟩ := weighing_facts
  rcases ok_of_outcome (hkinds b) with ⟨m, hkind⟩
  have hsame := hkind
  rw [Typing.kindOf_eq hs.valid.complete.settled] at hsame
  rcases of_ofExcept_ok hsame with ⟨-, rfl⟩
  have hevaluates := Evaluates.run (parse_weighingCall b) (by simp) hkind
  -- The function is entered and its parameter is set.
  let entered : Memory := weighing.memory.modifyFunction 0 fun f => { f with depth := f.depth + 1 }
  have henter : weighing.memory.enter 0 = .ok entered := by
    simp [Memory.enter, hdepth, entered]
  have hwrite : Evaluation.write 0 (.boolean b) { memory := entered } =
      .ok () { memory := weighingFrame b } := by
    apply update_ok
    have haccepts : (entered.slot 0).kind.accepts (Value.boolean b).kind = true := by
      show (weighing.memory.slot 0).kind.accepts _ = true
      rw [hdynamic]
      rfl
    simp only [Memory.write, Value.expectKind, haccepts, if_true]
    rfl
  have hset : writeAll ((weighing.memory.function 0).parameterSlots.zip [.boolean b])
      { memory := entered } = .ok () { memory := weighingFrame b } := by
    rw [hparameters]
    exact bind_ok hwrite
  obtain ⟨n, hn⟩ := Nat.exists_eq_add_of_le' hbound
  rw [hn] at hevaluates
  have hleads : Moment.Leads
      ⟨n + 2, .run, .call "weigh" 0 [.literal (.boolean b)] false, { memory := weighing.memory }⟩
      ⟨n + 1, .run, .binary op l r, { memory := weighingFrame b }⟩ :=
      .body harity rfl hbody henter hset
  exact ⟨_, _, hevaluates, (Relation.ReflTransGen.single hleads).tail .left, rfl, rfl⟩

/-- Storages in which only flagged slots were filled since one storage hold the same elsewhere. -/
theorem sameFixed_of_unchanged {k m n : Memory} {S : SlotId → Prop} (hm : k.UnchangedOutside S m)
    (hn : k.UnchangedOutside S n) (hS : ∀ t, S t → (k.slot t).dependent = true) :
    m.SameFixed n where
  functions := hn.functions.trans hm.functions.symm
  content t _ _ hflag _ := by
    have ht : ¬ S t := by
      intro ht
      rw [Memory.dependent_of_shape (hm.shape t), hS t ht] at hflag
      cases hflag
    rw [hn.content t ht, hm.content t ht]

/-- The function was called with `true` and with `false`. Its first operand comes to the same in
both calls. -/
theorem independent_code_blind_weighing :
    Reachable weighing ∧
      ∃ p q p' q', Evaluates weighing.memory (weighingCall true) p .empty ∧ p.Reaches q ∧
      Evaluates weighing.memory (weighingCall false) p' .empty ∧ p'.Reaches q' ∧ q'.expr = q.expr ∧
      q.machine.memory.content 0 = .value (.boolean true) ∧
        q'.machine.memory.content 0 = .value (.boolean false) ∧
      outcome (evaluate .run q'.expr { memory := q'.machine.memory }) =
        outcome (evaluate .run q.expr { memory := q.machine.memory }) ∧
      (final (evaluate .run q'.expr { memory := q'.machine.memory })).printed =
        (final (evaluate .run q.expr { memory := q.machine.memory })).printed := by
  have hs : Reachable weighing := .submit .start _
  obtain ⟨op, l, r, hbody, hindependent, hslots⟩ := weighing_body
  obtain ⟨p, q, hp, hq, rfl, hmemory⟩ := weighing_inside true hbody
  obtain ⟨p', q', hp', hq', hexpr, hmemory'⟩ := weighing_inside false hbody
  obtain ⟨-, -, -, -, -, hlt, -, hflag, -⟩ := weighing_facts
  -- The calls differ in what the parameter holds.
  have hframe : ∀ b,
      (weighing.memory.modifyFunction 0 fun f => { f with depth := f.depth + 1 }).UnchangedOutside
      (· = 0) (weighingFrame b) := fun b => .replace (S := (· = 0)) rfl _
  have hsame : q.machine.memory.SameFixed q'.machine.memory := by
    rw [hmemory, hmemory']
    refine sameFixed_of_unchanged (hframe true) (hframe false) ?_
    rintro _ rfl
    exact hflag
  obtain ⟨houtcome, hprinted, -⟩ :=
    independent_code_blind hs hp hq hp' hq' hexpr (.inr hslots) hindependent hsame .run
  refine ⟨hs, p, q, p', q', hp, hq, hp', hq', hexpr, ?_, ?_, houtcome, hprinted⟩
  · rw [hmemory]
    exact Memory.content_replace_self hlt
  · rw [hmemory']
    exact Memory.content_replace_self hlt

end Session
end LineLang
