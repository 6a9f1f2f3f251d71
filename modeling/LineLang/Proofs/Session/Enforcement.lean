import LineLang.Proofs.Session.Moments

/-!
# Kinds of variables

A variable that holds a value holds one of the kind of its slot, however it got there: values are
checked when they are written. An initializer that was left in a slot is not checked, neither when
it is left there nor when it is evaluated. What is read from there is still of the kind of the slot
if the kinds written with bindings are known of their initializers.

- `Session.Evaluates.kind_eq`          : slots keep their kinds
- `Session.declared_kinds_enforced`    : variables have values of the kinds of their slots
- `Session.number_reads_text`          : without the condition they need not have
-/

namespace LineLang

open Effect Activation

namespace Session

variable {m : Memory} {ts : List Token} {p q : Moment} {r : Record}

/-- The slots keep their kinds at every moment. -/
theorem Evaluates.kind_eq (h : Evaluates m ts p r) (hm : m.Valid) (hq : p.Reaches q) {t : SlotId}
    (ht : t < p.machine.memory.slots.size) :
    (q.machine.memory.slot t).kind = (p.machine.memory.slot t).kind := by
  rcases h.tracked hm hq with ⟨owner, o, live, Γ, a, hholds⟩
  exact hholds.agrees.kind ht

/-! ## Variables read in calls -/

/-- What a call comes to when the body of the function ends in reading a variable, and the kind of
that variable. -/
def lastRead? (m : Memory) (ts : List Token) : Option (Value × Kind) :=
  match parse ts m with
  | .ok (.call name f es dependent) n =>
      match Typing.kindOf (.call name f es dependent) n with
      | .ok _ n' =>
          match Evaluation.evaluate .run (.call name f es dependent) { memory := n' },
              (n'.function f).body with
          | .ok v _, some (.letIn _ (.variable ref)) =>
              if ref.slot < n'.slots.size then some (v, (n'.slot ref.slot).kind) else none
          | _, _ => none
      | .error _ _ => none
  | _ => none

/-- If the body of a called function ends in reading a variable, this reading is a moment of the
instruction, and the call has its value. -/
theorem Evaluates.inside_call {n n' : Memory} {name : String} {f : FunctionId} {es : List Expr}
    {dependent : Bool} {k : Kind} {v : Value} {t : Machine} {ds : List (Declaration Expr)}
    {ref : Reference} (hm : m.Valid) (hp : parse ts m = .ok (.call name f es dependent) n)
    (hk : Typing.kindOf (.call name f es dependent) n = .ok k n')
    (hv : Evaluation.evaluate .run (.call name f es dependent) { memory := n' } = .ok v t)
    (hb : (n'.function f).body = some (.letIn ds (.variable ref)))
    (hlt : ref.slot < n'.slots.size) :
    ∃ p r q u, Evaluates m ts p r ∧ p.Reaches q ∧ q.expr = .variable ref ∧ q.outcome = .ok v u ∧
      (q.machine.memory.slot ref.slot).kind = (n'.slot ref.slot).kind := by
  have hevaluates := Evaluates.run hp nofun hk
  have houtcome : Evaluation.evaluateWithin (Evaluation.depthBound n') .run
      (.call name f es dependent) { memory := n' } = .ok v t := hv
  -- A value was found, so the bound was never reached.
  generalize Evaluation.depthBound n' = depth at hevaluates houtcome
  cases depth with
  | zero => cases houtcome
  | succ depth =>
      rcases Moment.body_of_ok houtcome with ⟨b, u, w, hb', hbody, hu⟩
      cases hb'.symm.trans hb
      cases depth with
      | zero => cases hu
      | succ depth =>
          rcases Moment.inside_of_ok hu with ⟨u', hinside, hu'⟩
          have hreaches := (Relation.ReflTransGen.single hbody).tail hinside
          exact ⟨_, _, _, _, hevaluates, hreaches, rfl, hu', hevaluates.kind_eq hm hreaches hlt⟩

/-- At some moment of the call the variable is read, and then it has this value. -/
theorem Evaluates.of_lastRead? {v : Value} {k : Kind} (hm : m.Valid)
    (h : lastRead? m ts = some (v, k)) :
    ∃ p r q ref t, Evaluates m ts p r ∧ p.Reaches q ∧ q.expr = .variable ref ∧ q.outcome = .ok v t ∧
      (q.machine.memory.slot ref.slot).kind = k := by
  unfold lastRead? at h
  split at h
  · next name f es dependent n hp =>
      split at h
      · next kind n' hk =>
          split at h
          · next w t ds ref hv hb =>
              split at h <;> cases h
              next hlt =>
                rcases inside_call hm hp hk hv hb hlt with ⟨p, r, q, u, he, hq, hexpr, hu, hkind⟩
                exact ⟨p, r, q, ref, u, he, hq, hexpr, hu, hkind⟩
          · cases h
      · cases h
  · cases h

/-! ## Enforcement -/

/-- In every session and at every moment of an instruction, a variable that has a value has one of
the kind of its slot, provided that the slot holds the value itself, or that every written kind is
known of what is left in the slot. -/
theorem declared_kinds_enforced {s : Session} (hs : Reachable s) (hp : Evaluates s.memory ts p r)
    (hq : p.Reaches q) {ref : Reference} (hexpr : q.expr = .variable ref) {v : Value} {t : Machine}
    (hv : q.outcome = .ok v t)
    (hor : (∃ w, q.machine.memory.content ref.slot = .value w) ∨ s.memory.WrittenKindsInferred) :
    (q.machine.memory.slot ref.slot).kind.accepts v.kind = true := by
  rcases hp.holds hs.valid with ⟨owner, Γ, hholds, hprepared, hreliable⟩
  rcases Tracked.reaches ⟨_, _, _, _, hholds⟩ hprepared hq with ⟨o, live, Δ, a, hmoment⟩
  rcases q with ⟨n, mode, e, u⟩
  cases hexpr
  exact Value.refines_iff.1 (hmoment.read_refines hprepared hv (hor.imp id hreliable))

def flipping : Session :=
  (submit {} "function flip(b) => let boolean flipped = !b in flipped").session

def flippingCall : List Token :=
  [.word "flip", .symbol .openParen, .boolean true, .symbol .closeParen]

/-- The initializer is left in the slot, and what is read from there is of the written kind. -/
theorem declared_kinds_enforced_flipping :
    Reachable flipping ∧ flipping.memory.WrittenKindsInferred ∧
      ∃ p r q ref v t, Evaluates flipping.memory flippingCall p r ∧ p.Reaches q ∧
        q.expr = .variable ref ∧
        q.outcome = .ok v t ∧ (q.machine.memory.slot ref.slot).kind = .boolean ∧
        (q.machine.memory.slot ref.slot).kind.accepts v.kind = true := by
  obtain ⟨hw, hread⟩ : flipping.memory.WrittenKindsInferred ∧
      lastRead? flipping.memory flippingCall = some (.boolean false, .boolean) := by
    decide +kernel
  have hs : Reachable flipping := .submit .start _
  rcases Evaluates.of_lastRead? hs.valid hread with ⟨p, r, q, ref, t, hp, hq, hexpr, hv, hkind⟩
  exact ⟨hs, hw, p, r, q, ref, _, t, hp, hq, hexpr, hv, hkind,
    declared_kinds_enforced hs hp hq hexpr hv (.inr hw)⟩

def loose : Session :=
  (submit {} "function f(p) => let number x = p in x").session

def looseCall : List Token :=
  [.word "f", .symbol .openParen, .text "a", .symbol .closeParen]

/-- A text is read from a variable declared to be a number. -/
theorem number_reads_text :
    Reachable loose ∧ ¬ loose.memory.WrittenKindsInferred ∧
      ∃ p r q ref t, Evaluates loose.memory looseCall p r ∧ p.Reaches q ∧ q.expr = .variable ref ∧
        q.outcome = .ok (.text "a") t ∧ (q.machine.memory.slot ref.slot).kind = .number ∧
        Kind.accepts .number (Value.text "a").kind = false := by
  obtain ⟨hw, hread⟩ : ¬ loose.memory.WrittenKindsInferred ∧
      lastRead? loose.memory looseCall = some (.text "a", .number) := by
    decide +kernel
  have hs : Reachable loose := .submit .start _
  rcases Evaluates.of_lastRead? hs.valid hread with ⟨p, r, q, ref, t, hp, hq, hexpr, hv, hkind⟩
  exact ⟨hs, hw, p, r, q, ref, t, hp, hq, hexpr, hv, hkind, rfl⟩

end Session
end LineLang
