import LineLang.Expr
import Mathlib.Data.Set.Insert

/-!
# Parts of an expression

The parts of an expression are the expression itself, its operands and the initializers inside it.
Facts about storage are facts about every part.

- `Expr.induction`        : induction on expressions with their lists of operands
- `Expr.parts`            : the expression and everything in it
- `Expr.Every`            : a property of all parts
- `Expr.ownSlots`, `Expr.ownDeclarations`, `Expr.ownCallees`  : what a part names itself
- `Expr.Scoped`           : every variable is used in the scope of its binding
-/

namespace LineLang
namespace Expr

/-! ## Induction -/

/-- Induction on expressions; operands in lists are known by membership. -/
@[elab_as_elim]
theorem induction {motive : Expr → Prop}
    (literal : ∀ value, motive (.literal value))
    (read : ∀ reference, motive (.variable reference))
    (unary : ∀ op operand, motive operand → motive (.unary op operand))
    (binary : ∀ op left right, motive left → motive right → motive (.binary op left right))
    (assign : ∀ targets value, motive value → motive (.assign targets value))
    (call : ∀ name function arguments dependent, (∀ a ∈ arguments, motive a) →
      motive (.call name function arguments dependent))
    (print : ∀ argument, motive argument → motive (.print argument))
    (declaration : ∀ name function, motive (.declaration name function))
    (letIn : ∀ declarations body, (∀ d ∈ declarations, motive d.initializer) → motive body →
      motive (.letIn declarations body))
    (conditional : ∀ condition consequent alternative, motive condition → motive consequent →
      motive alternative → motive (.conditional condition consequent alternative))
    (e : Expr) : motive e :=
  @Expr.rec motive (fun arguments => ∀ a ∈ arguments, motive a)
    (fun declarations => ∀ d ∈ declarations, motive d.initializer) (fun d => motive d.initializer)
    literal read unary binary assign call print declaration letIn conditional
    (fun _ h => absurd h List.not_mem_nil)
    (fun _ _ ha has => List.forall_mem_cons.2 ⟨ha, has⟩)
    (fun _ h => absurd h List.not_mem_nil)
    (fun _ _ hd hds => List.forall_mem_cons.2 ⟨hd, hds⟩)
    (fun _ _ _ _ _ h => h) e

/-! ## Parts -/

mutual

def parts : Expr → List Expr
  | .literal value => [.literal value]
  | .variable reference => [.variable reference]
  | .unary op operand => .unary op operand :: parts operand
  | .binary op left right => .binary op left right :: (parts left ++ parts right)
  | .assign targets value => .assign targets value :: parts value
  | .call name function arguments dependent =>
      .call name function arguments dependent :: partsOfAll arguments
  | .print argument => .print argument :: parts argument
  | .declaration name function => [.declaration name function]
  | .letIn declarations body =>
      .letIn declarations body :: (partsOfInitializers declarations ++ parts body)
  | .conditional condition consequent alternative =>
      .conditional condition consequent alternative ::
        (parts condition ++ (parts consequent ++ parts alternative))

def partsOfAll : List Expr → List Expr
  | [] => []
  | e :: es => parts e ++ partsOfAll es

def partsOfInitializers : List (Declaration Expr) → List Expr
  | [] => []
  | ⟨_, _, _, initializer, _⟩ :: declarations =>
      parts initializer ++ partsOfInitializers declarations

end

theorem mem_partsOfAll {p : Expr} {es : List Expr} :
    p ∈ partsOfAll es ↔ ∃ e ∈ es, p ∈ parts e := by
  induction es with
  | nil => simp [partsOfAll]
  | cons e es ih => simp [partsOfAll, ih]

/-- The parts of bindings are those of their initializers. -/
theorem mem_partsOfInitializers {p : Expr} {ds : List (Declaration Expr)} :
    p ∈ partsOfInitializers ds ↔ ∃ d ∈ ds, p ∈ parts d.initializer := by
  induction ds with
  | nil => simp [partsOfInitializers]
  | cons d ds ih =>
      cases d
      simp [partsOfInitializers, ih]

theorem mem_parts_self (e : Expr) : e ∈ parts e := by
  cases e <;> exact List.mem_cons_self

/-- Parts of parts are parts. -/
theorem mem_parts_trans {p q e : Expr} (hp : p ∈ parts q) (hq : q ∈ parts e) : p ∈ parts e := by
  induction e using Expr.induction with
  | literal value | read reference | declaration name function =>
      simp only [parts, List.mem_singleton] at hq
      subst hq
      exact hp
  | unary op e ih | assign targets e ih | print e ih =>
      simp only [parts, List.mem_cons] at hq ⊢
      rcases hq with rfl | hq
      · simpa [parts] using hp
      · exact .inr (ih hq)
  | binary op l r ihl ihr =>
      simp only [parts, List.mem_cons, List.mem_append] at hq ⊢
      rcases hq with rfl | hq | hq
      · simpa [parts] using hp
      · exact .inr (.inl (ihl hq))
      · exact .inr (.inr (ihr hq))
  | conditional c t e ihc iht ihe =>
      simp only [parts, List.mem_cons, List.mem_append] at hq ⊢
      rcases hq with rfl | hq | hq | hq
      · simpa [parts] using hp
      · exact .inr (.inl (ihc hq))
      · exact .inr (.inr (.inl (iht hq)))
      · exact .inr (.inr (.inr (ihe hq)))
  | call name function es dependent ih =>
      simp only [parts, List.mem_cons, mem_partsOfAll] at hq ⊢
      rcases hq with rfl | ⟨e, he, hq⟩
      · simpa [parts, mem_partsOfAll] using hp
      · exact .inr ⟨e, he, ih e he hq⟩
  | letIn ds b ihd ihb =>
      simp only [parts, List.mem_cons, List.mem_append, mem_partsOfInitializers] at hq ⊢
      rcases hq with rfl | ⟨d, hd, hq⟩ | hq
      · simpa [parts, mem_partsOfInitializers] using hp
      · exact .inr (.inl ⟨d, hd, ihd d hd hq⟩)
      · exact .inr (.inr (ihb hq))

/-! ## Properties of all parts -/

def Every (P : Expr → Prop) (e : Expr) : Prop :=
  ∀ p ∈ e.parts, P p

section Every

variable {P Q : Expr → Prop}

theorem Every.self {e : Expr} (h : e.Every P) : P e :=
  h e (mem_parts_self e)

theorem Every.part {p e : Expr} (h : e.Every P) (hp : p ∈ e.parts) : p.Every P :=
  fun _ hq => h _ (mem_parts_trans hq hp)

theorem Every.imp {e : Expr} (h : e.Every P) (hPQ : ∀ p, P p → Q p) : e.Every Q :=
  fun p hp => hPQ p (h p hp)

theorem Every.and {e : Expr} (hP : e.Every P) (hQ : e.Every Q) : e.Every fun p => P p ∧ Q p :=
  fun p hp => ⟨hP p hp, hQ p hp⟩

@[simp] theorem every_literal {v : Value} : Every P (.literal v) ↔ P (.literal v) :=
  List.forall_mem_singleton

@[simp] theorem every_variable {r : Reference} : Every P (.variable r) ↔ P (.variable r) :=
  List.forall_mem_singleton

@[simp] theorem every_unary {op : UnaryOperator} {e : Expr} :
    Every P (.unary op e) ↔ P (.unary op e) ∧ e.Every P :=
  List.forall_mem_cons

@[simp] theorem every_binary {op : BinaryOperator} {l r : Expr} :
    Every P (.binary op l r) ↔ P (.binary op l r) ∧ l.Every P ∧ r.Every P :=
  List.forall_mem_cons.trans (and_congr_right fun _ => List.forall_mem_append)

@[simp] theorem every_assign {ts : List Reference} {e : Expr} :
    Every P (.assign ts e) ↔ P (.assign ts e) ∧ e.Every P :=
  List.forall_mem_cons

/-- What holds of everything in a call holds of the call and of everything in its arguments. -/
@[simp] theorem every_call {name : String} {f : FunctionId} {es : List Expr} {b : Bool} :
    Every P (.call name f es b) ↔ P (.call name f es b) ∧ ∀ e ∈ es, e.Every P := by
  refine List.forall_mem_cons.trans (and_congr_right fun _ => ?_)
  constructor
  · intro h e he p hp
    exact h p (mem_partsOfAll.2 ⟨e, he, hp⟩)
  · intro h p hp
    rcases mem_partsOfAll.1 hp with ⟨e, he, hp⟩
    exact h e he p hp

theorem every_call_literals {name : String} {f : FunctionId} {values : List Value} {b : Bool}
    (hliteral : ∀ v, P (.literal v)) (hcall : P (.call name f (values.map .literal) b)) :
    Every P (.call name f (values.map .literal) b) := by
  refine every_call.2 ⟨hcall, fun e he => ?_⟩
  rcases List.mem_map.1 he with ⟨v, -, rfl⟩
  exact every_literal.2 (hliteral v)

@[simp] theorem every_print {e : Expr} : Every P (.print e) ↔ P (.print e) ∧ e.Every P :=
  List.forall_mem_cons

@[simp] theorem every_declaration {name : String} {f : FunctionId} :
    Every P (.declaration name f) ↔ P (.declaration name f) :=
  List.forall_mem_singleton

/-- The same for a `let`, its initializers and its body. -/
@[simp] theorem every_letIn {ds : List (Declaration Expr)} {b : Expr} :
    Every P (.letIn ds b) ↔
      P (.letIn ds b) ∧ (∀ d ∈ ds, d.initializer.Every P) ∧ b.Every P := by
  refine List.forall_mem_cons.trans (and_congr_right fun _ => ?_)
  refine List.forall_mem_append.trans (and_congr_left fun _ => ?_)
  constructor
  · intro h d hd p hp
    exact h p (mem_partsOfInitializers.2 ⟨d, hd, hp⟩)
  · intro h p hp
    rcases mem_partsOfInitializers.1 hp with ⟨d, hd, hp⟩
    exact h d hd p hp

@[simp] theorem every_conditional {c t e : Expr} :
    Every P (.conditional c t e) ↔
      P (.conditional c t e) ∧ c.Every P ∧ t.Every P ∧ e.Every P := by
  refine List.forall_mem_cons.trans (and_congr_right fun _ => ?_)
  exact List.forall_mem_append.trans (and_congr_right fun _ => List.forall_mem_append)

end Every

/-! ## What a part names itself -/

/-- The slots that a part reads, assigns or binds itself. -/
def ownSlots : Expr → List SlotId
  | .variable reference => [reference.slot]
  | .assign targets _ => targets.map (·.slot)
  | .letIn declarations _ => declarations.map (·.slot)
  | _ => []

def ownDeclarations : Expr → List (Declaration Expr)
  | .letIn declarations _ => declarations
  | _ => []

def ownCallees : Expr → List FunctionId
  | .call _ function _ _ => [function]
  | _ => []

theorem slot_mem_ownSlots {p : Expr} {d : Declaration Expr} (h : d ∈ p.ownDeclarations) :
    d.slot ∈ p.ownSlots := by
  cases p with
  | letIn ds b => exact List.mem_map_of_mem h
  | _ => cases h

/-- An initializer is among the parts of its `let`. -/
theorem initializer_mem_parts {p : Expr} {d : Declaration Expr} (h : d ∈ p.ownDeclarations) :
    d.initializer ∈ p.parts := by
  cases p with
  | letIn ds b =>
      have hd : d.initializer ∈ partsOfInitializers ds :=
        mem_partsOfInitializers.2 ⟨d, h, mem_parts_self _⟩
      simp [parts, hd]
  | _ => cases h

def SlotsIn (S : SlotId → Prop) (e : Expr) : Prop :=
  e.Every fun p => ∀ t ∈ p.ownSlots, S t

def Binds (D : Declaration Expr → Prop) (e : Expr) : Prop :=
  e.Every fun p => ∀ d ∈ p.ownDeclarations, D d

def Calls (F : FunctionId → Prop) (e : Expr) : Prop :=
  e.Every fun p => ∀ f ∈ p.ownCallees, F f

/-! ## Scopes -/

mutual

/-- Every variable that is read or assigned is in `Γ` or bound around it, after its binding. -/
def Scoped (Γ : Set SlotId) : Expr → Prop
  | .literal _ => True
  | .variable reference => reference.slot ∈ Γ
  | .unary _ operand => Scoped Γ operand
  | .binary _ left right => Scoped Γ left ∧ Scoped Γ right
  | .assign targets value => (∀ t ∈ targets, t.slot ∈ Γ) ∧ Scoped Γ value
  | .call _ _ arguments _ => ScopedAll Γ arguments
  | .print argument => Scoped Γ argument
  | .declaration _ _ => True
  | .letIn declarations body =>
      ScopedBindings Γ declarations ∧ Scoped (Γ ∪ {t | ∃ d ∈ declarations, d.slot = t}) body
  | .conditional condition consequent alternative =>
      Scoped Γ condition ∧ Scoped Γ consequent ∧ Scoped Γ alternative

def ScopedAll (Γ : Set SlotId) : List Expr → Prop
  | [] => True
  | e :: es => Scoped Γ e ∧ ScopedAll Γ es

/-- Each initializer is in the scope of the bindings before it. -/
def ScopedBindings (Γ : Set SlotId) : List (Declaration Expr) → Prop
  | [] => True
  | ⟨_, slot, _, initializer, _⟩ :: declarations =>
      Scoped Γ initializer ∧ ScopedBindings (insert slot Γ) declarations

end

theorem scopedAll_iff {Γ : Set SlotId} {es : List Expr} :
    ScopedAll Γ es ↔ ∀ e ∈ es, e.Scoped Γ := by
  induction es with
  | nil => simp [ScopedAll]
  | cons e es ih => simp [ScopedAll, ih]

/-- The bindings before a binding are in force in its initializer. -/
theorem scopedBindings_append {Γ : Set SlotId} {ds ds' : List (Declaration Expr)} :
    ScopedBindings Γ (ds ++ ds') ↔
      ScopedBindings Γ ds ∧ ScopedBindings (Γ ∪ {t | ∃ d ∈ ds, d.slot = t}) ds' := by
  induction ds generalizing Γ with
  | nil => simp [ScopedBindings]
  | cons d ds ih =>
      have hslots : insert d.slot Γ ∪ {t | ∃ d' ∈ ds, d'.slot = t} =
          Γ ∪ {t | ∃ d' ∈ d :: ds, d'.slot = t} := by
        ext t
        simp [or_assoc, or_left_comm, eq_comm]
      simp only [List.cons_append, ScopedBindings, ih, hslots, and_assoc]

/-- The expression stays in scope if the variables that it uses stay in force. -/
theorem Scoped.restrict {Γ Δ T : Set SlotId} {e : Expr} (h : e.Scoped Γ) (hT : e.SlotsIn (· ∈ T))
    (hΓ : ∀ t ∈ Γ, t ∈ T → t ∈ Δ) : e.Scoped Δ := by
  induction e using Expr.induction generalizing Γ Δ with
  | literal v | declaration name f => trivial
  | read r => exact hΓ r.slot h (Every.self hT r.slot (List.mem_singleton.2 rfl))
  | unary op e ih => exact ih h (every_unary.1 hT).2 hΓ
  | print e ih => exact ih h (every_print.1 hT).2 hΓ
  | binary op l r ihl ihr =>
      rcases every_binary.1 hT with ⟨-, hl, hr⟩
      exact ⟨ihl h.1 hl hΓ, ihr h.2 hr hΓ⟩
  | assign ts e ih =>
      rcases every_assign.1 hT with ⟨hts, he⟩
      exact ⟨fun t ht => hΓ t.slot (h.1 t ht) (hts t.slot (List.mem_map_of_mem ht)), ih h.2 he hΓ⟩
  | call name f as dependent ih =>
      have has := (every_call.1 hT).2
      exact scopedAll_iff.2 fun a ha => ih a ha (scopedAll_iff.1 h a ha) (has a ha) hΓ
  | conditional c t e ihc iht ihe =>
      rcases every_conditional.1 hT with ⟨-, hc, ht, he⟩
      exact ⟨ihc h.1 hc hΓ, iht h.2.1 ht hΓ, ihe h.2.2 he hΓ⟩
  | letIn ds b ihd ihb =>
      rcases every_letIn.1 hT with ⟨-, hinits, hb⟩
      refine ⟨?_, ihb h.2 hb fun t ht hmem => ht.imp_left fun ht => hΓ t ht hmem⟩
      have hds := h.1
      clear h hT ihb hb
      -- Each binding comes into force on both sides.
      induction ds generalizing Γ Δ with
      | nil => trivial
      | cons d ds ih =>
          rw [List.forall_mem_cons] at ihd hinits
          refine ⟨ihd.1 hds.1 hinits.1 hΓ, ih ihd.2 (fun t ht hmem => ?_) hinits.2 hds.2⟩
          exact ht.imp_right fun ht => hΓ t ht hmem

/-- More variables in force do no harm. -/
theorem Scoped.mono {Γ Δ : Set SlotId} {e : Expr} (h : e.Scoped Γ) (hΓ : Γ ⊆ Δ) : e.Scoped Δ :=
  h.restrict (T := Set.univ) (fun _ _ _ _ => trivial) fun _ ht _ => hΓ ht

end Expr
end LineLang
