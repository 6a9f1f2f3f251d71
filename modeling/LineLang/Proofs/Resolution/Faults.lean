import LineLang.Proofs.Effect
import LineLang.Proofs.Phrase
import LineLang.Resolution

/-!
# Faults found by resolution

Besides the faults that a phrase keeps, the resolution of its names fails with plain faults, such as
a name that is not in force, and with faults of kinds and values. A sort of faults that has these
therefore has every fault of an instruction, once it has those that the instruction keeps.

- `Resolution.Admits`        : a sort of faults that has all that resolution itself finds
- `Resolution.FailsOnly`     : an action fails with faults of a sort only
- `Resolution.failsOnly_resolveWith`        : the resolution of a phrase
- `Resolution.failsOnly_ofInstructionWith`  : the resolution of an instruction
-/

namespace LineLang
namespace Resolution

open Effect

/-- The sort has every fault that resolution itself finds. -/
structure Admits (R : Rejection → Prop) : Prop where
  plain : ∀ r : Rejection, r.Plain → R r
  static : ∀ fault, R (.static fault)

def FailsOnly {α : Type} (R : Rejection → Prop) (action : Resolution α) : Prop :=
  Keeps R (fun _ => True) action

variable {R : Rejection → Prop} {α β : Type}

theorem FailsOnly.bind {x : Resolution α} {f : α → Resolution β} (hx : FailsOnly R x)
    (hf : ∀ a, FailsOnly R (f a)) : FailsOnly R (x >>= f) :=
  Keeps.bind hx hf

theorem failsOnly_pure (a : α) : FailsOnly R (pure a) :=
  Keeps.pure

theorem failsOnly_throw {r : Rejection} (h : R r) : FailsOnly R (throw r : Resolution α) :=
  Keeps.throw h

theorem failsOnly_get : FailsOnly R get :=
  fun _ _ => trivial

theorem failsOnly_modify (f : Memory → Memory) : FailsOnly R (modify f) :=
  fun _ _ => trivial

/-- Every failure is turned into one of the sort. -/
theorem failsOnly_mapError {f : Fault → Rejection} (hf : ∀ fault, R (f fault))
    (x : EStateM Fault Memory α) : FailsOnly R (Effect.mapError f x) := by
  apply Triple.mapError
  intro m _
  cases x m with
  | ok a n => trivial
  | error fault n => exact ⟨hf fault, trivial⟩

/-! ## Names -/

section

variable (hplain : ∀ r : Rejection, r.Plain → R r)
include hplain

theorem failsOnly_reference (scope : Scope) (name : String) :
    FailsOnly R (reference scope name) := by
  unfold reference
  split
  · exact failsOnly_get.bind fun _ => failsOnly_pure _
  · exact failsOnly_throw (hplain _ rfl)

/-- Names are not found or cannot be assigned to. -/
theorem failsOnly_targets {scope : Scope} {names : List Target}
    (h : ∀ r, .malformed r ∈ names → R r) : FailsOnly R (targets scope names) := by
  induction names with
  | nil => exact failsOnly_pure _
  | cons t ts ih =>
      cases t with
      | malformed r => exact failsOnly_throw (h r List.mem_cons_self)
      | «variable» name =>
          refine (failsOnly_reference hplain scope name).bind fun _ => ?_
          exact (ih fun r hr => h r (List.mem_cons_of_mem _ hr)).bind fun _ => failsOnly_pure _

/-- Of the faults of kinds and values, a call by name only has a wrong number of arguments. -/
theorem failsOnly_callee
    (hcount : ∀ function expected found, R (.static (.argumentCount function expected found)))
    (scope : Scope) (name : String) (es : List Expr) : FailsOnly R (callee scope name es) := by
  have hchecked : FailsOnly R (Effect.ofExcept (checkIdentifier name)) := by
    apply Keeps.ofExcept
    intro r hr
    unfold checkIdentifier at hr
    split at hr <;> cases hr
    exact hplain _ rfl
  unfold callee
  split
  · split
    · exact failsOnly_pure _
    · exact failsOnly_throw (hcount _ _ _)
  · refine hchecked.bind fun _ => failsOnly_get.bind fun _ => ?_
    split
    · exact failsOnly_pure _
    · split
      · exact failsOnly_pure _
      · exact failsOnly_throw (hplain _ rfl)
    · exact failsOnly_throw (hplain _ rfl)

end

/-! ## Phrases -/

variable {fill : Declaration Expr → Resolution Unit} (hR : Admits R)
variable (hfill : ∀ d, FailsOnly R (fill d))
include hR

theorem failsOnly_static (x : EStateM Fault Memory α) : FailsOnly R (static x) :=
  failsOnly_mapError hR.static x

theorem failsOnly_fill (d : Declaration Expr) : FailsOnly R (Resolution.fill d) := by
  unfold Resolution.fill
  split
  · exact failsOnly_modify _
  · exact (failsOnly_static hR _).bind fun _ => failsOnly_static hR _

include hfill

theorem failsOnly_declareWith (declared : Option Kind) (name : String) (e : Expr) :
    FailsOnly R (declareWith fill declared name e) := by
  refine (failsOnly_static hR _).bind fun _ => (failsOnly_static hR _).bind fun _ => ?_
  exact failsOnly_get.bind fun _ => (failsOnly_modify _).bind fun _ => (hfill _).bind fun _ =>
    failsOnly_pure _

omit hR hfill in
theorem failsOnly_resolveAllWith {scope : Scope} {ps : List Phrase}
    (h : ∀ p ∈ ps, FailsOnly R (resolveWith fill scope p)) :
    FailsOnly R (resolveAllWith fill scope ps) := by
  induction ps with
  | nil => exact failsOnly_pure _
  | cons p ps ih =>
      obtain ⟨hp, hps⟩ := List.forall_mem_cons.1 h
      exact hp.bind fun _ => (ih hps).bind fun _ => failsOnly_pure _

/-- Each binding fails in its initializer, in its check or when its slot is filled. -/
theorem failsOnly_resolveClausesWith {clauses : List (Clause Phrase)}
    (hmalformed : ∀ r, .malformed r ∈ clauses → R r)
    (h : ∀ declared name p, .binding declared name p ∈ clauses →
      ∀ scope, FailsOnly R (resolveWith fill scope p)) (scope : Scope) :
    FailsOnly R (resolveClausesWith fill scope clauses) := by
  induction clauses generalizing scope with
  | nil => exact failsOnly_pure _
  | cons c cs ih =>
      have hcs := ih (fun r hr => hmalformed r (List.mem_cons_of_mem _ hr))
        fun declared name p hp => h declared name p (List.mem_cons_of_mem _ hp)
      cases c with
      | malformed r => exact failsOnly_throw (hmalformed r List.mem_cons_self)
      | binding declared name p =>
          refine (h declared name p List.mem_cons_self scope).bind fun e => ?_
          refine (failsOnly_declareWith hR hfill declared name e).bind fun d => ?_
          exact (hcs _).bind fun _ => failsOnly_pure _

/-- If a sort of faults has those that a phrase keeps, then it has those of its resolution. -/
theorem failsOnly_resolveWith {p : Phrase} (hp : p.RejectsOnly R) (scope : Scope) :
    FailsOnly R (resolveWith fill scope p) := by
  induction hp generalizing scope with
  | malformed hr => exact failsOnly_throw hr
  | literal value => exact failsOnly_pure _
  | name word => exact (failsOnly_reference hR.plain scope word).bind fun _ => failsOnly_pure _
  | prefixed _ ih => exact (ih scope).bind fun _ => failsOnly_pure _
  | infixed _ _ ihl ihr =>
      exact (ihl scope).bind fun _ => (ihr scope).bind fun _ => failsOnly_pure _
  | assignment htargets _ ih =>
      refine (failsOnly_targets hR.plain htargets).bind fun _ => ?_
      exact (ih scope).bind fun _ => failsOnly_pure _
  | call _ ih =>
      refine (failsOnly_resolveAllWith fun p hp => ih p hp scope).bind fun es => ?_
      exact failsOnly_callee hR.plain (fun _ _ _ => hR.static _) scope _ es
  | conditional _ _ _ ihc iht ihe =>
      refine (ihc scope).bind fun _ => (iht scope).bind fun _ => ?_
      exact (ihe scope).bind fun _ => failsOnly_pure _
  | letIn hmalformed _ _ ihi ihb =>
      refine (failsOnly_resolveClausesWith hR hfill hmalformed ihi scope).bind fun r => ?_
      exact (ihb r.2).bind fun _ => failsOnly_pure _

/-! ## Instructions -/

omit hfill in
/-- A parameter may have a name that an earlier one has. -/
theorem failsOnly_declare (name : String) (parameters : List String) :
    FailsOnly R (Memory.declare name parameters) := by
  have hallocate : ∀ earlier, FailsOnly R (Memory.allocateParameters name earlier parameters) := by
    induction parameters with
    | nil => exact fun _ => failsOnly_pure _
    | cons x xs ih =>
        intro earlier
        unfold Memory.allocateParameters
        split
        · exact failsOnly_throw (hR.plain _ rfl)
        · exact (failsOnly_modify _).bind fun _ => ih _
  refine failsOnly_get.bind fun _ => (hallocate []).bind fun _ => failsOnly_get.bind fun _ => ?_
  exact fun _ _ => trivial

/-- A declaration fails in its parameters, in its body or when its kind is computed. -/
theorem failsOnly_declareFunctionWith (name : String) (parameters : List String) {body : Phrase}
    (hbody : body.RejectsOnly R) : FailsOnly R (declareFunctionWith fill name parameters body) := by
  have hdraft : FailsOnly R (draftWith fill name parameters body) := by
    refine (failsOnly_declare hR name parameters).bind fun id => failsOnly_get.bind fun m => ?_
    exact (failsOnly_resolveWith hR hfill hbody _).bind fun _ => failsOnly_pure _
  refine hdraft.bind fun r => (failsOnly_modify _).bind fun _ => ?_
  refine (failsOnly_mapError (fun fault => ?_) _).bind fun _ => failsOnly_pure _
  -- A function that can only overflow is refused with a fault of its own.
  unfold declarationRejection
  split
  · exact hR.plain _ rfl
  · exact hR.static _

/-- If a sort of faults has those that an instruction keeps, then it has those of its resolution. -/
theorem failsOnly_ofInstructionWith {i : Instruction} (hi : i.RejectsOnly R) :
    FailsOnly R (ofInstructionWith fill i) := by
  cases i with
  | rejected r => exact failsOnly_throw hi
  | expression phrase => exact failsOnly_resolveWith hR hfill hi {}
  | declaration name definition =>
      refine failsOnly_get.bind fun m => ?_
      split
      · exact failsOnly_throw (hR.static _)
      · cases definition with
        | error r => exact fun _ _ => ⟨hi, trivial⟩
        | ok definition =>
            obtain ⟨parameters, body⟩ := definition
            exact failsOnly_declareFunctionWith hR hfill name parameters hi

end Resolution

end LineLang
