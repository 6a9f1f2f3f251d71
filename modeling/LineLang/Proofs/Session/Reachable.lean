import LineLang.Proofs.Session.Parse
import LineLang.Session

/-!
# Sessions that can be reached

What one instruction does to the storage between instructions, and from it what any number of lines
do.

- `Session.Registers`          : an instruction ends in the registration of a function
- `Session.execute_outcome`    : it does, or the storage is the same again
- `Session.Reachable`          : a session after any lines
- `Session.Reachable.keeps`    : what each instruction keeps, any lines keep
- `Session.Reachable.valid`    : its storage is valid
-/

namespace LineLang

open Effect

namespace Memory

variable {m n : Memory} {name : String}

/-- A function that was just added can be registered. -/
theorem Added.register (h : m.Added n name) :
    n.register m.functions.size =
      .ok { n with registry := n.registry ++ [(name, m.functions.size)] } := by
  have hfresh : n.lookup? name = none := by
    rw [lookup?, h.opened.registry]
    exact h.fresh
  simp only [Memory.register, h.named, hfresh]

/-- With the new name, the storage is valid again. -/
theorem Added.valid (h : m.Added n name) (hm : m.Valid) :
    Valid { n with registry := n.registry ++ [(name, m.functions.size)] } where
  complete f hf := by
    rcases h.furnished.complete f hf with ⟨b, k, hc⟩
    exact ⟨b, k, hc.extends ⟨List.prefix_rfl, List.prefix_rfl⟩ hf⟩
  owners := by
    rcases h.furnished.owners with ⟨owner, hc, howners⟩
    exact ⟨owner, { hc with }, howners⟩
  flagged := h.furnished.flagged
  registry := by
    have hold : n.registry = (List.range m.functions.size).map fun f =>
        ((n.function f).name, f) := by
      rw [h.opened.registry, hm.registry]
      apply List.map_congr_left
      intro f hf
      rw [h.opened.above.function (List.mem_range.1 hf)]
    show n.registry ++ _ = (List.range n.functions.size).map fun f => ((n.function f).name, f)
    rw [h.opened.count, List.range_succ, List.map_append, ← hold, List.map_singleton, h.named]

end Memory

namespace Session

variable {m : Memory}

/-! ## One instruction -/

/-- The instruction is the declaration of a function, which gets registered. -/
def Registers (m : Memory) (ts : List Token) (n : Memory) : Prop :=
  ∃ name id k, parse ts m = .ok (.declaration name id) k ∧ k.register id = .ok n

/-- Running an expression only touches its own slots, and never gives up. -/
theorem run_staged {owner : SlotId → FunctionId} {n : Memory} {e : Expr} (h : m.Staged owner n e) :
    m.Grown m.slots.size (run e n).memory ∧ (run e n).result ≠ .error (.failed .endless) := by
  have hkind := Typing.kindOf_settled h.working.settled e n rfl
  have hlo : ∀ t, owner t = m.functions.size → m.slots.size ≤ t := fun t => (h.working.owned t).1
  unfold run
  cases hk : Typing.kindOf e n with
  | error fault s =>
      rw [hk] at hkind
      rcases hkind with ⟨hfault, rfl⟩
      refine ⟨h.grown, fun hend => ?_⟩
      cases hend
      exact Typing.kindGiven_answer_ne_endless e hfault
  | ok k s =>
      rw [hk] at hkind
      rcases hkind with ⟨-, rfl⟩
      -- Evaluation only touches slots of the instruction, which come after all others.
      have heval := Evaluation.evaluate_confined .run h.resolved.here h.resolved.slots
        { memory := s } ⟨rfl, h.working.coherent⟩
      dsimp only
      cases hr : Evaluation.evaluate .run e { memory := s } with
      | ok v t =>
          rw [hr] at heval
          exact ⟨h.grown.trans (.of_unchangedOutside heval.2 hlo), nofun⟩
      | error fault t =>
          rw [hr] at heval
          refine ⟨h.grown.trans (.of_unchangedOutside heval.2.2 hlo), fun hend => heval.1 ?_⟩
          cases hend
          rfl

/-- An expression is carried out, and what it added is released. -/
theorem execute_staged {owner : SlotId → FunctionId} {n : Memory} {e : Expr} {ts : List Token}
    (h : m.Staged owner n e) (hp : parse ts m = .ok e n) :
    execute m ts = { run e n with memory := (run e n).memory.restore m.checkpoint } := by
  unfold execute
  rw [hp]
  cases e with
  | declaration name id => exact absurd rfl (h.resolved.every.self.plain name id)
  | _ => rfl

/-- What was added comes at the end, so that releasing it restores the storage. -/
theorem execute_expression {owner : SlotId → FunctionId} {n : Memory} {e : Expr} {ts : List Token}
    (h : m.Staged owner n e) (hp : parse ts m = .ok e n) :
    execute m ts = { run e n with memory := m } := by
  have hgrown := (run_staged h).1
  rw [execute_staged h hp, Memory.restore_eq hgrown.extends hgrown.registry]

theorem execute_rejected (hm : m.Valid) {ts : List Token} {r : Rejection} {n : Memory}
    (hp : parse ts m = .error r n) :
    execute m ts = { result := .error (.rejected r), memory := m } := by
  rcases (Resolution.parse_outcome hm ts).of_error rfl hp with ⟨-, hextends, hregistry⟩
  simp only [execute, hp, Memory.restore_eq hextends hregistry]

/-- The name is new, or the instruction would have been refused when it was read. -/
theorem execute_declaration {n : Memory} {name : String} {ts : List Token} (h : m.Added n name)
    (hp : parse ts m = .ok (.declaration name m.functions.size) n) :
    execute m ts = { result := .ok .void
                     memory :=
                       { n with registry := n.registry ++ [(name, m.functions.size)] } } := by
  simp only [execute, hp, h.register]

/-- An instruction registers a function, or the storage is the same again. -/
theorem execute_outcome (hm : m.Valid) (ts : List Token) :
    (∃ n name, m.Added n name ∧ parse ts m = .ok (.declaration name m.functions.size) n ∧
      execute m ts = { result := .ok .void
                       memory := { n with registry := n.registry ++ [(name, m.functions.size)] } })
                         ∨ (execute m ts).memory = m ∧ ¬ ∃ n, Registers m ts n := by
  cases hp : parse ts m with
  | error r n =>
      refine .inr ⟨by rw [execute_rejected hm hp], ?_⟩
      rintro ⟨n', name, id, k, hk, -⟩
      cases hp.symm.trans hk
  | ok e n =>
      rcases (Resolution.parse_outcome hm ts).of_ok rfl hp with
        ⟨owner, hstaged⟩ | ⟨name, rfl, hadded⟩
      · refine .inr ⟨by rw [execute_expression hstaged hp], ?_⟩
        rintro ⟨n', name, id, k, hk, -⟩
        cases hp.symm.trans hk
        exact hstaged.resolved.every.self.plain name id rfl
      · exact .inl ⟨n, name, hadded, rfl, execute_declaration hadded hp⟩

/-- No instruction leaves a storage that is not valid. -/
theorem execute_valid (hm : m.Valid) (ts : List Token) : (execute m ts).memory.Valid := by
  rcases execute_outcome hm ts with ⟨n, name, hadded, -, h⟩ | ⟨h, -⟩
  · rw [h]
    exact hadded.valid hm
  · rw [h]
    exact hm

/-! ## Any number of lines -/

section Keeping

/-! What each instruction keeps of the storage is kept by any number of lines. -/

variable {P : Memory → Prop} (hP : ∀ m ts, P m → P (execute m ts).memory)

include hP

/-- What every instruction keeps is kept by a line. -/
theorem executeAll_keeps (hm : P m) (total index : Nat) (groups : List (List Token)) :
    P (executeAll total index m groups).session.memory := by
  induction groups generalizing m index with
  | nil => exact hm
  | cons ts groups ih =>
      cases ts with
      | nil => exact ih hm (index + 1)
      | cons t ts => exact ih (hP m _ hm) (index + 1)

theorem submit_keeps {s : Session} (hs : P s.memory) (source : String) :
    P (s.submit source).session.memory := by
  unfold submit
  split
  · exact hs
  · exact executeAll_keeps hP hs _ _ _

end Keeping

inductive Reachable : Session → Prop
  | start : Reachable {}
  | submit {s : Session} : Reachable s → ∀ source, Reachable (s.submit source).session
  | clear {s : Session} : Reachable s → Reachable s.clear

/-- What holds of the empty storage and is kept by each instruction holds of every session. -/
theorem Reachable.keeps {P : Memory → Prop} (hempty : P {})
    (hP : ∀ m ts, P m → P (execute m ts).memory) {s : Session} (hs : Reachable s) : P s.memory := by
  induction hs with
  | start => exact hempty
  | submit _ source ih => exact submit_keeps hP ih source
  | clear _ _ => exact hempty

theorem Reachable.valid {s : Session} (hs : Reachable s) : s.memory.Valid :=
  hs.keeps Memory.valid_empty fun _ ts hm => execute_valid hm ts

/-! ## Isolation -/

/-- A declaration that is registered has added one function and nothing else. -/
theorem Registers.outcome {n : Memory} {ts : List Token} (hm : m.Valid) (h : Registers m ts n) :
    (execute m ts).memory = n ∧ ∃ name, m.Opened { n with registry := m.registry } ∧
      n.registry = m.registry ++ [(name, m.functions.size)] := by
  rcases execute_outcome hm ts with ⟨k, name, hadded, hparse, hexecute⟩ | ⟨-, hnone⟩
  · rcases h with ⟨name', id, k', hparse', hregister⟩
    cases hparse.symm.trans hparse'
    cases hadded.register.symm.trans hregister
    refine ⟨by rw [hexecute], name, ?_, congrArg (· ++ _) hadded.opened.registry⟩
    exact ⟨⟨hadded.opened.above.slots, hadded.opened.above.functions⟩, rfl, hadded.opened.count⟩
  · exact absurd ⟨n, h⟩ hnone

/-- An instruction that does not register a function leaves the storage as it was, however it ends.
One that does appends a single function and leaves everything else as it was. A line that cannot be
cut into instructions changes nothing. -/
theorem execute_isolated {s : Session} (hs : Reachable s) (ts : List Token) :
    ((¬ ∃ n, Registers s.memory ts n) → (execute s.memory ts).memory = s.memory) ∧
    (∀ n, Registers s.memory ts n → (execute s.memory ts).memory = n ∧ s.memory.Extends n ∧
      n.functions.size = s.memory.functions.size + 1 ∧
      ∃ name, n.registry = s.memory.registry ++ [(name, s.memory.functions.size)]) ∧
    ∀ source rejection, instructionsOf source = .error rejection →
      (s.submit source).session = s := by
  refine ⟨fun hnone => ?_, fun n hn => ?_, fun source rejection hsource => ?_⟩
  · rcases execute_outcome hs.valid ts with ⟨k, name, hadded, hparse, -⟩ | ⟨h, -⟩
    · exact absurd ⟨_, name, _, k, hparse, hadded.register⟩ hnone
    · exact h
  · rcases hn.outcome hs.valid with ⟨hexecute, name, hopened, hregistry⟩
    exact ⟨hexecute, ⟨hopened.above.slots, hopened.above.functions⟩, hopened.count, name, hregistry⟩
  · simp only [submit, hsource]

def falling : Session :=
  (submit {} "function fall(n) => if (n < 1) 0 else fall(n - 1)").session

def fallingCall : List Token :=
  [.keyword .letWord, .word "x", .symbol .equals, .word "2", .keyword .inWord, .word "fall",
    .symbol .openParen, .word "x", .symbol .closeParen]

def sameDeclaration : List Token :=
  [.keyword .functionWord, .word "same", .symbol .openParen, .word "x", .symbol .closeParen,
    .symbol .arrow, .word "x"]

theorem reachable_falling : Reachable falling :=
  .submit .start _

/-- The call registers nothing, the declaration does, and a lone colon is no line. -/
theorem execute_isolated_falling :
    Reachable falling ∧ (¬ ∃ n, Registers falling.memory fallingCall n) ∧
      (execute falling.memory fallingCall).memory = falling.memory ∧
      (∃ n, Registers falling.memory sameDeclaration n ∧
        (execute falling.memory sameDeclaration).memory = n ∧ falling.memory.Extends n) ∧
      instructionsOf ":" = .error (.unrecognizedToken ":") ∧
      (falling.submit ":").session = falling := by
  rcases execute_isolated reachable_falling fallingCall with ⟨hsame, hregisters, hline⟩
  obtain ⟨hbefore, hafter, hdeclared, hcolon⟩ : falling.memory.registry.length = 1 ∧
      (execute falling.memory fallingCall).memory.registry.length = 1 ∧
      (execute falling.memory sameDeclaration).memory.registry.length = 2 ∧
      instructionsOf ":" = .error (.unrecognizedToken ":") := by
    decide +kernel
  -- Registering would have made the registry longer.
  have hnone : ¬ ∃ n, Registers falling.memory fallingCall n := by
    rintro ⟨n, hn⟩
    rcases hregisters n hn with ⟨rfl, -, -, name, hregistry⟩
    rw [hregistry, List.length_append, hbefore] at hafter
    cases hafter
  rcases execute_isolated reachable_falling sameDeclaration with ⟨hsame', hregisters', -⟩
  obtain ⟨n, hn⟩ : ∃ n, Registers falling.memory sameDeclaration n := by
    by_contra hnone'
    rw [hsame' hnone', hbefore] at hdeclared
    cases hdeclared
  rcases hregisters' n hn with ⟨hn', hextends, -⟩
  exact ⟨reachable_falling, hnone, hsame hnone, ⟨n, hn, hn', hextends⟩, hcolon, hline ":" _ hcolon⟩

end Session
end LineLang
