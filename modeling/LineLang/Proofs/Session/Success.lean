import LineLang.Proofs.Name
import LineLang.Proofs.Resolution.Linked
import LineLang.Proofs.Session.Reachable
import LineLang.Proofs.Window.Nesting

/-!
# Instructions that were read

What is known of an instruction, given that reading it succeeded: where its expression or the body
of the declared function comes from.

- `Resolution.Defines`       : a function has been declared
- `Resolution.parse_ok`      : an expression was read, or a function was declared
- `Instruction.ofTokens_expression`, `Instruction.ofTokens_declaration`,
  `Instruction.definition_ok`  : its tokens
- `Session.Reachable.named`  : registered functions have names that may be declared
-/

namespace LineLang

open Effect

namespace Resolution

variable {m n : Memory} {e : Expr}

/-- Parameters that have been added have different names. -/
theorem allocateParameters_nodup {function : String} {seen ps : List String}
    (h : Memory.allocateParameters function seen ps m = .ok () n) :
    (∀ p ∈ ps, p ∉ seen) ∧ ps.Nodup := by
  induction ps generalizing m seen with
  | nil => exact ⟨nofun, List.nodup_nil⟩
  | cons p ps ih =>
      unfold Memory.allocateParameters at h
      split at h
      · cases h
      · next hp =>
          rcases of_bind_ok h with ⟨_, k, -, hrest⟩
          rcases ih hrest with ⟨hseen, hnodup⟩
          refine ⟨List.forall_mem_cons.2
            ⟨hp, fun q hq hmem => hseen q hq (List.mem_cons_of_mem p hmem)⟩, ?_⟩
          exact List.nodup_cons.2 ⟨fun hmem => hseen p hmem List.mem_cons_self, hnodup⟩

/-- The parameters of a function have different names. -/
theorem declare_nodup {name : String} {parameters : List String} {id : FunctionId}
    (h : Memory.declare name parameters m = .ok id n) : parameters.Nodup := by
  rcases of_bind_ok h with ⟨_, k, -, hrest⟩
  rcases of_bind_ok hrest with ⟨_, l, hparameters, -⟩
  exact (allocateParameters_nodup hparameters).2

/-- A function has been declared: its parameters have the first slots, its body was read where the
parameters are in force and the function itself can be called, and then it was attached. -/
structure Defines (m : Memory) (ts : List Token) (name : String) (parameters : List String)
    (body : Phrase) (n : Memory) (b : Expr) : Prop where
  tokens : Instruction.ofTokens ts = .declaration name (.ok (parameters, body))
  distinct : parameters.Nodup
  linked : Linked (m.registry ++ [(name, m.functions.size)])
    (parameters.zip (List.range' m.slots.size parameters.length))
    (m.slots.size + parameters.length) body b n.slots.size
  resolved : ∃ (owner : SlotId → FunctionId) (l : Memory), n.slots = l.slots ∧
    l.Resolved owner m.functions.size {t | t ∈ List.range' m.slots.size parameters.length} b
  function : ∃ kind, n.function m.functions.size =
    { name, parameters, frameStart := m.slots.size, frameEnd := n.slots.size, body :=
      some b, returnKind := kind }

/-- A declaration that succeeded has linked the body to its parameters and computed its kind. -/
theorem declareFunctionWith_defines {ts : List Token} {name : String} {parameters : List String}
    {body : Phrase} (hm : m.Valid)
    (hts : Instruction.ofTokens ts = .declaration name (.ok (parameters, body)))
    (h : declareFunctionWith fill name parameters body m = .ok e n) :
    e = .declaration name m.functions.size ∧ ∃ b, Defines m ts name parameters body n b := by
  have hbody := Instruction.rejectsOnly_ofTokens ts
  rw [hts] at hbody
  rcases hm.working hm.registered with ⟨owner, hw, -⟩
  rcases of_bind_ok h with ⟨⟨id, b⟩, l, hdraft, hrest⟩
  rcases (draftWith_drafted hw name parameters hbody).of_ok rfl hdraft with ⟨rfl, hdrafted⟩
  -- The function is added first, and then its body is read.
  rcases of_bind_ok hdraft with ⟨id, k, hid, hread⟩
  rcases (declare_opened hw name parameters).of_ok rfl hid with
    ⟨rfl, hopened, hk, hsize, -, hfunction⟩
  rcases of_bind_ok hread with ⟨_, _, ⟨⟩, hread⟩
  rcases of_bind_ok hread with ⟨b', l', hb, hend⟩
  cases hend
  have hslots : (k.function m.functions.size).parameterSlots =
      List.range' m.slots.size parameters.length := by
    rw [hfunction]
    rfl
  rw [hslots] at hb
  have hlinked := resolveWith_linked hbody hk (within_parameters hopened hk hsize) hb
  rw [Scope.functions, hopened.registry, hsize] at hlinked
  -- What remains only changes the function itself.
  rcases of_bind_ok hrest with ⟨_, _, ⟨⟩, hrest⟩
  rcases of_bind_ok hrest with ⟨a, l', hkind, hend⟩
  cases hend
  rcases (Typing.declarationKind_nested hdrafted.declaring).of_ok rfl (of_mapError_ok hkind) with
    ⟨-, rfl⟩
  refine ⟨rfl, b, hts, declare_nodup hid, hlinked, ⟨owner, l, rfl, hdrafted.resolved⟩, some a, ?_⟩
  exact hdrafted.function_during

/-- An instruction that was read is an expression or declares a function. -/
theorem parse_ok {ts : List Token} (hm : m.Valid) (h : parse ts m = .ok e n) :
    (∃ p owner, Instruction.ofTokens ts = .expression p ∧ m.Staged owner n e ∧
      Linked m.registry [] m.slots.size p e n.slots.size) ∨
    ∃ name parameters body b, e = .declaration name m.functions.size ∧
      Defines m ts name parameters body n b := by
  have hreads := Instruction.rejectsOnly_ofTokens ts
  unfold parse parseWith at h
  cases hi : Instruction.ofTokens ts with
  | rejected r =>
      rw [hi] at h
      cases h
  | expression p =>
      rw [hi] at h hreads
      rcases hm.working hm.registered with ⟨owner, hw, -⟩
      have hlinked := resolveWith_linked hreads hw (within_empty m) h
      -- Outside any declaration the functions that can be called are the registered ones.
      have hfunctions : ({} : Scope).functions m = m.registry := List.append_nil _
      rw [hfunctions] at hlinked
      exact .inl ⟨p, owner, rfl, (resolveWith_staged fill_steps hw hreads).of_ok rfl h, hlinked⟩
  | declaration name definition =>
      rw [hi] at h
      cases hname : m.lookup? name with
      | some id =>
          rw [ofInstructionWith_defined hname] at h
          cases h
      | none =>
          rw [ofInstructionWith_declaration hname] at h
          cases definition with
          | error r => cases h
          | ok definition =>
              rcases definition with ⟨parameters, body⟩
              rcases declareFunctionWith_defines hm hi h with ⟨rfl, b, hdefines⟩
              exact .inr ⟨name, parameters, body, b, rfl, hdefines⟩

end Resolution

/-! ## Tokens -/

namespace Instruction

variable {ts : List Token}

/-- Tokens that declare nothing are read as one window. -/
theorem ofTokens_expression {p : Phrase} (h : ofTokens ts = .expression p) :
    p = Phrase.ofWindow ts := by
  unfold ofTokens at h
  split at h
  · cases h
  · split at h
    · unfold declarationOf at h
      split at h
      · split at h <;> cases h
      · cases h
    · cases h
      rfl

/-- A declaration is only read if the name may be declared. -/
theorem ofTokens_declaration {name : String} {d : Except Rejection (List String × Phrase)}
    (h : ofTokens ts = .declaration name d) : checkDeclared name = .ok () ∧
      ∃ rest, ts = .keyword .functionWord :: .word name :: rest ∧ definition rest = d := by
  unfold ofTokens at h
  split at h
  · cases h
  · split at h
    · unfold declarationOf at h
      split at h
      · split at h
        · cases h
        · next hchecked =>
            cases h
            exact ⟨hchecked, _, rfl, rfl⟩
      · cases h
    · cases h

/-- A parameter is a single word that may be declared. -/
theorem parameter_ok {w : Window} {name : String} (h : parameter w = .ok name) :
    checkDeclared name = .ok () ∧ w = [.word name] := by
  unfold parameter at h
  split at h
  · next word =>
      cases hchecked : checkDeclared word with
      | error r =>
          rw [hchecked] at h
          cases h
      | ok _ =>
          rw [hchecked] at h
          cases h
          exact ⟨hchecked, rfl⟩
  · cases h

/-- So are all of them. -/
theorem parameters_ok {ws : List Window} {names : List String} (h : ws.mapM parameter = .ok names) :
    (∀ name ∈ names, checkDeclared name = .ok ()) ∧ ws = names.map fun name => [.word name] := by
  induction ws generalizing names with
  | nil =>
      cases h
      exact ⟨nofun, rfl⟩
  | cons w ws ih =>
      rw [List.mapM_cons] at h
      cases hw : parameter w with
      | error r =>
          rw [hw] at h
          cases h
      | ok name =>
          cases hws : ws.mapM parameter with
          | error r =>
              rw [hw, hws] at h
              cases h
          | ok names' =>
              rw [hw, hws] at h
              cases h
              rcases parameter_ok hw with ⟨hchecked, rfl⟩
              rcases ih hws with ⟨hall, rfl⟩
              exact ⟨List.forall_mem_cons.2 ⟨hchecked, hall⟩, rfl⟩

/-- A definition is a list of names in parentheses, an arrow and a body. -/
theorem definition_ok {w : Window} {parameters : List String} {body : Phrase}
    (h : definition w = .ok (parameters, body)) :
    (∀ p ∈ parameters, checkDeclared p = .ok ()) ∧
      ∃ v, body = Phrase.ofWindow v ∧ w = .symbol .openParen ::
        (Window.listed (parameters.map fun p => [.word p]) ++ .symbol .closeParen :: .symbol
          .arrow :: v) := by
  unfold definition at h
  split at h
  · split at h
    · cases h
    · next inside rest he =>
        cases hitems : Window.items .functionDeclaration inside with
        | error r =>
            rw [hitems] at h
            cases h
        | ok ws =>
            cases hparameters : ws.mapM parameter with
            | error r =>
                rw [hitems] at h
                dsimp only [bind, Except.bind] at h
                rw [hparameters] at h
                cases h
            | ok names =>
                rw [hitems] at h
                dsimp only [bind, Except.bind] at h
                rw [hparameters] at h
                dsimp only at h
                split at h <;> cases h
                rcases parameters_ok hparameters with ⟨hchecked, rfl⟩
                rw [← Window.append_of_enclosed? he, ← Window.listed_of_items hitems]
                exact ⟨hchecked, _, rfl, rfl⟩
  · cases h

end Instruction

/-! ## Registered functions -/

def Memory.Named (m : Memory) : Prop :=
  ∀ p ∈ m.registry, checkDeclared p.1 = .ok ()

theorem Memory.Named.lookup {m : Memory} (h : m.Named) {name : String} {id : FunctionId}
    (hid : m.lookup? name = some id) : checkDeclared name = .ok () := by
  rcases List.lookup_eq_some_iff.1 hid with ⟨l₁, l₂, hl, -⟩
  exact h (name, id) (by simp [hl])

namespace Session

/-- A function is registered under a name that may be declared. -/
theorem execute_named {m : Memory} (hm : m.Valid ∧ m.Named) (ts : List Token) :
    (execute m ts).memory.Valid ∧ (execute m ts).memory.Named := by
  refine ⟨execute_valid hm.1 ts, ?_⟩
  rcases execute_outcome hm.1 ts with ⟨n, name, hadded, hparse, h⟩ | ⟨h, -⟩
  · rw [h]
    have hname : checkDeclared name = .ok () := by
      rcases Resolution.parse_ok hm.1 hparse with
        ⟨p, owner, -, hstaged, -⟩ | ⟨name', _, _, b, he, hdefines⟩
      · exact absurd rfl (hstaged.resolved.every.self.plain name m.functions.size)
      · cases he
        exact (Instruction.ofTokens_declaration hdefines.tokens).1
    intro p hp
    rcases List.mem_append.1 hp with hold | hnew
    · rw [hadded.opened.registry] at hold
      exact hm.2 p hold
    · cases List.mem_singleton.1 hnew
      exact hname
  · rw [h]
    exact hm.2

theorem Reachable.named {s : Session} (hs : Reachable s) : s.memory.Named :=
  (hs.keeps (P := fun m => m.Valid ∧ m.Named) ⟨Memory.valid_empty, nofun⟩ fun _ ts hm =>
    execute_named hm ts).2

end Session
end LineLang
