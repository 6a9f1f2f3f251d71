import LineLang.Proofs.Renaming.Resolution
import LineLang.Proofs.Session.Moments

/-!
# Sessions with other handles

If the storage of one session is found in that of another one, an instruction comes to the same in
both, and the storage after it is found in the other one again. So any number of lines comes to the
same.

- `Instruction.NamesIn`   : the functions that an instruction declares and calls
- `Resolution.parse_alike`  : an instruction is read alike
- `Session.execute_alike` : and carried out alike
- `Session.Copied`        : the storage of one session is found in that of another one
- `Session.submitAll`     : what came of each of some lines
- `Session.submitAll_alike`  : lines come to the same in both sessions
-/

namespace LineLang

open Effect Activation

/-- The function that is declared and those that are called have names in `N`. -/
def Instruction.NamesIn (N : Set String) : Instruction → Prop
  | .rejected _ => True
  | .expression p => CalledIn N p.called
  | .declaration name definition => name ∈ N ∧
      ∀ parameters body, definition = .ok (parameters, body) → CalledIn N body.called

theorem Instruction.namesIn_univ (i : Instruction) : i.NamesIn Set.univ := by
  cases i with
  | rejected r => trivial
  | expression p => exact fun _ _ _ => trivial
  | declaration name definition => exact ⟨trivial, fun _ _ _ _ _ _ => trivial⟩

namespace Resolution

variable {ρ : Renaming} {N : Set String} {m m' : Memory}

/-! ## Declaring a function -/

/-- Parameters are added on both sides, or one of them is there twice on both. -/
theorem allocateParameters_alike (h : m.Renamed ρ N m') (function : String)
    (seen ps : List String) :
    Agree (fun _ n _ n' => n.Renamed ρ N n') (fun _ _ => True)
      (Memory.allocateParameters function seen ps m)
        (Memory.allocateParameters function seen ps m') := by
  induction ps generalizing m m' seen with
  | nil => exact .ok h
  | cons p ps ih =>
      unfold Memory.allocateParameters
      split
      · exact .error trivial
      · exact ih (h.allocate (.parameter p)) (p :: seen)

theorem declare_alike (h : m.Renamed ρ N m') (name : String) (parameters : List String) :
    Agree (fun id n id' n' => id' = ρ.function id ∧ n.Renamed ρ N n') (fun _ _ => True)
      (Memory.declare name parameters m) (Memory.declare name parameters m') := by
  refine Agree.get_bind ((allocateParameters_alike h name [] parameters).bind fun _ n _ n' hn => ?_)
  refine Agree.get_bind (.ok ⟨hn.function_size.symm, hn.push ⟨rfl, rfl, ?_, rfl, rfl⟩⟩)
  exact h.range parameters.length

section Functions

variable {name : String} {parameters : List String} {body : Phrase}

/-- The body of a function is read alike. -/
theorem draftWith_alike (hm : m.Valid) (hm' : m'.Valid) (h : m.Renamed ρ N m')
    (hbody : body.RejectsOnly Rejection.Syntactic) (hcalled : CalledIn N body.called) :
    Agree (fun r n r' n' => r' = (ρ.function r.1, r.2.rename ρ) ∧ n.Renamed ρ N n')
      (fun _ _ => True)
      (draftWith fill name parameters body m) (draftWith fill name parameters body m') := by
  rcases hm.working hm.registered with ⟨owner, hw, -⟩
  rcases hm'.working hm'.registered with ⟨owner', hw', -⟩
  refine (declare_alike h name parameters).known.bind ?_
  rintro id n _ n' ⟨⟨rfl, hn⟩, hid, hid'⟩
  let scope : Scope := ⟨parameters.zip (n.function id).parameterSlots, some (name, id)⟩
  have hscope : scope.rename ρ =
      ⟨parameters.zip (n'.function (ρ.function id)).parameterSlots,
        some (name, ρ.function id)⟩ := by
    rw [(hn.function id).slots, List.zip_map_right]
    rfl
  have hleft : scope.Open owner m n := hm.open_parameters hw hid
  have hright : (scope.rename ρ).Open owner' m' n' := hscope ▸ hm'.open_parameters hw' hid'
  have hpaired : scope.Paired ρ N owner owner' m m' n n' := by
    refine ⟨⟨hn, fun t ht => ?_⟩, hleft, hright⟩
    -- No parameter has been set, since all of them are dependent.
    rcases (declare_opened hw name parameters).of_ok rfl hid with ⟨-, -, -, -, hslots, -⟩
    rcases hleft.within.bindings t ht.1 with ⟨hle, hlt⟩
    cases (hslots t hle hlt).2.symm.trans ht.2
  refine Agree.get_bind ?_
  rw [← hscope]
  refine (resolveWith_alike hbody hcalled hpaired).bind ?_
  rintro e k _ k' ⟨rfl, hk, -⟩
  exact .ok ⟨rfl, hk.renamed⟩

/-- The function that is being declared has the same kind in both. -/
theorem declarationKind_alike (h : m.Renamed ρ N m') {id : FunctionId} {e : Expr}
    (hm : Typing.Declaring m id e) (hm' : Typing.Declaring m' (ρ.function id) (e.rename ρ)) :
    Agree (fun _ n _ n' => n.Renamed ρ N n') (fun _ _ => True)
      (Typing.declarationKind id m) (Typing.declarationKind (ρ.function id) m') := by
  have hkind := Typing.declarationKind_nested hm
  have hkind' := Typing.declarationKind_nested hm'
  rw [Typing.nested_rename h] at hkind'
  cases hk : Typing.declarationKind id m with
  | ok k n =>
      rcases hkind.of_ok rfl hk with ⟨hnested, rfl⟩
      cases hk' : Typing.declarationKind (ρ.function id) m' with
      | ok k' n' =>
          rcases hkind'.of_ok rfl hk' with ⟨hnested', rfl⟩
          cases hnested.symm.trans hnested'
          have hf := h.function id
          exact .ok (h.modifyFunction hm.lt ⟨hf.name, hf.parameters, hf.slots, hf.body, rfl⟩)
      | error fault n' => cases hnested.symm.trans (hkind'.of_error rfl hk').1
  | error fault n =>
      have hnested := (hkind.of_error rfl hk).1
      cases hk' : Typing.declarationKind (ρ.function id) m' with
      | ok k' n' => cases hnested.symm.trans (hkind'.of_ok rfl hk').1
      | error fault' n' =>
          cases hnested.symm.trans (hkind'.of_error rfl hk').1
          exact .error trivial

/-- A declaration that only calls functions in `N` does the same on both sides. -/
theorem declareFunctionWith_alike (hm : m.Valid) (hm' : m'.Valid) (h : m.Renamed ρ N m')
    (hbody : body.RejectsOnly Rejection.Syntactic) (hcalled : CalledIn N body.called) :
    Agree (fun _ n _ n' => n.Renamed ρ N n') (fun _ _ => True)
      (declareFunctionWith fill name parameters body m)
        (declareFunctionWith fill name parameters body m') := by
  rcases hm.working hm.registered with ⟨owner, hw, -⟩
  rcases hm'.working hm'.registered with ⟨owner', hw', -⟩
  refine (draftWith_alike hm hm' h hbody hcalled).known.bind ?_
  rintro ⟨id, e⟩ n _ n' ⟨⟨rfl, hn⟩, hdraft, hdraft'⟩
  rcases (draftWith_drafted hw name parameters hbody).of_ok rfl hdraft with ⟨hid, hdrafted⟩
  rcases (draftWith_drafted hw' name parameters hbody).of_ok rfl hdraft' with ⟨hid', hdrafted'⟩
  dsimp only at hid hid' hdrafted hdrafted' ⊢
  have hlt : id < n.functions.size := by
    rw [hid, hdrafted.opened.count]
    exact Nat.lt_succ_self _
  have hdeclaring := hdrafted.declaring
  have hdeclaring' := hdrafted'.declaring
  rw [← hid] at hdeclaring
  rw [← hid'] at hdeclaring'
  refine Agree.bind
    (Q := fun _ k _ k' => k = n.attach id e ∧ k' = n'.attach (ρ.function id) (e.rename ρ))
    (.ok ⟨rfl, rfl⟩) ?_
  rintro _ _ _ _ ⟨rfl, rfl⟩
  have hkind := declarationKind_alike (hn.attach hlt e) hdeclaring hdeclaring'
  exact hkind.mapError.bind fun _ k _ k' hk => .ok hk

end Functions

/-! ## Instructions -/

inductive Reads (ρ : Renaming) (m m' n n' : Memory) : Expr → Expr → Prop
  | expression {owner owner' : SlotId → FunctionId} {e : Expr} : m.Staged owner n e →
      m'.Staged owner' n' (e.rename ρ) → Reads ρ m m' n n' e (e.rename ρ)
  | declaration {name : String} : m.Added n name → m'.Added n' name →
      Reads ρ m m' n n' (.declaration name m.functions.size) (.declaration name m'.functions.size)

/-- An instruction is read alike in two storages that know the functions it names by the same
names. -/
theorem parse_alike (hm : m.Valid) (hm' : m'.Valid) (h : m.Renamed ρ N m') {ts : List Token}
    (hts : (Instruction.ofTokens ts).NamesIn N) :
    Agree (fun e n e' n' => Reads ρ m m' n n' e e' ∧ n.Renamed ρ N n') (fun _ _ => True)
      (parse ts m) (parse ts m') := by
  have hreads := Instruction.rejectsOnly_ofTokens ts
  rcases hm.working hm.registered with ⟨owner, hw, -⟩
  rcases hm'.working hm'.registered with ⟨owner', hw', -⟩
  unfold parse parseWith
  cases hi : Instruction.ofTokens ts with
  | rejected r => exact .error trivial
  | expression p =>
      rw [hi] at hts hreads
      -- Nothing is in scope yet, so no slot has to hold a value.
      have hpaired : ({} : Scope).Paired ρ N owner owner' m m' m m' := by
        refine ⟨⟨h, fun t ht => ?_⟩, hm.open_empty hw, hm'.open_empty hw'⟩
        rw [slots_empty] at ht
        cases ht.1
      refine (resolveWith_alike hreads hts hpaired).known.imp ?_ fun _ _ h => h
      rintro e n _ n' ⟨⟨rfl, hn, -⟩, he, he'⟩
      exact ⟨.expression ((resolveWith_staged fill_steps hw hreads).of_ok rfl he)
        ((resolveWith_staged fill_steps hw' hreads).of_ok rfl he'), hn.renamed⟩
  | declaration name definition =>
      rw [hi] at hts hreads
      have hlookup := h.lookup name hts.1
      cases hname : m.lookup? name with
      | some id =>
          rw [hname] at hlookup
          rw [ofInstructionWith_defined hname, ofInstructionWith_defined hlookup]
          exact .error trivial
      | none =>
          rw [hname] at hlookup
          rw [ofInstructionWith_declaration hname, ofInstructionWith_declaration hlookup]
          cases definition with
          | error r => exact .error trivial
          | ok p =>
              rcases p with ⟨parameters, body⟩
              refine (declareFunctionWith_alike hm hm' h hreads
                (hts.2 parameters body rfl)).known.imp ?_ fun _ _ h => h
              rintro e n e' n' ⟨hn, he, he'⟩
              have hadded :=
                declareFunctionWith_added hm.toFurnished hm.registered hname parameters hreads
              have hadded' := declareFunctionWith_added hm'.toFurnished hm'.registered hlookup
                parameters hreads
              rcases hadded.of_ok rfl he with ⟨rfl, hadded⟩
              rcases hadded'.of_ok rfl he' with ⟨rfl, hadded'⟩
              exact ⟨.declaration hadded hadded', hn⟩

end Resolution

namespace Session

variable {ρ : Renaming} {N : Set String} {base base' m m' : Memory}

/-- An expression is carried out alike. -/
theorem run_alike {owner owner' : SlotId → FunctionId} {n n' : Memory} {e : Expr} (hm : m.Complete)
    (hm' : m'.Complete) (h : m.Staged owner n e) (h' : m'.Staged owner' n' (e.rename ρ))
    (hn : n.Renamed ρ N n') :
    (run (e.rename ρ) n').result = (run e n).result ∧
      (run (e.rename ρ) n').printed = (run e n).printed := by
  unfold run
  rw [Typing.kindOf_eq h.working.settled, Typing.kindOf_eq h'.working.settled,
    Typing.kindGiven_rename hn hn.answer]
  cases Typing.kindGiven n n.answer e with
  | error fault => exact ⟨rfl, rfl⟩
  | ok k =>
      -- At a depth that is enough for both, evaluation starts in empty records.
      let depth := max (Evaluation.depthBound n) (Evaluation.depthBound n')
      have hready := h.ready hm
      have hready' := h'.ready hm'
      have hsame := evaluateWithin_same hready depth .run #[]
      have hsame' := evaluateWithin_same hready' depth .run #[]
      rw [hready.evaluateWithin_eq (Nat.le_max_left _ _)] at hsame
      rw [hready'.evaluateWithin_eq (Nat.le_max_right _ _)] at hsame'
      have hstart : Activation.Renamed ρ {} {} := ⟨fun _ => rfl, rfl⟩
      have hagree := hsame.copied hsame' (evaluateWithin_copies hn depth [] .run e hstart)
      dsimp only [Effect.ofExcept]
      generalize Evaluation.evaluate .run e { memory := n } = r at hagree ⊢
      generalize Evaluation.evaluate .run (e.rename ρ) { memory := n' } = r' at hagree ⊢
      cases hagree with
      | ok hboth =>
          rcases hboth with ⟨rfl, b, b', hs, hs', hb⟩
          have hprinted := hs'.printed.trans (hb.printed.trans hs.printed.symm)
          exact ⟨rfl, congrArg Array.toList hprinted⟩
      | error hprinted => exact ⟨rfl, congrArg Array.toList hprinted⟩

/-- An instruction is carried out alike, and afterwards one storage is found in the other one
again. -/
theorem execute_alike (hm : m.Valid) (hm' : m'.Valid) (h : m.Renamed ρ N m') {ts : List Token}
    (hts : (Instruction.ofTokens ts).NamesIn N) :
    (execute m' ts).result = (execute m ts).result ∧
      (execute m' ts).printed = (execute m ts).printed ∧
      (execute m ts).memory.Renamed ρ N (execute m' ts).memory := by
  have hagree := Resolution.parse_alike hm hm' h hts
  generalize hp : parse ts m = r at hagree
  generalize hp' : parse ts m' = r' at hagree
  cases hagree with
  | error _ =>
      rw [execute_rejected hm hp, execute_rejected hm' hp']
      exact ⟨rfl, rfl, h⟩
  | ok hboth =>
      rcases hboth with ⟨hreads, hn⟩
      cases hreads with
      | expression hstaged hstaged' =>
          rw [execute_expression hstaged hp, execute_expression hstaged' hp']
          rcases run_alike hm.complete hm'.complete hstaged hstaged' hn with ⟨hresult, hprinted⟩
          exact ⟨hresult, hprinted, h⟩
      | declaration hadded hadded' =>
          rw [execute_declaration hadded hp, execute_declaration hadded' hp']
          refine ⟨rfl, rfl, ?_⟩
          rw [← h.function_size]
          exact hn.register _ _

/-- An instruction takes nothing away. -/
theorem execute_extends (hm : m.Valid) (ts : List Token) : m.Extends (execute m ts).memory := by
  rcases execute_outcome hm ts with ⟨n, name, hadded, -, hexecute⟩ | ⟨hsame, -⟩
  · rw [hexecute]
    exact ⟨hadded.opened.above.slots, hadded.opened.above.functions⟩
  · rw [hsame]
    exact .refl m

/-! ## Lines -/

def submitAll (s : Session) : List String → List Report
  | [] => []
  | source :: sources => s.submit source :: (s.submit source).session.submitAll sources

/-- The storage of one session is found in that of another one. They were `base` and `base'`
before. -/
structure Copied (ρ : Renaming) (base base' : Memory) (s s' : Session) : Prop where
  valid : s.memory.Valid
  valid' : s'.memory.Valid
  renamed : s.memory.Renamed ρ Set.univ s'.memory
  above : base.Extends s.memory
  above' : base'.Extends s'.memory

/-- Lines came to the same in two sessions. -/
structure Reported (ρ : Renaming) (base base' : Memory) (r r' : Report) : Prop where
  results : r'.results = r.results
  printed : r'.printed = r.printed
  session : r.session.Copied ρ base base' r'.session

/-- After an instruction one storage is still found in the other. -/
theorem Copied.execute {s s' : Session} (h : s.Copied ρ base base' s') (ts : List Token) :
    Copied ρ base base' ⟨(execute s.memory ts).memory⟩ ⟨(Session.execute s'.memory ts).memory⟩ where
  valid := execute_valid h.valid ts
  valid' := execute_valid h.valid' ts
  renamed := (execute_alike h.valid h.valid' h.renamed (Instruction.ofTokens ts).namesIn_univ).2.2
  above := h.above.trans (execute_extends h.valid ts)
  above' := h.above'.trans (execute_extends h.valid' ts)

/-- The instructions of a line one after another. -/
theorem executeAll_alike {s s' : Session} (h : s.Copied ρ base base' s') (total index : Nat)
    (groups : List (List Token)) :
    Reported ρ base base' (executeAll total index s.memory groups)
      (executeAll total index s'.memory groups) := by
  induction groups generalizing s s' index with
  | nil => exact ⟨rfl, rfl, h⟩
  | cons ts groups ih =>
      cases ts with
      | nil => exact ih h (index + 1)
      | cons t ts =>
          rcases execute_alike h.valid h.valid' h.renamed
            (Instruction.ofTokens (t :: ts)).namesIn_univ with ⟨hresult, hprinted, -⟩
          have hrest := ih (h.execute (t :: ts)) (index + 1)
          refine ⟨?_, ?_, hrest.session⟩
          · simp only [executeAll, hresult, hrest.results]
          · simp only [executeAll, hresult, hprinted, hrest.printed]

theorem submit_alike {s s' : Session} (h : s.Copied ρ base base' s') (source : String) :
    Reported ρ base base' (s.submit source) (s'.submit source) := by
  unfold submit
  split
  · exact ⟨rfl, rfl, h⟩
  · exact executeAll_alike h _ _ _

/-- Any number of lines comes to the same. -/
theorem submitAll_alike {s s' : Session} (h : s.Copied ρ base base' s') (sources : List String) :
    List.Forall₂ (Reported ρ base base') (s.submitAll sources) (s'.submitAll sources) := by
  induction sources generalizing s s' with
  | nil => exact .nil
  | cons source sources ih =>
      have hline := submit_alike h source
      exact .cons hline (ih hline.session)

end Session
end LineLang
