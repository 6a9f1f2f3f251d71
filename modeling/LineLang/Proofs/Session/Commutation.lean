import LineLang.Proofs.Renaming.Exchange
import LineLang.Proofs.Session.Renaming
import LineLang.Proofs.Session.Representation

/-!
# The order of declarations

Two functions may be declared in either order, unless the second one calls the first one. They get
other handles then, but no line tells the difference, except that the functions are listed in
another order.

- `Memory.Declared`                : a function was declared
- `Session.execute_declared`       : a declaration that succeeds does that
- `Memory.Extends.signatures`      : functions are listed after those that were there before
- `Memory.Declared.exchange`       : the storages after both orders differ by their handles
- `Session.execute_exchanged`      : two declarations come to the same in either order
- `Session.declarations_commute`   : no line tells the difference
-/

namespace LineLang

open Effect

/-! ## Listing -/

namespace Memory

variable {m n k : Memory} {name : String} {parameters : List String}

def signature (m : Memory) (f : FunctionId) : String × List String :=
  ((m.function f).name, (m.function f).parameters)

theorem Valid.signatures_eq (h : m.Valid) :
    m.signatures = (List.range m.functions.size).map m.signature := by
  rw [signatures, h.registry, List.map_map]
  rfl

/-- Functions are listed after those that were there before. -/
theorem Extends.signatures (h : m.Extends n) (hm : m.Valid) (hn : n.Valid) :
    n.signatures = m.signatures ++
      (List.range' m.functions.size (n.functions.size - m.functions.size)).map n.signature := by
  have hsplit : List.range n.functions.size = List.range m.functions.size ++
      List.range' m.functions.size (n.functions.size - m.functions.size) := by
    have happend := List.range'_append_1 (s := 0) (m := m.functions.size)
      (n := n.functions.size - m.functions.size)
    rw [Nat.zero_add, Nat.add_sub_cancel' h.size_functions] at happend
    rw [List.range_eq_range', List.range_eq_range', happend]
  have hold : (List.range m.functions.size).map n.signature = m.signatures := by
    rw [hm.signatures_eq]
    apply List.map_congr_left
    intro f hf
    rw [signature, signature, h.function (List.mem_range.1 hf)]
  rw [hn.signatures_eq, hsplit, List.map_append, hold]

/-- Functions that were added alike are listed alike. -/
theorem Renamed.signatures_above {ρ : Renaming} {N N' : Set String} {base base' n' : Memory}
    (hbase : base.Renamed ρ N base') (h : n.Renamed ρ N' n')
    (hle : base.functions.size ≤ n.functions.size) :
    (List.range' base'.functions.size (n'.functions.size - base'.functions.size)).map n'.signature =
      (List.range' base.functions.size (n.functions.size - base.functions.size)).map
        n.signature := by
  have hcount : n'.functions.size - base'.functions.size =
      n.functions.size - base.functions.size := by
    rw [← h.function_size, ← Nat.add_sub_cancel' hle, hbase.nextFunction, Nat.add_sub_cancel_left,
      Nat.add_sub_cancel_left]
  rw [hcount, List.range'_eq_map_range, List.range'_eq_map_range, List.map_map, List.map_map]
  apply List.map_congr_left
  intro i _
  have hf := h.function (base.functions.size + i)
  rw [hbase.nextFunction] at hf
  exact Prod.ext hf.name hf.parameters

/-! ## One declaration -/

structure Declared (m n : Memory) (name : String) (parameters : List String) : Prop where
  fresh : m.lookup? name = none
  valid : n.Valid
  above : m.Extends n
  count : n.functions.size = m.functions.size + 1
  registry : n.registry = m.registry ++ [(name, m.functions.size)]
  signature : n.signature m.functions.size = (name, parameters)

namespace Declared

theorem lookup_self (h : m.Declared n name parameters) :
    n.lookup? name = some m.functions.size := by
  have hfresh := h.fresh
  unfold lookup? at hfresh ⊢
  simp [h.registry, List.lookup_append, hfresh]

theorem lookup_of_ne (h : m.Declared n name parameters) {other : String} (hother : other ≠ name) :
    n.lookup? other = m.lookup? other := by
  have hbeq : (other == name) = false := beq_false_of_ne hother
  simp [lookup?, h.registry, List.lookup_append, List.lookup_cons, hbeq]

theorem signatures (h : m.Declared n name parameters) (hm : m.Valid) :
    n.signatures = m.signatures ++ [(name, parameters)] := by
  rw [h.above.signatures hm h.valid, h.count, Nat.add_sub_cancel_left]
  exact congrArg (fun p => m.signatures ++ [p]) h.signature

end Declared
end Memory

namespace Resolution

variable {m n : Memory} {name : String} {parameters : List String} {body : Phrase}

/-- The function gets its parameters and a body that only calls functions that are known. -/
theorem declareFunctionWith_ok (hm : m.Valid) (hbody : body.RejectsOnly Rejection.Syntactic)
    {e : Expr} (h : declareFunctionWith fill name parameters body m = .ok e n) :
    (n.function m.functions.size).parameters = parameters ∧
      CalledIn {other | m.lookup? other ≠ none ∨ other = name} body.called := by
  rcases hm.working hm.registered with ⟨owner, hw, -⟩
  rcases of_bind_ok h with ⟨⟨id, b⟩, k, hdraft, hrest⟩
  rcases (draftWith_drafted hw name parameters hbody).of_ok rfl hdraft with ⟨rfl, hdrafted⟩
  refine ⟨?_, ?_⟩
  · rcases of_bind_ok hrest with ⟨_, _, ⟨⟩, hrest⟩
    rcases of_bind_ok hrest with ⟨a, l, hkind, hend⟩
    cases hend
    rcases (Typing.declarationKind_nested hdrafted.declaring).of_ok rfl (of_mapError_ok hkind) with
      ⟨-, rfl⟩
    rw [hdrafted.function_during]
  · rcases of_bind_ok hdraft with ⟨id, k₁, hid, hrest⟩
    rcases of_bind_ok hrest with ⟨_, _, ⟨⟩, hrest⟩
    rcases of_bind_ok hrest with ⟨b', k₂, hb, hend⟩
    intro other hother hbuiltin
    rcases resolveWith_called hbody (hm.open_parameters hw hid) hb other hother hbuiltin with
      hlookup | ⟨id', hdeclaring⟩
    · rcases (declare_opened hw name parameters).of_ok rfl hid with ⟨-, hopened, -⟩
      rw [Memory.lookup?, hopened.registry] at hlookup
      exact .inl hlookup
    · cases hdeclaring
      exact .inr rfl

end Resolution

namespace Session

variable {m : Memory} {ts : List Token} {name : String} {parameters : List String} {body : Phrase}
variable {v : Value}

/-- A declaration that succeeds adds a function, which only calls itself and functions that were
known. -/
theorem execute_declared (hm : m.Valid)
    (hts : Instruction.ofTokens ts = .declaration name (.ok (parameters, body)))
    (hv : (execute m ts).result = .ok v) :
    m.Declared (execute m ts).memory name parameters ∧
      CalledIn {other | m.lookup? other ≠ none ∨ other = name} body.called := by
  have hreads := Instruction.rejectsOnly_ofTokens ts
  rw [hts] at hreads
  cases hname : m.lookup? name with
  | some id =>
      have hp : parse ts m = .error (.static (.alreadyDefined name)) m := by
        rw [parse, parseWith, hts, Resolution.ofInstructionWith_defined hname]
      -- A line that is refused has no value.
      rw [execute_rejected hm hp] at hv
      cases hv
  | none =>
      have hp : parse ts m = Resolution.declareFunctionWith Resolution.fill name
          parameters body m := by
        rw [parse, parseWith, hts, Resolution.ofInstructionWith_declaration hname]
        rfl
      cases hd : Resolution.declareFunctionWith Resolution.fill name parameters body m with
      | error r n =>
          rw [execute_rejected hm (hp.trans hd)] at hv
          cases hv
      | ok e n =>
          have hadds := Resolution.declareFunctionWith_added hm.toFurnished hm.registered hname
            parameters hreads
          rcases hadds.of_ok rfl hd with ⟨rfl, hadded⟩
          rcases Resolution.declareFunctionWith_ok hm hreads hd with ⟨hparameters, hcalled⟩
          have hvalid := execute_valid hm ts
          have hextends := execute_extends hm ts
          rw [execute_declaration hadded (hp.trans hd)] at hvalid hextends ⊢
          refine ⟨⟨hname, hvalid, hextends, hadded.opened.count, ?_, ?_⟩, hcalled⟩
          · exact congrArg (· ++ _) hadded.opened.registry
          · exact Prod.ext hadded.named hparameters

end Session

/-! ## Two declarations -/

namespace Memory

variable {base k l n n' : Memory} {f g : String} {ps qs : List String} {N N' : Set String}

/-- If two functions are declared in either order, the storages differ by their handles. -/
theorem Declared.exchange (hbase : base.Valid) (hne : f ≠ g) (hk : base.Declared k f ps)
    (hn : k.Declared n g qs) (hl : base.Declared l g qs) (hn' : l.Declared n' f ps)
    (hln : l.Renamed (.above base k) N n) (hkn : k.Renamed (.above base l) N' n') :
    n.Renamed (.exchanging base k l) Set.univ n' := by
  refine .exchange hk.valid.complete hl.valid.complete hk.above hl.above hn.above hn'.above hln hkn
    fun name => ?_
  have hcount := hk.count
  have hcount' := hl.count
  by_cases hf : name = f
  · -- The handle of `f` is the first free one in `base`, or the next one.
    have hself : Renaming.exchange base.functions.size k.functions.size l.functions.size
        base.functions.size = l.functions.size := by
      rw [Renaming.exchange_of_lt (by omega), Renaming.skip_of_le (Nat.le_refl _)]
      omega
    rw [hf, hn.lookup_of_ne hne, hk.lookup_self, hn'.lookup_self]
    exact congrArg some hself.symm
  by_cases hg : name = g
  · -- The handle of `g` is the other of the two.
    have hself : Renaming.skip base.functions.size k.functions.size base.functions.size =
        k.functions.size := by
      rw [Renaming.skip_of_le (Nat.le_refl _)]
      omega
    rw [hg, hn'.lookup_of_ne hne.symm, hl.lookup_self, hn.lookup_self, ← hself]
    exact congrArg some (Renaming.exchange_skip (by omega) (by omega)).symm
  · rw [hn.lookup_of_ne hg, hk.lookup_of_ne hf, hn'.lookup_of_ne hf, hl.lookup_of_ne hg]
    cases hid : base.lookup? name with
    | none => rfl
    | some id =>
        have hlt := hbase.lookup_lt hid
        -- Handles that were there before either declaration are kept.
        have hstays : Renaming.exchange base.functions.size k.functions.size
            l.functions.size id = id := by
          rw [Renaming.exchange_of_lt (Nat.lt_of_lt_of_le hlt hk.above.size_functions),
            Renaming.skip_of_lt hlt]
        exact congrArg some hstays.symm

end Memory

namespace Session

/-- Two sessions list the same functions after those that they had before. -/
theorem Copied.listed {ρ : Renaming} {N : Set String} {base base' : Memory} {s s' : Session}
    (h : s.Copied ρ base base' s') (hrenamed : base.Renamed ρ N base') (hbase : base.Valid)
    (hbase' : base'.Valid) :
    ∃ later, s.functions = base.signatures ++ later ∧ s'.functions = base'.signatures ++ later := by
  refine ⟨_, h.above.signatures hbase h.valid, ?_⟩
  rw [← hrenamed.signatures_above h.renamed h.above.size_functions]
  exact h.above'.signatures hbase' h.valid'

variable {ts us : List Token} {f g : String} {ps qs : List String} {b c : Phrase} {v w : Value}

/-- An instruction that does not name a function comes to the same where that function was
declared. -/
theorem execute_beside {m n : Memory} (hm : m.Valid) (h : m.Declared n f ps)
    (hus : (Instruction.ofTokens us).NamesIn {x | x ≠ f}) :
    (execute n us).result = (execute m us).result ∧
      (execute n us).printed = (execute m us).printed ∧
      (execute m us).memory.Renamed (.above m n) {x | x ≠ f} (execute n us).memory :=
  execute_alike hm h.valid (hm.renamed_above h.above fun _ hother => h.lookup_of_ne hother) hus

/-- What two declarations come to does not depend on their order, up to the handles. -/
structure Exchanged (m : Memory) (ts us : List Token) : Prop where
  first : (execute (execute m us).memory ts).result = (execute m ts).result
  second : (execute m us).result = (execute (execute m ts).memory us).result
  firstPrinted : (execute (execute m us).memory ts).printed = (execute m ts).printed
  secondPrinted : (execute m us).printed = (execute (execute m ts).memory us).printed
  renamed :
    (after m [ts, us]).Renamed (.exchanging m (execute m ts).memory (execute m us).memory) Set.univ
    (after m [us, ts])

/-- Neither declaration needs the other, so that each of them is read alike before and after it. -/
theorem execute_exchanged {m : Memory} (hm : m.Valid)
    (hts : Instruction.ofTokens ts = .declaration f (.ok (ps, b)))
    (hus : Instruction.ofTokens us = .declaration g (.ok (qs, c))) (hne : f ≠ g)
    (hcalled : f ∉ c.called) (hfirst : (execute m ts).result = .ok v)
    (hsecond : (execute (execute m ts).memory us).result = .ok w) : Exchanged m ts us := by
  rcases execute_declared hm hts hfirst with ⟨hF, hknown⟩
  rcases execute_declared hF.valid hus hsecond with ⟨hFG, -⟩
  -- The second declaration comes to the same where the first function is not there.
  have hnames : (Instruction.ofTokens us).NamesIn {x | x ≠ f} := by
    rw [hus]
    refine ⟨hne.symm, ?_⟩
    rintro _ _ ⟨⟩ other hother - rfl
    exact hcalled hother
  rcases execute_beside hm hF hnames with ⟨hresult, hprinted, hrenamed⟩
  rcases execute_declared hm hus (hresult.symm.trans hsecond) with ⟨hG, -⟩
  -- And so does the first one where the second function is there, which it cannot call.
  have hnames' : (Instruction.ofTokens ts).NamesIn {x | x ≠ g} := by
    rw [hts]
    refine ⟨hne, ?_⟩
    rintro _ _ ⟨⟩ other hother hbuiltin rfl
    rcases hknown other hother hbuiltin with hlookup | hself
    · exact hlookup hG.fresh
    · exact hne hself.symm
  rcases execute_beside hm hG hnames' with ⟨hresult', hprinted', hrenamed'⟩
  rcases execute_declared hG.valid hts (hresult'.trans hfirst) with ⟨hGF, -⟩
  exact ⟨hresult', hresult.symm, hprinted', hprinted.symm,
    hF.exchange hm hne hFG hG hGF hrenamed hrenamed'⟩

/-- After two declarations the functions are listed in their order. -/
theorem functions_after {m : Memory} (hm : m.Valid)
    (hts : Instruction.ofTokens ts = .declaration f (.ok (ps, b)))
    (hus : Instruction.ofTokens us = .declaration g (.ok (qs, c)))
    (hfirst : (execute m ts).result = .ok v)
    (hsecond : (execute (execute m ts).memory us).result = .ok w) :
    (after m [ts, us]).Valid ∧
      (after m [ts, us]).signatures = m.signatures ++ [(f, ps), (g, qs)] := by
  rcases execute_declared hm hts hfirst with ⟨hF, -⟩
  rcases execute_declared hF.valid hus hsecond with ⟨hFG, -⟩
  refine ⟨hFG.valid, ?_⟩
  calc
    (after m [ts, us]).signatures = (execute m ts).memory.signatures ++ [(g, qs)] :=
      hFG.signatures hF.valid
    _ = m.signatures ++ [(f, ps)] ++ [(g, qs)] := by rw [hF.signatures hm]
    _ = m.signatures ++ [(f, ps), (g, qs)] := List.append_assoc _ _ _

/-- If two functions with different names can be declared one after the other, and the second one
does not call the first one, they can be declared in the other order as well. After that all lines
have the same results and print the same as after the first order, and the two functions are listed
in the other order. -/
theorem declarations_commute {s : Session} (hs : Reachable s)
    (hts : Instruction.ofTokens ts = .declaration f (.ok (ps, b)))
    (hus : Instruction.ofTokens us = .declaration g (.ok (qs, c))) (hne : f ≠ g)
    (hcalled : f ∉ c.called) (hfirst : (execute s.memory ts).result = .ok v)
    (hsecond : (execute (execute s.memory ts).memory us).result = .ok w) :
    ((execute s.memory us).result = .ok w ∧
      (execute s.memory us).printed = (execute (execute s.memory ts).memory us).printed) ∧
    ((execute (execute s.memory us).memory ts).result = .ok v ∧
      (execute (execute s.memory us).memory ts).printed = (execute s.memory ts).printed) ∧
    functions ⟨after s.memory [ts, us]⟩ = s.functions ++ [(f, ps), (g, qs)] ∧
    functions ⟨after s.memory [us, ts]⟩ = s.functions ++ [(g, qs), (f, ps)] ∧
    ∀ sources, List.Forall₂ (fun r r' => r'.results = r.results ∧ r'.printed = r.printed ∧
        ∃ later, r.session.functions = s.functions ++ [(f, ps), (g, qs)] ++ later ∧
          r'.session.functions = s.functions ++ [(g, qs), (f, ps)] ++ later)
      (submitAll ⟨after s.memory [ts, us]⟩ sources)
        (submitAll ⟨after s.memory [us, ts]⟩ sources) := by
  have h := execute_exchanged hs.valid hts hus hne hcalled hfirst hsecond
  have hfirst' := h.first.trans hfirst
  have hsecond' := h.second.trans hsecond
  rcases functions_after hs.valid hts hus hfirst hsecond with ⟨hvalid, hlist⟩
  rcases functions_after hs.valid hus hts hsecond' hfirst' with ⟨hvalid', hlist'⟩
  refine ⟨⟨hsecond', h.secondPrinted⟩, ⟨hfirst', h.firstPrinted⟩, hlist, hlist', fun sources => ?_⟩
  -- Later lines find storages that are renamings of each other, and a renaming does not show in
  -- results.
  have hcopied : Copied _ _ _ ⟨after s.memory [ts, us]⟩ ⟨after s.memory [us, ts]⟩ :=
    ⟨hvalid, hvalid', h.renamed, .refl _, .refl _⟩
  refine (submitAll_alike hcopied sources).imp fun r r' hr => ⟨hr.results, hr.printed, ?_⟩
  rcases hr.session.listed h.renamed hvalid hvalid' with ⟨later, hlater, hlater'⟩
  exact ⟨later, hlater.trans (congrArg (· ++ later) hlist),
    hlater'.trans (congrArg (· ++ later) hlist')⟩

/-- The declaration `function again(n) => let m = fall(n) in fall(m)`. -/
def againDeclaration : List Token :=
  [.keyword .functionWord, .word "again", .symbol .openParen, .word "n", .symbol .closeParen,
    .symbol .arrow,
    .keyword .letWord, .word "m", .symbol .equals, .word "fall", .symbol .openParen, .word "n",
    .symbol .closeParen, .keyword .inWord, .word "fall", .symbol .openParen, .word "m",
    .symbol .closeParen]

theorem sameDeclaration_read : (match Instruction.ofTokens sameDeclaration with
    | .declaration "same" (.ok (["x"], _)) => true
    | _ => false) = true := by
  decide +kernel

theorem againDeclaration_read : (match Instruction.ofTokens againDeclaration with
    | .declaration "again" (.ok (["n"], c)) => decide ("same" ∉ c.called)
    | _ => false) = true := by
  decide +kernel

/-- Two functions with different numbers of slots, one of which calls a function that was there
before. -/
theorem declarations_commute_falling :
    Reachable falling ∧ (execute falling.memory againDeclaration).result = .ok .void ∧
      functions ⟨after falling.memory [sameDeclaration, againDeclaration]⟩ =
        falling.functions ++ [("same", ["x"]), ("again", ["n"])] ∧
      functions ⟨after falling.memory [againDeclaration, sameDeclaration]⟩ =
        falling.functions ++ [("again", ["n"]), ("same", ["x"])] ∧
      ∀ sources, List.Forall₂ (fun r r' => r'.results = r.results ∧ r'.printed = r.printed)
        (submitAll ⟨after falling.memory [sameDeclaration, againDeclaration]⟩ sources)
        (submitAll ⟨after falling.memory [againDeclaration, sameDeclaration]⟩ sources) := by
  obtain ⟨b, hts⟩ : ∃ b, Instruction.ofTokens sameDeclaration = .declaration "same"
      (.ok (["x"], b)) := by
    have hread := sameDeclaration_read
    split at hread
    case h_1 b hts => exact ⟨b, hts⟩
    case h_2 => cases hread
  obtain ⟨c, hus, hcalled⟩ : ∃ c,
      Instruction.ofTokens againDeclaration = .declaration "again" (.ok (["n"], c)) ∧
      "same" ∉ c.called := by
    have hread := againDeclaration_read
    split at hread
    case h_1 c hus => exact ⟨c, hus, of_decide_eq_true hread⟩
    case h_2 => cases hread
  have hfirst : (execute falling.memory sameDeclaration).result = .ok .void := by
    decide +kernel
  have hsecond : (execute (execute falling.memory sameDeclaration).memory againDeclaration).result =
      .ok .void := by
    decide +kernel
  rcases declarations_commute reachable_falling hts hus (by decide) hcalled hfirst hsecond with
    ⟨⟨hresult, -⟩, -, hlist, hlist', hlines⟩
  exact ⟨reachable_falling, hresult, hlist, hlist',
    fun sources => (hlines sources).imp fun _ _ h => ⟨h.1, h.2.1⟩⟩

end Session
end LineLang
