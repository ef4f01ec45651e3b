import SslFrontend.Proofs.Symbol.Extends
import SslFrontend.Symbol.Header

/-! # Bodies that end elsewhere

Where a body ends shows in its last node and in the end of its span.  Nothing
that is declared, looked up or changed in a table depends on it:
`SymbolTable.reclosed` commutes with every operation on tables.
-/

namespace SslFrontend

/-- The procedure with the end of its body elsewhere. -/
def Procedure.reclosed (finish : Position) (p : Procedure) : Procedure :=
  match p.span with
  | some (start, _) =>
    { p with
      body := p.body.dropLast ++ [⟨.ret, .int 0, finish⟩]
      span := some (start, finish) }
  | none => p

/-- The table with the end of one body elsewhere. -/
def SymbolTable.reclosed (t : SymbolTable) (scope : ScopeId) (finish : Position) : SymbolTable :=
  t.modifyScope scope (·.reclosed finish)

namespace Procedure

variable (finish : Position) (p : Procedure)

@[simp] theorem name_reclosed : (p.reclosed finish).name = p.name := by
  unfold reclosed
  split <;> rfl

@[simp] theorem namelist_reclosed : (p.reclosed finish).namelist = p.namelist := by
  unfold reclosed
  split <;> rfl

@[simp] theorem locals_reclosed : (p.reclosed finish).locals = p.locals := by
  unfold reclosed
  split <;> rfl

@[simp] theorem trigger_reclosed : (p.reclosed finish).trigger = p.trigger := by
  unfold reclosed
  split <;> rfl

@[simp] theorem modifiers_reclosed : (p.reclosed finish).modifiers = p.modifiers := by
  unfold reclosed
  split <;> rfl

@[simp] theorem numArgs_reclosed : (p.reclosed finish).numArgs = p.numArgs := by
  unfold reclosed
  split <;> rfl

@[simp] theorem minArgs_reclosed : (p.reclosed finish).minArgs = p.minArgs := by
  unfold reclosed
  split <;> rfl

@[simp] theorem defined_reclosed : (p.reclosed finish).defined = p.defined := by
  unfold reclosed
  split <;> rfl

@[simp] theorem declared_reclosed : (p.reclosed finish).declared = p.declared := by
  unfold reclosed
  split <;> rfl

@[simp] theorem opened_reclosed :
    (p.reclosed finish).span.map Prod.fst = p.span.map Prod.fst := by
  unfold reclosed
  split
  · simp [*]
  · rfl

theorem findLocal?_reclosed (name : String) :
    (p.reclosed finish).findLocal? name = p.findLocal? name := by
  unfold findLocal?
  rw [namelist_reclosed, locals_reclosed]

end Procedure

namespace SymbolTable

variable (t : SymbolTable) (scope : ScopeId) (finish : Position)

/-- Changes of procedures that commute make changes of tables that do. -/
theorem modifyScope_comm {id id' : ScopeId} {f g : Procedure → Procedure}
    (h : id = id' → ∀ p, f (g p) = g (f p)) :
    (t.modifyScope id' g).modifyScope id f = (t.modifyScope id f).modifyScope id' g := by
  have hlist : ∀ {i j : Nat} (l : List Procedure), (i = j → ∀ p, f (g p) = g (f p)) →
      (l.modify j g).modify i f = (l.modify i f).modify j g := by
    intro i j l h
    by_cases hij : i = j
    · subst hij
      rw [List.modify_modify_eq, List.modify_modify_eq]
      congr 1
      exact funext fun p => h rfl p
    · exact (List.modify_modify_ne f g l hij).symm
  cases id with
  | proc i =>
      cases id' with
      | proc j =>
          unfold modifyScope
          simp only
          rw [hlist t.procs fun hij => h (by rw [hij])]
      | discarded j => rfl
  | discarded i =>
      cases id' with
      | proc j => rfl
      | discarded j =>
          unfold modifyScope
          simp only
          rw [hlist t.discarded fun hij => h (by rw [hij])]

@[simp] theorem strings_reclosed : (t.reclosed scope finish).strings = t.strings :=
  strings_modifyScope ..

@[simp] theorem vars_reclosed : (t.reclosed scope finish).vars = t.vars :=
  vars_modifyScope ..

@[simp] theorem procs_length_reclosed :
    (t.reclosed scope finish).procs.length = t.procs.length :=
  procs_length_modifyScope ..

@[simp] theorem discarded_length_reclosed :
    (t.reclosed scope finish).discarded.length = t.discarded.length := by
  cases scope <;> simp [reclosed, modifyScope]

/-- Every scope is the same but for where its body ends. -/
theorem scope?_reclosed (sc : ScopeId) : (t.reclosed scope finish).scope? sc = t.scope? sc ∨
    (t.reclosed scope finish).scope? sc = (t.scope? sc).map (·.reclosed finish) := by
  by_cases h : sc = scope
  · subst h
    exact .inr (scope?_modifyScope_self ..)
  · exact .inl (scope?_modifyScope_of_ne _ _ _ h)

/-! ## Look-ups -/

variable (name : String)

@[simp] theorem lookupLocal_reclosed (sc : ScopeId) :
    (t.reclosed scope finish).lookupLocal sc name = t.lookupLocal sc name := by
  unfold lookupLocal
  rcases t.scope?_reclosed scope finish sc with h | h
  · rw [h]
  · rw [h]
    cases t.scope? sc with
    | none => rfl
    | some p =>
        show ((p.reclosed finish).findLocal? name).map (Symbol.inner sc) = _
        rw [p.findLocal?_reclosed]
        rfl

@[simp] theorem lookupGlobal_reclosed :
    (t.reclosed scope finish).lookupGlobal name = t.lookupGlobal name := by
  have hprocs : ∀ handle, (t.reclosed scope finish).procs.findIdx? (·.name == handle) =
      t.procs.findIdx? (·.name == handle) := by
    intro handle
    have hmap : ∀ l : List Procedure, l.findIdx? (·.name == handle) =
        (l.map Procedure.name).findIdx? (· == handle) := by
      intro l
      rw [List.findIdx?_map]
      rfl
    rw [hmap, hmap]
    cases scope with
    | discarded i => rfl
    | proc i =>
        congr 1
        exact map_modify fun p _ => p.name_reclosed finish
  unfold lookupGlobal
  rw [strings_reclosed]
  cases t.strings.find? name with
  | none => rfl
  | some handle =>
      simp only [Option.bind_eq_bind, Option.bind_some, vars_reclosed, hprocs]

@[simp] theorem lookupDeclared_reclosed (context : Option ScopeId) :
    (t.reclosed scope finish).lookupDeclared context name = t.lookupDeclared context name := by
  unfold lookupDeclared
  rw [lookupGlobal_reclosed]
  cases context with
  | none => rfl
  | some sc =>
      show ((t.reclosed scope finish).lookupLocal sc name).or _ = _
      rw [lookupLocal_reclosed]
      rfl

@[simp] theorem siteOf?_reclosed (symbol : Symbol) :
    (t.reclosed scope finish).siteOf? symbol = t.siteOf? symbol := by
  have hscope : ∀ {α : Type} (f : Procedure → α) (sc : ScopeId),
      (∀ p : Procedure, f (p.reclosed finish) = f p) →
      ((t.reclosed scope finish).scope? sc).map f = (t.scope? sc).map f := by
    intro α f sc hf
    rcases t.scope?_reclosed scope finish sc with h | h
    · rw [h]
    · rw [h, Option.map_map]
      exact Option.map_congr fun p _ => hf p
  cases symbol with
  | global i => simp [siteOf?]
  | proc i => exact hscope Procedure.declared (.proc i) fun p => p.declared_reclosed finish
  | builtin i => rfl
  | inner sc i =>
      have hsite := hscope (fun p => p.locals[i]?.map Variable.declared) sc fun p => by simp
      have hbind : ∀ o : Option Procedure,
          (o.bind fun p => p.locals[i]?.map Variable.declared) =
            (o.map fun p => p.locals[i]?.map Variable.declared).join := by
        intro o
        cases o <;> rfl
      unfold siteOf?
      simp only
      rw [hbind, hbind, hsite]

/-! ## Changes -/

theorem reclosed_strings (strings : Pool) :
    { t.reclosed scope finish with strings := strings } =
      ({ t with strings := strings } : SymbolTable).reclosed scope finish := by
  cases scope <;> rfl

theorem modifyVariable_reclosed (symbol : Symbol) (f : Variable → Variable) :
    (t.reclosed scope finish).modifyVariable symbol f =
      (t.modifyVariable symbol f).reclosed scope finish := by
  cases symbol with
  | global i => cases scope <;> rfl
  | proc i => rfl
  | builtin i => rfl
  | inner sc i =>
      refine modifyScope_comm t fun _ p => ?_
      obtain ⟨name, trigger, modifiers, namelist, numArgs, minArgs, defined, locals, references,
        uses, declared, span, body⟩ := p
      cases span <;> rfl

theorem declareVar_reclosed (kind : VarScope) (pos : Position) :
    (t.reclosed scope finish).declareVar name kind pos =
      (t.declareVar name kind pos).map fun (symbol, u) => (symbol, u.reclosed scope finish) := by
  unfold declareVar
  rw [lookupGlobal_reclosed, strings_reclosed]
  cases t.lookupGlobal name with
  | some existing => simp [Except.map]
  | none =>
      cases t.strings.intern name with
      | error e => rfl
      | ok found => cases scope <;> rfl

theorem declareLocal_reclosed (sc : ScopeId) (pos : Position) :
    (t.reclosed scope finish).declareLocal sc name pos =
      (t.declareLocal sc name pos).map fun (symbol, u) => (symbol, u.reclosed scope finish) := by
  have hcomm : ∀ (namelist : Pool) (v : Variable),
      ((t.reclosed scope finish).modifyScope sc fun p =>
        { p with namelist := namelist, locals := p.locals ++ [v] }) =
      (t.modifyScope sc fun p =>
        { p with namelist := namelist, locals := p.locals ++ [v] }).reclosed scope finish := by
    intro namelist v
    refine modifyScope_comm t fun _ p => ?_
    obtain ⟨name, trigger, modifiers, namelist', numArgs, minArgs, defined, locals, references,
      uses, declared, span, body⟩ := p
    cases span <;> rfl
  have hface : ∀ p : Procedure, t.scope? sc = some p → ∃ q,
      (t.reclosed scope finish).scope? sc = some q ∧ q.namelist = p.namelist ∧
        q.locals = p.locals := by
    intro p hp
    rcases t.scope?_reclosed scope finish sc with h | h
    · exact ⟨p, h.trans hp, rfl, rfl⟩
    · refine ⟨p.reclosed finish, by rw [h, hp]; rfl, by simp, by simp⟩
  unfold declareLocal
  rw [lookupLocal_reclosed]
  cases hp : t.scope? sc with
  | none =>
      have hnone : (t.reclosed scope finish).scope? sc = none := by
        rcases t.scope?_reclosed scope finish sc with h | h
        · exact h.trans hp
        · rw [h, hp]; rfl
      rw [hnone]
      rfl
  | some p =>
      obtain ⟨q, hq, hnamelist, hlocals⟩ := hface p hp
      rw [hq]
      simp only
      cases t.lookupLocal sc name with
      | some existing => simp [Except.map]
      | none =>
          simp only
          rw [hnamelist, hlocals]
          cases p.namelist.intern name with
          | error e => rfl
          | ok found =>
              obtain ⟨handle, namelist⟩ := found
              simp only [Except.map]
              rw [hcomm]

theorem declareIn_reclosed (context : Option ScopeId) (kind : VarScope) (pos : Position) :
    (t.reclosed scope finish).declareIn context kind name pos =
      (t.declareIn context kind name pos).map fun (symbol, u) =>
        (symbol, u.reclosed scope finish) := by
  cases context with
  | none => exact t.declareVar_reclosed scope finish name kind pos
  | some sc => exact t.declareLocal_reclosed scope finish name sc pos

/-! ## Headers -/

theorem setParams_reclosed (sc : ScopeId) (params : List Param) :
    (t.reclosed scope finish).setParams sc params =
      ((t.setParams sc params).1.reclosed scope finish, (t.setParams sc params).2) := by
  have hfold : ∀ (params : List Param) (t : SymbolTable) (problems : List Diagnostic),
      params.foldl (addParam sc) (t.reclosed scope finish, problems) =
        ((params.foldl (addParam sc) (t, problems)).1.reclosed scope finish,
          (params.foldl (addParam sc) (t, problems)).2) := by
    intro params
    induction params with
    | nil => exact fun _ _ => rfl
    | cons param rest ih =>
        intro t problems
        have hone : addParam sc (t.reclosed scope finish, problems) param =
            ((addParam sc (t, problems) param).1.reclosed scope finish,
              (addParam sc (t, problems) param).2) := by
          unfold addParam
          simp only
          rw [declareLocal_reclosed]
          cases t.declareLocal sc param.name param.pos with
          | error problem => rfl
          | ok found =>
              simp only [Except.map]
              rw [modifyVariable_reclosed]
        rw [List.foldl_cons, List.foldl_cons, hone, ih]
  unfold setParams
  rw [hfold]
  simp only
  refine Prod.ext ?_ rfl
  refine modifyScope_comm _ fun _ p => ?_
  obtain ⟨name, trigger, modifiers, namelist, numArgs, minArgs, defined, locals, references,
    uses, declared, span, body⟩ := p
  cases span <;> rfl

/-- A procedure that has no body yet has no end of it. -/
theorem append_reclosed (l : List Procedure) {p : Procedure} (hp : p.span = none) (i : Nat) :
    (l ++ [p]).modify i (·.reclosed finish) = l.modify i (·.reclosed finish) ++ [p] := by
  have hsame : p.reclosed finish = p := by
    unfold Procedure.reclosed
    rw [hp]
  induction l generalizing i with
  | nil => cases i <;> simp [hsame]
  | cons q rest ih => cases i <;> simp [ih]

theorem declareFirst_reclosed (header : Header) :
    (t.reclosed scope finish).declareFirst header =
      { t.declareFirst header with
        table := (t.declareFirst header).table.reclosed scope finish } := by
  have hopened : ∀ (strings : Pool) (p : Procedure), p.span = none →
      { t.reclosed scope finish with
        strings := strings
        procs := (t.reclosed scope finish).procs ++ [p] } =
      ({ t with strings := strings, procs := t.procs ++ [p] } : SymbolTable).reclosed scope
        finish := by
    intro strings p hp
    cases scope with
    | proc i =>
        unfold reclosed modifyScope
        simp only
        rw [append_reclosed finish t.procs hp]
    | discarded i => rfl
  unfold declareFirst
  rw [strings_reclosed]
  cases t.strings.intern header.name with
  | error e => rfl
  | ok found =>
      obtain ⟨handle, strings⟩ := found
      simp only [procs_length_reclosed]
      rw [hopened strings _ rfl, setParams_reclosed]

/-- What a header is merged with tells nothing of where a body ends. -/
theorem declareAgain_reclosed (index : Nat) (p : Procedure) {q : Procedure} (header : Header)
    (hq : q = p ∨ q = p.reclosed finish) :
    (t.reclosed scope finish).declareAgain index q header =
      { t.declareAgain index p header with
        table := (t.declareAgain index p header).table.reclosed scope finish } := by
  have hface : q.trigger = p.trigger ∧ q.modifiers = p.modifiers ∧ q.numArgs = p.numArgs ∧
      q.minArgs = p.minArgs ∧ q.defined = p.defined ∧ q.declared = p.declared ∧
      q.span.map Prod.fst = p.span.map Prod.fst := by
    rcases hq with rfl | rfl <;> simp
  obtain ⟨htrigger, hmodifiers, hnumArgs, hminArgs, hdefined, hdeclared, hspan⟩ := hface
  have hupdate : ∀ trigger modifiers, ((t.reclosed scope finish).modifyScope (.proc index)
      fun p => { p with trigger := trigger, modifiers := modifiers }) =
      (t.modifyScope (.proc index)
        fun p => { p with trigger := trigger, modifiers := modifiers }).reclosed scope finish := by
    intro trigger modifiers
    refine modifyScope_comm t fun _ p => ?_
    obtain ⟨name, trigger, modifiers, namelist, numArgs, minArgs, defined, locals, references,
      uses, declared, span, body⟩ := p
    cases span <;> rfl
  have hclear : ∀ trigger modifiers, ((t.reclosed scope finish).modifyScope (.proc index)
      fun p => { p with
        trigger := trigger, modifiers := modifiers, locals := []
        namelist := .empty (.namelist index) }) =
      (t.modifyScope (.proc index) fun p => { p with
        trigger := trigger, modifiers := modifiers, locals := []
        namelist := .empty (.namelist index) }).reclosed scope finish := by
    intro trigger modifiers
    refine modifyScope_comm t fun _ p => ?_
    obtain ⟨name, trigger, modifiers, namelist, numArgs, minArgs, defined, locals, references,
      uses, declared, span, body⟩ := p
    cases span <;> rfl
  unfold declareAgain redefinition mergeTrigger mergeModifiers arityProblem
  rw [htrigger, hmodifiers, hnumArgs, hminArgs, hdefined, hdeclared, hspan]
  split
  · rfl
  · cases header.hasBody with
    | true =>
        simp only [↓reduceIte]
        rw [hclear, setParams_reclosed]
    | false =>
        simp only [Bool.false_eq_true, ↓reduceIte]
        rw [hupdate]

theorem declareSettled_reclosed (header : Header) :
    (t.reclosed scope finish).declareSettled header =
      { t.declareSettled header with
        table := (t.declareSettled header).table.reclosed scope finish } := by
  unfold declareSettled
  rw [lookupGlobal_reclosed]
  cases t.lookupGlobal header.name with
  | none => exact t.declareFirst_reclosed scope finish header
  | some existing =>
      cases existing with
      | proc index =>
          simp only
          rcases t.scope?_reclosed scope finish (.proc index) with h | h
          · have hprocs : (t.reclosed scope finish).procs[index]? = t.procs[index]? := h
            rw [hprocs]
            cases t.procs[index]? with
            | none => rfl
            | some p => exact t.declareAgain_reclosed scope finish index p header (.inl rfl)
          · have hprocs : (t.reclosed scope finish).procs[index]? =
                t.procs[index]?.map (·.reclosed finish) := h
            rw [hprocs]
            cases t.procs[index]? with
            | none => rfl
            | some p => exact t.declareAgain_reclosed scope finish index p header (.inr rfl)
      | global i => simp
      | inner sc i => simp
      | builtin i => simp

theorem declare_reclosed (header : Header) :
    (t.reclosed scope finish).declare header =
      { t.declare header with table := (t.declare header).table.reclosed scope finish } := by
  unfold declare
  cases header.settle with
  | mk settled problems =>
      simp only
      rw [declareSettled_reclosed]

theorem declareDiscarded_reclosed (header : Header) :
    (t.reclosed scope finish).declareDiscarded header =
      (t.declareDiscarded header).map fun (sc, u, problems) =>
        (sc, u.reclosed scope finish, problems) := by
  have hopened : ∀ p : Procedure, p.span = none →
      { t.reclosed scope finish with discarded := (t.reclosed scope finish).discarded ++ [p] } =
      ({ t with discarded := t.discarded ++ [p] } : SymbolTable).reclosed scope finish := by
    intro p hp
    cases scope with
    | proc i => rfl
    | discarded i =>
        unfold reclosed modifyScope
        simp only
        rw [append_reclosed finish t.discarded hp]
  unfold declareDiscarded
  cases (Pool.empty .scratch).intern header.name with
  | error e => rfl
  | ok found =>
      obtain ⟨handle, namelist⟩ := found
      simp only [discarded_length_reclosed, Except.map]
      rw [hopened _ rfl, setParams_reclosed]

/-- A new body has an end of its own. -/
theorem attach_reclosed (sc : ScopeId) (start end_ : Position) (body : Code) :
    (t.reclosed scope finish).modifyScope sc (fun p =>
      { p with body := body, defined := true, span := some (start, end_) }) =
        t.modifyScope sc (fun p =>
          { p with body := body, defined := true, span := some (start, end_) }) ∨
    (t.reclosed scope finish).modifyScope sc (fun p =>
      { p with body := body, defined := true, span := some (start, end_) }) =
        (t.modifyScope sc (fun p =>
          { p with body := body, defined := true, span := some (start, end_) })).reclosed scope
            finish := by
  by_cases h : sc = scope
  · subst h
    left
    have hover : ∀ (l : List Procedure) (i : Nat),
        (l.modify i (·.reclosed finish)).modify i (fun p =>
          { p with body := body, defined := true, span := some (start, end_) }) =
        l.modify i (fun p =>
          { p with body := body, defined := true, span := some (start, end_) }) := by
      intro l i
      rw [List.modify_modify_eq]
      congr 1
      funext p
      obtain ⟨name, trigger, modifiers, namelist, numArgs, minArgs, defined, locals, references,
        uses, declared, span, body⟩ := p
      cases span <;> rfl
    cases sc with
    | proc i =>
        unfold reclosed modifyScope
        simp only
        rw [hover]
    | discarded i =>
        unfold reclosed modifyScope
        simp only
        rw [hover]
  · exact .inr (modifyScope_comm t fun heq => absurd heq h)

/-- The second table is the first one, or has the end of a certain body
elsewhere. -/
def Recloses (closed : Option (ScopeId × Position)) (t u : SymbolTable) : Prop :=
  u = t ∨ ∃ end_ ∈ closed, u = t.reclosed end_.1 end_.2

namespace Recloses

variable {closed : Option (ScopeId × Position)} {t u : SymbolTable}

/-- What does not tell where a body ends. -/
theorem same {α : Type} (f : SymbolTable → α)
    (hf : ∀ t scope finish, f (reclosed t scope finish) = f t) (h : Recloses closed t u) :
    f u = f t := by
  rcases h with rfl | ⟨end_, -, rfl⟩
  · rfl
  · exact hf t _ _

/-- What leaves the ends of bodies alone. -/
theorem change (f : SymbolTable → SymbolTable)
    (hf : ∀ t scope finish, f (reclosed t scope finish) = (f t).reclosed scope finish)
    (h : Recloses closed t u) : Recloses closed (f t) (f u) := by
  rcases h with rfl | ⟨end_, hmem, rfl⟩
  · exact .inl rfl
  · exact .inr ⟨end_, hmem, hf t _ _⟩

theorem eq_of_none (h : Recloses none t u) : u = t := by
  rcases h with h | ⟨_, hmem, _⟩
  · exact h
  · cases hmem

end Recloses

end SymbolTable

end SslFrontend
