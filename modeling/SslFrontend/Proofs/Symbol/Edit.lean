import Mathlib.Logic.Relation
import SslFrontend.Proofs.Symbol.Extends

/-! # Edits of a table

All that happens to a table, but for the headers of procedures, is a run of
edits: a text is interned, a variable or a local is declared, a variable is
given its length or value, or a procedure its number of parameters.  An edit
lets the table grow and touches no code.  What a header does is one of four
things, most of them followed by edits that declare its parameters.

Whatever is declared inside a procedure, and however many parameters its header
has, the rest of the procedure stays as it is: its shell.  The table grows, and
no other procedure is touched.
-/

namespace SslFrontend

/-- A change of a variable's length or value; a value that is a text is one of
the pool. -/
structure Adjusts (pool : Pool) (f : Variable → Variable) : Prop where
  name : ∀ v, (f v).name = v.name
  declared : ∀ v, (f v).declared = v.declared
  scope : ∀ v, (f v).scope = v.scope
  references : ∀ v, (f v).references = v.references
  value : ∀ v, (f v).value = v.value ∨ (f v).value.ResolvesIn pool

namespace Adjusts

variable {pool : Pool} {f : Variable → Variable}

theorem label (h : Adjusts pool f) (v : Variable) : (f v).label = v.label := by
  rw [Variable.label, h.name, h.declared, Variable.label]

theorem arrayLength (pool : Pool) (length : Nat) :
    Adjusts pool fun v => { v with arrayLength := length } :=
  ⟨fun _ => rfl, fun _ => rfl, fun _ => rfl, fun _ => rfl, fun _ => .inl rfl⟩

theorem initialized (pool : Pool) : Adjusts pool fun v => { v with initialized := true } :=
  ⟨fun _ => rfl, fun _ => rfl, fun _ => rfl, fun _ => rfl, fun _ => .inl rfl⟩

theorem withValue {given : Option Value}
    (h : ∀ value, given = some value → value.ResolvesIn pool) :
    Adjusts pool (·.withValue given) := by
  cases given with
  | none => exact ⟨fun _ => rfl, fun _ => rfl, fun _ => rfl, fun _ => rfl, fun _ => .inl rfl⟩
  | some value =>
      exact ⟨fun _ => rfl, fun _ => rfl, fun _ => rfl, fun _ => rfl, fun _ => .inr (h value rfl)⟩

end Adjusts

/-- What a procedure has of code, and whether it has it. -/
def Procedure.coding (p : Procedure) : Code × Bool × Trigger × Option (Position × Position) :=
  (p.body, p.defined, p.trigger, p.span)

namespace SymbolTable

variable {known : Position → Prop} {t u : SymbolTable}

inductive Edit (known : Position → Prop) : SymbolTable → SymbolTable → Prop where
  | intern {t : SymbolTable} {text : String} {handle : Handle} {strings : Pool}
      (h : t.strings.intern text = .ok (handle, strings)) :
      Edit known t { t with strings := strings }
  | declareVar {t u : SymbolTable} {name : String} {scope : VarScope} {pos : Position}
      {symbol : Symbol} (site : known pos) (h : t.declareVar name scope pos = .ok (symbol, u)) :
      Edit known t u
  | declareLocal {t u : SymbolTable} {name : String} {scope : ScopeId} {pos : Position}
      {symbol : Symbol} (site : known pos)
      (h : t.declareLocal scope name pos = .ok (symbol, u)) : Edit known t u
  | adjust {t : SymbolTable} {f : Variable → Variable} (symbol : Symbol)
      (h : Adjusts t.strings f) : Edit known t (t.modifyVariable symbol f)
  | count {t : SymbolTable} (scope : ScopeId) (most least : Nat) :
      Edit known t (t.modifyScope scope fun p => { p with numArgs := most, minArgs := least })

abbrev Edits (known : Position → Prop) : SymbolTable → SymbolTable → Prop :=
  Relation.ReflTransGen (Edit known)

theorem Edit.grows (h : Edit known t u) : t.Grows u := by
  cases h with
  | intern h => exact extends_strings (Pool.intern_spec h).1
  | declareVar _ h => exact declareVar_grows h
  | declareLocal _ h => exact declareLocal_grows h
  | adjust symbol h => exact extends_modifyVariable h.label
  | count scope most least =>
      exact extends_modifyScope (fun _ _ => rfl) fun _ p _ => ⟨.refl _, List.prefix_rfl⟩

theorem Edits.grows (h : Edits known t u) : t.Grows u := by
  induction h with
  | refl => exact .refl t
  | tail _ h ih => exact ih.trans h.grows

/-- No code is touched. -/
def SameCode (t u : SymbolTable) : Prop :=
  ∀ sc, (u.scope? sc).map Procedure.coding = (t.scope? sc).map Procedure.coding

theorem SameCode.refl (t : SymbolTable) : t.SameCode t := fun _ => rfl

theorem SameCode.trans {w : SymbolTable} (h₁ : t.SameCode u) (h₂ : u.SameCode w) :
    t.SameCode w :=
  fun sc => (h₂ sc).trans (h₁ sc)

theorem sameCode_modifyScope {id : ScopeId} {f : Procedure → Procedure}
    (hf : ∀ p, t.scope? id = some p → (f p).coding = p.coding) :
    t.SameCode (t.modifyScope id f) := by
  intro sc
  by_cases hsc : sc = id
  · subst hsc
    rw [scope?_modifyScope_self]
    cases hp : t.scope? sc with
    | none => rfl
    | some p => simp [hf p hp]
  · rw [scope?_modifyScope_of_ne _ _ _ hsc]

theorem SameCode.of_scope? (h : ∀ sc, u.scope? sc = t.scope? sc) : t.SameCode u :=
  fun sc => by rw [h]

/-- A procedure that is there after no code was touched was there before. -/
theorem SameCode.back (h : t.SameCode u) {sc : ScopeId} {q : Procedure}
    (hq : u.scope? sc = some q) : ∃ p, t.scope? sc = some p ∧ q.coding = p.coding := by
  have hsc := h sc
  rw [hq] at hsc
  cases hp : t.scope? sc with
  | none => rw [hp] at hsc; cases hsc
  | some p =>
      rw [hp] at hsc
      exact ⟨p, rfl, Option.some.inj hsc⟩

theorem Edit.sameCode (h : Edit known t u) : t.SameCode u := by
  cases h with
  | intern h => exact .of_scope? fun sc => by cases sc <;> rfl
  | declareVar _ h =>
      obtain ⟨_, handle, strings, _, _, rfl⟩ := declareVar_spec h
      exact .of_scope? fun sc => by cases sc <;> rfl
  | declareLocal _ h =>
      obtain ⟨p, handle, namelist, _, _, _, _, rfl⟩ := declareLocal_spec h
      exact sameCode_modifyScope fun _ _ => rfl
  | adjust symbol h =>
      cases symbol with
      | global i => exact .of_scope? fun sc => by cases sc <;> rfl
      | inner scope i => exact sameCode_modifyScope fun _ _ => rfl
      | proc i => exact .refl t
      | builtin i => exact .refl t
  | count scope most least => exact sameCode_modifyScope fun _ _ => rfl

theorem Edits.sameCode (h : Edits known t u) : t.SameCode u := by
  induction h with
  | refl => exact .refl t
  | tail _ h ih => exact ih.trans h.sameCode

theorem Edit.procs_length (h : Edit known t u) : u.procs.length = t.procs.length := by
  cases h with
  | intern h => rfl
  | declareVar _ h =>
      obtain ⟨_, handle, strings, _, _, rfl⟩ := declareVar_spec h
      rfl
  | declareLocal _ h =>
      obtain ⟨p, handle, namelist, _, _, _, _, rfl⟩ := declareLocal_spec h
      simp
  | adjust symbol h => simp
  | count scope most least => simp

theorem Edits.procs_length (h : Edits known t u) : u.procs.length = t.procs.length := by
  induction h with
  | refl => rfl
  | tail _ h ih => rw [h.procs_length, ih]

/-! ## Parameters -/

theorem addParam_edits {scope : ScopeId} {param : Param} {problems : List Diagnostic}
    (site : known param.pos)
    (value : ∀ value, param.default = some value → value.ResolvesIn t.strings) :
    Edits known t (addParam scope (t, problems) param).1 := by
  unfold addParam
  cases h : t.declareLocal scope param.name param.pos with
  | error problem =>
      simp only [h]
      exact .refl
  | ok declared =>
      obtain ⟨symbol, u⟩ := declared
      simp only [h]
      have hdeclare : Edit known t u := .declareLocal site h
      have hvalue : ∀ value, param.default = some value → value.ResolvesIn u.strings :=
        fun v hv => (value v hv).grows hdeclare.grows.strings
      exact (Relation.ReflTransGen.single hdeclare).tail (.adjust symbol (.withValue hvalue))

/-- Parameters at known places, with values of the unit. -/
def ParamsKnown (known : Position → Prop) (strings : Pool) (params : List Param) : Prop :=
  ∀ p ∈ params, known p.pos ∧ ∀ value, p.default = some value → value.ResolvesIn strings

theorem ParamsKnown.grows {strings grown : Pool} {params : List Param}
    (h : ParamsKnown known strings params) (hg : strings.Grows grown) :
    ParamsKnown known grown params :=
  fun p hp => ⟨(h p hp).1, fun value hv => ((h p hp).2 value hv).grows hg⟩

theorem setParams_edits {scope : ScopeId} {params : List Param}
    (h : ParamsKnown known t.strings params) :
    Edits known t (t.setParams scope params).1 := by
  have hfold : ∀ (problems : List Diagnostic) (ps : List Param) (u : SymbolTable),
      (∀ p ∈ ps, p ∈ params) → Edits known t u →
      Edits known t (ps.foldl (addParam scope) (u, problems)).1 := by
    intro problems ps
    induction ps generalizing problems with
    | nil => exact fun u _ hu => hu
    | cons param rest ih =>
        intro u hmem hu
        obtain ⟨site, value⟩ := h param (hmem _ List.mem_cons_self)
        have hparam := @addParam_edits known u scope param problems site
          fun v hv => (value v hv).grows hu.grows.strings
        exact ih (addParam scope (u, problems) param).2 (addParam scope (u, problems) param).1
          (fun p hp => hmem p (List.mem_cons_of_mem _ hp)) (hu.trans hparam)
  exact (hfold [] params t (fun _ hp => hp) .refl).tail (.count scope _ _)

end SymbolTable

/-! ## Parameters and locals of a procedure -/

/-- A procedure without what is declared inside it. -/
def Procedure.shell (p : Procedure) : Procedure :=
  { p with namelist := .empty .scratch, locals := [], numArgs := 0, minArgs := 0 }

theorem Variable.withValue_label (v : Variable) (given : Option Value) :
    (v.withValue given).label = v.label := by
  cases given <;> rfl

namespace SymbolTable

variable {t u w : SymbolTable}

/-- Procedures keep their shells. -/
def SameShells (t u : SymbolTable) : Prop :=
  ∀ sc, (u.scope? sc).map Procedure.shell = (t.scope? sc).map Procedure.shell

namespace SameShells

theorem refl (t : SymbolTable) : t.SameShells t := fun _ => rfl

theorem trans (h₁ : t.SameShells u) (h₂ : u.SameShells w) : t.SameShells w :=
  fun sc => (h₂ sc).trans (h₁ sc)

theorem of_scope? (h : ∀ sc, u.scope? sc = t.scope? sc) : t.SameShells u :=
  fun sc => by rw [h]

theorem modifyScope {id : ScopeId} {f : Procedure → Procedure}
    (hf : ∀ p, (f p).shell = p.shell) : t.SameShells (t.modifyScope id f) := by
  intro sc
  by_cases hsc : sc = id
  · subst hsc
    rw [scope?_modifyScope_self]
    cases t.scope? sc <;> simp [hf]
  · rw [scope?_modifyScope_of_ne _ _ _ hsc]

theorem modifyVariable (symbol : Symbol) (f : Variable → Variable) :
    t.SameShells (t.modifyVariable symbol f) := by
  cases symbol with
  | global i => exact .of_scope? fun sc => by cases sc <;> rfl
  | inner scope i => exact modifyScope fun _ => rfl
  | proc i | builtin i => exact refl t

theorem declareVar {name : String} {scope : VarScope} {pos : Position} {symbol : Symbol}
    (h : t.declareVar name scope pos = .ok (symbol, u)) : t.SameShells u := by
  obtain ⟨_, handle, strings, _, _, rfl⟩ := declareVar_spec h
  exact .of_scope? fun sc => by cases sc <;> rfl

theorem declareLocal {name : String} {scope : ScopeId} {pos : Position} {symbol : Symbol}
    (h : t.declareLocal scope name pos = .ok (symbol, u)) : t.SameShells u := by
  obtain ⟨p, handle, namelist, _, _, _, _, rfl⟩ := declareLocal_spec h
  exact modifyScope fun _ => rfl

theorem declareIn {context : Option ScopeId} {scope : VarScope} {name : String}
    {pos : Position} {symbol : Symbol}
    (h : t.declareIn context scope name pos = .ok (symbol, u)) : t.SameShells u := by
  cases context with
  | none => exact declareVar h
  | some procedure => exact declareLocal h

/-- A procedure with its shell is there after what is there before. -/
theorem exists_of_some (h : t.SameShells u) {sc : ScopeId} {p : Procedure}
    (hp : t.scope? sc = some p) : ∃ q, u.scope? sc = some q ∧ q.shell = p.shell := by
  have hsc := h sc
  rw [hp] at hsc
  exact Option.map_eq_some_iff.mp hsc

theorem sameCode (h : t.SameShells u) : t.SameCode u := by
  intro sc
  have hcoding := congrArg (Option.map Procedure.coding) (h sc)
  rw [Option.map_map, Option.map_map] at hcoding
  exact hcoding

theorem procs_length (h : t.SameShells u) : u.procs.length = t.procs.length := by
  have hnone : ∀ i, t.procs.length ≤ i ↔ u.procs.length ≤ i := by
    intro i
    have hi : (u.procs[i]?).map Procedure.shell = (t.procs[i]?).map Procedure.shell :=
      h (.proc i)
    rw [← List.getElem?_eq_none_iff, ← List.getElem?_eq_none_iff]
    cases ht : t.procs[i]? <;> cases hu : u.procs[i]? <;> simp_all
  have hle := (hnone t.procs.length).mp (Nat.le_refl _)
  have hge := (hnone u.procs.length).mpr (Nat.le_refl _)
  omega

end SameShells

/-! ## Parameters -/

section Parameters

variable {scope : ScopeId} {params : List Param} {problems : List Diagnostic} {param : Param}

/-- A parameter is declared and given its value, or the table stays. -/
theorem addParam_cases : (addParam scope (t, problems) param).1 = t ∨ ∃ symbol u,
    t.declareLocal scope param.name param.pos = .ok (symbol, u) ∧
      (addParam scope (t, problems) param).1 =
        u.modifyVariable symbol (·.withValue param.default) := by
  unfold addParam
  cases h : t.declareLocal scope param.name param.pos with
  | error problem => exact .inl (by simp [h])
  | ok found => exact .inr ⟨found.1, found.2, rfl, by simp [h]⟩

/-- What holds across each parameter and across the count holds across them
all. -/
theorem setParams_induct {P : SymbolTable → Prop} (ht : P t)
    (hparam : ∀ u problems param, P u → P (addParam scope (u, problems) param).1)
    (hcount : ∀ u, P u → P (u.modifyScope scope fun p =>
      { p with numArgs := params.length, minArgs := Param.required params })) :
    P (t.setParams scope params).1 := by
  have hfold : ∀ (ps : List Param) (problems : List Diagnostic) (u : SymbolTable), P u →
      P (ps.foldl (addParam scope) (u, problems)).1 := by
    intro ps
    induction ps with
    | nil => exact fun _ _ hu => hu
    | cons param rest ih => exact fun problems u hu => ih _ _ (hparam u problems param hu)
  exact hcount _ (hfold params [] t ht)

theorem setParams_grows : t.Grows (t.setParams scope params).1 := by
  refine setParams_induct (P := t.Grows) (.refl t) ?_ ?_
  · intro u problems param hu
    obtain heq | ⟨symbol, v, hv, heq⟩ := @addParam_cases u scope problems param
    · rwa [heq]
    · rw [heq]
      exact (hu.trans (declareLocal_grows hv)).trans
        (extends_modifyVariable fun v => v.withValue_label _)
  · intro u hu
    exact hu.trans (extends_modifyScope (fun _ _ => rfl) fun _ _ _ => ⟨.refl _, List.prefix_rfl⟩)

theorem setParams_shells : t.SameShells (t.setParams scope params).1 := by
  refine setParams_induct (P := t.SameShells) (.refl t) ?_ ?_
  · intro u problems param hu
    obtain heq | ⟨symbol, v, hv, heq⟩ := @addParam_cases u scope problems param
    · rwa [heq]
    · rw [heq]
      exact (hu.trans (.declareLocal hv)).trans (.modifyVariable _ _)
  · exact fun u hu => hu.trans (.modifyScope fun _ => rfl)

/-- Names of parameters are texts of a namelist. -/
@[simp] theorem strings_addParam :
    (addParam scope (t, problems) param).1.strings = t.strings := by
  obtain heq | ⟨symbol, v, hv, heq⟩ := @addParam_cases t scope problems param
  · rw [heq]
  · obtain ⟨_, _, _, _, _, _, _, rfl⟩ := declareLocal_spec hv
    rw [heq, strings_modifyVariable, strings_modifyScope]

@[simp] theorem strings_setParams : (t.setParams scope params).1.strings = t.strings :=
  setParams_induct (P := fun u => u.strings = t.strings) rfl
    (fun _ _ _ hu => strings_addParam.trans hu)
    fun _ hu => (strings_modifyScope _ _ _).trans hu

end Parameters

end SymbolTable

end SslFrontend
