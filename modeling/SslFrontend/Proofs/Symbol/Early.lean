import SslFrontend.Parser.Declaration
import SslFrontend.Proofs.Symbol.Binds

/-! # What is said of a declaration

How symbols are used is not looked at when they are declared, nor whether each
procedure gets its body, nor whether there is anything that a name stands for.  So
nothing that the table has to say of a declaration is about these: that is left to
the end of the unit.
-/

namespace SslFrontend

/-- Whether something is found at the end of a unit only. -/
def Cause.isFinal : Cause → Bool
  | .wrongArity | .notProcedure | .badTarget | .exportWithoutBody | .neverDefined => true
  | _ => false

/-- A report that may be made before the unit was read. -/
def Diagnostic.Early (d : Diagnostic) : Prop := d.cause.isFinal = false

/-- Whether something is about the text that was just read: it is neither found at
the end only nor about a name that nothing declares. -/
def Cause.isPlain (cause : Cause) : Bool := !cause.isFinal && cause != .undeclared

abbrev Diagnostic.Plain (d : Diagnostic) : Prop := d.cause.isPlain = true

theorem Diagnostic.Plain.early {d : Diagnostic} (h : d.Plain) : d.Early := by
  unfold Diagnostic.Plain Cause.isPlain at h
  simp only [Bool.and_eq_true, Bool.not_eq_true'] at h
  exact h.1

theorem Diagnostic.Plain.declared {d : Diagnostic} (h : d.Plain) : d.cause ≠ .undeclared := by
  rintro hcause
  simp [Diagnostic.Plain, hcause, Cause.isPlain] at h

theorem Qualifiers.misplaced_plain (q : Qualifiers) (allowed : List Qualifier) (what : String) :
    ∀ d ∈ q.misplaced allowed what, d.Plain := by
  intro d hd
  obtain ⟨⟨qualifier, pos⟩, -, hsaid⟩ := List.mem_filterMap.mp hd
  dsimp only at hsaid
  split at hsaid <;> cases hsaid
  exact rfl

theorem Qualifiers.misplaced_early (q : Qualifiers) (allowed : List Qualifier) (what : String) :
    ∀ d ∈ q.misplaced allowed what, d.Early :=
  fun d hd => (q.misplaced_plain allowed what d hd).early

namespace Header

theorem settle_plain (header : Header) : ∀ d ∈ header.settle.2, d.Plain := by
  have hscope : ∀ d ∈ header.settleScope.2, d.Plain := by
    unfold settleScope
    split
    · exact List.forall_mem_singleton.mpr rfl
    · exact fun _ h => absurd h List.not_mem_nil
  have himport : ∀ header : Header, ∀ d ∈ header.settleImport.2, d.Plain := by
    intro header
    unfold settleImport
    split
    · exact List.forall_mem_singleton.mpr rfl
    · exact fun _ h => absurd h List.not_mem_nil
  exact List.forall_mem_append.mpr ⟨hscope, himport _⟩

end Header

namespace SymbolTable

variable {table table' : SymbolTable} {symbol : Symbol} {d : Diagnostic} {name : String}
  {pos : Position}

theorem declareVar_plain {kind : VarScope} (h : table.declareVar name kind pos = .error d) :
    d.Plain := by
  unfold declareVar at h
  split at h
  · cases h
    exact rfl
  · split at h <;> cases h
    exact rfl

/-- Only a scope that is not there makes a declaration out of place. -/
theorem declareLocal_plain {scope : ScopeId} (h : table.declareLocal scope name pos = .error d)
    (there : table.scope? scope ≠ none) : d.Plain := by
  unfold declareLocal at h
  split at h
  · exact absurd ‹_› there
  · split at h
    · cases h
      exact rfl
    · split at h <;> cases h
      exact rfl

theorem declareIn_plain {context : Option ScopeId} {kind : VarScope}
    (h : table.declareIn context kind name pos = .error d)
    (there : ∀ scope, context = some scope → table.scope? scope ≠ none) : d.Plain := by
  cases context with
  | none => exact declareVar_plain h
  | some scope => exact declareLocal_plain h (there scope rfl)

theorem declareLocal_early {scope : ScopeId} (h : table.declareLocal scope name pos = .error d) :
    d.Early := by
  cases hp : table.scope? scope with
  | some p => exact (declareLocal_plain h (by simp [hp])).early
  | none =>
      unfold declareLocal at h
      simp only [hp] at h
      cases h
      exact rfl

theorem declareIn_early {context : Option ScopeId} {kind : VarScope}
    (h : table.declareIn context kind name pos = .error d) : d.Early := by
  cases context with
  | none => exact (declareVar_plain h).early
  | some scope => exact declareLocal_early h

theorem scope?_ne_none_of_sameShells {t u : SymbolTable} {scope : ScopeId} (h : t.SameShells u)
    (there : t.scope? scope ≠ none) : u.scope? scope ≠ none := by
  intro hnone
  have hsame := h scope
  rw [hnone, Option.map_none] at hsame
  exact there (Option.map_eq_none_iff.mp hsame.symm)

theorem setParams_plain {scope : ScopeId} (params : List Param)
    (there : table.scope? scope ≠ none) : ∀ d ∈ (table.setParams scope params).2, d.Plain := by
  have hfold : ∀ (params : List Param) (state : SymbolTable × List Diagnostic),
      state.1.scope? scope ≠ none → (∀ d ∈ state.2, d.Plain) →
      ∀ d ∈ (params.foldl (addParam scope) state).2, d.Plain := by
    intro params
    induction params with
    | nil => exact fun _ _ h => h
    | cons param rest ih =>
        rintro ⟨table, problems⟩ there h
        have hshells : table.SameShells (addParam scope (table, problems) param).1 := by
          obtain heq | ⟨symbol, u, hu, heq⟩ := @addParam_cases table scope problems param
          · rw [heq]
            exact .refl _
          · rw [heq]
            exact (SameShells.declareLocal hu).trans (.modifyVariable _ _)
        refine ih _ (scope?_ne_none_of_sameShells hshells there) ?_
        unfold addParam
        dsimp only
        split
        · exact h
        · rename_i problem hproblem
          exact List.forall_mem_append.mpr
            ⟨h, List.forall_mem_singleton.mpr (declareLocal_plain hproblem there)⟩
  exact hfold params (table, []) there fun _ h => absurd h List.not_mem_nil

theorem declareFirst_plain (table : SymbolTable) (header : Header) :
    ∀ d ∈ (table.declareFirst header).problems, d.Plain := by
  unfold declareFirst
  split
  · exact List.forall_mem_singleton.mpr rfl
  · refine setParams_plain _ ?_
    simp [scope?]

theorem arityProblem_plain (procedure : Procedure) (header : Header) :
    ∀ d ∈ arityProblem procedure header, d.Plain := by
  unfold arityProblem
  split
  · exact fun _ h => absurd h List.not_mem_nil
  · exact List.forall_mem_singleton.mpr rfl

theorem mergeTrigger_plain (procedure : Procedure) (header : Header) :
    ∀ d ∈ (mergeTrigger procedure header).2, d.Plain := by
  unfold mergeTrigger
  split
  · exact List.forall_mem_singleton.mpr rfl
  · exact fun _ h => absurd h List.not_mem_nil

theorem mergeModifiers_plain (procedure : Procedure) (header : Header) :
    ∀ d ∈ (mergeModifiers procedure header).2, d.Plain := by
  unfold mergeModifiers
  dsimp only
  split
  · exact List.forall_mem_singleton.mpr rfl
  · exact fun _ h => absurd h List.not_mem_nil

theorem declareAgain_plain {index : Nat} {procedure : Procedure}
    (there : table.procs[index]? = some procedure) (header : Header) :
    ∀ d ∈ (table.declareAgain index procedure header).problems, d.Plain := by
  have hmerge := List.forall_mem_append.mpr ⟨List.forall_mem_append.mpr
    ⟨arityProblem_plain procedure header, mergeTrigger_plain procedure header⟩,
    mergeModifiers_plain procedure header⟩
  unfold declareAgain
  split
  · exact List.forall_mem_singleton.mpr rfl
  · dsimp only
    split
    · refine List.forall_mem_append.mpr
        ⟨List.forall_mem_append.mpr ⟨hmerge, ?_⟩, setParams_plain _ ?_⟩
      · split
        · exact List.forall_mem_singleton.mpr rfl
        · exact fun _ h => absurd h List.not_mem_nil
      · have hthere : table.scope? (.proc index) = some procedure := there
        rw [scope?_modifyScope_self, hthere]
        exact nofun
    · exact hmerge

theorem declare_plain (table : SymbolTable) (header : Header) :
    ∀ d ∈ (table.declare header).problems, d.Plain := by
  refine List.forall_mem_append.mpr ⟨header.settle_plain, ?_⟩
  unfold declareSettled
  split
  · split
    · exact declareAgain_plain ‹_› _
    · exact fun _ h => absurd h List.not_mem_nil
  · exact List.forall_mem_singleton.mpr rfl
  · exact declareFirst_plain _ _

theorem declare_early (table : SymbolTable) (header : Header) :
    ∀ d ∈ (table.declare header).problems, d.Early :=
  fun d hd => (table.declare_plain header d hd).early

theorem declareDiscarded_plain (table : SymbolTable) (header : Header) :
    match table.declareDiscarded header with
    | .error d => d.Plain
    | .ok (_, _, problems) => ∀ d ∈ problems, d.Plain := by
  unfold declareDiscarded
  cases (Pool.empty .scratch).intern header.name with
  | error error => exact rfl
  | ok found =>
      refine setParams_plain _ ?_
      simp [scope?]

/-- What keeps a variable from being declared is an error. -/
theorem isError_of_declareIn {context : Option ScopeId}
    {kind : VarScope} {name : String} {pos : Position} {d : Diagnostic}
    (h : table.declareIn context kind name pos = .error d) : d.isError = true := by
  cases context with
  | none =>
      unfold declareIn declareVar at h
      dsimp only at h
      split at h
      · cases h
        rfl
      · split at h
        · cases h
          rfl
        · cases h
  | some scope =>
      unfold declareIn declareLocal at h
      dsimp only at h
      split at h
      · cases h
        rfl
      · split at h
        · cases h
          rfl
        · split at h
          · cases h
            rfl
          · cases h

/-- A header is rejected with an error. -/
theorem isError_of_reject {header : Header} {named : Option Nat}
    (h : (table.declare header).verdict = .reject named) :
    ∃ d ∈ (table.declare header).problems, d.isError = true := by
  suffices hsettled : ∀ header : Header, (table.declareSettled header).verdict = .reject named →
      ∃ d ∈ (table.declareSettled header).problems, d.isError = true by
    obtain ⟨d, hd, he⟩ := hsettled header.settle.1 h
    exact ⟨d, List.mem_append_right _ hd, he⟩
  intro header h
  unfold declareSettled at h ⊢
  cases hl : table.lookupGlobal header.name with
  | none =>
      simp only [hl, declareFirst] at h ⊢
      cases hi : table.strings.intern header.name with
      | error e => exact ⟨_, List.mem_singleton.mpr rfl, rfl⟩
      | ok found =>
          simp only [hi] at h
          split at h <;> cases h
  | some existing =>
      cases existing with
      | proc index =>
          obtain ⟨p, hp⟩ : ∃ p, table.procs[index]? = some p := by
            obtain ⟨handle, -, ⟨i, -, hs⟩ | ⟨-, i, hindex, hs⟩⟩ := lookupGlobal_eq_some.mp hl
            · cases hs
            · cases hs
              obtain ⟨p, hp, -⟩ := getElem?_of_findIdx? hindex
              exact ⟨p, hp⟩
          simp only [hl, hp] at h ⊢
          unfold declareAgain at h ⊢
          split at h
          · rename_i hdefined
            rw [if_pos hdefined]
            exact ⟨_, List.mem_singleton.mpr rfl, rfl⟩
          · dsimp only at h
            split at h <;> cases h
      | global i => exact ⟨_, List.mem_singleton.mpr rfl, rfl⟩
      | inner scope i => exact ⟨_, List.mem_singleton.mpr rfl, rfl⟩
      | builtin i => exact ⟨_, List.mem_singleton.mpr rfl, rfl⟩

/-- A scope for a rejected header is refused with an error. -/
theorem isError_of_declareDiscarded {header : Header}
    (h : table.declareDiscarded header = .error d) : d.isError = true := by
  unfold declareDiscarded at h
  split at h
  · cases h
    rfl
  · cases h

theorem declareDiscarded_early (table : SymbolTable) (header : Header) :
    match table.declareDiscarded header with
    | .error d => d.Early
    | .ok (_, _, problems) => ∀ d ∈ problems, d.Early := by
  have hplain := table.declareDiscarded_plain header
  cases hd : table.declareDiscarded header with
  | error d =>
      rw [hd] at hplain
      exact Diagnostic.Plain.early hplain
  | ok found =>
      rw [hd] at hplain
      exact fun d hmem => (hplain d hmem).early

end SymbolTable

end SslFrontend
