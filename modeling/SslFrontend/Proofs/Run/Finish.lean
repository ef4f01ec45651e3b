import SslFrontend.Proofs.Run.Coded
import SslFrontend.Proofs.Run.Module

/-! # From the draft to the module

When all items are read, names are resolved and references are distributed.
Each procedure and variable of the module comes from the one of the draft with
its index; what a run knows of the draft holds of the module.
-/

namespace SslFrontend

namespace Draft

variable (draft : Draft)

/-- The table when all definitions are checked. -/
def closed : SymbolTable := draft.table.checkDefinitions.1

/-- What the pending names turn out to be. -/
def found : List (Option Symbol) := draft.pending.resolutions draft.closed

/-- All mentions, in the order of the text. -/
def entries : List Entry := (draft.pending.settleAll draft.closed draft.ledger).ordered

/-- The table when all names are resolved. -/
def resolved : SymbolTable := draft.closed.resolved draft.found

variable {draft} {files : FileTable}

theorem finish_strings : (draft.finish files).module.strings = draft.table.strings := rfl

theorem finish_vars_length :
    (draft.finish files).module.vars.length = draft.table.vars.length := by
  have hvars : (draft.finish files).module.vars =
      draft.table.vars.mapIdx fun i v => Ledger.settleVariable draft.entries (.global i) v := rfl
  rw [hvars, List.length_mapIdx]

theorem finish_procs_length :
    (draft.finish files).module.procs.length = draft.table.procs.length := by
  have hprocs : (draft.finish files).module.procs =
      ((draft.table.procs.map SymbolTable.closeProcedure).map (·.resolved draft.found)).mapIdx
        fun i p => Ledger.settleProcedure draft.entries i p := rfl
  rw [hprocs, List.length_mapIdx, List.length_map, List.length_map]

theorem finish_procs : (draft.finish files).module.procs =
    draft.resolved.procs.mapIdx fun i p => Ledger.settleProcedure draft.entries i p := rfl

theorem finish_proc {i : Nat} {p : Procedure}
    (h : (draft.finish files).module.procs[i]? = some p) :
    ∃ q, draft.table.procs[i]? = some q ∧
      p = Ledger.settleProcedure draft.entries i
        ((SymbolTable.closeProcedure q).resolved draft.found) := by
  have hprocs : (draft.finish files).module.procs =
      ((draft.table.procs.map SymbolTable.closeProcedure).map (·.resolved draft.found)).mapIdx
        fun i p => Ledger.settleProcedure draft.entries i p := rfl
  rw [hprocs, List.getElem?_mapIdx, List.getElem?_map, List.getElem?_map] at h
  cases hq : draft.table.procs[i]? with
  | none => simp [hq] at h
  | some q => exact ⟨q, rfl, by simpa [hq] using h.symm⟩

theorem finish_var {i : Nat} {v : Variable}
    (h : (draft.finish files).module.vars[i]? = some v) :
    ∃ w, draft.table.vars[i]? = some w ∧
      v = Ledger.settleVariable draft.entries (.global i) w := by
  have hvars : (draft.finish files).module.vars =
      draft.table.vars.mapIdx fun i v => Ledger.settleVariable draft.entries (.global i) v := rfl
  rw [hvars, List.getElem?_mapIdx] at h
  cases hw : draft.table.vars[i]? with
  | none => simp [hw] at h
  | some w => exact ⟨w, rfl, by simpa [hw] using h.symm⟩

theorem finish_diagnostics : (draft.finish files).diagnostics =
    Queue.sorted ⟨draft.problems.items ++ (draft.table.checkDefinitions.2 ++
      draft.pending.problems draft.closed ++
      draft.resolved.allUseProblems (draft.main.resolved draft.found))⟩ := rfl

/-- Everything that is reported, before it is sorted. -/
def reports (draft : Draft) : List Diagnostic :=
  draft.problems.items ++ (draft.table.checkDefinitions.2 ++
    draft.pending.problems draft.closed ++
    draft.resolved.allUseProblems (draft.main.resolved draft.found))

theorem diagnostics_perm : (draft.finish files).diagnostics.Perm draft.reports :=
  Queue.sorted_perm ⟨draft.reports⟩

/-- What is reported: what was found while the unit was read, and what is wrong
with the unit as a whole. -/
theorem mem_diagnostics {d : Diagnostic} : d ∈ (draft.finish files).diagnostics ↔
    d ∈ draft.problems.items ∨ d ∈ draft.table.checkDefinitions.2 ∨
      d ∈ draft.pending.problems draft.closed ∨
      d ∈ draft.resolved.allUseProblems (draft.main.resolved draft.found) := by
  rw [finish_diagnostics, (Queue.sorted_perm _).mem_iff, List.mem_append, List.mem_append,
    List.mem_append, or_assoc]

/-! ## Looking names up at the end -/

/-- A procedure at the end is the one of the draft, with modifiers of its own. -/
theorem closed_scope? (sc : ScopeId) :
    ∃ f : Procedure → Modifiers, draft.closed.scope? sc =
      (draft.table.scope? sc).map fun p => { p with modifiers := f p } := by
  cases sc with
  | discarded i =>
      refine ⟨Procedure.modifiers, ?_⟩
      show draft.table.discarded[i]? = (draft.table.discarded[i]?).map fun p => p
      exact Option.map_id'.symm
  | proc i =>
      refine ⟨fun p => (SymbolTable.closeProcedure p).modifiers, ?_⟩
      show (draft.table.procs.map SymbolTable.closeProcedure)[i]? = draft.table.procs[i]?.map _
      rw [List.getElem?_map]
      exact congrArg (fun f => draft.table.procs[i]?.map f) (funext SymbolTable.closeProcedure_eq)

theorem closed_lookupLocal (sc : ScopeId) (name : String) :
    draft.closed.lookupLocal sc name = draft.table.lookupLocal sc name := by
  obtain ⟨f, hf⟩ := draft.closed_scope? sc
  unfold SymbolTable.lookupLocal
  rw [hf]
  cases draft.table.scope? sc <;> rfl

theorem closed_lookupGlobal (name : String) :
    draft.closed.lookupGlobal name = draft.table.lookupGlobal name := by
  have hprocs : ∀ handle : Handle, draft.closed.procs.findIdx? (·.name == handle) =
      draft.table.procs.findIdx? (·.name == handle) := by
    intro handle
    show (draft.table.procs.map SymbolTable.closeProcedure).findIdx? _ = _
    rw [List.findIdx?_map]
    refine congrArg (fun test => draft.table.procs.findIdx? test) (funext fun p => ?_)
    have hname : (SymbolTable.closeProcedure p).name = p.name := by rw [SymbolTable.closeProcedure_eq]
    show ((SymbolTable.closeProcedure p).name == handle) = _
    rw [hname]
  unfold SymbolTable.lookupGlobal
  simp only [hprocs]
  rfl

theorem closed_lookup (context : Option ScopeId) (name : String) :
    draft.closed.lookup context name = draft.table.lookup context name := by
  unfold SymbolTable.lookup SymbolTable.lookupDeclared
  rw [closed_lookupGlobal]
  cases context with
  | none => rfl
  | some sc =>
      simp only [Option.bind_some]
      rw [closed_lookupLocal]

theorem closed_declaration? (symbol : Symbol) :
    draft.closed.declaration? symbol = draft.table.declaration? symbol := by
  cases symbol with
  | global i => rfl
  | builtin i => rfl
  | proc i =>
      show ((draft.table.procs.map SymbolTable.closeProcedure)[i]?.map _) = _
      rw [List.getElem?_map]
      cases hp : draft.table.procs[i]? with
      | none => simp [SymbolTable.declaration?, hp]
      | some p =>
          have hlabel : (SymbolTable.closeProcedure p).label = p.label := by
            rw [SymbolTable.closeProcedure_eq]
            rfl
          simp only [SymbolTable.declaration?, hp, Option.map_some, hlabel]
          rfl
  | inner scope i =>
      obtain ⟨f, hf⟩ := draft.closed_scope? scope
      unfold SymbolTable.declaration?
      simp only
      rw [hf]
      cases draft.table.scope? scope <;> rfl

theorem closed_siteOf? (symbol : Symbol) :
    draft.closed.siteOf? symbol = draft.table.siteOf? symbol := by
  rw [SymbolTable.siteOf?_eq, SymbolTable.siteOf?_eq, closed_declaration?]

/-! ## Code that is kept -/

theorem resolved_scope? {sc : ScopeId} {p : Procedure} (h : draft.resolved.scope? sc = some p) :
    ∃ q, draft.table.scope? sc = some q ∧ p.body = q.body.resolved draft.found ∧
      p.trigger = q.trigger.resolved draft.found := by
  have hmap : draft.resolved.scope? sc =
      (draft.closed.scope? sc).map (·.resolved draft.found) := by
    cases sc with
    | proc i => exact List.getElem?_map
    | discarded i => exact List.getElem?_map
  rw [hmap] at h
  obtain ⟨f, hf⟩ := draft.closed_scope? sc
  rw [hf] at h
  cases hq : draft.table.scope? sc with
  | none =>
      rw [hq] at h
      cases h
  | some q =>
      rw [hq] at h
      obtain rfl := Option.some.inj h
      exact ⟨q, rfl, rfl, rfl⟩

end Draft

/-- The code that is left at the end with the context its names are read in: the
main code, the bodies, those of rejected headers among them, and the conditions. -/
inductive Draft.Keeps (draft : Draft) : Option ScopeId → Code → Prop where
  | main : draft.Keeps none (draft.main.resolved draft.found)
  | body {sc : ScopeId} {p : Procedure} (there : draft.resolved.scope? sc = some p) :
      draft.Keeps (some sc) p.body
  | condition {sc : ScopeId} {p : Procedure} {code : Code}
      (there : draft.resolved.scope? sc = some p) (trigger : p.trigger = .conditional code) :
      draft.Keeps none code

namespace Draft.Keeps

variable {draft : Draft} {files : FileTable}

theorem procedure {i : Nat} {p : Procedure}
    (h : (draft.finish files).module.procs[i]? = some p) :
    ∃ q, draft.resolved.scope? (.proc i) = some q ∧ p.body = q.body ∧ p.trigger = q.trigger := by
  rw [finish_procs, List.getElem?_mapIdx] at h
  obtain ⟨q, hq, rfl⟩ := Option.map_eq_some_iff.mp h
  exact ⟨q, hq, rfl, rfl⟩

theorem of_body {i : Nat} {p : Procedure}
    (h : (draft.finish files).module.procs[i]? = some p) :
    draft.Keeps (some (.proc i)) p.body := by
  obtain ⟨q, hq, hbody, _⟩ := procedure h
  rw [hbody]
  exact .body hq

theorem of_condition {i : Nat} {p : Procedure}
    (h : (draft.finish files).module.procs[i]? = some p) {code : Code}
    (hc : p.trigger = .conditional code) : draft.Keeps none code := by
  obtain ⟨q, hq, _, htrigger⟩ := procedure h
  exact .condition hq (htrigger ▸ hc)

end Draft.Keeps

/-- A procedure of the module with what it was in the draft. -/
structure Draft.Finished (draft : Draft) (i : Nat) (p q : Procedure) : Prop where
  there : draft.table.scope? (.proc i) = some q
  name : p.name = q.name
  namelist : p.namelist = q.namelist
  numArgs : p.numArgs = q.numArgs
  minArgs : p.minArgs = q.minArgs
  defined : p.defined = q.defined
  declared : p.declared = q.declared
  span : p.span = q.span
  body : p.body = q.body.resolved draft.found
  trigger : p.trigger = q.trigger.resolved draft.found
  locals : p.locals = q.locals.mapIdx fun k v =>
    Ledger.settleVariable draft.entries (.inner (.proc i) k) v
  references : p.references = Ledger.referencesIn draft.entries (.proc i)
  uses : p.uses = Ledger.usesIn draft.entries (.proc i)

theorem Draft.finished {draft : Draft} {files : FileTable} {i : Nat} {p : Procedure}
    (h : (draft.finish files).module.procs[i]? = some p) : ∃ q, draft.Finished i p q := by
  obtain ⟨q, hq, rfl⟩ := finish_proc h
  refine ⟨q, hq, ?_, ?_, ?_, ?_, ?_, ?_, ?_, ?_, ?_, ?_, rfl, rfl⟩
  all_goals
    unfold SymbolTable.closeProcedure
    split <;> rfl

theorem Draft.Finished.condition {draft : Draft} {i : Nat} {p q : Procedure}
    (h : draft.Finished i p q) {code : Code} (hc : p.trigger = .conditional code) :
    ∃ condition, q.trigger = .conditional condition ∧ code = condition.resolved draft.found := by
  rw [h.trigger] at hc
  cases hq : q.trigger with
  | none => rw [hq] at hc; cases hc
  | timed time => rw [hq] at hc; cases hc
  | conditional condition =>
      rw [hq] at hc
      cases hc
      exact ⟨condition, rfl, rfl⟩

end SslFrontend
