import SslFrontend.Proofs.Along.Units
import SslFrontend.Proofs.Postfix.Resolved
import SslFrontend.Proofs.Run.Finish
import SslFrontend.Proofs.Symbol.Reclosed

/-! # Finishing a draft whose body ends elsewhere

Where a body ends is kept in its last node, a `Return`, and in the end of its
span.  Finishing a draft does not look at either: the module has the end of the
body where the draft has it, and is the same besides
(`Draft.finish_reclosed`).
-/

namespace SslFrontend

/-- What has a span returns at its end. -/
def Procedure.Returns (p : Procedure) : Prop :=
  p.span.isSome = true → ∃ code last, p.body = code ++ [⟨.ret, .int 0, last⟩]

namespace SymbolTable

/-- Every body returns at its end. -/
def Returning (t : SymbolTable) : Prop := ∀ sc p, t.scope? sc = some p → p.Returns

namespace Returning

variable {t u : SymbolTable}

theorem empty : SymbolTable.empty.Returning := by
  intro sc p hp
  cases sc <;> simp [scope?, SymbolTable.empty] at hp

theorem sameCode (h : t.Returning) (hs : t.SameCode u) : u.Returning := by
  intro sc q hq
  obtain ⟨p, hp, hcoding⟩ := hs.back hq
  simp only [Procedure.coding, Prod.mk.injEq] at hcoding
  obtain ⟨hbody, -, -, hspan⟩ := hcoding
  unfold Procedure.Returns
  rw [hbody, hspan]
  exact h sc p hp

theorem of_header {header : Header} (h : t.Returning)
    (hcoding : ∀ {sc q}, u.scope? sc = some q →
      (∃ p, t.scope? sc = some p ∧ Recoded header p q) ∨
        (t.scope? sc = none ∧ Blank header q)) : u.Returning := by
  intro sc q hq
  unfold Procedure.Returns
  rcases hcoding hq with ⟨p, hp, hrecoded⟩ | ⟨-, hblank⟩
  · rw [hrecoded.body, hrecoded.span]
    exact h sc p hp
  · rw [hblank.span]
    exact nofun

theorem attach (h : t.Returning) (scope : ScopeId) (code : Code) (start finish : Position) :
    (t.modifyScope scope (·.withBody code start finish)).Returning := by
  intro sc q hq
  by_cases hsc : sc = scope
  · subst hsc
    rw [scope?_modifyScope_self] at hq
    obtain ⟨p, -, rfl⟩ := Option.map_eq_some_iff.mp hq
    exact fun _ => ⟨code, finish, rfl⟩
  · rw [scope?_modifyScope_of_ne _ _ _ hsc] at hq
    exact h sc q hq

theorem throughout : HoldsThroughout fun s t => s.table.Returning → t.table.Returning where
  inside scope :=
    { refl := fun _ => id
      trans := fun h₁ h₂ h => h₂ (h₁ h)
      move := fun _ _ _ => id
      report := fun _ _ => id
      intern := fun _ _ _ _ _ h => h.sameCode (SameShells.of_scope? fun sc => by
        cases sc <;> rfl).sameCode
      adjust := fun _ _ _ _ _ _ h => h.sameCode (SameShells.modifyVariable _ _).sameCode
      mention := fun s _ _ h => by
        rw [ParserState.mentioned_table]
        exact h
      declare := fun _ _ _ _ _ _ _ hd h => h.sameCode (SameShells.declareIn hd).sameCode }
  reserve _ := id
  recordAt _ _ _ _ _ := id
  declare s header h := h.of_header (declare_spec s.table header).coding
  disown _ _ _ _ _ hd h := h.of_header (declareDiscarded_coding hd)
  attach _ scope start finish code h := h.attach scope code start finish

end Returning

end SymbolTable

theorem TokenStream.draft_returning (stream : TokenStream) : stream.draft.table.Returning := by
  rw [stream.draft_table]
  exact SymbolTable.Returning.throughout.items_along _ .empty

/-! ## Changes at one place -/

section Lists

variable {α β : Type} {l : List α} {i : Nat} {f : α → α}

/-- A change before is a change behind. -/
theorem mapIdx_modify_comm {g : Nat → α → β} {f' : β → β}
    (h : ∀ k a, l[k]? = some a → g k (f a) = f' (g k a)) :
    (l.modify i f).mapIdx g = (l.mapIdx g).modify i f' := by
  apply List.ext_getElem?
  intro k
  rw [List.getElem?_mapIdx, List.getElem?_modify, List.getElem?_modify, List.getElem?_mapIdx]
  cases hk : l[k]? with
  | none => rfl
  | some a =>
      by_cases hik : i = k
      · simp [hik, h k a hk]
      · simp [hik]

theorem map_modify_comm {g : α → β} {f' : β → β} (h : ∀ a ∈ l, g (f a) = f' (g a)) :
    (l.modify i f).map g = (l.map g).modify i f' := by
  have hmap : ∀ l : List α, l.map g = l.mapIdx fun _ => g :=
    fun l => List.ext_getElem? fun k => by rw [List.getElem?_map, List.getElem?_mapIdx]
  rw [hmap, hmap]
  exact mapIdx_modify_comm fun k a hk => h a (List.mem_of_getElem? hk)

end Lists

/-! ## Codes that end with a `Return` -/

namespace Procedure

variable {p : Procedure} (finish : Position) (found : List (Option Symbol))

theorem Returns.reclosed_eq (h : p.Returns) {first last : Position}
    (hspan : p.span = some (first, last)) :
    ∃ code last', p.body = code ++ [⟨.ret, .int 0, last'⟩] ∧
      (p.reclosed finish).body = code ++ [⟨.ret, .int 0, finish⟩] := by
  obtain ⟨code, last', hbody⟩ := h (by rw [hspan]; rfl)
  refine ⟨code, last', hbody, ?_⟩
  unfold reclosed
  rw [hspan, hbody]
  simp

theorem resolved_ret (code : Code) (last : Position) :
    Code.resolved found (code ++ [⟨.ret, .int 0, last⟩]) =
      Code.resolved found code ++ [⟨.ret, .int 0, last⟩] := by
  rw [Code.resolved_append found (Code.startsFresh_cons rfl []),
    Code.resolved_singleton found (by simp) rfl]

theorem Returns.resolved (h : p.Returns) : (p.resolved found).Returns := by
  intro hspan
  obtain ⟨code, last, hbody⟩ := h hspan
  refine ⟨Code.resolved found code, last, ?_⟩
  rw [← resolved_ret, ← hbody]
  rfl

theorem Returns.resolved_reclosed (h : p.Returns) :
    (p.reclosed finish).resolved found = (p.resolved found).reclosed finish := by
  cases hspan : p.span with
  | none =>
      unfold reclosed Procedure.resolved
      simp only [hspan]
  | some ends =>
      obtain ⟨code, last, hbody⟩ := h (by rw [hspan]; rfl)
      unfold reclosed Procedure.resolved
      simp only [hspan, hbody, List.dropLast_concat, resolved_ret]

end Procedure

/-! ## Uses -/

namespace SymbolTable

variable (t : SymbolTable) (scope : ScopeId) (finish : Position)

/-- What a scope is asked for, if not where its body ends. -/
theorem scope?_map_reclosed {α : Type} {f : Procedure → α}
    (hf : ∀ p : Procedure, f (p.reclosed finish) = f p) (sc : ScopeId) :
    ((t.reclosed scope finish).scope? sc).map f = (t.scope? sc).map f := by
  rcases t.scope?_reclosed scope finish sc with h | h
  · rw [h]
  · rw [h, Option.map_map]
    exact congrArg (fun f => (t.scope? sc).map f) (funext hf)

@[simp] theorem nameOf_reclosed (symbol : Symbol) :
    (t.reclosed scope finish).nameOf symbol = t.nameOf symbol := by
  cases symbol with
  | global i => simp [nameOf]
  | builtin i => rfl
  | proc i =>
      have hname := t.scope?_map_reclosed scope finish
        (f := fun p => t.strings.lookup p.name) (by simp) (.proc i)
      unfold nameOf
      rw [strings_reclosed]
      exact congrArg (·.getD "") hname
  | inner sc i =>
      have hlocal : (Procedure.localName? · i) ∘ Procedure.reclosed finish =
          (Procedure.localName? · i) := by
        funext p
        simp [Procedure.localName?]
      show (((t.reclosed scope finish).scope? sc).bind (Procedure.localName? · i)).getD "" =
        ((t.scope? sc).bind (Procedure.localName? · i)).getD ""
      rcases t.scope?_reclosed scope finish sc with h | h
      · rw [h]
      · rw [h, Option.bind_map, hlocal]

@[simp] theorem arity?_reclosed (symbol : Symbol) :
    (t.reclosed scope finish).arity? symbol = t.arity? symbol := by
  cases symbol with
  | proc i =>
      exact t.scope?_map_reclosed scope finish
        (f := fun p => (⟨p.minArgs, p.numArgs, some p.declared⟩ : Arity)) (by simp) (.proc i)
  | _ => rfl

@[simp] theorem useProblem?_reclosed (symbol : Symbol) (pos : Position) (user : Node) :
    (t.reclosed scope finish).useProblem? symbol pos user = t.useProblem? symbol pos user := by
  unfold useProblem? callProblem?
  simp

@[simp] theorem useProblems_reclosed (context : Option ScopeId) (code : Code) :
    (t.reclosed scope finish).useProblems context code = t.useProblems context code := by
  have hcons : ∀ (u : SymbolTable) (operand user : Node) (rest : Code),
      u.useProblems context (operand :: user :: rest) =
        ((operand.symbol? context).bind (u.useProblem? · operand.pos user)).toList ++
          u.useProblems context (user :: rest) := fun _ _ _ _ => rfl
  induction code with
  | nil => rfl
  | cons operand rest ih =>
      cases rest with
      | nil => rfl
      | cons user rest =>
          rw [hcons, hcons, ih]
          simp only [useProblem?_reclosed]

/-- A `Return` uses nothing. -/
theorem useProblems_ret (context : Option ScopeId) (code : Code) (first second : Position) :
    t.useProblems context (code ++ [⟨.ret, .int 0, first⟩]) =
      t.useProblems context (code ++ [⟨.ret, .int 0, second⟩]) := by
  induction code with
  | nil => rfl
  | cons operand rest ih =>
      cases rest with
      | nil => rfl
      | cons user rest =>
          exact congrArg (((operand.symbol? context).bind
            (t.useProblem? · operand.pos user)).toList ++ ·) ih

@[simp] theorem procedureProblems_reclosed (sc : ScopeId) (p : Procedure) :
    (t.reclosed scope finish).procedureProblems sc p = t.procedureProblems sc p := by
  unfold procedureProblems
  simp

theorem procedureProblems_ends {p : Procedure} (h : p.Returns) (sc : ScopeId) :
    t.procedureProblems sc (p.reclosed finish) = t.procedureProblems sc p := by
  unfold procedureProblems
  rw [Procedure.trigger_reclosed]
  cases hspan : p.span with
  | none =>
      unfold Procedure.reclosed
      simp only [hspan]
  | some ends =>
      obtain ⟨code, last, hbody, hbody'⟩ := h.reclosed_eq finish hspan
      rw [hbody, hbody', t.useProblems_ret (some sc) code finish last]

/-- What is wrong with uses does not depend on where a body ends. -/
theorem allUseProblems_reclosed (h : t.Returning) (main : Code) :
    (t.reclosed scope finish).allUseProblems main = t.allUseProblems main := by
  have hpart : ∀ (l l' : List Procedure) (sc : Nat → ScopeId), (∀ k, l[k]? = t.scope? (sc k)) →
      (∀ k, l'[k]? = (t.reclosed scope finish).scope? (sc k)) →
      l'.mapIdx (fun i p => (t.reclosed scope finish).procedureProblems (sc i) p) =
        l.mapIdx fun i p => t.procedureProblems (sc i) p := by
    intro l l' sc hl hl'
    refine List.ext_getElem? fun k => ?_
    rw [List.getElem?_mapIdx, List.getElem?_mapIdx, hl, hl']
    cases hp : t.scope? (sc k) with
    | none => rcases t.scope?_reclosed scope finish (sc k) with h | h <;> rw [h, hp] <;> rfl
    | some p =>
        have hends := t.procedureProblems_ends finish (h _ p hp) (sc k)
        rcases t.scope?_reclosed scope finish (sc k) with h | h <;> rw [h, hp] <;> simp [hends]
  have hprocs := hpart t.procs (t.reclosed scope finish).procs .proc (fun _ => rfl) fun _ => rfl
  have hdiscarded := hpart t.discarded (t.reclosed scope finish).discarded .discarded
    (fun _ => rfl) fun _ => rfl
  unfold allUseProblems
  rw [useProblems_reclosed, hprocs, hdiscarded]

/-! ## Ends of a unit -/

theorem closeProcedure_reclosed (p : Procedure) :
    closeProcedure (p.reclosed finish) = (closeProcedure p).reclosed finish := by
  unfold closeProcedure
  rw [Procedure.defined_reclosed]
  split
  · rfl
  · obtain ⟨_, _, _, _, _, _, _, _, _, _, _, span, _⟩ := p
    cases span <;> rfl

theorem checkDefinitions_reclosed : (t.reclosed scope finish).checkDefinitions =
    (t.checkDefinitions.1.reclosed scope finish, t.checkDefinitions.2) := by
  have hproblem : ∀ p : Procedure, undefinedProblem? (t.strings.lookup (p.reclosed finish).name)
      (p.reclosed finish) = undefinedProblem? (t.strings.lookup p.name) p := by
    intro p
    unfold undefinedProblem?
    simp
  cases scope with
  | discarded i => rfl
  | proc i =>
      refine Prod.ext ?_ ?_
      · exact congrArg (fun procs => { t with procs := procs })
          (map_modify_comm fun p _ => closeProcedure_reclosed finish p)
      · have hmap : ∀ procs : List Procedure, procs.filterMap
            (fun p => undefinedProblem? (t.strings.lookup p.name) p) =
            (procs.map fun p => undefinedProblem? (t.strings.lookup p.name) p).filterMap id :=
          fun procs => by rw [List.filterMap_map]; rfl
        show (t.procs.modify i (·.reclosed finish)).filterMap
          (fun p => undefinedProblem? (t.strings.lookup p.name) p) = _
        rw [hmap, map_modify fun p _ => hproblem p, ← hmap]
        rfl

theorem resolved_reclosed (h : t.Returning) (found : List (Option Symbol)) :
    (t.reclosed scope finish).resolved found = (t.resolved found).reclosed scope finish := by
  cases scope with
  | proc i =>
      have hprocs : (t.procs.modify i (·.reclosed finish)).map (·.resolved found) =
          (t.procs.map (·.resolved found)).modify i (·.reclosed finish) := by
        refine map_modify_comm fun p hp => ?_
        obtain ⟨k, hk⟩ := List.mem_iff_getElem?.mp hp
        exact (h (.proc k) p hk).resolved_reclosed finish found
      unfold reclosed modifyScope resolved
      simp only [hprocs]
  | discarded i =>
      have hdiscarded : (t.discarded.modify i (·.reclosed finish)).map (·.resolved found) =
          (t.discarded.map (·.resolved found)).modify i (·.reclosed finish) := by
        refine map_modify_comm fun p hp => ?_
        obtain ⟨k, hk⟩ := List.mem_iff_getElem?.mp hp
        exact (h (.discarded k) p hk).resolved_reclosed finish found
      unfold reclosed modifyScope resolved
      simp only [hdiscarded]

theorem distribute_reclosed (ledger : Ledger) :
    ledger.distribute (t.reclosed scope finish) =
      (ledger.distribute t).reclosed scope finish := by
  cases scope with
  | discarded i => rfl
  | proc i =>
      have hprocs : (t.procs.modify i (·.reclosed finish)).mapIdx
          (fun k p => Ledger.settleProcedure ledger.ordered k p) =
          (t.procs.mapIdx fun k p => Ledger.settleProcedure ledger.ordered k p).modify i
            (·.reclosed finish) := by
        refine mapIdx_modify_comm fun k p _ => ?_
        obtain ⟨_, _, _, _, _, _, _, _, _, _, _, span, _⟩ := p
        cases span <;> rfl
      unfold Ledger.distribute reclosed modifyScope
      simp only [hprocs]

end SymbolTable

namespace Draft

/-- The draft with the end of one body elsewhere. -/
def reclosed (d : Draft) (scope : ScopeId) (finish : Position) : Draft :=
  { d with table := d.table.reclosed scope finish }

end Draft

/-- The module with the end of one body elsewhere. -/
def Module.reclosed (m : Module) (scope : ScopeId) (finish : Position) : Module :=
  match scope with
  | .proc i => { m with procs := m.procs.modify i (·.reclosed finish) }
  | .discarded _ => m

namespace Draft

variable (d : Draft) (scope : ScopeId) (finish : Position)

theorem closed_reclosed : (d.reclosed scope finish).closed = d.closed.reclosed scope finish := by
  unfold closed reclosed
  rw [SymbolTable.checkDefinitions_reclosed]

theorem lookup_reclosed (context : Option ScopeId) (name : String) :
    (d.reclosed scope finish).closed.lookup context name = d.closed.lookup context name := by
  rw [closed_lookup, closed_lookup]
  unfold SymbolTable.lookup
  rw [reclosed, SymbolTable.lookupDeclared_reclosed]

theorem found_reclosed : (d.reclosed scope finish).found = d.found :=
  List.map_congr_left fun p _ => d.lookup_reclosed scope finish p.context p.name

theorem settleAll_reclosed : Pending.settleAll d.pending (d.reclosed scope finish).closed =
    Pending.settleAll d.pending d.closed := by
  have hsettle : Pending.settle (d.reclosed scope finish).closed = Pending.settle d.closed := by
    funext ledger p
    unfold Pending.settle
    rw [lookup_reclosed]
  unfold Pending.settleAll
  rw [hsettle]

variable {d}

theorem closed_returning (h : d.table.Returning) : d.closed.Returning := by
  intro sc p hp
  obtain ⟨f, hf⟩ := d.closed_scope? sc
  rw [hf] at hp
  obtain ⟨q, hq, rfl⟩ := Option.map_eq_some_iff.mp hp
  exact h sc q hq

theorem resolved_returning (h : d.table.Returning) : d.resolved.Returning := by
  have hmap : ∀ sc, d.resolved.scope? sc = (d.closed.scope? sc).map (·.resolved d.found) := by
    intro sc
    cases sc with
    | proc i => exact List.getElem?_map
    | discarded i => exact List.getElem?_map
  intro sc p hp
  rw [hmap] at hp
  obtain ⟨q, hq, rfl⟩ := Option.map_eq_some_iff.mp hp
  exact (closed_returning h sc q hq).resolved d.found

theorem resolved_reclosed (h : d.table.Returning) :
    (d.reclosed scope finish).resolved = d.resolved.reclosed scope finish := by
  unfold resolved
  rw [closed_reclosed, found_reclosed,
    SymbolTable.resolved_reclosed _ scope finish (closed_returning h)]

/-- What is reported does not depend on where a body ends. -/
theorem reports_reclosed (h : d.table.Returning) :
    (d.reclosed scope finish).reports = d.reports := by
  have hundeclared : Pending.problems d.pending (d.reclosed scope finish).closed =
      Pending.problems d.pending d.closed := by
    unfold Pending.problems
    refine congrArg (fun f => d.pending.names.filterMap f) (funext fun p => ?_)
    unfold Pending.problem?
    rw [lookup_reclosed]
  unfold reports
  rw [resolved_reclosed scope finish h, found_reclosed,
    SymbolTable.allUseProblems_reclosed _ _ _ (resolved_returning h)]
  show d.problems.items ++ ((d.table.reclosed scope finish).checkDefinitions.2 ++
    Pending.problems d.pending (d.reclosed scope finish).closed ++ _) = _
  rw [hundeclared, SymbolTable.checkDefinitions_reclosed]
  rfl

/-- The module has the end of the body where the draft has it. -/
theorem finish_reclosed (h : d.table.Returning) (files : FileTable) :
    ((d.reclosed scope finish).finish files).module =
      (d.finish files).module.reclosed scope finish := by
  have hmodule : ∀ d : Draft, (d.finish files).module =
      let settled := (d.pending.settleAll d.closed d.ledger).distribute d.resolved
      ⟨settled.procs, settled.vars, settled.strings, d.main.resolved d.found, files⟩ :=
    fun _ => rfl
  have hsettled : (Pending.settleAll d.pending (d.reclosed scope finish).closed
      d.ledger).distribute (d.reclosed scope finish).resolved =
      ((d.pending.settleAll d.closed d.ledger).distribute d.resolved).reclosed scope finish := by
    rw [settleAll_reclosed, resolved_reclosed scope finish h, SymbolTable.distribute_reclosed]
  rw [hmodule, hmodule, found_reclosed]
  show (let settled := (Pending.settleAll d.pending (d.reclosed scope finish).closed
      d.ledger).distribute (d.reclosed scope finish).resolved
    (⟨settled.procs, settled.vars, settled.strings, d.main.resolved d.found, files⟩ : Module)) = _
  rw [hsettled]
  cases scope <;> rfl

end Draft

end SslFrontend
