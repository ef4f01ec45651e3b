import Mathlib.Data.List.Chain
import SslFrontend.Parser.Module
import SslFrontend.Proofs.Include.Registered
import SslFrontend.Proofs.Run.Resolution

/-! # Proper use of symbols

A name that nothing declares and a use that does not fit are always errors.
Where no use is reported, each call has a callee that takes its arguments, each
store a variable in front of it, and each `@` a procedure of the script.

Where no error is reported, the code of the module is fully resolved and uses
every symbol as what it is: calls have callees that take their arguments,
stores have variables and `@` has procedures in front of them, and no procedure
is left on its own.  Main statement: `TokenStream.parse_properlyUsed`.
-/

namespace SslFrontend

/-! ## What the checks at the end find -/

theorem Arity.isError_problem (arity : Arity) (name : String) (count : Nat) (pos : Position) :
    (arity.problem name count pos).isError = true := by
  unfold problem
  simp only
  split <;> rfl

namespace Pending

variable {table : SymbolTable} {p : PendingName}

theorem isError_of_problem? {d : Diagnostic} (h : problem? table p = some d) :
    d.isError = true := by
  unfold problem? at h
  split at h
  · obtain rfl := Option.some.inj h
    rfl
  · cases h

/-- A name that is mentioned and not reported is declared. -/
theorem lookup_of_problem? (h : problem? table p = none) (hs : p.sites ≠ []) :
    ∃ symbol, table.lookup p.context p.name = some symbol := by
  cases hl : table.lookup p.context p.name with
  | some symbol => exact ⟨symbol, rfl⟩
  | none =>
      obtain ⟨site, rest, hsites⟩ := List.exists_cons_of_ne_nil hs
      simp [problem?, hl, hsites] at h

end Pending

namespace SymbolTable

variable {t : SymbolTable} {symbol : Symbol} {pos : Position} {user : Node} {d : Diagnostic}

theorem isError_of_callProblem? {count : Nat} (h : t.callProblem? symbol count pos = some d) :
    d.isError = true := by
  unfold callProblem? at h
  simp only at h
  split at h
  · obtain rfl := Option.some.inj h
    rfl
  · obtain rfl := Option.some.inj h
    rfl
  all_goals
    split at h
    · rename_i arity _
      split at h
      · cases h
      · obtain rfl := Option.some.inj h
        exact arity.isError_problem _ _ _
    · cases h

theorem isError_of_useProblem? (h : t.useProblem? symbol pos user = some d) :
    d.isError = true := by
  unfold useProblem? at h
  simp only at h
  split at h
  case h_1 => exact isError_of_callProblem? h
  case h_6 | h_8 => cases h
  all_goals
    obtain rfl := Option.some.inj h
    rfl

theorem isError_of_mem_useProblems {context : Option ScopeId} {code : Code}
    (h : d ∈ t.useProblems context code) : d.isError = true := by
  fun_induction useProblems t context code with
  | case1 operand user rest found ih =>
      rcases List.mem_append.mp h with hfound | hrest
      · obtain ⟨symbol, _, hproblem⟩ := Option.bind_eq_some_iff.mp (Option.mem_toList.mp hfound)
        exact isError_of_useProblem? hproblem
      · exact ih hrest
  | case2 => exact absurd h List.not_mem_nil

theorem isError_of_mem_allUseProblems {main : Code} (h : d ∈ t.allUseProblems main) :
    d.isError = true := by
  have hprocedure : ∀ {procs : List Procedure} {scope : Nat → ScopeId},
      d ∈ (procs.mapIdx fun i p => t.procedureProblems (scope i) p).flatten →
      d.isError = true := by
    intro procs scope hd
    obtain ⟨found, hfound, hd⟩ := List.mem_flatten.mp hd
    obtain ⟨i, hi, rfl⟩ := List.mem_mapIdx.mp hfound
    rcases List.mem_append.mp hd with hd | hd
    · exact isError_of_mem_useProblems hd
    · exact isError_of_mem_useProblems hd
  rcases List.mem_append.mp h with hd | hd
  · rcases List.mem_append.mp hd with hd | hd
    · exact isError_of_mem_useProblems hd
    · exact hprocedure hd
  · exact hprocedure hd

/-! ## Where nothing is reported -/

theorem useProblems_of_allUseProblems {main : Code} (h : t.allUseProblems main = []) :
    t.useProblems none main = [] ∧ ∀ scope p, t.scope? scope = some p →
      t.useProblems (some scope) p.body = [] ∧
        t.useProblems none (p.trigger.condition?.getD []) = [] := by
  obtain ⟨hfirst, hdiscarded⟩ := List.append_eq_nil_iff.mp h
  obtain ⟨hmain, hprocs⟩ := List.append_eq_nil_iff.mp hfirst
  have hprocedure : ∀ {procs : List Procedure} {scope : Nat → ScopeId} {i : Nat} {p : Procedure},
      (procs.mapIdx fun i p => t.procedureProblems (scope i) p).flatten = [] →
      procs[i]? = some p → t.procedureProblems (scope i) p = [] := by
    intro procs scope i p hall hp
    refine List.flatten_eq_nil_iff.mp hall _ ?_
    obtain ⟨hlt, rfl⟩ := List.getElem?_eq_some_iff.mp hp
    exact List.mem_mapIdx.mpr ⟨i, hlt, rfl⟩
  refine ⟨hmain, fun scope p hp => List.append_eq_nil_iff.mp ?_⟩
  cases scope with
  | proc i => exact hprocedure hprocs hp
  | discarded i => exact hprocedure hdiscarded hp

/-- Each node fits the symbol that the node in front of it names. -/
theorem isChain_of_useProblems {context : Option ScopeId} {code : Code}
    (h : t.useProblems context code = []) :
    code.IsChain fun operand user => ∀ symbol, operand.symbol? context = some symbol →
      t.useProblem? symbol operand.pos user = none := by
  fun_induction useProblems t context code with
  | case1 operand user rest found ih =>
      obtain ⟨hfound, hrest⟩ := List.append_eq_nil_iff.mp h
      refine .cons_cons (fun symbol hsymbol => ?_) (ih hrest)
      have hnone : found = none := by simpa using hfound
      unfold found at hnone
      rwa [hsymbol] at hnone
  | case2 code hshort =>
      match code with
      | [] => exact .nil
      | [node] => exact .singleton node
      | operand :: user :: rest => exact (hshort operand user rest rfl).elim

/-- A call that is not reported has a callee, and as many arguments as it takes. -/
theorem callee_of_useProblem? (hk : user.kind = .call)
    (h : t.useProblem? symbol pos user = none) :
    (∃ i, symbol = .proc i ∨ symbol = .builtin i) ∧ ∀ arity, t.arity? symbol = some arity →
      arity.admits (user.value.index?.getD 0) = true := by
  simp only [useProblem?, hk, callProblem?] at h
  cases symbol with
  | global i | inner scope i => cases h
  | proc i | builtin i =>
      refine ⟨⟨i, by simp⟩, fun arity harity => ?_⟩
      simpa [harity] using h

/-- A store that is not reported has a variable in front of it. -/
theorem target_of_useProblem? (hk : user.kind = .store ∨ user.kind = .storeIndex)
    (h : t.useProblem? symbol pos user = none) :
    (∃ i, symbol = .global i) ∨ ∃ scope i, symbol = .inner scope i := by
  cases symbol with
  | global i => exact .inl ⟨i, rfl⟩
  | inner scope i => exact .inr ⟨scope, i, rfl⟩
  | proc i | builtin i => rcases hk with hk | hk <;> simp [useProblem?, hk] at h

/-- An `@` that is not reported has a procedure of the script in front of it. -/
theorem procedure_of_useProblem? (hk : user.kind = .procAddr)
    (h : t.useProblem? symbol pos user = none) : ∃ i, symbol = .proc i := by
  cases symbol with
  | proc i => exact ⟨i, rfl⟩
  | global i | inner scope i | builtin i => simp [useProblem?, hk] at h

end SymbolTable

/-- Each node with a property stands right behind one that it fits. -/
def Code.EachBehind (user : Node → Prop) (fits : Node → Node → Prop) (code : Code) : Prop :=
  ∀ before node after, code = before ++ node :: after → user node →
    ∃ rest operand, before = rest ++ [operand] ∧ fits operand node

namespace Module

/-- Whether a callee takes a number of arguments. -/
def Takes (m : Module) (callee : Node) (count : Nat) : Prop :=
  (callee.kind = .proc ∧ ∃ i p, callee.value.index? = some i ∧ m.procs[i]? = some p ∧
    p.minArgs ≤ count ∧ count ≤ p.numArgs) ∨
  (callee.kind = .builtin ∧ ∃ i b, callee.value.index? = some i ∧ Builtin.get? i = some b ∧
    b.minArgs ≤ count ∧ count ≤ b.maxArgs)

/-- Code that is resolved and uses symbols as what they are. -/
structure UsesProperly (m : Module) (code : Code) : Prop where
  resolved : ∀ node ∈ code, node.kind ≠ .ident ∧ node.kind ≠ .error
  call : code.EachBehind (·.kind = .call) fun callee node =>
    ∃ count, node.value.index? = some count ∧ m.Takes callee count
  store : code.EachBehind (fun node => node.kind = .store ∨ node.kind = .storeIndex)
    fun target _ => target.kind = .globalVar ∨ target.kind = .localVar
  address : code.EachBehind (·.kind = .procAddr) fun callee _ => callee.kind = .proc
  taken : ∀ before callee after, code = before ++ callee :: after →
    callee.kind = .proc ∨ callee.kind = .builtin →
    ∃ user rest, after = user :: rest ∧ (user.kind = .call ∨ user.kind = .procAddr)

/-- All code of the module is resolved and uses symbols as what they are. -/
structure ProperlyUsed (m : Module) : Prop where
  main : m.UsesProperly m.main
  body : ∀ p ∈ m.procs, m.UsesProperly p.body
  condition : ∀ p ∈ m.procs, ∀ code, p.trigger = .conditional code → m.UsesProperly code

end Module

/-- A draft about which no error is reported. -/
structure Draft.Clean (draft : Draft) : Prop where
  problems : ∀ d ∈ draft.problems.items, d.isError = false
  pending : ∀ p ∈ draft.pending.names, Pending.problem? draft.closed p = none
  uses : draft.resolved.allUseProblems (draft.main.resolved draft.found) = []

theorem Draft.clean {draft : Draft} {files : FileTable}
    (h : ∀ d ∈ (draft.finish files).diagnostics, d.isError = false) : draft.Clean where
  problems d hd := h d (mem_diagnostics.mpr (.inl hd))
  pending p hp := by
    rw [Option.eq_none_iff_forall_ne_some]
    intro d hd
    have hmem : d ∈ draft.pending.problems draft.closed := List.mem_filterMap.mpr ⟨p, hp, hd⟩
    have hfalse := h d (mem_diagnostics.mpr (.inr (.inr (.inl hmem))))
    rw [Pending.isError_of_problem? hd] at hfalse
    cases hfalse
  uses := by
    rw [List.eq_nil_iff_forall_not_mem]
    intro d hd
    have hfalse := h d (mem_diagnostics.mpr (.inr (.inr (.inr hd))))
    rw [SymbolTable.isError_of_mem_allUseProblems hd] at hfalse
    cases hfalse

variable {stream : TokenStream} {x : Config stream} {context : Option ScopeId}

/-! ## Names -/

theorem Mentioned.Recorded.binding?_of_clean {e : Mentioned} (h : e.Recorded x) (hx : x.Ends)
    (hc : stream.draft.Clean) : ∃ symbol, stream.draft.binding? e = some symbol := by
  cases hb : stream.draft.binding? e with
  | some symbol => exact ⟨symbol, rfl⟩
  | none =>
      rw [Draft.binding?_eq] at hb
      obtain ⟨hnone, hlater⟩ := Option.or_eq_none_iff.mp hb
      obtain ⟨place, p, hp, hname, hcontext, _⟩ := h.late hnone
      have hmem : p ∈ x.state.pending.names := List.mem_of_getElem? hp
      obtain ⟨symbol, hfound⟩ := Pending.lookup_of_problem?
        (hc.pending p (hx.leaves.pending ▸ hmem)) (hx.known.sites p hmem).1
      rw [hname, hcontext, hlater] at hfound
      cases hfound

theorem Mentioned.Recorded.names {e : Mentioned} (h : e.Recorded x) (hx : x.Ends)
    (fits : stream.Fits) (hc : stream.draft.Clean) : ∃ symbol,
      e.node.resolved stream.draft.found = symbol.toNode e.pos ∧
        stream.draft.table.Holds e.scope symbol := by
  obtain ⟨symbol, hb⟩ := h.binding?_of_clean hx hc
  exact ⟨symbol, h.resolved_of_some hx fits hb, (h.offers hx hb).holds⟩

/-- Whatever a call, a store or an `@` takes names a symbol of the table. -/
theorem Config.Ends.taken_names (hx : x.Ends) (fits : stream.Fits) (hc : stream.draft.Clean)
    {node : Node} (h : node.From stream.draft.found (x.vocabulary context).Taken) :
    ∃ symbol, node = symbol.toNode node.pos ∧ stream.draft.table.Holds context symbol := by
  obtain ⟨source, ⟨_, ⟨e, he, rfl, rfl⟩ | ⟨hk, hown⟩⟩, rfl⟩ := h
  · obtain ⟨symbol, hnode, hholds⟩ := (hx.logged e he).names hx fits hc
    exact ⟨symbol, by rw [hnode]; rfl, hholds⟩
  · rw [Node.resolved_of_ne_ident _ (by rw [hk]; exact NodeKind.noConfusion)]
    obtain ⟨symbol, hnode, _, hholds⟩ := hx.own_holds hown
    exact ⟨symbol, hnode, hholds⟩

/-- A callee whose arity admits the arguments takes them in the module. -/
theorem Draft.takes {draft : Draft} {files : FileTable} {symbol : Symbol} {count : Nat}
    (hi : symbol.index ≤ Value.maxIndex) (hholds : draft.table.Holds context symbol)
    (hcallee : ∃ i, symbol = .proc i ∨ symbol = .builtin i)
    (hadmits : ∀ arity, draft.resolved.arity? symbol = some arity → arity.admits count = true)
    (pos : Position) : (draft.finish files).module.Takes (symbol.toNode pos) count := by
  have hindex := Value.index?_ofIndex hi
  obtain ⟨i, rfl | rfl⟩ := hcallee
  · have hlt : i < draft.resolved.procs.length := by
      have hlength : draft.resolved.procs.length = draft.table.procs.length := by
        rw [← @finish_procs_length draft files, finish_procs, List.length_mapIdx]
      exact hlength ▸ hholds.2
    have hthere := List.getElem?_eq_getElem hlt
    have hcount := hadmits _ (by rw [SymbolTable.arity?, hthere]; rfl)
    simp only [Arity.admits, Bool.and_eq_true, decide_eq_true_eq] at hcount
    refine .inl ⟨rfl, i, Ledger.settleProcedure draft.entries i draft.resolved.procs[i],
      hindex, ?_, hcount⟩
    rw [finish_procs, List.getElem?_mapIdx, hthere]
    rfl
  · have hlt : i < Builtin.all.length := hholds.2
    have hthere : Builtin.get? i = some Builtin.all[i] := List.getElem?_eq_getElem hlt
    have hcount := hadmits _ (by rw [SymbolTable.arity?, hthere]; rfl)
    simp only [Arity.admits, Bool.and_eq_true, decide_eq_true_eq] at hcount
    exact .inr ⟨rfl, i, _, hindex, hthere, hcount⟩

/-! ## Code -/

/-- Nothing was wrong with the input. -/
theorem Config.Ends.not_blamed (hx : x.Ends) (hr : stream.Reported) (hc : stream.draft.Clean) :
    ¬x.Blamed := by
  have hkept : ∀ d ∈ x.state.problems.items, d.isError ≠ true := by
    intro d hd
    rw [hc.problems d (hx.leaves.problems.subset hd)]
    exact Bool.noConfusion
  rintro (⟨d, hd, herror⟩ | ⟨token, ht, hinvalid⟩)
  · exact hkept d hd herror
  · obtain ⟨d, hd, herror⟩ := hr token ht hinvalid
    exact hkept d (hx.steps.extends_any.problems.subset hd) herror

namespace Draft.Keeps

variable {code : Code}

theorem resolved (hx : x.Completes) (fits : stream.Fits) (hr : stream.Reported)
    (hc : stream.draft.Clean) (h : stream.draft.Keeps context code) :
    ∀ node ∈ code, node.kind ≠ .ident ∧ node.kind ≠ .error := by
  intro node hnode
  cases h.gives hx node hnode with
  | literal kind leaf =>
      obtain ⟨_, _, _, hblamed⟩ := leaf
      exact ⟨NodeKind.ne_ident_of_isLiteral kind, fun herror =>
        hx.not_blamed hr hc (hblamed herror)⟩
  | @name source _ leaf hresolved =>
      obtain ⟨e, he, _, rfl⟩ := leaf
      obtain ⟨symbol, hsymbol, _⟩ := (hx.logged e he).names hx.toEnds fits hc
      rw [hresolved, hsymbol]
      cases symbol <;> exact ⟨nofun, nofun⟩
  | own kind _ =>
      rw [kind]
      exact ⟨nofun, nofun⟩
  | operation kind _ _ =>
      refine ⟨NodeKind.ne_ident_of_isOperation kind, fun herror => ?_⟩
      rw [herror] at kind
      cases kind

theorem useProblems (hc : stream.draft.Clean) (h : stream.draft.Keeps context code) :
    stream.draft.resolved.useProblems context code = [] := by
  obtain ⟨hmain, hprocs⟩ := SymbolTable.useProblems_of_allUseProblems hc.uses
  cases h with
  | main => exact hmain
  | body there => exact (hprocs _ _ there).1
  | condition there trigger =>
      have hcondition := (hprocs _ _ there).2
      rwa [trigger] at hcondition

theorem served (hx : x.Completes) (h : stream.draft.Keeps context code) :
    code.Served stream.draft.found (x.vocabulary context).Taken := by
  obtain ⟨source, rfl, hemits⟩ := h.emitted hx
  exact hemits.served stream.draft.found

/-- Whatever takes something stands right behind a symbol of the table, and fits
it. -/
theorem uses (hx : x.Completes) (fits : stream.Fits) (hc : stream.draft.Clean)
    (h : stream.draft.Keeps context code) {before after : Code} {user : Node}
    (hcode : code = before ++ user :: after) (ht : user.kind.takesCallee = true) :
    ∃ rest symbol pos, before = rest ++ [symbol.toNode pos] ∧
      stream.draft.table.Holds context symbol ∧
      stream.draft.resolved.useProblem? symbol pos user = none := by
  have hserved := h.served hx
  have hproblems := SymbolTable.isChain_of_useProblems (h.useProblems hc)
  rcases List.eq_nil_or_concat before with rfl | ⟨rest, operand, rfl⟩
  · rw [hserved.fresh user (by rw [hcode]; rfl)] at ht
    cases ht
  · have hsplit : code = rest ++ operand :: user :: after := by simpa using hcode
    have hlink := List.isChain_iff_forall_rel_of_append_cons_cons.mp hserved.links hsplit
    have huse := List.isChain_iff_forall_rel_of_append_cons_cons.mp hproblems hsplit
    obtain ⟨symbol, hnode, hholds⟩ := hx.taken_names fits hc (hlink.1 ht)
    refine ⟨rest, symbol, operand.pos, by rw [← hnode, List.concat_eq_append], hholds,
      huse symbol ?_⟩
    rw [hnode]
    exact Symbol.symbol?_toNode hholds.1 (hholds.index_le hx.bounded fits) operand.pos

/-- Nodes that take something stand behind what suits them. -/
theorem eachBehind (hx : x.Completes) (fits : stream.Fits) (hc : stream.draft.Clean)
    (h : stream.draft.Keeps context code) {user : Node → Prop}
    {suits : Node → Node → Prop} (takes : ∀ node, user node → node.kind.takesCallee = true)
    (hsuits : ∀ symbol pos, ∀ node ∈ code, user node →
      stream.draft.table.Holds context symbol →
      stream.draft.resolved.useProblem? symbol pos node = none →
      suits (symbol.toNode pos) node) : code.EachBehind user suits := by
  intro before node after hcode hnode
  obtain ⟨rest, symbol, pos, hbefore, hholds, hproblem⟩ :=
    h.uses hx fits hc hcode (takes node hnode)
  have hmem : node ∈ code := by
    rw [hcode]
    exact List.mem_append_right _ List.mem_cons_self
  exact ⟨rest, _, hbefore, hsuits symbol pos node hmem hnode hholds hproblem⟩

theorem count (hx : x.Completes) (h : stream.draft.Keeps context code) {node : Node}
    (hnode : node ∈ code) (hk : node.kind = .call) : ∃ count, node.value.index? = some count := by
  cases h.gives hx node hnode with
  | literal kind _ =>
      rw [hk] at kind
      cases kind
  | @name source kind _ hresolved =>
      have htakes := Node.resolved_takesCallee stream.draft.found source
      rw [← hresolved, hk, NodeKind.takesCallee_of_isMention kind] at htakes
      cases htakes
  | own kind _ =>
      rw [hk] at kind
      cases kind
  | operation _ count _ => exact count

/-- Behind each procedure stands what takes it. -/
theorem taken (hx : x.Completes) (fits : stream.Fits) (hc : stream.draft.Clean)
    (h : stream.draft.Keeps context code) {before after : Code} {callee : Node}
    (hcode : code = before ++ callee :: after) (hk : callee.kind = .proc ∨ callee.kind = .builtin) :
    ∃ user rest, after = user :: rest ∧ (user.kind = .call ∨ user.kind = .procAddr) := by
  have hserved := h.served hx
  have hcallable : callee.kind.isCallable = true := by
    rcases hk with hk | hk <;> rw [hk] <;> rfl
  cases after with
  | nil =>
      rw [hserved.last callee (by rw [hcode]; simp)] at hcallable
      cases hcallable
  | cons user rest =>
      refine ⟨user, rest, rfl, ?_⟩
      have hlink := List.isChain_iff_forall_rel_of_append_cons_cons.mp hserved.links hcode
      have htakes := hlink.2 hcallable
      have hsplit : code = (before ++ [callee]) ++ user :: rest := by simpa using hcode
      obtain ⟨_, symbol, pos, hbefore, _, hproblem⟩ := h.uses hx fits hc hsplit htakes
      obtain rfl : callee = symbol.toNode pos := by simpa using (List.append_inj' hbefore rfl).2
      -- Of the nodes that take a callee, a store is ruled out by its own check.
      have hnotStored : ¬(user.kind = .store ∨ user.kind = .storeIndex) := by
        intro hstore
        rcases SymbolTable.target_of_useProblem? hstore hproblem with ⟨_, rfl⟩ | ⟨_, _, rfl⟩
        · cases hcallable
        · cases hcallable
      revert htakes hnotStored
      cases user.kind <;> simp [NodeKind.takesCallee]

/-- Code that is kept without an error uses its symbols properly. -/
theorem usesProperly (hx : x.Completes) (fits : stream.Fits) (hr : stream.Reported)
    (hc : stream.draft.Clean) (h : stream.draft.Keeps context code) :
    stream.parse.module.UsesProperly code where
  resolved := h.resolved hx fits hr hc
  call := by
    refine h.eachBehind hx fits hc (fun node hk => by rw [hk]; rfl) ?_
    intro symbol pos node hnode hk hholds hproblem
    obtain ⟨count, hcount⟩ := h.count hx hnode hk
    obtain ⟨hcallee, hadmits⟩ := SymbolTable.callee_of_useProblem? hk hproblem
    rw [hcount] at hadmits
    exact ⟨count, hcount, Draft.takes (hholds.index_le hx.bounded fits) hholds hcallee hadmits pos⟩
  store := by
    refine h.eachBehind hx fits hc (fun node hk => ?_) ?_
    · rcases hk with hk | hk <;> rw [hk] <;> rfl
    · intro symbol pos node _ hk _ hproblem
      rcases SymbolTable.target_of_useProblem? hk hproblem with ⟨i, rfl⟩ | ⟨scope, i, rfl⟩
      · exact .inl rfl
      · exact .inr rfl
  address := by
    refine h.eachBehind hx fits hc (fun node hk => by rw [hk]; rfl) ?_
    intro symbol pos node _ hk _ hproblem
    obtain ⟨i, rfl⟩ := SymbolTable.procedure_of_useProblem? hk hproblem
    rfl
  taken _ _ _ hcode hk := h.taken hx fits hc hcode hk

end Draft.Keeps

/-- For every text with its includes about which no error is reported, the code
of the module is fully resolved, and every symbol is properly used. -/
theorem TokenStream.parse_properlyUsed (fs : FileSystem) (options : IncludeOptions)
    (text : String) (shown key : Path) (h : (ofText fs options text shown key).Fits)
    (clean : ∀ d ∈ (ofText fs options text shown key).parse.diagnostics, d.isError = false) :
    (ofText fs options text shown key).parse.module.ProperlyUsed := by
  have hr := reported_ofText fs options text shown key
  generalize ofText fs options text shown key = stream at h clean hr
  obtain ⟨x, hx⟩ := stream.completes
  have hc : stream.draft.Clean := Draft.clean clean
  constructor
  · exact Draft.Keeps.main.usesProperly hx h hr hc
  · intro p hp
    obtain ⟨i, hi⟩ := List.getElem?_of_mem hp
    exact (Draft.Keeps.of_body hi).usesProperly hx h hr hc
  · intro p hp code hcode
    obtain ⟨i, hi⟩ := List.getElem?_of_mem hp
    exact (Draft.Keeps.of_condition hi hcode).usesProperly hx h hr hc

/-- A script with a store, a call of a later procedure, and one without
arguments. -/
def TokenStream.calling : TokenStream :=
  .ofText .none .default
    "variable a; procedure p begin a := 1; call q(a); end procedure q(variable x) begin p; end"
    ⟨"a.ssl"⟩ ⟨"a.ssl"⟩

theorem TokenStream.parse_properlyUsed_calling : calling.Fits ∧
    (∀ d ∈ calling.parse.diagnostics, d.isError = false) ∧ calling.parse.module.ProperlyUsed := by
  have fits : calling.Fits := fits_ofText_none _ _ _ (by decide)
  have clean : ∀ d ∈ calling.parse.diagnostics, d.isError = false := by decide +kernel
  exact ⟨fits, clean, parse_properlyUsed _ _ _ _ _ fits clean⟩

end SslFrontend
