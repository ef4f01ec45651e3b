import SslFrontend.Proofs.Include.Registered
import SslFrontend.Proofs.Run.Resolution

/-! # Closed modules

Whatever the text, nothing in the parsed module refers to what is not there:
indices are within their tables, locals are used in the body that they belong to
only, texts and names are in their pools, and every file is in the file table.
Main statement: `TokenStream.parse_closed`.
-/

namespace SslFrontend

namespace Module

/-- A node whose index, text and file are there.  Locals are those of the
procedure whose body the node is in. -/
structure ClosesNode (m : Module) (owner : Option Procedure) (node : Node) : Prop where
  ident : node.kind ≠ .ident
  globalVar : node.kind = .globalVar → ∃ i, node.value.index? = some i ∧ i < m.vars.length
  localVar : node.kind = .localVar →
    ∃ p i, owner = some p ∧ node.value.index? = some i ∧ i < p.locals.length
  proc : node.kind = .proc → ∃ i, node.value.index? = some i ∧ i < m.procs.length
  builtin : node.kind = .builtin →
    ∃ i, node.value.index? = some i ∧ i < Builtin.all.length
  string : node.kind = .string → ∃ handle, node.value = .string handle
  value : node.value.ResolvesIn m.strings
  file : m.files.Has node.pos.file

/-- A variable whose name, value and files are there. -/
structure ClosesVariable (m : Module) (names : Pool) (v : Variable) : Prop where
  name : ∃ text, names.resolve v.name = .ok text
  value : v.value.ResolvesIn m.strings
  declared : m.files.Has v.declared.file
  references : ∀ site ∈ v.references, m.files.Has site.file

/-- A procedure all parts of which refer to what is there. -/
structure ClosesProcedure (m : Module) (p : Procedure) : Prop where
  name : ∃ text, m.strings.resolve p.name = .ok text
  locals : ∀ v ∈ p.locals, m.ClosesVariable p.namelist v
  declared : m.files.Has p.declared.file
  references : ∀ site ∈ p.references, m.files.Has site.file
  span : ∀ first last, p.span = some (first, last) →
    m.files.Has first.file ∧ m.files.Has last.file
  body : ∀ node ∈ p.body, m.ClosesNode (some p) node
  condition : ∀ code, p.trigger = .conditional code → ∀ node ∈ code, m.ClosesNode none node

/-- Nothing in the module refers to what is not there. -/
structure Closed (m : Module) : Prop where
  space : m.strings.id = .space
  namelists : ∀ (i : Nat) (p : Procedure), m.procs[i]? = some p → p.namelist.id = .namelist i
  vars : ∀ v ∈ m.vars, m.ClosesVariable m.strings v
  procs : ∀ p ∈ m.procs, m.ClosesProcedure p
  main : ∀ node ∈ m.main, m.ClosesNode none node

end Module

variable {stream : TokenStream} {x : Config stream}

theorem Pool.resolve_of_named {pool : Pool} {handle : Handle}
    (h : ∃ text, pool.find? text = some handle) : ∃ text, pool.resolve handle = .ok text := by
  obtain ⟨text, ht⟩ := h
  exact ⟨text, Pool.resolve_find? ht⟩

/-! ## Nodes -/

/-- The owner of code is the procedure of its context, with all of its locals. -/
def Draft.Owns (draft : Draft) (context : Option ScopeId) (owner : Option Procedure) : Prop :=
  ∀ sc, context = some sc → ∃ p q, owner = some p ∧ draft.table.scope? sc = some q ∧
    p.locals.length = q.locals.length

variable {context : Option ScopeId} {owner : Option Procedure}

theorem SymbolTable.Holds.closesNode {symbol : Symbol} (hx : x.Ends) (fits : stream.Fits)
    (hr : stream.Registered) (howner : stream.draft.Owns context owner)
    (h : stream.draft.table.Holds context symbol) {pos : Position} (hpos : stream.Has pos) :
    stream.parse.module.ClosesNode owner (symbol.toNode pos) := by
  have hindex := Value.index?_ofIndex (h.index_le hx.bounded fits)
  have hvalue : (symbol.toNode pos).value.ResolvesIn stream.parse.module.strings := .int _ _
  have hfile : stream.parse.module.files.Has pos.file := hr pos hpos
  have hvars : stream.parse.module.vars.length = stream.draft.table.vars.length :=
    Draft.finish_vars_length
  have hprocs : stream.parse.module.procs.length = stream.draft.table.procs.length :=
    Draft.finish_procs_length
  obtain ⟨hfits, hlt⟩ := h
  cases symbol with
  | global i =>
      exact ⟨nofun, fun _ => ⟨i, hindex, hvars ▸ hlt⟩, nofun, nofun, nofun, nofun, hvalue, hfile⟩
  | proc i =>
      exact ⟨nofun, nofun, nofun, fun _ => ⟨i, hindex, hprocs ▸ hlt⟩, nofun, nofun, hvalue, hfile⟩
  | inner sc i =>
      obtain ⟨p, q, hp, hq, hlength⟩ := howner sc hfits
      refine ⟨nofun, nofun, fun _ => ⟨p, i, hp, hindex, ?_⟩, nofun, nofun, nofun, hvalue, hfile⟩
      obtain ⟨q', hq', hi⟩ := hlt
      rw [hq] at hq'
      obtain rfl := Option.some.inj hq'
      rwa [hlength]
  | builtin i =>
      exact ⟨nofun, nofun, nofun, nofun, fun _ => ⟨i, hindex, hlt⟩, nofun, hvalue, hfile⟩

theorem Module.ClosesNode.of_not_isSymbol {m : Module} {node : Node}
    (h : node.kind.isSymbol = true → node.kind = .error)
    (string : node.kind = .string → ∃ handle, node.value = .string handle)
    (value : node.value.ResolvesIn m.strings) (file : m.files.Has node.pos.file) :
    m.ClosesNode owner node := by
  -- No index of the node is read as one of a table.
  have hne : ∀ kind : NodeKind, kind.isSymbol = true → kind ≠ .error → node.kind ≠ kind := by
    rintro kind hsymbol herror rfl
    exact herror (h hsymbol)
  exact ⟨hne _ rfl nofun, fun hk => absurd hk (hne _ rfl nofun),
    fun hk => absurd hk (hne _ rfl nofun), fun hk => absurd hk (hne _ rfl nofun),
    fun hk => absurd hk (hne _ rfl nofun), string, value, file⟩

theorem Draft.Keeps.closesNode (hx : x.Completes) (fits : stream.Fits) (hr : stream.Registered)
    {code : Code} (h : stream.draft.Keeps context code) (howner : stream.draft.Owns context owner) :
    ∀ node ∈ code, stream.parse.module.ClosesNode owner node := by
  have hstrings : x.table.strings = stream.parse.module.strings := by
    rw [← hx.leaves.table]
    exact Draft.finish_strings.symm
  intro node hnode
  cases h.gives hx node hnode with
  | literal kind leaf =>
      obtain ⟨hpos, hvalue, hstring, _⟩ := leaf
      exact .of_not_isSymbol (NodeKind.eq_error_of_isLiteral kind) hstring (hstrings ▸ hvalue)
        (hr _ hpos)
  | @name source kind leaf hresolved =>
      obtain ⟨e, he, hscope, rfl⟩ := leaf
      subst hscope
      have hrecorded := hx.logged e he
      cases hb : stream.draft.binding? e with
      | some symbol =>
          rw [hresolved, hrecorded.resolved_of_some hx.toEnds fits hb]
          have hholds := (hrecorded.offers hx.toEnds hb).holds
          exact hholds.closesNode hx.toEnds fits hr howner hrecorded.pos
      | none =>
          obtain ⟨n, herror⟩ := hrecorded.resolved_of_none hx.toEnds fits hb
          rw [hresolved, herror]
          exact .of_not_isSymbol (fun _ => rfl) nofun (.int n _) (hr _ hrecorded.pos)
  | own kind leaf =>
      obtain ⟨symbol, hsymbol, hpos, hholds⟩ := hx.own_holds leaf
      rw [hsymbol]
      exact hholds.closesNode hx.toEnds fits hr howner hpos
  | operation kind count site =>
      obtain ⟨i, hi⟩ := count
      obtain ⟨n, hn⟩ := Value.exists_int_of_index? hi
      refine .of_not_isSymbol (fun hsymbol => ?_) (fun hk => ?_) (hn ▸ .int n _) (hr _ site)
      · rw [NodeKind.not_isSymbol_of_isOperation kind] at hsymbol
        cases hsymbol
      · rw [hk] at kind
        cases kind

/-! ## Declarations -/

theorem Config.Ends.references (hx : x.Ends) (hr : stream.Registered) (symbol : Symbol) :
    ∀ site ∈ Ledger.referencesIn stream.draft.entries symbol, stream.files.Has site.file := by
  intro site hsite
  obtain ⟨entry, hentry, rfl⟩ := List.mem_map.mp hsite
  have hordered : entry ∈ stream.draft.entries := List.mem_of_mem_filter hentry
  have hsettled := (Ledger.ordered_perm _).mem_iff.mp hordered
  have hledger : stream.draft.ledger.SitesIn stream.Has := hx.leaves.ledger ▸ hx.known.entries
  have hpending : stream.draft.pending.SitesIn stream.Has := hx.leaves.pending ▸ hx.known.sites
  obtain ⟨pos, hpos, heq⟩ := Pending.settleAll_sitesIn hpending hledger entry hsettled
  rw [heq]
  exact hr pos hpos

theorem SoundVariables.closesVariable (hx : x.Ends) (hr : stream.Registered) {names : Pool}
    {vs : List Variable} (h : SoundVariables stream.Has names stream.draft.table.strings vs)
    (symbol : Symbol) {v : Variable} (hv : v ∈ vs) :
    stream.parse.module.ClosesVariable names
      (Ledger.settleVariable stream.draft.entries symbol v) where
  name := Pool.resolve_of_named (h.names v hv)
  value := h.values v hv
  declared := hr _ (h.placed v hv)
  references := hx.references hr symbol

theorem Draft.Finished.closesProcedure (hx : x.Completes) (fits : stream.Fits)
    (hr : stream.Registered) {i : Nat} {p q : Procedure} (h : stream.draft.Finished i p q)
    (hp : stream.parse.module.procs[i]? = some p) : stream.parse.module.ClosesProcedure p := by
  have hq : q ∈ stream.draft.table.procs := List.mem_of_getElem? h.there
  have hlength : p.locals.length = q.locals.length := by rw [h.locals, List.length_mapIdx]
  constructor
  · rw [h.name]
    exact Pool.resolve_of_named (hx.sound.procs_named q hq)
  · intro v hv
    rw [h.locals] at hv
    obtain ⟨k, hk, rfl⟩ := List.mem_mapIdx.mp hv
    rw [h.namelist]
    exact (hx.sound.scopes h.there).closesVariable hx.toEnds hr _ (List.getElem_mem hk)
  · rw [h.declared]
    exact hr _ (hx.sound.procs_placed q hq)
  · rw [h.references]
    exact hx.references hr _
  · intro first last hspan
    obtain ⟨hfirst, hlast⟩ := (hx.finished_coded h).span first last (h.span ▸ hspan)
    exact ⟨hr _ hfirst, hr _ hlast⟩
  · refine (Draft.Keeps.of_body hp).closesNode hx fits hr ?_
    rintro _ ⟨⟩
    exact ⟨p, q, rfl, h.there, hlength⟩
  · intro code hc
    exact (Draft.Keeps.of_condition hp hc).closesNode hx fits hr fun _ hsc => nomatch hsc

/-- For every text with its includes, malformed ones included, the parsed module
is closed. -/
theorem TokenStream.parse_closed (fs : FileSystem) (options : IncludeOptions) (text : String)
    (shown key : Path) (h : (ofText fs options text shown key).Fits) :
    (ofText fs options text shown key).parse.module.Closed := by
  have hr := registered_ofText fs options text shown key
  generalize ofText fs options text shown key = stream at h hr
  obtain ⟨x, hx⟩ := stream.completes
  constructor
  · exact hx.sound.space
  · intro i p hp
    obtain ⟨q, hq⟩ := Draft.finished hp
    rw [hq.namelist]
    exact hx.sound.namelists hq.there
  · intro v hv
    obtain ⟨i, hi⟩ := List.getElem?_of_mem hv
    obtain ⟨w, hw, rfl⟩ := Draft.finish_var hi
    exact hx.sound.vars.closesVariable hx.toEnds hr _ (List.mem_of_getElem? hw)
  · intro p hp
    obtain ⟨i, hi⟩ := List.getElem?_of_mem hp
    obtain ⟨q, hq⟩ := Draft.finished hi
    exact hq.closesProcedure hx h hr hi
  · exact Draft.Keeps.main.closesNode hx h hr fun _ hsc => nomatch hsc

/-- A procedure that is announced with other parameters, and one that is defined
twice. -/
def TokenStream.conflicting : TokenStream :=
  .ofText .none .default
    "procedure p(variable x); procedure p begin x := \"s\"; end procedure p begin variable y; end"
    ⟨"a.ssl"⟩ ⟨"a.ssl"⟩

theorem TokenStream.parse_closed_conflicting :
    conflicting.Fits ∧ conflicting.parse.module.Closed := by
  have fits : conflicting.Fits := fits_ofText_none _ _ _ (by decide)
  exact ⟨fits, parse_closed _ _ _ _ _ fits⟩

end SslFrontend
