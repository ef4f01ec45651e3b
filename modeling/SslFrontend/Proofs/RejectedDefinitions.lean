import SslFrontend.Proofs.Run.Resolution
import SslFrontend.Proofs.Symbol.Placed
import SslFrontend.Proofs.Twin.Beside
import SslFrontend.Proofs.UnclosedBodies

/-! # Rejected definitions

A definition of a name that a variable or a defined procedure has is rejected.
Its body is read in a scope of its own, and the unit is the one that the stream
without the definition gives (`TokenStream.parse_rejected`), with one exception:
an error node carries the number of its pending name, and names that only the
rejected body mentions are counted, too (`TokenStream.rejected_counted`).

For this, drafts that are alike are finished to modules that are alike, if the names
in their code are resolved alike.  References and numbers of uses are not compared
there.
-/

namespace SslFrontend

/-- Lists that are alike stay so when each entry is changed as its index says. -/
theorem rel_mapIdx {α β γ δ : Type} {R : α → β → Prop} {S : γ → δ → Prop} {f : Nat → α → γ}
    {g : Nat → β → δ} (hfg : ∀ i a b, R a b → S (f i a) (g i b)) {l : List α} {l' : List β}
    (h : List.Forall₂ R l l') : List.Forall₂ S (l.mapIdx f) (l'.mapIdx g) := by
  induction h generalizing f g with
  | nil => exact .nil
  | cons hab _ ih =>
      rw [List.mapIdx_cons, List.mapIdx_cons]
      exact .cons (hfg 0 _ _ hab) (ih fun i a b hab => hfg (i + 1) a b hab)

/-- Code that is alike is resolved alike, if its nodes are. -/
theorem Code.resolved_rel {N M : Node → Node → Prop} {found found' : List (Option Symbol)}
    (htakes : ∀ {a b}, N a b → b.kind.takesCallee = a.kind.takesCallee)
    (hnode : ∀ {a b}, N a b → M (a.resolved found) (b.resolved found'))
    (hkind : ∀ {a b}, M a b → b.kind = a.kind)
    (hcall : ∀ {a b}, M a b → M ⟨.call, .int 0, a.pos⟩ ⟨.call, .int 0, b.pos⟩) {c d : Code}
    (h : List.Forall₂ N c d) : List.Forall₂ M (c.resolved found) (d.resolved found') := by
  induction h with
  | nil => exact .nil
  | @cons a b c d hab hcd ih =>
      have htaken : (d.head?.map fun next => next.kind.takesCallee) =
          c.head?.map fun next => next.kind.takesCallee := by
        cases hcd with
        | nil => rfl
        | cons hnext _ => exact congrArg some (htakes hnext)
      unfold Code.resolved
      dsimp only
      rw [htaken, hkind (hnode hab)]
      split
      · exact .cons (hnode hab) (.cons (hcall (hnode hab)) ih)
      · exact .cons (hnode hab) ih

section

variable {f : PoolId → PoolId} {T : Handle → Handle → Prop} {V : Value → Value → Prop}
  {N M : Node → Node → Prop} {p q : Procedure}

theorem Variable.Like.settle {v w : Variable} (h : v.Like T V w) (entries entries' : List Entry)
    (symbol symbol' : Symbol) :
    (Ledger.settleVariable entries symbol v).Like T V
      (Ledger.settleVariable entries' symbol' w) :=
  ⟨h.name, h.scope, h.value, h.arrayLength, h.declared, h.initialized⟩

namespace Procedure.Like

theorem settle (h : p.Like f T V N q) (entries entries' : List Entry) (i i' : Nat) :
    (Ledger.settleProcedure entries i p).Like f T V N (Ledger.settleProcedure entries' i' q) where
  scope := ⟨h.scope.namelist, rel_mapIdx (fun _ _ _ hvw => hvw.settle ..) h.scope.locals⟩
  shell := ⟨h.shell.name, h.shell.trigger, h.shell.modifiers, h.shell.numArgs, h.shell.minArgs,
    h.shell.defined, h.shell.declared, h.shell.span, h.shell.body⟩

theorem close (h : p.Like f T V N q) :
    (SymbolTable.closeProcedure p).Like f T V N (SymbolTable.closeProcedure q) := by
  unfold SymbolTable.closeProcedure
  by_cases hd : p.defined = true
  · rw [if_pos hd, if_pos (h.shell.defined.trans hd)]
    exact h
  · rw [if_neg hd, if_neg (h.shell.defined ▸ hd)]
    exact ⟨⟨h.scope.namelist, h.scope.locals⟩, ⟨h.shell.name, h.shell.trigger,
      congrArg Modifiers.withoutExport h.shell.modifiers, h.shell.numArgs, h.shell.minArgs,
      h.shell.defined, h.shell.declared, h.shell.span, h.shell.body⟩⟩

theorem resolve (h : p.Like f T V N q) {found found' : List (Option Symbol)}
    (hcode : ∀ {c d : Code}, List.Forall₂ N c d →
      List.Forall₂ M (c.resolved found) (d.resolved found')) :
    (p.resolved found).Like f T V M (q.resolved found') where
  scope := ⟨h.scope.namelist, h.scope.locals⟩
  shell := by
    have htrigger : (p.trigger.resolved found).Like (List.Forall₂ M)
        (q.trigger.resolved found') := by
      have hold := h.shell.trigger
      generalize p.trigger = old, q.trigger = old' at hold ⊢
      cases hold with
      | none => exact .none
      | timed time => exact .timed time
      | conditional hc => exact .conditional (hcode hc)
    exact ⟨h.shell.name, htrigger, h.shell.modifiers, h.shell.numArgs, h.shell.minArgs,
      h.shell.defined, h.shell.declared, h.shell.span, hcode h.shell.body⟩

end Procedure.Like

/-- Modules that are alike. -/
structure Module.Like (f : PoolId → PoolId) (T : Handle → Handle → Prop)
    (V : Value → Value → Prop) (N : Node → Node → Prop) (m m' : Module) : Prop where
  vars : List.Forall₂ (Variable.Like T V) m.vars m'.vars
  procs : List.Forall₂ (Procedure.Like f T V N) m.procs m'.procs
  main : List.Forall₂ N m.main m'.main

/-- Drafts that are alike are finished alike. -/
theorem Draft.finish_like {d d' : Draft}
    (hcode : ∀ {a b : Code}, List.Forall₂ N a b →
      List.Forall₂ M (a.resolved d.found) (b.resolved d'.found))
    (vars : List.Forall₂ (Variable.Like T V) d.table.vars d'.table.vars)
    (procs : List.Forall₂ (Procedure.Like f T V N) d.table.procs d'.table.procs)
    (main : List.Forall₂ N d.main d'.main) (files files' : FileTable) :
    (d.finish files).module.Like f T V M (d'.finish files').module where
  vars := rel_mapIdx (fun i _ _ hvw => hvw.settle d.entries d'.entries (.global i) (.global i)) vars
  procs := by
    have hclosed : List.Forall₂ (Procedure.Like f T V N) d.closed.procs d'.closed.procs :=
      List.forall₂_map_left_iff.mpr (List.forall₂_map_right_iff.mpr
        (procs.imp fun _ _ hpq => hpq.close))
    have hresolved : List.Forall₂ (Procedure.Like f T V M) d.resolved.procs d'.resolved.procs :=
      List.forall₂_map_left_iff.mpr (List.forall₂_map_right_iff.mpr
        (hclosed.imp fun _ _ hpq => hpq.resolve hcode))
    rw [Draft.finish_procs, Draft.finish_procs]
    exact rel_mapIdx (fun i _ _ hpq => hpq.settle d.entries d'.entries i i) hresolved
  main := hcode main

end

open Parse (Leads itemRound Rejects)

deriving instance DecidableEq for Pool, Procedure, SymbolTable, Records

/-! ## Headers that are rejected -/

/-- A definition of a name that a variable or a defined procedure has is rejected. -/
theorem SymbolTable.verdict_of_taken {t : SymbolTable} {header : Header} {symbol : Symbol}
    (hbody : header.hasBody = true) (htaken : t.lookupGlobal header.name = some symbol)
    (hdefined : ∀ i p, symbol = .proc i → t.procs[i]? = some p → p.defined = true) :
    ∃ named, (t.declare header).verdict = .reject named := by
  obtain ⟨modifiers, hsettle⟩ := settle_spec header
  have hverdict : (t.declare header).verdict =
      (t.declareSettled { header with modifiers := modifiers }).verdict := by
    rw [← hsettle]
    rfl
  rw [hverdict]
  unfold declareSettled
  dsimp only
  rw [htaken]
  cases symbol with
  | global i => exact ⟨_, rfl⟩
  | inner scope i => exact ⟨_, rfl⟩
  | builtin i => exact ⟨_, rfl⟩
  | proc i =>
      dsimp only
      cases hp : t.procs[i]? with
      | none => exact ⟨_, rfl⟩
      | some p =>
          dsimp only
          unfold declareAgain
          rw [if_pos (by rw [hbody, hdefined i p rfl hp]; rfl)]
          exact ⟨_, rfl⟩

/-- A scope is opened for its body. -/
theorem Parse.enter_of_taken {header : Header} {params : List NumberedParam} {number : Nat}
    {s : ParserState} {symbol : Symbol} (hbody : header.hasBody = true)
    (htaken : s.table.lookupGlobal header.name = some symbol)
    (hdefined : ∀ i p, symbol = .proc i → s.table.procs[i]? = some p → p.defined = true) :
    ∃ u, enter header params number s = .ok (some (.discarded s.table.discarded.length)) u := by
  obtain ⟨named, hverdict⟩ := SymbolTable.verdict_of_taken hbody htaken hdefined
  have htable := SymbolTable.declare_spec s.table header
  rw [hverdict] at htable
  have hopens : ∀ t : ParserState, t.table = s.table →
      ∃ u, disown header t = .ok (some (.discarded s.table.discarded.length)) u := by
    intro t ht
    obtain ⟨handle, hfound⟩ : ∃ handle, s.table.strings.find? header.name = some handle := by
      cases hf : s.table.strings.find? header.name with
      | some handle => exact ⟨handle, rfl⟩
      | none =>
          unfold SymbolTable.lookupGlobal at htaken
          rw [hf] at htaken
          cases htaken
    obtain ⟨a, Q, ha⟩ := Pool.intern_of_find? (P := .empty .scratch) hfound
    rw [disown_eq]
    unfold SymbolTable.declareDiscarded
    rw [ha, ht]
    exact ⟨_, rfl⟩
  have hlook : enter header params number s = heed header params number
      (s.table.declare header).verdict { s with
        table := (s.table.declare header).table
        problems := ⟨s.problems.items ++ (s.table.declare header).problems⟩ } := rfl
  have hthen : ∀ t : ParserState, t.table = s.table →
      ∃ u, (if header.hasBody then disown header else return none : Parse (Option ScopeId)) t =
        .ok (some (.discarded s.table.discarded.length)) u := by
    intro t ht
    rw [if_pos hbody]
    exact hopens t ht
  rw [hlook, hverdict, htable.eq_of_reject]
  cases named with
  | none => exact hthen _ rfl
  | some i => exact hthen { s with
      ledger := s.ledger.recordAt number (.proc i) header.pos .declaration
      problems := ⟨s.problems.items ++ (s.table.declare header).problems⟩ } rfl

/-! ## Modules with and without -/

/-- One and the same node; the value is compared where nodes of the kind show theirs. -/
structure Node.Like (V : Value → Value → Prop) (shown : NodeKind → Bool) (a b : Node) : Prop where
  kind : b.kind = a.kind
  pos : b.pos = a.pos
  value : shown a.kind = true → V a.value b.value

/-- One and the same unit, but for references, numbers of uses and offsets of texts. -/
def Module.SameUnit (shown : NodeKind → Bool) (m m' : Module) : Prop :=
  m.Like id (m.strings.SameText m'.strings) (m.strings.SameValue m'.strings)
    (Node.Like (m.strings.SameValue m'.strings) shown) m'

namespace Surroundings

variable {k : Nat} {problems : List Diagnostic}

/-- Nodes do not show the scope of a local. -/
theorem scopeMore_toNode (symbol : Symbol) (pos : Position) :
    ((scopeMore k problems).symbol symbol).toNode pos = symbol.toNode pos := by
  cases symbol with
  | global i => exact congrArg (fun i => (Symbol.global i).toNode pos) (Nat.zero_add i)
  | proc i => exact congrArg (fun i => (Symbol.proc i).toNode pos) (Nat.zero_add i)
  | inner scope i => rfl
  | builtin i => rfl

end Surroundings

open Surroundings

/-- A name means the same at the end of both runs. -/
theorem SymbolTable.Placed.lookup {P : Placement} {N : Node → Node → Prop} {t t' : SymbolTable}
    (h : Placed P N t t') (hfree : t.Free P.taken) (hnone : P.taken = [])
    (context : Option ScopeId) (name : String) :
    t'.lookup (context.map P.scope) name = (t.lookup context name).map P.symbol := by
  have hsees := h.lookupDeclared hfree context name
  unfold SymbolTable.lookup
  generalize t.lookupDeclared context name = a at hsees ⊢
  generalize t'.lookupDeclared (context.map P.scope) name = b at hsees ⊢
  cases hsees with
  | none => cases Builtin.find? name <;> rfl
  | some symbol => rfl
  | taken hmem => exact absurd hmem (hnone ▸ List.not_mem_nil)

/-- What the place of a pending name is resolved to. -/
theorem Draft.found_of_name {draft : Draft} {place : Nat} {p : PendingName}
    (h : draft.pending.names[place]? = some p) :
    draft.found[place]? = some (draft.table.lookup p.context p.name) := by
  unfold Draft.found Pending.resolutions
  rw [List.getElem?_map, h, Option.map_some, Draft.closed_lookup]

/-- Nodes can carry the places of all pending names. -/
theorem TokenStream.index?_place {stream : TokenStream} (fits : stream.Fits) {place : Nat}
    {p : PendingName} (h : stream.draft.pending.names[place]? = some p) :
    (Value.ofIndex place).index? = some place := by
  obtain ⟨x, hx⟩ := stream.completes
  have hlt := (List.getElem?_eq_some_iff.mp h).1
  rw [hx.leaves.pending] at hlt
  have hread := Nat.le_trans hx.known.names x.tracked.position_le
  have hlimit : stream.tokens.length ≤ Value.maxIndex := fits
  exact Value.index?_ofIndex (by omega)

namespace Records.Shows

variable {stream : TokenStream} {pos : Position} {node : Node}

/-- A mention that is bound stays as it is. -/
theorem resolved_symbol {r : Records} {a : Symbol} (h : r.Shows pos (.symbol a) node)
    (found : List (Option Symbol)) : node.resolved found = a.toNode pos := by
  cases h
  exact Node.resolved_of_ne_ident _ (by cases a <;> exact NodeKind.noConfusion)

/-- A mention that waits becomes what its name means at the end. -/
theorem resolved_name {name : String} {context : Option ScopeId}
    (h : stream.draft.records.Shows pos (.name name context) node) (fits : stream.Fits) :
    (∃ a, stream.draft.table.lookup context name = some a ∧
      node.resolved stream.draft.found = a.toNode pos) ∨
    stream.draft.table.lookup context name = none ∧
      ∃ n, node.resolved stream.draft.found = ⟨.error, .int n, pos⟩ := by
  cases h with
  | @name place p hplace =>
      have hfound := Draft.found_of_name hplace
      have hindex := stream.index?_place fits hplace
      cases hl : stream.draft.table.lookup p.context p.name with
      | some a =>
          rw [hl] at hfound
          refine .inl ⟨a, rfl, ?_⟩
          simp only [Node.resolved, Pending.node, if_pos, hindex, Option.bind_some, hfound,
            Option.join_some]
      | none =>
          rw [hl] at hfound
          refine .inr ⟨rfl, ?_⟩
          simp only [Node.resolved, Pending.node, if_pos, hindex, Option.bind_some, hfound]
          exact ⟨_, rfl⟩

end Records.Shows

/-! ## Code with and without -/

namespace Surroundings

variable {k : Nat} {problems : List Diagnostic}

/-- One and the same mention becomes one and the same node. -/
theorem SameNode.resolved {stream other : TokenStream} (fits : stream.Fits)
    (fits' : other.Fits) {a b : Node}
    (hold : (scopeMore k problems).Hold other.draft.records stream.draft.records)
    (h : (scopeMore k problems).SameNode other.draft.records stream.draft.records a b) :
    Node.Like (other.draft.table.strings.SameValue stream.draft.table.strings) (· != .error)
      (a.resolved other.draft.found) (b.resolved stream.draft.found) := by
  have hself : ∀ (symbol : Symbol) (pos : Position),
      Node.Like (other.draft.table.strings.SameValue stream.draft.table.strings) (· != .error)
        (symbol.toNode pos) (symbol.toNode pos) := fun symbol pos => ⟨rfl, rfl, fun _ => .int _⟩
  cases h with
  | plain hplain =>
      obtain ⟨kind, value, pos⟩ := a
      have hident : kind ≠ .ident := by
        rintro rfl
        cases hplain
      rw [Node.resolved_of_ne_ident _ hident, Node.resolved_of_ne_ident _ hident]
      refine ⟨rfl, rfl, fun _ => ?_⟩
      cases value with
      | int n => exact .int n
      | float x => exact .float x
      | string handle => cases kind <;> cases hplain
  | literal hk kind pos hv =>
      have hident : a.kind ≠ .ident := fun h => absurd hk (by rw [h]; decide)
      rw [Node.resolved_of_ne_ident _ hident, Node.resolved_of_ne_ident _ (kind ▸ hident)]
      exact ⟨kind, pos, fun _ => hv⟩
  | @mention pos referent referent' _ _ ha hb href =>
      cases href with
      | symbol symbol =>
          rw [ha.resolved_symbol, hb.resolved_symbol, scopeMore_toNode]
          exact hself symbol pos
      | name name context =>
          have hlookup : stream.draft.table.lookup _ name = (other.draft.table.lookup _ name).map _ :=
            hold.table.lookup hold.free rfl context name
          rcases ha.resolved_name fits' with ⟨symbol, hl, hnode⟩ | ⟨hl, n, hnode⟩
          · rw [hl] at hlookup
            rcases hb.resolved_name fits with ⟨symbol', hl', hnode'⟩ | ⟨hl', -⟩
            · cases hlookup.symm.trans hl'
              rw [hnode, hnode', scopeMore_toNode]
              exact hself symbol pos
            · cases hlookup.symm.trans hl'
          · rw [hl] at hlookup
            rcases hb.resolved_name fits with ⟨symbol', hl', -⟩ | ⟨-, n', hnode'⟩
            · cases hlookup.symm.trans hl'
            · rw [hnode, hnode']
              exact ⟨rfl, rfl, nofun⟩
      | taken context hmem => exact absurd hmem List.not_mem_nil

theorem SameNode.takesCallee {E : Surroundings} {r r' : Records} {a b : Node}
    (h : E.SameNode r r' a b) : b.kind.takesCallee = a.kind.takesCallee := by
  have hshows : ∀ {r : Records} {pos : Position} {referent : Referent} {node : Node},
      r.Shows pos referent node → node.kind.takesCallee = false := by
    intro r pos referent node h
    cases h with
    | symbol symbol => cases symbol <;> rfl
    | name _ => rfl
  cases h with
  | plain _ => rfl
  | literal _ kind _ _ => rw [kind]
  | mention ha hb _ => rw [hshows ha, hshows hb]

theorem SameNode.resolved_codes {stream other : TokenStream} (fits : stream.Fits)
    (fits' : other.Fits)
    (hold : (scopeMore k problems).Hold other.draft.records stream.draft.records) {a b : Code}
    (h : List.Forall₂ ((scopeMore k problems).SameNode other.draft.records stream.draft.records)
      a b) :
    List.Forall₂ (Node.Like (other.draft.table.strings.SameValue stream.draft.table.strings)
      (· != .error)) (a.resolved other.draft.found) (b.resolved stream.draft.found) :=
  Code.resolved_rel SameNode.takesCallee (fun hab => SameNode.resolved fits fits' hold hab)
    (fun hab => hab.kind) (fun hab => ⟨rfl, hab.pos, fun _ => .int 0⟩) h

end Surroundings

namespace TokenStream

/-- The stream without a part behind its first items. -/
def without (stream : TokenStream) (front behind : List Token) : TokenStream :=
  { stream with tokens := front ++ behind }

/-- The stream has items, a definition whose header is rejected, and more behind it.
The items are complete: without the definition they are read to the same effect. -/
structure ReadsRejected (stream : TokenStream) (front item behind : List Token) : Prop where
  tokens : stream.tokens = front ++ item ++ behind
  run : ∃ main s v s',
    Leads itemRound [] (.start stream) main s ∧ s.cursor.rest = item ++ behind ∧
    Rejects s v ∧ v.cursor.rest = behind ∧
    Leads itemRound [] (.start (stream.without front behind)) main s' ∧
      s'.cursor.rest = behind ∧ s'.records = s.records

/-- Whether a stream has this many items, and a definition behind them whose header is
rejected. -/
def readsRejected? (stream : TokenStream) (front item behind : List Token) (items : Nat) : Bool :=
  Parse.leads? itemRound items [] (.start stream) fun main s =>
    decide (s.cursor.rest = item ++ behind) &&
    Parse.qualifiers.answers s fun q t => decide (t.cursor.kind = .keyword .kwProcedure) &&
    (Parse.entry q).answers t fun entered u =>
      match entered with
      | some (.discarded k) =>
        (Parse.body (.discarded k)).answers u fun _ v => decide (v.cursor.rest = behind) &&
        Parse.leads? itemRound items [] (.start (stream.without front behind)) fun main' s' =>
          decide (main' = main ∧ s'.cursor.rest = behind ∧ s'.records = s.records)
      | _ => false

variable {stream : TokenStream} {front item behind : List Token}

theorem readsRejected_of (n : Nat) (htokens : stream.tokens = front ++ item ++ behind)
    (hrun : stream.readsRejected? front item behind n = true) :
    stream.ReadsRejected front item behind := by
  obtain ⟨main, s, hitems, hrun⟩ := Parse.exists_leads hrun
  simp only [Bool.and_eq_true, decide_eq_true_eq, Parse.answers_iff] at hrun
  obtain ⟨hs, q, t, hq, hk, entered, u, hentry, hrun⟩ := hrun
  cases entered with
  | none => cases hrun
  | some scope =>
      cases scope with
      | proc i => cases hrun
      | discarded k =>
          simp only [Bool.and_eq_true, decide_eq_true_eq, Parse.answers_iff] at hrun
          obtain ⟨_, v, hbody, hv, hrun⟩ := hrun
          obtain ⟨main', s', hitems', hsame⟩ := Parse.exists_leads hrun
          obtain ⟨rfl, hs', hrecords⟩ := of_decide_eq_true hsame
          exact ⟨htokens, _, s, v, s', hitems, hs, ⟨k, u, ⟨q, t, hq, hk, hentry⟩, hbody⟩, hv,
            hitems', hs', hrecords⟩

/-- A rejected definition leaves nothing in the unit, but that its names count. -/
theorem parse_rejected (fits : stream.Fits) (h : stream.ReadsRejected front item behind) :
    (stream.without front behind).parse.module.SameUnit (· != .error) stream.parse.module := by
  obtain ⟨main, s, v, s', hitems, -, hrejects, hbehind, hitems', hrest, hrecords⟩ := h.run
  have fits' : (stream.without front behind).Fits := by
    refine Nat.le_trans ?_ fits
    rw [h.tokens]
    show (front ++ behind).length ≤ _
    simp only [List.length_append]
    omega
  obtain ⟨hold, hmain⟩ := hrejects.drafts hitems hitems' hrecords (hrest.trans hbehind.symm) rfl
  have hbehind : ∀ {α : Type} {R : α → α → Prop} {l l' : List α}, Behind R [] l l' →
      List.Forall₂ R l l' := by
    rintro α R l l' ⟨rest, rfl, hl⟩
    exact hl
  have hprocs := hbehind hold.table.procs
  rw [scopeMore_pool] at hprocs
  exact Draft.finish_like (fun hab => SameNode.resolved_codes fits fits' hold hab)
    (hbehind hold.table.vars) hprocs hmain _ _

/-- A variable, a definition of its name that mentions a name that nothing declares,
and another procedure that does so. -/
def counted : TokenStream :=
  .ofString .none .default
    "variable x; procedure x begin y := 1; end procedure p begin z := 1; end" ⟨"a.ssl"⟩

theorem counted_readsRejected : counted.ReadsRejected (counted.tokens.take 3)
    ((counted.tokens.drop 3).take 8) (counted.tokens.drop 11) :=
  readsRejected_of 1 (by decide +kernel) (by decide +kernel)

theorem parse_rejected_counted :
    (counted.without (counted.tokens.take 3) (counted.tokens.drop 11)).parse.module.SameUnit
      (· != .error) counted.parse.module :=
  parse_rejected (by decide +kernel) counted_readsRejected

/-- The number of a name that nothing declares counts those of the rejected body. -/
theorem rejected_counted : counted.ReadsRejected (counted.tokens.take 3)
      ((counted.tokens.drop 3).take 8) (counted.tokens.drop 11) ∧
    ¬(counted.without (counted.tokens.take 3) (counted.tokens.drop 11)).parse.module.SameUnit
      (fun _ => true) counted.parse.module := by
  refine ⟨counted_readsRejected, fun hsame => ?_⟩
  have hmap : ∀ {α β : Type} {R : α → α → Prop} {f : α → β} {l l' : List α},
      (∀ a b, R a b → f b = f a) → List.Forall₂ R l l' → l'.map f = l.map f := by
    intro α β R f l l' hf hl
    induction hl with
    | nil => rfl
    | cons hab _ ih => rw [List.map_cons, List.map_cons, hf _ _ hab, ih]
  have hint : ∀ {P P' : Pool} {v w : Value}, P.SameValue P' v w → w.int? = v.int? := by
    intro P P' v w hvw
    cases hvw <;> rfl
  have hnumbers := hmap (f := fun p : Procedure => p.body.map fun node => node.value.int?)
    (fun p q hpq => hmap (fun a b hab => hint (hab.value rfl)) hpq.shell.body) hsame.procs
  revert hnumbers
  decide +kernel

end TokenStream

end SslFrontend
