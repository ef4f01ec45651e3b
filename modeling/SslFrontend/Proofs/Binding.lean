import SslFrontend.Include.Splice
import SslFrontend.Proofs.Run.Resolution

/-! # Binding of names

A name is bound to a declaration that stands before it, in its procedure first
and then in the unit, or else to what the tables at the end have for it.  The
symbols that were found early stay right, and the order of mention and
declaration counts only where a local shadows a name.  Main statement:
`TokenStream.mentions_settled`, for every stream, every run of the parser and
every mention in it.
-/

namespace SslFrontend

variable {stream : TokenStream} {x : Config stream}

/-- A log has all mentions that were entered, and every node of the code that is
kept and names a symbol comes from one of them, or is a local that its own
declaration stores into. -/
structure Draft.LoggedBy (draft : Draft) (log : List Mentioned) : Prop where
  count : log.length = draft.ledger.uses + draft.pending.mentions
  kept : ∀ context code, draft.Keeps context code → ∀ node ∈ code,
    node.kind.isSymbol = true → node.kind ≠ .error →
    (∃ e ∈ log, e.scope = context ∧ node = e.node.resolved draft.found) ∨
      ∃ scope index, context = some scope ∧
        node = (Symbol.inner scope index).toNode node.pos ∧
        draft.closed.siteOf? (.inner scope index) = some node.pos

/-- What becomes of a mention when the unit is finished. -/
structure Draft.Settles (draft : Draft) (e : Mentioned) : Prop where
  /-- The node that is left names what the mention is bound to. -/
  bound : ∀ symbol, draft.binding? e = some symbol →
    e.node.resolved draft.found = symbol.toNode e.pos ∧
      (e.node.resolved draft.found).symbol? e.scope = some symbol
  /-- A mention that is bound to nothing leaves an error. -/
  unbound : draft.binding? e = none → (e.node.resolved draft.found).kind = .error
  /-- Whatever is bound has the name, a built-in up to case. -/
  named : ∀ symbol, draft.binding? e = some symbol → draft.closed.nameOf symbol = e.name ∨
    ∃ i, symbol = .builtin i ∧ Builtin.sameName (draft.closed.nameOf symbol) e.name = true
  /-- What was found before the end is found at the end, and is the same
  declaration. -/
  early : ∀ symbol, e.table.lookupDeclared e.scope e.name = some symbol →
    (e.scope.bind (draft.closed.lookupLocal · e.name) = some symbol ∨
      draft.closed.lookupGlobal e.name = some symbol) ∧
    draft.closed.nameOf symbol = e.name ∧ (draft.closed.siteOf? symbol).isSome = true ∧
    draft.closed.siteOf? symbol = e.table.siteOf? symbol
  /-- Where no local of the context has the name at the end, it does not count
  what was declared before the mention. -/
  order : e.scope.bind (draft.closed.lookupLocal · e.name) = none →
    draft.binding? e = draft.closed.lookup none e.name
  /-- A built-in comes after every variable and procedure of the unit. -/
  builtin : ∀ i, draft.binding? e = some (.builtin i) → draft.closed.lookupGlobal e.name = none

theorem Draft.loggedBy (hx : x.Completes) : stream.draft.LoggedBy x.log where
  count := by
    rw [hx.leaves.ledger, hx.leaves.pending]
    exact hx.known.count.symm
  kept := by
    intro context code hkeeps node hnode hsymbol herror
    cases hkeeps.gives hx node hnode with
    | literal kind leaf =>
        exact absurd (NodeKind.eq_error_of_isLiteral kind hsymbol) herror
    | @name source kind leaf hresolved =>
        obtain ⟨e, he, hscope, rfl⟩ := leaf
        exact .inl ⟨e, he, hscope, hresolved⟩
    -- A local with an initial value is stored into without being mentioned.
    | own kind leaf =>
        obtain ⟨scope, index, pos, hscope, rfl, _, hsite⟩ := leaf
        refine .inr ⟨scope, index, hscope, rfl, ?_⟩
        have htable : stream.draft.table.siteOf? (.inner scope index) = some pos := by
          rw [hx.leaves.table]
          exact hsite
        rw [Draft.closed_siteOf?]
        exact htable
    | operation kind count site =>
        rw [NodeKind.not_isSymbol_of_isOperation kind] at hsymbol
        cases hsymbol

/-- A built-in is what is left when no declaration has the name. -/
theorem Draft.lookupGlobal_of_builtin {draft : Draft} {e : Mentioned} {i : Nat}
    (h : draft.binding? e = some (.builtin i)) : draft.closed.lookupGlobal e.name = none := by
  rw [Draft.binding?_eq] at h
  rcases Option.or_eq_some_iff.mp h with hdeclared | ⟨_, hlater⟩
  · exact absurd rfl (SymbolTable.lookupDeclared_ne_builtin hdeclared i)
  · rcases Option.or_eq_some_iff.mp hlater with hdeclared | ⟨hnone, _⟩
    · exact absurd rfl (SymbolTable.lookupDeclared_ne_builtin hdeclared i)
    · exact (Option.or_eq_none_iff.mp hnone).2

namespace Mentioned.Recorded

variable {e : Mentioned}

theorem found_at_end (h : e.Recorded x) (hx : x.Ends) {symbol : Symbol}
    (hl : e.table.lookupDeclared e.scope e.name = some symbol) :
    (e.scope.bind (stream.draft.closed.lookupLocal · e.name) = some symbol ∨
      stream.draft.closed.lookupGlobal e.name = some symbol) := by
  obtain ⟨_, hbinds, _⟩ := h.early symbol hl
  have hbinds : stream.draft.table.Binds e.name symbol := hx.leaves.table ▸ hbinds
  have hfits := (SymbolTable.binds_of_lookupDeclared hl).2
  cases symbol with
  | inner scope i =>
      have hscope : e.scope = some scope := hfits
      left
      rw [hscope, Option.bind_some, Draft.closed_lookupLocal]
      exact hx.sound.lookupLocal_of_binds hbinds
  | global i | proc i | builtin i =>
      right
      rw [Draft.closed_lookupGlobal]
      exact hx.sound.lookupGlobal_of_binds hbinds fun scope i => nofun

theorem binding?_of_no_local (h : e.Recorded x) (hx : x.Ends)
    (hlocal : e.scope.bind (stream.draft.closed.lookupLocal · e.name) = none) :
    stream.draft.binding? e = stream.draft.closed.lookup none e.name := by
  have hlookup : stream.draft.closed.lookup e.scope e.name =
      stream.draft.closed.lookup none e.name := by
    unfold SymbolTable.lookup SymbolTable.lookupDeclared
    rw [hlocal]
    rfl
  rw [Draft.binding?_eq]
  -- What was found early is found at the end, and there it can only be global.
  cases hl : e.table.lookupDeclared e.scope e.name with
  | none => rw [Option.none_or, hlookup]
  | some symbol =>
      rcases h.found_at_end hx hl with hinner | hglobal
      · rw [hlocal] at hinner
        cases hinner
      · unfold SymbolTable.lookup SymbolTable.lookupDeclared
        rw [hglobal]
        rfl

theorem settles (h : e.Recorded x) (hx : x.Ends) (fits : stream.Fits) :
    stream.draft.Settles e where
  bound symbol hb := by
    have hoffers := h.offers hx hb
    have hnode := h.resolved_of_some hx fits hb
    refine ⟨hnode, ?_⟩
    rw [hnode]
    exact Symbol.symbol?_toNode hoffers.1 (hoffers.holds.index_le hx.bounded fits) e.pos
  unbound hb := by
    obtain ⟨n, hnode⟩ := h.resolved_of_none hx fits hb
    rw [hnode]
  named symbol hb := by
    obtain ⟨_, hbinds | ⟨i, rfl, hfound⟩⟩ := h.offers hx hb
    · exact .inl (hbinds.congr (Draft.closed_declaration? symbol)).1.nameOf
    · obtain ⟨b, hget, hsame⟩ := Builtin.sameName_of_find? hfound
      refine .inr ⟨i, rfl, ?_⟩
      rw [SymbolTable.nameOf, hget]
      exact hsame
  early symbol hl := by
    obtain ⟨_, hbinds, hsite⟩ := h.early symbol hl
    obtain ⟨hclosed, hsame⟩ := hbinds.congr (u := stream.draft.closed) (by
      rw [Draft.closed_declaration?, hx.leaves.table])
    refine ⟨h.found_at_end hx hl, hclosed.nameOf, ?_, hsame.trans hsite⟩
    obtain ⟨pool, handle, pos, hentry, _⟩ := hclosed
    rw [SymbolTable.siteOf?_of_declaration? hentry]
    rfl
  order := h.binding?_of_no_local hx
  builtin _ hb := Draft.lookupGlobal_of_builtin hb

end Mentioned.Recorded

/-- For every stream of tokens, the parser's run has a log of all mentions, and
in every such run each mention is settled by the rules of binding. -/
theorem TokenStream.mentions_settled (stream : TokenStream) (h : stream.Fits) :
    (∃ x : Config stream, x.Ends ∧ stream.draft.LoggedBy x.log) ∧
      ∀ x : Config stream, x.Ends → ∀ e ∈ x.log, stream.draft.Settles e := by
  constructor
  · obtain ⟨x, hx⟩ := stream.completes
    exact ⟨x, hx.toEnds, Draft.loggedBy hx⟩
  · intro x hx e he
    exact (hx.logged e he).settles hx h

/-- A script with a local, a name that is declared later, and one that is not
declared. -/
def TokenStream.unordered : TokenStream :=
  .ofString .none .default "procedure p begin variable a; a := b; c; end variable b;" ⟨"a.ssl"⟩

theorem TokenStream.mentions_settled_unordered : unordered.Fits ∧
    (∃ x : Config unordered, x.Ends ∧ unordered.draft.LoggedBy x.log) ∧
      ∀ x : Config unordered, x.Ends → ∀ e ∈ x.log, unordered.draft.Settles e := by
  have fits : unordered.Fits := fits_ofText_none _ _ _ (by decide)
  exact ⟨fits, unordered.mentions_settled fits⟩

end SslFrontend
