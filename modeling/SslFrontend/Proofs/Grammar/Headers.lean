import SslFrontend.Proofs.Grammar.Parameters
import SslFrontend.Proofs.Symbol.Arity

/-! # Headers as they are written

A header is `procedure`, a name and the parameters, then what triggers the procedure
and, without a body, a semicolon.  What the productions read when they enter a scope,
or announce a procedure, and report no error, is a written header, and the header that
is merged into the table is what it says.
-/

namespace SslFrontend

/-- A header as it is written, with what stands behind its parameters: none are left
out. -/
inductive Header.Written (pool : Pool) (name : String) :
    List Param → List Token → List Token → Prop
  | intro (word pos : Position) {params : List Param} {listed behind : List Token} {next : Token}
      (printed : Param.PrintsAll pool params listed)
      (whole : listed = [] → next.kind ≠ .mark .lparen) :
      Written pool name params
        (⟨.keyword .kwProcedure, word⟩ :: ⟨.ident name, pos⟩ :: listed) (next :: behind)

theorem Header.Written.of_behind {pool : Pool} {name : String} {word pos : Position}
    {params : List Param} {listed behind : List Token}
    (printed : Param.PrintsAll pool params listed) (hbehind : behind ≠ [])
    (whole : listed = [] → ∀ next ∈ behind.head?, next.kind ≠ .mark .lparen) :
    Written pool name params (⟨.keyword .kwProcedure, word⟩ :: ⟨.ident name, pos⟩ :: listed)
      behind := by
  obtain ⟨next, rest, rfl⟩ := List.exists_cons_of_ne_nil hbehind
  exact .intro word pos printed fun hnone => whole hnone next rfl

theorem Header.Written.grows {pool grown : Pool} {name : String} {params : List Param}
    {tokens behind : List Token} (h : Written pool name params tokens behind)
    (hg : pool.Grows grown) (more : List Token) :
    Written grown name params tokens (behind ++ more) := by
  obtain ⟨word, pos, printed, whole⟩ := h
  exact .intro word pos (printed.grows hg) whole

/-- Between two cursors there is one list of tokens. -/
theorem Cursor.Reads.unique {a b : Cursor} {first second : List Token} (h₁ : a.Reads first b)
    (h₂ : a.Reads second b) : first = second :=
  List.append_cancel_right (h₁.rest.symm.trans h₂.rest)

/-- What is read begins with the token that is next. -/
theorem Cursor.Reads.head {a b : Cursor} {token : Token} {tokens : List Token}
    (h : a.Reads (token :: tokens) b) : a.current = token :=
  Cursor.current_of_rest h.rest

/-- Outside of bodies no procedure is touched. -/
theorem ParserState.keepsProcs :
    HoldsInside none fun s t : ParserState => t.table.procs = s.table.procs where
  refl _ := rfl
  trans h₁ h₂ := h₂.trans h₁
  move _ _ _ := rfl
  report _ _ := rfl
  intern _ _ _ _ _ := rfl
  adjust _ s symbol f hin _ := by
    cases symbol with
    | global i => rfl
    | inner scope i => exact hin.elim
    | proc i | builtin i => rfl
  mention s name _ := by rw [ParserState.mentioned_table]
  declare _ s name kind symbol table _ hd := by
    obtain ⟨_, handle, strings, _, _, rfl⟩ := SymbolTable.declareVar_spec hd
    rfl

namespace Parse

variable {s s' : ParserState} {found : Option ScopeId} {header : Header}

/-! ## Merging a header -/

/-- A header is merged without an error, and what follows is the body of the procedure
that it defines. -/
structure Admits (s : ParserState) (header : Header) (found : Option ScopeId)
    (s' : ParserState) : Prop where
  quiet : SymbolTable.Quiet (s.table.declare header).problems
  table : s'.table = (s.table.declare header).table
  cursor : s'.cursor = s.cursor
  verdict : (∃ i, (s.table.declare header).verdict = .define i ∧ found = some (.proc i)) ∨
    ∃ i, (s.table.declare header).verdict = .announce i ∧ found = none

theorem heed_admits {params : List NumberedParam} {number : Nat} {verdict : Verdict}
    (h : heed header params number verdict s = .ok found s')
    (hverdict : ∀ named, verdict ≠ .reject named) :
    s'.table = s.table ∧ s'.cursor = s.cursor ∧
      ((∃ i, verdict = .define i ∧ found = some (.proc i)) ∨
        ∃ i, verdict = .announce i ∧ found = none) := by
  cases verdict with
  | define i =>
      obtain ⟨_, s₁, hrecord, h⟩ := of_bind_ok h
      obtain ⟨_, s₂, hparams, h⟩ := of_bind_ok h
      obtain ⟨ledger, heq⟩ := Conduct.Throughout.recordParams_eq (.proc i) params s₁
      cases hrecord
      cases heq.symm.trans hparams
      cases h
      exact ⟨rfl, rfl, .inl ⟨i, rfl, rfl⟩⟩
  | announce i =>
      obtain ⟨_, s₁, hrecord, h⟩ := of_bind_ok h
      cases hrecord
      cases h
      exact ⟨rfl, rfl, .inr ⟨i, rfl, rfl⟩⟩
  | reject named => exact absurd rfl (hverdict named)

theorem enter_admits {params : List NumberedParam} {number : Nat}
    (h : enter header params number s = .ok found s') (hclean : s'.Clean) :
    Admits s header found s' := by
  have hrun : heed header params number (s.table.declare header).verdict { s with
      table := (s.table.declare header).table
      problems := ⟨s.problems.items ++ (s.table.declare header).problems⟩ } = .ok found s' := h
  have honward := (ParserState.Onward.throughout.heed_along header params number
    (s.table.declare header).verdict).of_ok hrun
  have hquiet : SymbolTable.Quiet (s.table.declare header).problems := fun d hd =>
    hclean.back honward d (List.mem_append_right _ hd)
  obtain ⟨htable, hcursor, hverdict⟩ := heed_admits hrun fun named hreject => by
    obtain ⟨d, hd, herror⟩ := SymbolTable.isError_of_reject hreject
    rw [hquiet d hd] at herror
    cases herror
  exact ⟨hquiet, htable, hcursor, hverdict⟩

/-! ## Reading a header -/

/-- A header behind its `procedure`: what is read of it, and the state in which it is
merged. -/
structure ReadsHeading (s : ParserState) (header : Header) (t : ParserState) (pos : Position)
    (listed between : List Token) : Prop where
  reads : s.cursor.Reads (⟨.ident header.name, pos⟩ :: (listed ++ between)) t.cursor
  printed : Param.PrintsAll t.table.strings header.params listed
  ordered : Param.Orderly header.params
  whole : listed = [] → ∀ next ∈ between.head?, next.kind ≠ .mark .lparen
  listedHeadless : Headless listed
  betweenHeadless : Headless between
  /-- A semicolon, or a body behind. -/
  ends : if header.hasBody then Cursor.opens t.cursor.kind = true else between ≠ []
  procs : t.table.procs = s.table.procs
  strings : s.table.strings.Grows t.table.strings

/-- What is read up to the end of the parameters, and then up to where the header is
merged. -/
theorem ReadsHeading.mk' {name : String} {pos : Position} {params : List NumberedParam}
    {s₁ s₃ t : ParserState} {modifiers : Modifiers} {trigger : Trigger} {hasBody : Bool}
    {listed between : List Token} (hident : s.cursor.Reads [⟨.ident name, pos⟩] s₁.cursor)
    (hall : ReadsAll s₁ (params.map NumberedParam.param) s₃ listed) (hlisted : Headless listed)
    (hbetween : Headless between) (hreads : s₃.cursor.Reads between t.cursor)
    (hgrows : s.table.strings.Grows s₃.table.strings)
    (hstrings : s₃.table.strings.Grows t.table.strings) (hprocs : t.table.procs = s.table.procs)
    (hends : if hasBody then Cursor.opens t.cursor.kind = true else between ≠ []) :
    ReadsHeading s ⟨name, pos, modifiers, trigger, params.map NumberedParam.param, hasBody⟩ t pos
      listed between where
  reads := hident.trans (hall.reads.trans hreads)
  printed := hall.prints.grows hstrings
  ordered := hall.ordered
  whole hnone next hnext := by
    obtain ⟨rest, rfl⟩ : ∃ rest, between = next :: rest := by
      cases between with
      | nil => cases hnext
      | cons first rest => exact ⟨rest, by rw [Option.some.inj hnext]⟩
    have hkind := hall.whole hnone
    rwa [Cursor.kind, hreads.head] at hkind
  listedHeadless := hlisted
  betweenHeadless := hbetween
  ends := hends
  procs := hprocs
  strings := hgrows.trans hstrings

theorem heading_recovers {q : Qualifiers} (h : heading q s = .ok found s') (hclean : s'.Clean) :
    ∃ header t pos listed between, ReadsHeading s header t pos listed between ∧
      Admits t header found s' := by
  obtain ⟨⟨name, pos⟩, s₁, hname, h⟩ := of_bind_ok h
  obtain ⟨hkind, hpos, rfl⟩ := of_expectIdent_ok hname
  have hident := Cursor.reads_advance (hkind ▸ nofun : s.cursor.kind ≠ .eof)
  rw [Cursor.current_of_kind hkind, ← hpos] at hident
  obtain ⟨number, s₂, hnumber, h⟩ := of_bind_ok h
  cases hnumber
  obtain ⟨params, s₃, hparams, h⟩ := of_bind_ok h
  obtain ⟨trigger, s₄, htrigger, h⟩ := of_bind_ok h
  obtain ⟨kind, s₅, hkind', h⟩ := of_bind_ok h
  cases hkind'
  have honward := onward_none.trigger_along.of_ok htrigger
  have hlisted := (ParserState.keepsProcs.parameters_along fun _ => rfl).of_ok hparams
  have hprocs : s₄.table.procs = s.table.procs :=
    (ParserState.keepsProcs.trigger_along.of_ok htrigger).trans hlisted
  have hparameters := (onward_none.parameters_along onward_reserve).of_ok hparams
  have hgrows : s.table.strings.Grows s₃.table.strings := hparameters.table.strings
  -- Up to the end of what triggers the procedure, if there is no error until there.
  have hread : ∀ hclean : s₄.Clean, ∃ listed between,
      ReadsAll { s.skip with ledger := s.skip.ledger.reserve.2 }
        (params.map NumberedParam.param) s₃ listed ∧ Headless listed ∧
      s₃.cursor.Reads between s₄.cursor ∧ Headless between := by
    intro hclean
    obtain ⟨between, hbetween, hheadless⟩ :=
      hclean.headless (Conduct.headless_inside none).trigger htrigger
    have hbefore := hclean.back honward
    obtain ⟨listed, hall⟩ := parameters_recovers hparams hbefore
    obtain ⟨listed', hlisted, hplain⟩ :=
      hbefore.headless (Conduct.headless_inside none).parameters hparams
    obtain rfl := hall.reads.unique hlisted
    exact ⟨listed, between, hall, hplain, hbetween, hheadless⟩
  by_cases hopens : Cursor.opens s₄.cursor.kind = true
  · rw [hopens] at h
    have hadmits := enter_admits h hclean
    obtain ⟨listed, between, hall, hlisted, hbetween, hheadless⟩ :=
      hread (hclean.back ((ParserState.Onward.throughout.enter_along _ _ _).of_ok h))
    exact ⟨_, s₄, pos, listed, between, .mk' hident hall hlisted hheadless hbetween
      hgrows honward.table.strings hprocs (by rwa [if_pos rfl]), hadmits⟩
  · rw [Bool.not_eq_true] at hopens
    rw [hopens] at h
    have hlast : (do
        discard <| expect (.mark .semicolon)
        enter ⟨name, pos, q.modifiers, trigger, params.map NumberedParam.param, false⟩ params _)
        s₄ = .ok found s' := h
    rw [discard_bind] at hlast
    obtain ⟨_, s₆, hexpect, h⟩ := of_bind_ok hlast
    obtain ⟨hcheck, -, rfl⟩ := of_expect_ok hexpect
    have hadmits := enter_admits h hclean
    have hbefore : s₄.skip.Clean :=
      hclean.back ((ParserState.Onward.throughout.enter_along _ _ _).of_ok h)
    obtain ⟨listed, between, hall, hlisted, hbetween, hheadless⟩ := hread hbefore
    refine ⟨_, s₄.skip, pos, listed, _, .mk' hident hall hlisted (hheadless.append ?_)
      (hbetween.trans (s₄.cursor.reads_mark hcheck)) hgrows honward.table.strings hprocs ?_,
      hadmits⟩
    · exact List.forall_mem_singleton.mpr nofun
    · simp

end Parse

end SslFrontend
