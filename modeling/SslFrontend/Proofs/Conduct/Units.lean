import SslFrontend.Proofs.Along.Units
import SslFrontend.Proofs.Conduct.Productions
import SslFrontend.Proofs.Symbol.Declares
import SslFrontend.Proofs.Symbol.Linkage

/-! # The conduct of procedures and items

What is done inside a body is done inside the scope of its procedure, which is
there before the body is read.  A conduct for every scope, in which that of a scope
is also one of the unit, is kept by every item (`Conduct.Throughout.items`).

One such conduct is that only the first token of a header is a `procedure`: whatever
else is read holds none, unless something was reported.
-/

namespace SslFrontend

/-- The conducts of all scopes are kept across whatever is done at a time while a
unit is read. -/
structure Conduct.Throughout (C : Option ScopeId → Conduct) : Prop where
  inside : ∀ scope, (C scope).Inside scope
  /-- A header begins. -/
  begins : ∀ s, s.cursor.kind = .keyword .kwProcedure → (C none).ok s s.skip
  declares : ∀ s header, (C none).ok s { s with table := (s.table.declare header).table }
  disowns : ∀ s {header scope table problems},
    s.table.declareDiscarded header = .ok (scope, table, problems) →
    (C none).ok s { s with table := table }
  attaches : ∀ s scope start finish code,
    (C none).ok s { s with table := s.table.modifyScope scope (·.withBody code start finish) }
  /-- A body that is never closed is attached too. -/
  attachesFailed : ∀ {s e t} scope start finish code, (C none).fails s e t →
    (C none).fails s e { t with table := t.table.modifyScope scope (·.withBody code start finish) }
  leaves : ∀ {s t scope}, s.table.scope? scope ≠ none → (C (some scope)).ok s t → (C none).ok s t
  leavesFailed : ∀ {s e t scope}, s.table.scope? scope ≠ none → (C (some scope)).fails s e t →
    (C none).fails s e t

namespace Conduct.Inside

variable {C : Conduct} {s : ParserState} (hI : C.Inside none)

include hI

/-! ## Parts of headers -/

theorem paramDefault : C.Keeps Parse.paramDefault s := by
  refine hI.bind hI.initializer fun given _ => ?_
  split
  · exact hI.pure _
  · split
    · exact hI.pure _
    · exact hI.bind (hI.told rfl) fun _ _ => hI.pure _

theorem parameter (before : List Parse.NumberedParam) :
    C.Keeps (Parse.parameter before) s := by
  refine hI.bind (Inside.discard (hI.eat rfl)) fun _ _ => hI.bind hI.expectIdent fun found _ => ?_
  refine hI.bind hI.reserve fun number _ => hI.bind hI.paramDefault fun default _ => ?_
  exact .ite (fun _ => hI.bind (hI.told rfl) fun _ _ => hI.pure _) fun _ => hI.pure _

theorem parameters : C.Keeps Parse.parameters s := by
  have hrun : ∀ s, C.Keeps Parse.parameterRun s := fun s =>
    hI.repeats (f := Parse.parameterRound) (fun params _ =>
      hI.bind (hI.parameter params) fun _ _ => hI.bind (hI.eat rfl) fun _ _ =>
        .ite (fun _ => hI.pure _) fun _ => hI.pure _) _
  refine hI.bind (hI.eat rfl) fun _ _ => .ite (fun _ => .check ?_) fun _ => hI.pure _
  exact .join (hI.bind (.ite (fun _ => hI.pure _) fun _ => hrun _) fun _ _ => hI.closed rfl _)

theorem keepFirst (trigger : Trigger) (pos : Position) (found : Option Trigger) :
    C.Keeps (Parse.keepFirst trigger pos found) s := by
  cases found with
  | none => exact hI.pure _
  | some t =>
      exact .ite (fun _ => hI.pure _) fun _ => hI.bind (hI.told rfl) fun _ _ => hI.pure _

theorem timedTrigger (pos : Position) : C.Keeps (Parse.timedTrigger pos) s := by
  refine hI.bind hI.expression fun code _ => ?_
  split
  · exact hI.pure _
  · exact hI.bind (hI.told rfl) fun _ _ => hI.pure _

theorem trigger : C.Keeps Parse.trigger s := by
  refine hI.repeats (f := Parse.triggerRound) (fun trigger s => .pos (.kind ?_)) _
  split
  · exact hI.passed (by rw [‹s.cursor.kind = _›]; rfl) <|
      hI.bind (hI.timedTrigger _) fun _ _ => hI.bind (hI.keepFirst _ _ _) fun _ _ => hI.pure _
  · exact hI.passed (by rw [‹s.cursor.kind = _›]; rfl) <|
      hI.bind hI.expression fun _ _ => hI.bind (hI.keepFirst _ _ _) fun _ _ => hI.pure _
  · exact hI.pure _

end Conduct.Inside

namespace Conduct.Throughout

variable {C : Option ScopeId → Conduct} {s : ParserState}

variable (hC : Throughout C)

include hC

/-! ## Headers -/

omit hC in
/-- The mentions of parameters are entered, and nothing else changes. -/
theorem recordParams_eq (scope : ScopeId) (params : List Parse.NumberedParam) (s : ParserState) :
    ∃ ledger, params.forM (Parse.recordParam scope) s = .ok ⟨⟩ { s with ledger := ledger } := by
  induction params generalizing s with
  | nil => exact ⟨s.ledger, rfl⟩
  | cons p rest ih =>
      have hfirst : ∃ ledger, Parse.recordParam scope p s = .ok ⟨⟩ { s with ledger := ledger } := by
        have hlook : ∀ k : SymbolTable → Parse Unit, (Parse.table >>= k) s = k s.table s :=
          fun _ => rfl
        unfold Parse.recordParam
        rw [hlook]
        cases s.table.lookupLocal scope p.param.name with
        | none => exact ⟨s.ledger, rfl⟩
        | some symbol =>
            by_cases hsite : s.table.siteOf? symbol = some p.param.pos
            · simp only [hsite, if_true]
              exact ⟨_, rfl⟩
            · simp only [hsite, if_false]
              exact ⟨s.ledger, rfl⟩
      obtain ⟨ledger, hfirst⟩ := hfirst
      obtain ⟨ledger', hrest⟩ := ih { s with ledger := ledger }
      exact ⟨ledger', (Parse.bind_ok hfirst).trans hrest⟩

omit hC in
/-- What is known in front of a body: its scope is there, and its opening token is
next. -/
def Ready (C : Option ScopeId → Conduct) (s : ParserState) (found : Option ScopeId)
    (t : ParserState) : Prop :=
  (C none).ok s t ∧ ∀ scope, found = some scope →
    t.table.scope? scope ≠ none ∧ t.cursor.kind.isPlain = true

theorem lasting_ready : (C none).Lasting (Ready C) := fun _ _ _ _ hst htu =>
  ⟨(hC.inside none).trans hst htu.1, htu.2⟩

theorem disown (hk : s.cursor.kind.isPlain = true) (header : Header) :
    (C none).Comes (Ready C) (Parse.disown header) s := by
  have hI := hC.inside none
  refine .table ?_
  have hplain := s.table.declareDiscarded_plain header
  cases hd : s.table.declareDiscarded header with
  | ok found =>
      obtain ⟨scope, table, problems⟩ := found
      rw [hd] at hplain
      obtain ⟨-, q, hq⟩ := SymbolTable.declareDiscarded_exists hd
      refine .via hI hC.lasting_ready (hC.disowns s hd) rfl (q := do
        Parse.reportAll problems
        return some scope) ?_
      refine .via hI hC.lasting_ready (hI.report _ hplain) rfl (q := pure (some scope)) ?_
      refine .pure ⟨hI.refl _, ?_⟩
      rintro _ ⟨⟩
      exact ⟨by rw [hq]; nofun, hk⟩
  | error problem =>
      rw [hd] at hplain
      have herror := SymbolTable.isError_of_declareDiscarded hd
      refine .via hI hC.lasting_ready (hI.report s (List.forall_mem_singleton.mpr hplain)) rfl
        (q := do
          Parse.moveCursor Cursor.skipBlock
          return none) ?_
      refine .next hI hC.lasting_ready (hI.move (Cursor.follows_skipBlock _) ?_) fun _ t _ =>
        .pure ⟨hI.refl t, nofun⟩
      exact ⟨problem, by simp, herror⟩

theorem heed (header : Header) (params : List Parse.NumberedParam) (number : Nat)
    (verdict : Verdict) (hbody : header.hasBody = true → s.cursor.kind.isPlain = true)
    (hdefine : ∀ index, verdict = .define index →
      header.hasBody = true ∧ s.table.scope? (.proc index) ≠ none) :
    (C none).Comes (Ready C) (Parse.heed header params number verdict) s := by
  have hI := hC.inside none
  have hrecorded : ∀ {k : Parse (Option ScopeId)} (symbol : Symbol),
      (∀ ledger, (C none).Comes (Ready C) k { s with ledger := ledger }) →
      (C none).Comes (Ready C)
        (Parse.recordAt number symbol header.pos .declaration >>= fun _ => k) s :=
    fun symbol hk => .via hI hC.lasting_ready
      (hI.enter s (s.ledger.recordAt number symbol header.pos .declaration) s.pending)
      rfl (hk _)
  cases verdict with
  | define index =>
      obtain ⟨hhas, hthere⟩ := hdefine index rfl
      refine hrecorded (.proc index) fun ledger => ?_
      obtain ⟨ledger', hparams⟩ := recordParams_eq (.proc index) params { s with ledger := ledger }
      refine .via hI hC.lasting_ready (hI.enter _ ledger' s.pending) (Parse.bind_ok hparams)
        (.pure ⟨hI.refl _, ?_⟩)
      rintro _ ⟨⟩
      exact ⟨hthere, hbody hhas⟩
  | announce index =>
      exact hrecorded (.proc index) fun _ => .pure ⟨hI.refl _, nofun⟩
  | reject named =>
      have hrest : ∀ ledger, (C none).Comes (Ready C)
          (if header.hasBody then Parse.disown header else pure none)
          { s with ledger := ledger } := fun ledger =>
        .ite (fun hhas => hC.disown (s := { s with ledger := ledger }) (hbody hhas) header)
          fun _ => .pure ⟨hI.refl _, nofun⟩
      cases named with
      | none => exact hrest s.ledger
      | some index => exact hrecorded (.proc index) hrest

theorem enter (header : Header) (params : List Parse.NumberedParam) (number : Nat)
    (hbody : header.hasBody = true → s.cursor.kind.isPlain = true) :
    (C none).Comes (Ready C) (Parse.enter header params number) s := by
  have hI := hC.inside none
  have hspec := SymbolTable.declare_spec s.table header
  refine .via hI hC.lasting_ready (hC.declares s header) rfl (q := do
    Parse.reportAll (s.table.declare header).problems
    Parse.heed header params number (s.table.declare header).verdict) ?_
  refine .via hI hC.lasting_ready (hI.report _ (s.table.declare_plain header)) rfl
    (hC.heed header params number _ hbody fun index hindex => ?_)
  rw [hindex] at hspec
  obtain ⟨q, hq⟩ := hspec.exists_of_define
  exact ⟨SymbolTable.hasBody_of_declare hindex, by rw [hq]; nofun⟩

theorem heading (q : Qualifiers) : (C none).Comes (Ready C) (Parse.heading q) s := by
  have hI := hC.inside none
  have hL := hC.lasting_ready
  refine .next hI hL hI.expectIdent fun found _ _ => .next hI hL hI.reserve fun number _ _ => ?_
  refine .next hI hL hI.parameters fun params _ _ => .next hI hL hI.trigger fun trigger t _ => ?_
  refine .kind (.ite (fun hcloses => ?_) fun hopens => hC.enter _ _ _ fun _ => ?_)
  · refine .next hI hL (Inside.discard (hI.expect rfl)) fun _ u _ => hC.enter _ _ _ fun hhas => ?_
    dsimp only at hhas
    rw [hhas] at hcloses
    cases hcloses
  · rw [Bool.not_eq_true, Bool.not_eq_false'] at hopens
    exact TokenKind.isPlain_of (P := fun kind => Cursor.opens kind = true) nofun nofun hopens

theorem entry (hk : s.cursor.kind = .keyword .kwProcedure) (q : Qualifiers) :
    (C none).Comes (Ready C) (Parse.entry q) s :=
  .via (hC.inside none) hC.lasting_ready (hC.begins s hk) rfl (hC.heading q)

/-! ## Bodies -/

theorem body {scope : ScopeId} (there : s.table.scope? scope ≠ none)
    (hk : s.cursor.kind.isPlain = true) : (C none).Keeps (Parse.body scope) s := by
  have hI := hC.inside (some scope)
  have hf : Parse.Forward (Parse.statement ⟨some scope, false⟩) :=
    (Parse.inside_forward (some scope)).statement_along rfl
  have hopen := hI.openBlock hk hf (Parse.statement_passes _) fun _ => hI.statement rfl
  have hleft : (C none).Comes (Inside.blockPost (C none))
      (Parse.openBlock (Parse.statement ⟨some scope, false⟩)) s := by
    unfold Comes Inside.blockPost at hopen ⊢
    cases hr : Parse.openBlock (Parse.statement ⟨some scope, false⟩) s with
    | ok block t =>
        rw [hr] at hopen
        dsimp only at hopen ⊢
        cases hfailure : block.failure with
        | none =>
            rw [hfailure] at hopen
            exact hC.leaves there hopen
        | some e =>
            rw [hfailure] at hopen
            exact hC.leavesFailed there hopen
    | error e t =>
        rw [hr] at hopen
        exact hC.leavesFailed there hopen
  refine .pos (.bind hleft fun block t _ hblock => ?_)
  unfold Inside.blockPost at hblock
  cases hfailure : block.failure with
  | none =>
      rw [hfailure] at hblock
      exact (hC.inside none).trans hblock
        (hC.attaches t scope s.cursor.pos t.cursor.previousPos block.code)
  | some e =>
      rw [hfailure] at hblock
      exact hC.attachesFailed scope s.cursor.pos t.cursor.previousPos block.code hblock

theorem bodyIn {found : Option ScopeId} {t : ParserState} (h : Ready C s found t) :
    (C none).Keeps (Parse.bodyIn found) t := by
  cases found with
  | none => exact (hC.inside none).pure _
  | some scope => exact hC.body (h.2 scope rfl).1 (h.2 scope rfl).2

theorem procedure (hk : s.cursor.kind = .keyword .kwProcedure) (q : Qualifiers) :
    (C none).Keeps (Parse.procedure q) s := by
  have hI := hC.inside none
  rw [Parse.procedure_eq]
  refine .bind (hC.entry hk q) fun found t _ hready => ?_
  have hbody := hC.bodyIn hready
  unfold Keeps Comes at hbody
  cases hr : Parse.bodyIn found t with
  | ok _ u =>
      rw [hr] at hbody
      exact hI.trans hready.1 hbody
  | error e u =>
      rw [hr] at hbody
      exact hI.fail hready.1 hbody

/-! ## Items -/

theorem item : (C none).Keeps Parse.item s := by
  have hI := hC.inside none
  refine hI.bind hI.qualifiers fun q t => .kind ?_
  split
  · exact hI.bind (hC.procedure ‹t.cursor.kind = _› q) fun _ _ => hI.pure _
  · exact hI.variableDeclaration rfl q (by rw [‹t.cursor.kind = _›]; rfl)
  · exact .ite (fun _ => hI.statement rfl) fun _ => .cursor (hI.throw rfl)

theorem items : (C none).Keeps Parse.items s := by
  have hI := hC.inside none
  refine hI.repeats (f := Parse.itemRound) (fun code s => ?_) _
  unfold Keeps Comes
  cases hend : s.cursor.atEnd with
  | true =>
      rw [Parse.itemRound_last code hend]
      exact hI.refl s
  | false =>
      have hitem := hC.item (s := s)
      unfold Keeps Comes at hitem
      cases hr : Parse.item s with
      | ok more t =>
          rw [hr] at hitem
          rw [Parse.itemRound_ok code hend hr]
          have hforced := hI.forced_behind Parse.item_forward Parse.item_passes hr
          unfold Keeps Comes at hforced
          rw [Parse.forceProgress_eq] at hforced
          exact hI.trans hitem hforced
      | error e t =>
          rw [hr] at hitem
          rw [Parse.itemRound_error code hend hr]
          have herred : ({ t with problems := t.problems.push e.diagnostic } : ParserState).Erred :=
            ⟨e.diagnostic, by simp [Queue.push], rfl⟩
          have hrecovered := hI.recovered herred (KindSet.statementBoundary.union .itemStart)
          have hforced := hI.forced (s := Parse.itemReported e t) (herred.recovered _)
            s.cursor.position
          unfold Keeps Comes at hforced
          rw [Parse.forceProgress_eq] at hforced
          exact hI.trans (hI.caught hitem) (hI.trans hrecovered hforced)

end Conduct.Throughout

/-! ## Tokens without headers -/

/-- None of the tokens begins a header. -/
def Headless (tokens : List Token) : Prop := ∀ token ∈ tokens, token.kind ≠ .keyword .kwProcedure

theorem Headless.append {first second : List Token} (h₁ : Headless first) (h₂ : Headless second) :
    Headless (first ++ second) :=
  List.forall_mem_append.mpr ⟨h₁, h₂⟩

theorem Headless.of_plain {tokens : List Token} (h : ∀ token ∈ tokens, token.kind.isPlain = true) :
    Headless tokens := by
  intro token ht hkind
  have hplain := h token ht
  rw [hkind] at hplain
  cases hplain

namespace Conduct

/-- Reports stay, and tokens are read; without an error, none that begins a header. -/
def headless : Conduct where
  ok s t := (s.Erred → t.Erred) ∧
    ∃ tokens, s.cursor.Reads tokens t.cursor ∧ (t.Erred ∨ Headless tokens)
  fails s _ t := (s.Erred → t.Erred) ∧ ∃ tokens, s.cursor.Reads tokens t.cursor

/-- Nothing is read. -/
theorem headless_quiet {s t : ParserState} (hc : t.cursor = s.cursor) (he : s.Erred → t.Erred) :
    headless.ok s t :=
  ⟨he, [], hc ▸ .refl _, .inr nofun⟩

theorem erred_reported {s : ParserState} {ds : List Diagnostic} (h : s.Erred) :
    ({ s with problems := ⟨s.problems.items ++ ds⟩ } : ParserState).Erred := by
  obtain ⟨d, hd, herror⟩ := h
  exact ⟨d, List.mem_append_left _ hd, herror⟩

theorem headless_inside (scope : Option ScopeId) : headless.Inside scope where
  refl s := headless_quiet rfl id
  trans := by
    rintro s t u ⟨he₁, first, h₁, hfirst⟩ ⟨he₂, second, h₂, hsecond⟩
    refine ⟨fun h => he₂ (he₁ h), first ++ second, h₁.trans h₂, ?_⟩
    rcases hsecond with herred | hsecond
    · exact .inl herred
    · exact hfirst.imp he₂ (·.append hsecond)
  fail := by
    rintro s e t u ⟨he₁, first, h₁, -⟩ ⟨he₂, second, h₂⟩
    exact ⟨fun h => he₂ (he₁ h), first ++ second, h₁.trans h₂⟩
  raise s _ _ _ hf := by
    obtain ⟨tokens, hrest, heof, hposition, hlast⟩ := hf
    exact ⟨id, tokens, ⟨hrest, heof, hposition, hlast⟩⟩
  caught := by
    rintro s e t ⟨he, tokens, h⟩
    exact ⟨fun hs => erred_reported (he hs), tokens, h,
      .inl ⟨e.diagnostic, by simp [Queue.push], rfl⟩⟩
  read s tokens c hr hkind := ⟨id, tokens, hr, hkind.symm.imp id .of_plain⟩
  report s ds _ := headless_quiet rfl erred_reported
  text s text handle strings hk _ :=
    ⟨id, _, Cursor.reads_advance (by rw [hk]; simp), .inr <| List.forall_mem_singleton.mpr <|
      fun hkind => absurd (hk.symm.trans hkind) (by simp)⟩
  refused s text error hk _ :=
    ⟨erred_reported, _, Cursor.reads_advance (by rw [hk]; simp),
      .inr <| List.forall_mem_singleton.mpr <| fun hkind => absurd (hk.symm.trans hkind) (by simp)⟩
  enter s _ _ := headless_quiet rfl id
  adjust s _ _ _ := headless_quiet rfl id
  declare s _ _ _ _ _ _ := headless_quiet rfl id
  redeclare s _ _ _ _ _ := headless_quiet rfl erred_reported

end Conduct

/-- No error was reported so far. -/
def ParserState.Clean (s : ParserState) : Prop := ∀ d ∈ s.problems.items, d.isError = false

namespace ParserState.Clean

variable {s t : ParserState}

theorem not_erred (h : s.Clean) : ¬s.Erred := by
  rintro ⟨d, hd, herror⟩
  rw [h d hd] at herror
  cases herror

/-- What a production reads without an error holds no header. -/
theorem headless {α : Type} {p : Parse α} {a : α} (h : t.Clean)
    (hp : Conduct.headless.Keeps p s) (hr : p s = .ok a t) :
    ∃ tokens, s.cursor.Reads tokens t.cursor ∧ Headless tokens := by
  unfold Conduct.Keeps Conduct.Comes at hp
  rw [hr] at hp
  obtain ⟨-, tokens, hreads, hheadless⟩ := hp
  exact ⟨tokens, hreads, hheadless.resolve_left h.not_erred⟩

end ParserState.Clean

end SslFrontend
