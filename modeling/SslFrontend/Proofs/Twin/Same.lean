import SslFrontend.Proofs.Progress.Loops
import SslFrontend.Proofs.Symbol.Reclosed
import SslFrontend.Proofs.Twin.Procedure

/-! # Runs that differ in reports

Two runs read the items of a module, up to a seam that stands between items or
inside the last one.

Two runs that declare and mention the same keep the same records, up to the
reports, and up to the end of a body that one of them does not find.  Here is
the comparison of such runs.
-/

namespace SslFrontend

/-! ## Modules side by side -/

/-- What a run over the items of a module leaves to be finished. -/
def Draft.ofRun : EStateM.Result ParseError ParserState Code → Draft
  | .ok main s => ⟨main, s.table, s.ledger, s.pending, s.problems⟩
  | .error e s => ⟨[], s.table, s.ledger, s.pending, s.problems.push e.diagnostic⟩

def Draft.records (draft : Draft) : Records :=
  ⟨draft.table, draft.ledger, draft.pending, draft.problems⟩

theorem TokenStream.draft_eq (stream : TokenStream) :
    stream.draft = .ofRun (Parse.items (.start stream)) := by
  unfold TokenStream.draft
  cases Parse.items (.start stream) <;> rfl

/-- The draft is what the items behind those that are read leave. -/
theorem TokenStream.draft_of_leads {stream : TokenStream} {main : Code} {s : ParserState}
    (h : Parse.Leads Parse.itemRound [] (.start stream) main s) :
    stream.draft = .ofRun (Parse.repeatRounds Parse.itemRound main s) := by
  have hon := fun code => ParserState.Onward.throughout.itemRound_along code
  rw [draft_eq, Parse.items,
    h.repeatRounds_eq Parse.itemRound_consumes fun code => (hon code).forward]

namespace Comparison

variable {C : Comparison} {ready : SymbolTable → Prop} {s t s' t' : ParserState}

open Agree (less_of_check)
open Parse (Along)

/-- At the seam there is no statement. -/
theorem statement_gone {context : Context} (h : C.Pair s t) (hg : C.seam.Gone s.cursor) :
    Parse.statement context s = .error (.noExpression s.cursor.current) s :=
  statementWith_gone h hg

/-- An item that is neither a procedure nor a declaration is a statement. -/
def statementItem (q : Qualifiers) : Parse Code := do
  if q.isEmpty then Parse.statement .top
  else throw (.expected "`variable` or `procedure`" (← Parse.cursor))

theorem itemFrom_eq (kind : TokenKind) (q : Qualifiers) (hprocedure : kind ≠ .keyword .kwProcedure)
    (hvariable : kind ≠ .keyword .kwVariable) : Parse.itemFrom q kind = statementItem q := by
  cases kind with
  | keyword word =>
      cases word with
      | kwProcedure => exact absurd rfl hprocedure
      | kwVariable => exact absurd rfl hvariable
      | _ => rfl
  | _ => rfl

theorem statementItem_agree (q : Qualifiers) (h : C.Pair s t) :
    C.Agree (C.MayLose _) C.SameCode (statementItem q) (statementItem q) s t :=
  .ite Iff.rfl (fun _ => statement_agree C.top rfl h) fun _ => .cursor (.throwExpected h _)

/-- At the seam the left run fails. -/
theorem statementItem_gone (q : Qualifiers) (h : C.Pair s t) (hg : C.seam.Gone s.cursor) :
    ∃ e, statementItem q s = .error e s := by
  unfold statementItem
  split
  · exact ⟨_, statement_gone h hg⟩
  · exact ⟨_, rfl⟩

theorem item_agree (hu : C.OfUnits ready) (hready : ready s.table) (h : C.Pair s t) :
    C.Agree (C.MayLose _) C.SameCode Parse.item Parse.item s t := by
  refine (qualifiers_agree h).bind (fun s₁ t₁ q q' hq h₁ hsame => .kind ?_) fun q s₁ hstop => ?_
  · cases hsame
    have hready : ready s₁.table := by
      have hafter := hu.stays.qualifiers_along s
      unfold Parse.after at hafter
      rw [hq] at hafter
      exact hafter hready
    by_cases hprocedure : s₁.cursor.kind = .keyword .kwProcedure
    · obtain ⟨hg, -, -⟩ := h₁.pair.reads hprocedure rfl
      rw [h₁.joins.kind_eq hg (by rw [hprocedure]; rfl), hprocedure]
      refine (procedure_agree hu q hready hprocedure h₁.pair).onward (fun _ => ?_)
        fun _ _ _ _ h₂ _ => .pure h₂.pair .nil
      exact .pure (ParserState.Onward.inside none) _
    by_cases hvariable : s₁.cursor.kind = .keyword .kwVariable
    · obtain ⟨hg, -, -⟩ := h₁.pair.reads hvariable rfl
      rw [h₁.joins.kind_eq hg (by rw [hvariable]; rfl), hvariable]
      exact variableDeclaration_agree C.top q hvariable h₁.pair
    · have hleft := congrFun (itemFrom_eq _ q hprocedure hvariable) s₁
      by_cases hg : C.seam.Gone s₁.cursor
      · obtain ⟨e, he⟩ := statementItem_gone q h₁.pair hg
        exact .gone (hleft.trans he) (.refl _) hg
      · have hright := congrFun (itemFrom_eq t₁.cursor.kind q
          (fun hk => hprocedure (h₁.joins.kind_of_right hg hk rfl))
          fun hk => hvariable (h₁.joins.kind_of_right hg hk rfl)) t₁
        exact .via h₁.pair.refl hleft hright (statementItem_agree q h₁.pair)
  · obtain ⟨hg, t₁, hpair⟩ := hstop
    obtain ⟨e, he⟩ := statementItem_gone q hpair hg
    have hleft := congrFun (itemFrom_eq s₁.cursor.kind q
      (fun hk => (hpair.reads hk rfl).1 hg) fun hk => (hpair.reads hk rfl).1 hg) s₁
    exact .of_error (hleft.trans he) (.of_gone hg)

/-! ## Rounds -/

/-- Recovery from a malformed item tells no delimiter from another. -/
theorem passes_spell_item (token : Token) :
    Cursor.passes (KindSet.statementBoundary.union .itemStart) (C.seam.spell token) =
      Cursor.passes (KindSet.statementBoundary.union .itemStart) token := by
  refine Seam.spell_blind (m := C.seam) (fun kind => kind != .eof &&
    !(KindSet.statementBoundary.union .itemStart).contains kind) ?_ ?_ token
  · decide
  · decide

/-- One item in front of the seam. -/
theorem itemRound_agree (hu : C.OfUnits ready) (hready : ready s.table) {a b : Code}
    (hg : ¬C.seam.Gone s.cursor) (h : C.Pair s t) (hab : C.SameCode s t a b) :
    C.Agree (C.MayLose _) (Agree.RoundPost C.SameCode C.SameCode s) (Parse.itemRound a)
      (Parse.itemRound b) s t := by
  have hon := ParserState.Onward.inside none
  have hend : ∀ (start : Nat) (code : Code) (s : ParserState), (do
      if (← Parse.cursor).position = start then discard Parse.advance
      return .inl code : Parse (Code ⊕ Code)) s =
      (return .inl code : Parse (Code ⊕ Code))
        (if s.cursor.position = start then s.skip else s) := by
    intro start code s
    have hlook : ∀ (k : Cursor → Parse (Code ⊕ Code)), (Parse.cursor >>= k) s = k s.cursor s :=
      fun _ => rfl
    rw [hlook]
    split <;> rfl
  have hlast : ∀ code : Code, Along ParserState.Onward (do
      if (← Parse.cursor).position = s.cursor.position then discard Parse.advance
      return .inl code : Parse (Code ⊕ Code)) := fun code =>
    .bind hon hon.cursor fun _ =>
      .ite (.bind hon (.discard hon.advance) fun _ => .pure hon _) (.pure hon _)
  refine .cursor ?_
  rw [h.joins.atEnd hg]
  refine .ite Iff.rfl (fun _ => .pure h hab) fun hnot => ?_
  have heof : s.cursor.kind ≠ .eof := fun hk => hnot (by simp [Cursor.atEnd, hk])
  have hprogress : ∀ {s₁ t₁ : ParserState} {a b : Code}, C.Later s t s₁ t₁ →
      C.SameCode s₁ t₁ a b → C.Agree (C.MayLose _) (Agree.RoundPost C.SameCode C.SameCode s)
        (do
          if (← Parse.cursor).position = s.cursor.position then discard Parse.advance
          return .inl a : Parse (Code ⊕ Code))
        (do
          if (← Parse.cursor).position = t.cursor.position then discard Parse.advance
          return .inl b : Parse (Code ⊕ Code)) s₁ t₁ := fun h₁ hab =>
    progress_agree h hg heof h₁ (hend _ _ _) (hend _ _ _) fun s₂ t₂ h₂ hless =>
      .pure h₂.pair ⟨h₂.codes hab, hless⟩
  refine (item_agree hu hready h).attempt.bind (fun s₁ t₁ r r' _ h₁ hout => ?_)
    fun r s₁ hr => ?_
  · cases r with
    | ok more => cases r' with
      | error f => exact hout.elim
      | ok more' => exact hprogress h₁ ((h₁.codes hab).append hout)
    | error e => cases r' with
      | ok more' => exact hout.elim
      | error f =>
          refine .report h₁.pair hout.diagnostic fun h₂ => ?_
          refine .recovered passes_spell_item h₂.pair ⟨e.diagnostic, by simp [Queue.push], rfl⟩
            (hlast a) fun s₃ t₃ h₃ => ?_
          have h₃ := h₁.trans (h₂.trans h₃)
          exact hprogress h₃ (h₃.codes hab)
  · cases r with
    | ok more => exact Lost.escapes hr (hlast _)
    | error e =>
        refine Agree.escape_report hr rfl ?_
        exact .bind hon (hon.recover_along _) fun _ => hlast a

/-- Streams that do not part are compared to their end. -/
theorem itemRounds_agree (hu : C.OfUnits ready) (hready : ∀ t, ready t) (hgap : C.seam.gap = false)
    {a b : Code} (h : C.Pair s t) (hab : C.SameCode s t a b) :
    C.Agree (C.MayLose _) C.SameCode (Parse.repeatRounds Parse.itemRound a)
      (Parse.repeatRounds Parse.itemRound b) s t := by
  refine .repeatOnward (I := C.SameCode) ParserState.Onward.throughout.itemRound_along
    (fun s₁ t₁ a b h₁ hab => ?_) h hab
  exact itemRound_agree hu (hready _) (fun hg => by simp [hg.1] at hgap) h₁.pair hab

theorem items_agree (hu : C.OfUnits ready) (hready : ∀ t, ready t) (hgap : C.seam.gap = false)
    (h : C.Pair s t) : C.Agree (C.MayLose _) C.SameCode Parse.items Parse.items s t :=
  itemRounds_agree hu hready hgap h .nil

/-! ## Drafts -/

/-- Runs that go on to one end are compared all the way. -/
theorem not_lost (C : Comparison) (hgap : C.seam.gap = false) (hstrict : C.seam.tolerant = false)
    (htaken : C.taken = []) (s : ParserState) : ¬C.Lost s := by
  rintro (hbeyond | ⟨htolerant | hgone, -⟩ | ⟨n, hn, -⟩)
  · rw [Seam.Beyond, (C.seam.joined hgap).1] at hbeyond
    exact Nat.not_lt_zero _ hbeyond
  · exact absurd (hstrict.symm.trans htolerant) (by simp)
  · exact absurd (hgap.symm.trans hgone.1) (by simp)
  · rw [htaken] at hn
    cases hn

theorem not_fails (C : Comparison) (hgap : C.seam.gap = false)
    (hstrict : C.seam.tolerant = false) (htaken : C.taken = []) (s : ParserState) :
    ¬C.Fails s := by
  rintro ((htolerant | hgone) | hlost)
  · exact absurd (hstrict.symm.trans htolerant) (by simp)
  · exact absurd (hgap.symm.trans hgone.1) (by simp)
  · exact C.not_lost hgap hstrict htaken s hlost

/-- Runs that agree to their end leave alike records and alike main code. -/
theorem ofRun_agree {p q : Parse Code} (hlost : ∀ s, ¬C.Lost s) (hfails : ∀ s, ¬C.Fails s)
    (h : C.Agree (C.MayLose _) C.SameCode p q s t) :
    C.data (Draft.ofRun (p s)).records (Draft.ofRun (q t)).records ∧
      C.Codes (Draft.ofRun (p s)).records (Draft.ofRun (q t)).records (Draft.ofRun (p s)).main
        (Draft.ofRun (q t)).main := by
  unfold Agree at h
  cases hr : p s with
  | ok a s' =>
      rw [hr] at h
      rcases h with hl | ⟨b, t', hb, hlater, hcodes⟩
      · exact absurd hl (hlost s')
      · rw [hb]
        exact ⟨hlater.grown.data, hcodes⟩
  | error e s' =>
      rw [hr] at h
      rcases h with hf | ⟨f, t', hf, hlater, he⟩
      · exact absurd hf (hfails s')
      · rw [hf]
        exact ⟨(C.report hlater.grown.data (.cons he.diagnostic .nil)).data, .nil⟩

end Comparison

open SymbolTable (Recloses)

/-- Where two runs that keep the same records may differ. -/
structure Variation where
  seam : Seam
  /-- A body that may end elsewhere on the right. -/
  closed : Option (ScopeId × Position)
  /-- How the reports of the two runs compare. -/
  reports : List Diagnostic → List Diagnostic → Prop
  extend : ∀ {a b c d}, reports a b → List.Forall₂ seam.Alike c d → reports (a ++ c) (b ++ d)
  strict : seam.tolerant = false
  ahead : ∀ {tokens}, tokens <:+ seam.shared →
    Assignment.isNext (tokens.map seam.spell ++ seam.right) =
      Assignment.isNext (tokens ++ seam.left)
  lists : seam.braces = true → ∀ {context kind token s}, token.kind = .keyword .kwVariable →
    token :: s.cursor.rest <:+ seam.shared → ¬Parse.ListStrays context kind s

namespace Variation

/-! Streams that go on together to their end do not tell apart. -/

theorem none_strict (shared : List Token) : (Seam.none shared).tolerant = false := rfl

theorem none_ahead (shared : List Token) {tokens : List Token}
    (_ : tokens <:+ (Seam.none shared).shared) :
    Assignment.isNext (tokens.map (Seam.none shared).spell ++ (Seam.none shared).right) =
      Assignment.isNext (tokens ++ (Seam.none shared).left) := by
  rw [Seam.spell_eq rfl, List.map_id]
  rfl

theorem none_lists (shared : List Token) (h : (Seam.none shared).braces = true)
    {context : Context} {kind : VarScope} {token : Token} {s : ParserState}
    (_ : token.kind = .keyword .kwVariable)
    (_ : token :: s.cursor.rest <:+ (Seam.none shared).shared) :
    ¬Parse.ListStrays context kind s :=
  absurd h Bool.false_ne_true

variable (V : Variation)

/-- The records are the same but for what may differ. -/
structure Same (r r' : Records) : Prop where
  table : Recloses V.closed r.table r'.table
  ledger : r'.ledger = r.ledger
  pending : r'.pending = r.pending
  problems : V.reports r.problems.items r'.problems.items

def likeness : Likeness where
  data := V.Same
  node _ _ a b := b = a
  symbol _ _ a b := b = a
  value _ _ a b := b = a
  number _ _ a b := b = a

variable {V} {r r' : Records}

theorem grown {q q' : Records} (h : V.Same r r') : V.likeness.Grown q q' r r' :=
  ⟨h, id, id, id, id⟩

theorem codes_eq {a b : Code} (h : List.Forall₂ (fun a b : Node => b = a) a b) : b = a := by
  induction h with
  | nil => rfl
  | cons h _ ih => rw [h, ih]

theorem Same.lookupDeclared (h : V.Same r r') (scope : Option ScopeId) (name : String) :
    r'.table.lookupDeclared scope name = r.table.lookupDeclared scope name :=
  h.table.same (·.lookupDeclared scope name) fun _ _ _ => SymbolTable.lookupDeclared_reclosed ..

theorem Same.text (h : V.Same r r') (text : String) (pos : Position) :
    V.likeness.Grown r r' (Making.text text pos r).2 (Making.text text pos r').2 ∧
      (Making.text text pos r').1 = (Making.text text pos r).1 := by
  have hstrings : r'.table.strings = r.table.strings :=
    h.table.same SymbolTable.strings fun _ _ _ => SymbolTable.strings_reclosed ..
  unfold Making.text
  rw [hstrings]
  cases r.table.strings.intern text with
  | ok found =>
      obtain ⟨handle, strings⟩ := found
      refine ⟨grown ⟨?_, h.ledger, h.pending, h.problems⟩, rfl⟩
      exact h.table.change (fun t => { t with strings := strings }) fun t scope finish =>
        t.reclosed_strings scope finish strings
  | error e =>
      exact ⟨grown ⟨h.table, h.ledger, h.pending,
        V.extend h.problems (.cons (.refl rfl) .nil)⟩, rfl⟩

theorem Same.mention (h : V.Same r r') (scope : Option ScopeId) (name : String) (pos : Position) :
    V.likeness.Grown r r' (Making.mention scope name pos r).2 (Making.mention scope name pos r').2 ∧
      (Making.mention scope name pos r').1 = (Making.mention scope name pos r).1 := by
  unfold Making.mention
  rw [h.lookupDeclared, h.ledger, h.pending]
  cases r.table.lookupDeclared scope name with
  | some symbol => exact ⟨grown ⟨h.table, rfl, rfl, h.problems⟩, rfl⟩
  | none => exact ⟨grown ⟨h.table, rfl, rfl, h.problems⟩, rfl⟩

theorem Same.adjust (h : V.Same r r') (symbol : Symbol) (f : Variable → Variable) :
    V.likeness.Grown r r' (r.adjust symbol f) (r'.adjust symbol f) :=
  grown ⟨h.table.change (·.modifyVariable symbol f) fun t scope finish =>
    t.modifyVariable_reclosed scope finish symbol f, h.ledger, h.pending, h.problems⟩

theorem Same.declared (h : V.Same r r') {scope : Option ScopeId} {kind : VarScope} {name : String}
    {pos : Position} {symbol : Symbol} {t : SymbolTable}
    (hd : r.table.declareIn scope kind name pos = .ok (symbol, t)) :
    ∃ u, r'.table.declareIn scope kind name pos = .ok (symbol, u) ∧
      V.likeness.Grown r r' (r.declared t symbol pos) (r'.declared u symbol pos) := by
  rcases h.table with htable | ⟨end_, hmem, htable⟩
  · refine ⟨t, by rw [htable, hd], grown ⟨.inl rfl, ?_, h.pending, h.problems⟩⟩
    exact congrArg (·.record symbol pos .declaration) h.ledger
  · refine ⟨t.reclosed end_.1 end_.2, ?_, grown ⟨.inr ⟨end_, hmem, rfl⟩, ?_, h.pending, h.problems⟩⟩
    · rw [htable, SymbolTable.declareIn_reclosed, hd]
      rfl
    · exact congrArg (·.record symbol pos .declaration) h.ledger

theorem Same.refused (h : V.Same r r') {scope : Option ScopeId} {kind : VarScope} {name : String}
    {pos : Position} {d : Diagnostic} (hd : r.table.declareIn scope kind name pos = .error d) :
    r'.table.declareIn scope kind name pos = .error d := by
  rcases h.table with htable | ⟨end_, hmem, htable⟩
  · rw [htable, hd]
  · rw [htable, SymbolTable.declareIn_reclosed, hd]
    rfl

/-- The comparison of two runs that keep the same records. -/
def comparison (V : Variation) : Comparison where
  toLikeness := V.likeness
  seam := V.seam
  taken := []
  scope σ τ := τ = σ
  top := top_same
  nested := @isSome_same
  ahead ht := .inl (V.ahead ht)
  lists := V.lists
  plain _ := rfl
  symbolNode pos h := by
    cases h
    rfl
  constant {_ _ a b} h := by
    obtain rfl : b = a := codes_eq h
    cases b.constant? with
    | none => exact .none
    | some v => exact .some rfl
  integer h := by
    cases h
    rfl
  literal := rfl
  report h hd := grown ⟨h.table, h.ledger, h.pending, V.extend h.problems hd⟩
  text text pos _ _ h := h.text text pos
  mention {σ τ} name pos hs _ _ h := by
    cases hs
    exact h.mention σ name pos
  declared {_ _ _ _ _ _ _ a _} h hs hd := by
    cases hs
    obtain ⟨u, hu, hgrown⟩ := h.declared hd
    exact .inr ⟨a, u, hu, hgrown, rfl⟩
  refused {_ _ _ _ _ _ _ d} h hs hd := by
    cases hs
    exact .inr ⟨d, h.refused hd, .refl (SymbolTable.declareIn_early hd)⟩
  setLength length h hs := by
    cases hs
    exact h.adjust _ _
  setInitialized h hs := by
    cases hs
    exact h.adjust _ _
  setValue h hs hv := by
    cases hs
    cases hv
    exact h.adjust _ _

theorem triggers_eq {a b : Trigger} (h : V.likeness.Triggers r r' a b) : b = a := by
  cases h with
  | none => rfl
  | timed time => rfl
  | conditional hcodes => rw [codes_eq hcodes]

theorem params_eq {a b : List Param} (h : List.Forall₂ (V.likeness.Params r r') a b) : b = a := by
  induction h with
  | nil => rfl
  | @cons p q _ _ hp _ ih =>
      obtain ⟨name, pos, default⟩ := p
      obtain ⟨name', pos', default'⟩ := q
      obtain ⟨hname, hpos, hdefault⟩ := hp
      dsimp only at hname hpos hdefault
      subst hname hpos
      rw [ih]
      cases hdefault with
      | none => rfl
      | some hv => rw [show _ = _ from hv]

theorem headers_eq {a b : Header} (h : V.likeness.Headers r r' a b) : b = a := by
  obtain ⟨name, pos, modifiers, trigger, params, hasBody⟩ := a
  obtain ⟨name', pos', modifiers', trigger', params', hasBody'⟩ := b
  obtain ⟨hname, hpos, hmodifiers, htrigger, hparams, hbody⟩ := h
  dsimp only at hname hpos hmodifiers htrigger hparams hbody
  rw [hname, hpos, hmodifiers, triggers_eq htrigger, params_eq hparams, hbody]

theorem Same.declare (h : V.Same r r') (header : Header) :
    V.likeness.Grown r r' (r.headed (r.table.declare header)) (r'.headed (r'.table.declare header)) ∧
      (r'.table.declare header).verdict = (r.table.declare header).verdict := by
  have hproblems := V.extend h.problems
    (Comparison.alike_self (C := V.comparison) (r.table.declare_early header))
  rcases h.table with htable | ⟨end_, hmem, htable⟩
  · rw [htable]
    exact ⟨grown ⟨.inl rfl, h.ledger, h.pending, hproblems⟩, rfl⟩
  · rw [htable, SymbolTable.declare_reclosed]
    exact ⟨grown ⟨.inr ⟨end_, hmem, rfl⟩, h.ledger, h.pending, hproblems⟩, rfl⟩

theorem Same.attach (h : V.Same r r') (scope : ScopeId) (start finish : Position) (code : Code) :
    V.likeness.Grown r r' (r.attached scope start finish code)
      (r'.attached scope start finish code) := by
  refine grown ⟨?_, h.ledger, h.pending, h.problems⟩
  rcases h.table with htable | ⟨end_, hmem, htable⟩
  · exact .inl (congrArg (fun t => (Records.attached { r with table := t } scope start finish
      code).table) htable)
  · show Recloses V.closed _ (r'.table.modifyScope scope _)
    rw [htable]
    rcases r.table.attach_reclosed end_.1 end_.2 scope start finish
      (code ++ [⟨.ret, .int 0, finish⟩]) with hover | hcomm
    · exact .inl hover
    · exact .inr ⟨end_, hmem, hcomm⟩

theorem Same.disown (h : V.Same r r') (header : Header) :
    V.comparison.Disowns r r' (r.table.declareDiscarded header)
      (r'.table.declareDiscarded header) := by
  have hproblems : ∀ {ds : List Diagnostic}, (∀ d ∈ ds, d.Early) →
      V.reports (r.problems.items ++ ds) (r'.problems.items ++ ds) :=
    fun hds => V.extend h.problems (Comparison.alike_self (C := V.comparison) hds)
  have hearly := r.table.declareDiscarded_early header
  rcases h.table with htable | ⟨end_, hmem, htable⟩
  · rw [htable]
    cases hd : r.table.declareDiscarded header with
    | error d =>
        rw [hd] at hearly
        exact .refused (.refl hearly)
    | ok found =>
        rw [hd] at hearly
        exact .scope rfl (grown ⟨.inl rfl, h.ledger, h.pending, hproblems hearly⟩)
  · rw [htable, SymbolTable.declareDiscarded_reclosed]
    cases hd : r.table.declareDiscarded header with
    | error d =>
        rw [hd] at hearly
        exact .refused (.refl hearly)
    | ok found =>
        rw [hd] at hearly
        exact .scope rfl (grown ⟨.inr ⟨end_, hmem, rfl⟩, h.ledger, h.pending, hproblems hearly⟩)

theorem Same.param (h : V.Same r r') (scope : ScopeId) {p p' : Param} (hname : p'.name = p.name)
    (hpos : p'.pos = p.pos) : r'.table.symbolOf? scope p' = r.table.symbolOf? scope p := by
  unfold SymbolTable.symbolOf?
  rw [hname, hpos, h.table.same (·.lookupLocal scope p.name) fun _ _ _ =>
    SymbolTable.lookupLocal_reclosed .., h.table.same SymbolTable.siteOf? fun _ _ _ =>
      funext fun _ => SymbolTable.siteOf?_reclosed ..]

/-- Headers and bodies are compared, too. -/
theorem ofUnits (V : Variation) : V.comparison.OfUnits fun _ => True where
  stays := by constructor <;> intros <;> trivial
  reserve h := ⟨grown ⟨h.table, congrArg (·.reserve.2) h.ledger, h.pending, h.problems⟩,
    congrArg Ledger.next h.ledger⟩
  enter pos h hn hs := by
    cases hn
    cases hs
    refine grown ⟨h.table, ?_, h.pending, h.problems⟩
    exact congrArg (fun ledger : Ledger => ledger.recordAt _ _ pos .declaration) h.ledger
  declare _ h hh := by
    cases headers_eq hh
    obtain ⟨hgrown, hverdict⟩ := h.declare _
    refine .inr (.inr ⟨hgrown, ?_⟩)
    rw [hverdict]
    cases (SymbolTable.declare _ _).verdict with
    | define i => exact .define rfl rfl
    | announce i => exact .announce rfl
    | reject named =>
        cases named with
        | none => exact .unnamed V.strict
        | some i => exact .named V.strict rfl
  param {_ _ σ _ _ _} h hs hp := by
    cases hs
    rw [h.param σ hp.name hp.pos]
    cases SymbolTable.symbolOf? _ _ _ with
    | none => exact .none
    | some symbol => exact .some rfl
  attach start finish h hs hc := by
    cases hs
    cases codes_eq hc
    exact h.attach _ start finish _
  disown _ h hh := by
    cases headers_eq hh
    exact h.disown _

/-! ## Drafts -/

/-- Drafts that are the same but for what may differ. -/
structure Drafts (V : Variation) (d d' : Draft) : Prop where
  main : d'.main = d.main
  table : Recloses V.closed d.table d'.table
  ledger : d'.ledger = d.ledger
  pending : d'.pending = d.pending
  problems : V.reports d.problems.items d'.problems.items

/-- Runs that agree draft the same. -/
theorem drafts {p q : Parse Code} {s t : ParserState} (hgap : V.seam.gap = false)
    (h : V.comparison.Agree (V.comparison.MayLose _) V.comparison.SameCode p q s t) :
    V.Drafts (.ofRun (p s)) (.ofRun (q t)) := by
  obtain ⟨hdata, hmain⟩ := Comparison.ofRun_agree (V.comparison.not_lost hgap V.strict rfl)
    (V.comparison.not_fails hgap V.strict rfl) h
  have hsame : V.Same (Draft.ofRun (p s)).records (Draft.ofRun (q t)).records := hdata
  exact ⟨codes_eq hmain, hsame.table, hsame.ledger, hsame.pending, hsame.problems⟩

end Variation

end SslFrontend
