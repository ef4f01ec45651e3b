import SslFrontend.Proofs.Conduct.Units
import SslFrontend.Proofs.Grammar.ExpressionRecovery

/-! # Parameters as they are written

A parameter is a name, maybe with `variable` before it, and maybe with a default
behind it: a sign and an expression whose code folds to a constant.  What the
productions read when they answer, and report no error, are written parameters, and
none without a default stands behind one that has one.
-/

namespace SslFrontend

open SslFrontend.Expr (Separated parenthesized)

/-- No parameter without a default stands behind one with a default. -/
def Param.Orderly (params : List Param) : Prop :=
  params.Pairwise fun p later => p.default.isSome = true → later.default.isSome = true

/-- A default as it is written: a sign and an expression whose code folds to the value.
A text of it is one of the pool. -/
inductive Param.PrintsDefault (pool : Pool) : Option Value → List Token → Prop
  | none : PrintsDefault pool none []
  | some {sign : Mark} {e : Expr} {tokens : List Token} {value : Value} (signPos : Position)
      (records : Records) (listed : sign = .assign ∨ sign = .eq) (expr : e.Prints 1 tokens)
      (folds : (e.emit Option.none records).1.constant? = some value)
      (texts : (e.emit Option.none records).2.table.strings.Grows pool) :
      PrintsDefault pool (some value) (⟨.mark sign, signPos⟩ :: tokens)

/-- A parameter as it is written. -/
inductive Param.Prints (pool : Pool) : Param → List Token → Prop
  | intro (word : Option Position) (name : String) (pos : Position) {default : Option Value}
      {tokens : List Token} (given : PrintsDefault pool default tokens) :
      Prints pool ⟨name, pos, default⟩
        ((word.map (⟨.keyword .kwVariable, ·⟩)).toList ++ ⟨.ident name, pos⟩ :: tokens)

/-- The parameters of a header as they are written. -/
inductive Param.PrintsAll (pool : Pool) : List Param → List Token → Prop
  | absent : PrintsAll pool [] []
  | listed (opened closed : Position) {written : List (Param × List Token)}
      {tokens : List Token} (each : ∀ w ∈ written, Param.Prints pool w.1 w.2)
      (all : Separated (written.map Prod.snd) tokens) :
      PrintsAll pool (written.map Prod.fst) (parenthesized opened closed tokens)

namespace Param

variable {pool grown : Pool} {tokens : List Token}

theorem PrintsDefault.grows {default : Option Value} (h : PrintsDefault pool default tokens)
    (hg : pool.Grows grown) : PrintsDefault grown default tokens := by
  cases h with
  | none => exact .none
  | some signPos records listed expr folds texts =>
      exact .some signPos records listed expr folds (texts.trans hg)

theorem Prints.grows {param : Param} (h : Prints pool param tokens) (hg : pool.Grows grown) :
    Prints grown param tokens := by
  obtain ⟨word, name, pos, given⟩ := h
  exact .intro word name pos (given.grows hg)

theorem PrintsAll.nothing (pool : Pool) (opened closed : Position) :
    PrintsAll pool [] (parenthesized opened closed []) :=
  have hnone : ∀ w ∈ ([] : List (Param × List Token)), Prints pool w.1 w.2 := nofun
  .listed opened closed hnone .none

theorem PrintsAll.grows {params : List Param} (h : PrintsAll pool params tokens)
    (hg : pool.Grows grown) : PrintsAll grown params tokens := by
  cases h with
  | absent => exact .absent
  | listed opened closed each all =>
      exact .listed opened closed (fun w hw => (each w hw).grows hg) all

/-- In parameters that are in order, those with a default are the ones behind the
required ones. -/
theorem Orderly.required_le_iff {params : List Param} (h : Orderly params) {k : Nat} {p : Param}
    (hp : params[k]? = some p) : required params ≤ k ↔ p.default.isSome = true := by
  induction params generalizing k with
  | nil => simp at hp
  | cons first rest ih =>
      obtain ⟨hfirst, hrest⟩ := List.pairwise_cons.mp h
      cases hd : first.default with
      | some value =>
          have hnone : required (first :: rest) = 0 := by simp [required, hd]
          rw [hnone]
          refine iff_of_true (Nat.zero_le _) ?_
          cases k with
          | zero =>
              cases hp
              simp [hd]
          | succ k => exact hfirst p (List.mem_of_getElem? hp) (by simp [hd])
      | none =>
          have hsucc : required (first :: rest) = required rest + 1 := by simp [required, hd]
          rw [hsucc]
          cases k with
          | zero =>
              cases hp
              simp [hd]
          | succ k =>
              rw [Nat.add_le_add_iff_right]
              exact ih hrest hp

end Param

/-- A mark that is read. -/
theorem Cursor.reads_mark (c : Cursor) {mark : Mark} (h : c.check (.mark mark) = true) :
    c.Reads [⟨.mark mark, c.current.pos⟩] c.advance := by
  have hkind := Cursor.kind_of_check_mark h
  have hread := c.reads_advance (hkind ▸ nofun)
  rwa [Cursor.current_of_kind hkind] at hread

theorem ParserState.Clean.back {s t : ParserState} (h : t.Clean) (hst : s.Onward t) : s.Clean :=
  fun d hd => h d (hst.problems.subset hd)

namespace Parse

variable {s s' : ParserState}

/-- After an error is reported, the state is not clean. -/
theorem not_clean_of_report {d : Diagnostic} {u : PUnit} (h : report d s = .ok u s')
    (he : d.isError = true) : ¬s'.Clean := by
  intro hclean
  cases h
  have hgood := hclean d (by simp [Queue.push])
  rw [he] at hgood
  cases hgood

/-- An initial value is a sign and an expression. -/
theorem initializer_recovers {scope : Option ScopeId} {found : Option (Code × Position)}
    (h : initializer scope s = .ok found s') :
    (found = none ∧ s' = s) ∨ ∃ code start sign signPos e tokens,
      found = some (code, start) ∧ (sign = Mark.assign ∨ sign = Mark.eq) ∧
      Expr.Prints 1 e tokens ∧
      s.cursor.Reads (⟨.mark sign, signPos⟩ :: tokens) s'.cursor ∧
      e.emit scope s.records = (code, s'.records) := by
  -- What is read behind the sign.
  have hgiven : ∀ sign, s.cursor.check (.mark sign) = true → (sign = Mark.assign ∨ sign = .eq) →
      (do
        let pos ← Parse.pos
        return some (← expression scope, pos) : Parse (Option (Code × Position))) s.skip =
          .ok found s' → ∃ code start sign signPos e tokens,
      found = some (code, start) ∧ (sign = Mark.assign ∨ sign = .eq) ∧
      Expr.Prints 1 e tokens ∧
      s.cursor.Reads (⟨.mark sign, signPos⟩ :: tokens) s'.cursor ∧
      e.emit scope s.records = (code, s'.records) := by
    intro sign hcheck hsign hrest
    obtain ⟨pos, s₁, hpos, hrest⟩ := of_bind_ok hrest
    cases hpos
    obtain ⟨code, s₂, hcode, hlast⟩ := of_bind_ok hrest
    cases hlast
    obtain ⟨e, tokens, hprints, hdone⟩ := expression_recovers scope s.skip code s' hcode
    have hread := hdone.skip (Cursor.kind_of_check_mark hcheck) nofun
    exact ⟨code, _, sign, _, e, tokens, rfl, hsign, hprints, hread.reads, hread.made⟩
  obtain ⟨eaten, s₁, heat, hbehind⟩ := of_bind_ok h
  rcases of_eat_ok heat with ⟨rfl, hcheck, rfl⟩ | ⟨rfl, rfl⟩
  · exact .inr (hgiven .assign hcheck (.inl rfl) hbehind)
  · obtain ⟨eaten, s₂, heat, hlast⟩ := of_bind_ok hbehind
    rcases of_eat_ok heat with ⟨rfl, hcheck, rfl⟩ | ⟨rfl, rfl⟩
    · exact .inr (hgiven .eq hcheck (.inr rfl) hlast)
    · cases hlast
      exact .inl ⟨rfl, rfl⟩

theorem paramDefault_recovers {default : Option Value} (h : paramDefault s = .ok default s')
    (hclean : s'.Clean) : ∃ tokens, Param.PrintsDefault s'.table.strings default tokens ∧
      s.cursor.Reads tokens s'.cursor := by
  obtain ⟨found, s₁, hfound, hrest⟩ := of_bind_ok h
  rcases initializer_recovers hfound with ⟨rfl, rfl⟩ |
    ⟨code, start, sign, signPos, e, tokens, rfl, hsign, hprints, hreads, hmade⟩
  · cases hrest
    exact ⟨[], .none, .refl _⟩
  · dsimp only at hrest
    cases hfold : code.constant? with
    | some value =>
        rw [hfold] at hrest
        cases hrest
        refine ⟨_, .some signPos s.records hsign hprints ?_ ?_, hreads⟩
        · rw [hmade]
          exact hfold
        · rw [hmade]
          exact .refl _
    | none =>
        rw [hfold] at hrest
        obtain ⟨u, s₂, hreport, hlast⟩ := of_bind_ok hrest
        cases hlast
        exact absurd hclean (not_clean_of_report hreport rfl)

/-- A parameter behind others. -/
structure ReadsParam (before : List Param) (s : ParserState) (param : Param)
    (s' : ParserState) (tokens : List Token) : Prop where
  prints : param.Prints s'.table.strings tokens
  reads : s.cursor.Reads tokens s'.cursor
  ordered : ∀ p ∈ before, p.default.isSome = true → param.default.isSome = true

theorem parameter_recovers {before : List NumberedParam} {p : NumberedParam}
    (h : parameter before s = .ok p s') (hclean : s'.Clean) :
    ∃ tokens, ReadsParam (before.map NumberedParam.param) s p.param s' tokens := by
  unfold parameter at h
  rw [discard_bind] at h
  obtain ⟨eaten, s₁, heat, h⟩ := of_bind_ok h
  obtain ⟨word, hword⟩ : ∃ word : Option Position,
      s.cursor.Reads (word.map (⟨TokenKind.keyword .kwVariable, ·⟩)).toList s₁.cursor := by
    rcases of_eat_ok heat with ⟨-, hcheck, rfl⟩ | ⟨-, rfl⟩
    · have hkind := Cursor.kind_of_check_keyword hcheck
      have hread := Cursor.reads_advance (hkind ▸ nofun : s.cursor.kind ≠ .eof)
      rw [Cursor.current_of_kind hkind] at hread
      exact ⟨some _, hread⟩
    · exact ⟨none, .refl _⟩
  obtain ⟨⟨name, pos⟩, s₂, hname, h⟩ := of_bind_ok h
  obtain ⟨hkind, hpos, rfl⟩ := of_expectIdent_ok hname
  have hident := Cursor.reads_advance (hkind ▸ nofun : s₁.cursor.kind ≠ .eof)
  rw [Cursor.current_of_kind hkind, ← hpos] at hident
  obtain ⟨number, s₃, hnumber, h⟩ := of_bind_ok h
  have hkept : s₃.cursor = s₁.cursor.advance := by
    cases hnumber
    rfl
  obtain ⟨default, s₄, hdefault, h⟩ := of_bind_ok h
  -- Only an order that is reported would be bad.
  by_cases hbad : (default.isNone && before.any (·.param.default.isSome)) = true
  · rw [if_pos hbad] at h
    obtain ⟨u, s₅, hreport, h⟩ := of_bind_ok h
    obtain ⟨rfl, rfl⟩ := of_pure_ok h
    exact absurd hclean (not_clean_of_report hreport rfl)
  · rw [if_neg hbad] at h
    obtain ⟨rfl, rfl⟩ := of_pure_ok h
    obtain ⟨tokens, hprints, hreads⟩ := paramDefault_recovers hdefault hclean
    rw [hkept] at hreads
    refine ⟨_, .intro word name pos hprints, hword.trans (hident.trans hreads), ?_⟩
    intro q hq hsome
    obtain ⟨n, hn, rfl⟩ := List.mem_map.mp hq
    have hany : before.any (·.param.default.isSome) = true :=
      List.any_eq_true.mpr ⟨n, hn, hsome⟩
    rw [hany, Bool.and_true, Option.isNone_iff_eq_none] at hbad
    exact Option.isSome_iff_ne_none.mpr hbad

/-! ## Several parameters -/

/-- Productions of a header go on. -/
theorem onward_none : HoldsInside none ParserState.Onward := ParserState.Onward.inside none

theorem onward_reserve : Along ParserState.Onward reserve :=
  ParserState.Onward.throughout.reserve_along

theorem onward_parameterRound (before : List NumberedParam) :
    Along ParserState.Onward (parameterRound before) :=
  onward_none.parameterRound_along onward_reserve before

/-- Parameters behind others, as they are written with commas between them. -/
structure ReadsParams (before : List Param) (s : ParserState) (params : List Param)
    (s' : ParserState) (written : List (Param × List Token)) (tokens : List Token) : Prop where
  nonempty : written ≠ []
  behind : params = before ++ written.map Prod.fst
  each : ∀ w ∈ written, Param.Prints s'.table.strings w.1 w.2
  all : Separated (written.map Prod.snd) tokens
  reads : s.cursor.Reads tokens s'.cursor
  ordered : Param.Orderly before → Param.Orderly params

/-- A parameter that is in order with those before it. -/
theorem ReadsParam.orderly {before : List Param} {param : Param} {tokens : List Token}
    (h : ReadsParam before s param s' tokens) (ho : Param.Orderly before) :
    Param.Orderly (before ++ [param]) := by
  refine List.pairwise_append.mpr ⟨ho, List.pairwise_singleton _ _, ?_⟩
  intro p hp q hq hsome
  rw [List.mem_singleton.mp hq]
  exact h.ordered p hp hsome

theorem parameterRun_recovers {params : List NumberedParam}
    (h : parameterRun s = .ok params s') (hclean : s'.Clean) :
    ∃ written tokens, ReadsParams [] s (params.map NumberedParam.param) s' written tokens := by
  rw [parameterRun_eq] at h
  refine (of_repeatRounds_ok (P := fun before s params s' => s.Onward s' ∧ (s'.Clean →
      ∃ written tokens, ReadsParams (before.map NumberedParam.param) s
        (params.map NumberedParam.param) s' written tokens)) ?_ ?_ h).2 hclean
  · intro before s params s' hround
    refine ⟨(onward_parameterRound before).of_ok hround, fun hclean => ?_⟩
    obtain ⟨p, s₁, hparam, hbehind⟩ := of_bind_ok hround
    obtain ⟨eaten, s₂, heat, hlast⟩ := of_bind_ok hbehind
    rcases of_eat_ok heat with ⟨rfl, -, rfl⟩ | ⟨rfl, rfl⟩
    · cases hlast
    · cases hlast
      obtain ⟨tokens, hread⟩ := parameter_recovers hparam hclean
      refine ⟨[(p.param, tokens)], tokens, nofun, by simp, by simpa using hread.prints,
        .one tokens, hread.reads, fun ho => ?_⟩
      simpa using hread.orderly ho
  · intro before s next s₂ params s' hround hrest
    have honward := (onward_parameterRound before).of_ok hround
    refine ⟨honward.trans hrest.1, fun hclean => ?_⟩
    obtain ⟨written, tokens, htail⟩ := hrest.2 hclean
    obtain ⟨p, s₁, hparam, hbehind⟩ := of_bind_ok hround
    obtain ⟨eaten, s₃, heat, hnext⟩ := of_bind_ok hbehind
    rcases of_eat_ok heat with ⟨rfl, hcomma, rfl⟩ | ⟨rfl, rfl⟩
    · cases hnext
      have hbefore : s₁.skip.Clean := hclean.back hrest.1
      obtain ⟨front, hread⟩ := parameter_recovers hparam hbefore
      have hmark := s₁.cursor.reads_mark hcomma
      obtain ⟨second, rest, rfl⟩ := List.exists_cons_of_ne_nil htail.nonempty
      refine ⟨(p.param, front) :: second :: rest, _, nofun, ?_, ?_, .more front _ htail.all,
        hread.reads.trans (hmark.trans htail.reads), fun ho => ?_⟩
      · simpa using htail.behind
      · intro w hw
        rcases List.mem_cons.mp hw with rfl | hw
        · exact hread.prints.grows hrest.1.table.strings
        · exact htail.each w hw
      · exact htail.ordered (by simpa using hread.orderly ho)
    · cases hnext

/-- Parameters of a header, as they are written. -/
structure ReadsAll (s : ParserState) (params : List Param) (s' : ParserState)
    (tokens : List Token) : Prop where
  prints : Param.PrintsAll s'.table.strings params tokens
  reads : s.cursor.Reads tokens s'.cursor
  ordered : Param.Orderly params
  /-- Without parentheses there are none. -/
  whole : tokens = [] → s'.cursor.kind ≠ .mark .lparen

/-- Parameters that are read without an error are written parameters that are in
order. -/
theorem parameters_recovers {params : List NumberedParam} (h : parameters s = .ok params s')
    (hclean : s'.Clean) :
    ∃ tokens, ReadsAll s (params.map NumberedParam.param) s' tokens := by
  obtain ⟨opened, s₁, heat, hrest⟩ := of_bind_ok h
  rcases of_eat_ok heat with ⟨rfl, hopen, rfl⟩ | ⟨rfl, rfl⟩
  · have hopened := s.cursor.reads_mark hopen
    obtain ⟨closed, s₂, hclosed, hrest⟩ := of_bind_ok hrest
    cases hclosed
    by_cases hparen : s.skip.cursor.check (.mark .rparen) = true
    · rw [if_pos hparen] at hrest
      obtain ⟨rfl, -, rfl⟩ := of_expect_last hrest
      have hnone : Param.PrintsAll s.skip.skip.table.strings []
          (parenthesized s.cursor.current.pos s.skip.cursor.current.pos []) :=
        Param.PrintsAll.nothing _ _ _
      exact ⟨_, hnone,
        hopened.trans (s.skip.cursor.reads_mark hparen), .nil, nofun⟩
    · rw [if_neg hparen] at hrest
      obtain ⟨params', s₃, hrun, hlast⟩ := of_bind_ok hrest
      obtain ⟨rfl, hcheck, rfl⟩ := of_expect_last hlast
      have hbefore : s₃.Clean := hclean
      obtain ⟨written, tokens, hread⟩ := parameterRun_recovers hrun hbefore
      refine ⟨_, ?_, hopened.trans (hread.reads.trans (s₃.cursor.reads_mark hcheck)),
        hread.ordered .nil, nofun⟩
      rw [hread.behind]
      exact .listed _ _ hread.each hread.all
  · cases hrest
    refine ⟨[], .absent, .refl _, .nil, fun _ hkind => ?_⟩
    rw [eat_eq, if_pos (Cursor.check_of_kind hkind)] at heat
    cases heat

end Parse

end SslFrontend
