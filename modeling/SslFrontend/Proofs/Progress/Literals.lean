import SslFrontend.Proofs.Progress.Loops

/-! # Literals and headers are read

A statement or an item that begins with a string literal or with `procedure`, and is
read to its end, has read it: neither is read only to go on.
-/

namespace SslFrontend

namespace TokenKind

/-- Whether a token of this kind is neither a string literal nor the beginning of a
header. -/
def isPlain : TokenKind → Bool
  | str _ | keyword .kwProcedure => false
  | _ => true

theorem eq_of_not_isPlain {kind : TokenKind} (h : kind.isPlain = false) :
    (∃ text, kind = str text) ∨ kind = keyword .kwProcedure := by
  cases kind with
  | str text => exact .inl ⟨text, rfl⟩
  | keyword word =>
      cases word with
      | kwProcedure => exact .inr rfl
      | _ => cases h
  | _ => cases h

/-- What no literal and no `procedure` is. -/
theorem isPlain_of {P : TokenKind → Prop} {kind : TokenKind} (hs : ∀ text, ¬P (str text))
    (hp : ¬P (keyword .kwProcedure)) (h : P kind) : kind.isPlain = true := by
  by_contra hplain
  rcases eq_of_not_isPlain (Bool.eq_false_iff.mpr hplain) with ⟨text, rfl⟩ | rfl
  · exact hs text h
  · exact hp h

theorem isPlain_of_qualifier {word : Keyword} {qualifier : Qualifier}
    (h : Qualifier.ofKeyword? word = some qualifier) : (keyword word).isPlain = true := by
  cases word with
  | kwProcedure => cases h
  | _ => rfl

/-- Kinds with one number are plain together. -/
theorem isPlain_of_index {j k : TokenKind} (h : j.index = k.index) (hk : k.isPlain = true) :
    j.isPlain = true := by
  refine isPlain_of (P := fun j => j.index = k.index) (fun text hj => ?_) (fun hj => ?_) h
  all_goals
    have hbare := (index_eq_iff _ k).mp hj
    cases k with
    | str text => cases hk
    | keyword word =>
        cases hbare
        try cases hk
    | _ => cases hbare

end TokenKind

namespace Parse

/-- A literal, or a `procedure`, at which the production answers was read by it. -/
def PassesWild {α : Type} (p : Parse α) : Prop :=
  ∀ s, s.cursor.kind.isPlain = false → ReadsAt (Any α) p s

variable {s : ParserState} {scope : Option ScopeId} {inner : Parse Code}

theorem primary_reads (hk : s.cursor.kind.isPlain = false) :
    ReadsAt (Any _) (primary scope inner) s := by
  have h := inside_forward scope
  refine .behind h.cursor fun c t hc => ?_
  cases hc
  extract_lets token pos
  rcases TokenKind.eq_of_not_isPlain hk with ⟨text, hk⟩ | hk
  · have hkind : token.kind = .str text := hk
    simp only [hkind]
    refine .first (p := discard advance) ?_ fun _ => h.stringOperand_along text pos
    exact .first (.advance (by rw [hk]; nofun)) fun _ => .pure h _
  · have hkind : token.kind = .keyword .kwProcedure := hk
    simp only [hkind]
    exact .throw _

/-- No operator stands in front of a literal or header that comes next. -/
theorem unaryRun_at_wild {t : ParserState} {code : Code} (hk : s.cursor.kind.isPlain = false)
    (h : unaryRun s = .ok code t) : t.cursor = s.cursor := by
  have hrun : unaryRun s = .ok
      ((s.cursor.rest.takeWhile fun token => (Operator.unary? token.kind).isSome).filterMap
        fun token => (Operator.unary? token.kind).map (Node.op · token.pos))
      { s with cursor := s.cursor.skipWhile fun token => (Operator.unary? token.kind).isSome } :=
    rfl
  rw [hrun] at h
  obtain ⟨-, rfl⟩ := EStateM.Result.ok.inj h
  show s.cursor.skipWhile _ = s.cursor
  have htaken :
      (s.cursor.rest.takeWhile fun token => (Operator.unary? token.kind).isSome) = [] := by
    cases hrest : s.cursor.rest with
    | nil => rfl
    | cons token rest =>
        have hnone : Operator.unary? token.kind = none := by
          rw [← Cursor.kind_of_rest hrest]
          rcases TokenKind.eq_of_not_isPlain hk with ⟨text, hk⟩ | hk <;> rw [hk] <;> rfl
        simp [hnone]
  simp [Cursor.skipWhile, htaken]

theorem expressionTo_reads (hk : s.cursor.kind.isPlain = false) (depth : Nat) :
    ReadsAt (Any _) (expressionTo scope depth) s := by
  have h := inside_forward scope
  cases depth with
  | zero => exact .behind h.cursor fun _ _ _ => .throw _
  | succ depth =>
      have hi : Forward (expressionTo scope depth) := h.expressionTo_along depth
      have hoperand : ReadsAt (Any _) (operand scope (expressionTo scope depth)) s := by
        refine .behind h.unaryRun_along fun code t hrun => ?_
        have hcursor := unaryRun_at_wild hk hrun
        refine .first (primary_reads (hcursor ▸ hk)) fun _ => ?_
        exact .bind h (h.indices_along hi _) fun _ => .pure h _
      exact .first hoperand fun _ => .bind h (h.chainRun_along hi) fun _ => .pure h _

theorem expression_reads (hk : s.cursor.kind.isPlain = false) :
    ReadsAt (Any _) (expression scope) s := by
  refine .behind (inside_forward scope).cursor fun c t hc => ?_
  cases hc
  exact expressionTo_reads hk _

theorem simple_reads (hk : s.cursor.kind.isPlain = false) : ReadsAt (Any _) (simple scope) s := by
  have h := inside_forward scope
  refine .behind h.cursor fun c t hc => ?_
  cases hc
  refine .ite (fun _ => ?_) fun _ => .first (expression_reads hk) fun _ => .pure h _
  refine .behind h.expectIdent fun found t hfound => ?_
  obtain ⟨hident, -⟩ := of_expectIdent_ok hfound
  rw [hident] at hk
  cases hk

theorem statementTo_passes (depth : Nat) (context : Context) :
    PassesWild (statementTo depth context) := by
  intro s hk
  have h := inside_forward context.scope
  cases depth with
  | zero => exact .behind h.cursor fun _ _ _ => .throw _
  | succ depth =>
      refine .behind h.kind fun kind t hkind => ?_
      cases hkind
      have hsimple : ReadsAt (Any _) (do
          let code ← simple context.scope
          discard <| expect (.mark .semicolon)
          return code) s :=
        .first (simple_reads hk) fun _ => .bind h (.discard (h.expect _)) fun _ => .pure h _
      rcases TokenKind.eq_of_not_isPlain hk with ⟨text, hk⟩ | hk
      · simpa only [hk] using hsimple
      · simpa only [hk] using hsimple

theorem statement_passes (context : Context) : PassesWild (statement context) := by
  intro s hk
  refine .behind (inside_forward context.scope).cursor fun c t hc => ?_
  cases hc
  exact statementTo_passes _ context s hk

/-- No qualifier stands in front of a literal or header that comes next. -/
theorem qualifiers_at_wild (hk : s.cursor.kind.isPlain = false) :
    qualifiers s = .ok ⟨[]⟩ s := by
  have hlast : qualifierRound ⟨[]⟩ s = .ok (.inr ⟨[]⟩) s := by
    have hlook : ∀ k : TokenKind → Parse (Qualifiers ⊕ Qualifiers),
        (kind >>= k) s = k s.cursor.kind s := fun _ => rfl
    unfold qualifierRound
    rw [hlook]
    rcases TokenKind.eq_of_not_isPlain hk with ⟨text, hk⟩ | hk <;> rw [hk] <;> rfl
  exact (repeatRounds_repeats qualifierRound_consumes
    (fun q => (inside_forward none).qualifierRound_along q) _ s).unique (.last hlast)

theorem item_passes : PassesWild item := by
  intro s hk
  have h := inside_forward none
  refine .behind h.qualifiers_along fun q t hq => ?_
  rw [qualifiers_at_wild hk] at hq
  cases hq
  refine .behind h.kind fun kind t hkind => ?_
  cases hkind
  rcases TokenKind.eq_of_not_isPlain hk with ⟨text, hkind⟩ | hkind
  · simp only [hkind]
    exact .ite (fun _ => statement_passes .top s hk) fun _ =>
      .behind h.cursor fun _ _ _ => .throw _
  · simp only [hkind]
    refine .first (p := procedure ⟨[]⟩) ?_ fun _ => .pure h _
    rw [procedure_eq, entry_eq, bind_assoc]
    have hon := ParserState.Onward.throughout
    refine .first (.first (.advance (by rw [hkind]; nofun)) fun _ => .pure h _) fun _ => ?_
    exact (Along.bind (hon.inside none) (hon.heading_along _) hon.bodyIn_along).forward

end Parse

end SslFrontend
