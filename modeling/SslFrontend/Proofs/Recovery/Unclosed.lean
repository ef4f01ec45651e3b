import SslFrontend.Proofs.Recovery.Block

/-! # Bodies without their `end`

A body ends at its `end` (`body_closes`), or fails where a procedure starts
(`body_unclosed`).  In front of that procedure its qualifiers are read as a
statement, which they are not: they are skipped, and lost.
-/

namespace SslFrontend

/-- Whether a kind is a qualifier. -/
def TokenKind.isQualifier : TokenKind → Bool
  | .keyword word => (Qualifier.ofKeyword? word).isSome
  | _ => false

namespace Parse

variable {inner : Parse Code} {opener : Token} {code : Code} {s t : ParserState}

/-! ## The end of a block -/

theorem blockRound_closes (hopener : opener.kind = .keyword .kwBegin)
    (hk : s.cursor.kind = .keyword .kwEnd) :
    blockRound inner opener code s = .ok (.inr ⟨code, none⟩) s.skip := by
  have hcheck : checkCloser opener s.cursor.current = pure ⟨⟩ := by
    have hcloser : s.cursor.current.kind = .keyword .kwEnd := hk
    unfold checkCloser
    rw [hopener, hcloser]
    rfl
  have hlook : ∀ k : TokenKind → Parse (Code ⊕ Block), (kind >>= k) s = k s.cursor.kind s :=
    fun _ => rfl
  have hcloses : Cursor.closes s.cursor.kind = true := by rw [hk]; rfl
  unfold blockRound
  rw [hlook, if_pos hcloses, advance_bind, hcheck]
  rfl

theorem blockRound_unclosed (hk : s.cursor.kind = .keyword .kwProcedure) :
    blockRound inner opener code s = .ok (.inr ⟨code, some (.unclosed opener "block")⟩) s := by
  have hlook : ∀ k : TokenKind → Parse (Code ⊕ Block), (kind >>= k) s = k s.cursor.kind s :=
    fun _ => rfl
  unfold blockRound
  rw [hlook, hk]
  rfl

/-! ## Qualifiers in front of a procedure -/

variable {between behind : List Token}

/-- Only the cursor moves, and reports are added. -/
structure Passes (s : ParserState) (tokens : List Token) (ds : List Diagnostic)
    (t : ParserState) : Prop where
  reads : s.cursor.Reads tokens t.cursor
  records : t = { s with cursor := t.cursor, problems := ⟨s.problems.items ++ ds⟩ }

theorem Passes.trans {s t u : ParserState} {first second : List Token} {ds es : List Diagnostic}
    (h₁ : Passes s first ds t) (h₂ : Passes t second es u) :
    Passes s (first ++ second) (ds ++ es) u where
  reads := h₁.reads.trans h₂.reads
  records := by
    rw [h₂.records, h₁.records]
    simp [List.append_assoc]

theorem qualifierRound_reads (q : Qualifiers) (hk : s.cursor.kind.isQualifier = true) :
    ∃ q' ds, qualifierRound q s = .ok (.inl q')
        { s.skip with problems := ⟨s.problems.items ++ ds⟩ } := by
  have hlook : ∀ k : TokenKind → Parse (Qualifiers ⊕ Qualifiers),
      (kind >>= k) s = k s.cursor.kind s := fun _ => rfl
  unfold qualifierRound
  rw [hlook]
  cases hkind : s.cursor.kind with
  | keyword word =>
      rw [hkind] at hk
      obtain ⟨qualifier, hword⟩ := Option.isSome_iff_exists.mp hk
      simp only [hword]
      rw [advance_bind]
      split
      · exact ⟨_, [_], rfl⟩
      · refine ⟨⟨q.written ++ [(qualifier, s.cursor.current.pos)]⟩, [], ?_⟩
        rw [List.append_nil]
        rfl
  | _ => rw [hkind] at hk; cases hk

theorem qualifierRound_stops (q : Qualifiers) (hk : s.cursor.kind.isQualifier = false) :
    qualifierRound q s = .ok (.inr q) s := by
  have hlook : ∀ k : TokenKind → Parse (Qualifiers ⊕ Qualifiers),
      (kind >>= k) s = k s.cursor.kind s := fun _ => rfl
  unfold qualifierRound
  rw [hlook]
  cases hkind : s.cursor.kind with
  | keyword word =>
      rw [hkind] at hk
      have hnone : Qualifier.ofKeyword? word = none := Option.not_isSome_iff_eq_none.mp (by
        rw [show (Qualifier.ofKeyword? word).isSome = false from hk]
        exact Bool.false_ne_true)
      simp only [hnone]
      rfl
  | _ => rfl

theorem qualifiers_stops (hk : s.cursor.kind.isQualifier = false) :
    qualifiers s = .ok ⟨[]⟩ s := by
  rw [qualifiers_eq, repeatRounds_eq qualifierRound_consumes
    (inside_forward none).qualifierRound_along, bind_ok (qualifierRound_stops _ hk)]
  rfl

theorem qualifiers_reads (hbetween : ∀ token ∈ between, token.kind.isQualifier = true)
    (hrest : s.cursor.rest = between ++ behind)
    (hk : Cursor.headKind behind = .keyword .kwProcedure) :
    ∃ q ds t, qualifiers s = .ok q t ∧ Passes s between ds t := by
  have hf : ∀ q, Forward (qualifierRound q) := (inside_forward none).qualifierRound_along
  rw [qualifiers_eq]
  generalize (⟨[]⟩ : Qualifiers) = q
  induction between generalizing q s with
  | nil =>
      have hprocedure : s.cursor.kind = .keyword .kwProcedure :=
        (Cursor.kind_eq_headKind hrest).trans hk
      refine ⟨q, [], s, ?_, .refl _, ?_⟩
      · rw [repeatRounds_eq qualifierRound_consumes hf, bind_ok (qualifierRound_stops q (by rw [hprocedure]; rfl))]
        rfl
      · simp
  | cons token between ih =>
      have hkind : s.cursor.kind = token.kind := Cursor.kind_of_rest hrest
      have hqualifier := hbetween token List.mem_cons_self
      have heof : s.cursor.kind ≠ .eof := by
        intro heof
        rw [← hkind, heof] at hqualifier
        cases hqualifier
      have hread := Cursor.reads_advance heof
      rw [Cursor.current_of_rest hrest] at hread
      obtain ⟨q', ds, hround⟩ := qualifierRound_reads q (hkind ▸ hqualifier)
      have hpasses : Passes s [token] ds { s.skip with problems := ⟨s.problems.items ++ ds⟩ } :=
        ⟨hread, rfl⟩
      obtain ⟨q'', es, t, hrounds, hrest'⟩ := ih
        (fun token ht => hbetween token (List.mem_cons_of_mem _ ht))
        (s := { s.skip with problems := ⟨s.problems.items ++ ds⟩ }) (hread.rest_eq hrest) q'
      refine ⟨q'', ds ++ es, t, ?_, hpasses.trans hrest'⟩
      rw [repeatRounds_eq qualifierRound_consumes hf, bind_ok hround]
      exact hrounds

/-- Qualifiers in front of a procedure are no statement. -/
theorem statement_qualifiers {context : Context} (hsome : between ≠ [])
    (hbetween : ∀ token ∈ between, token.kind.isQualifier = true)
    (hrest : s.cursor.rest = between ++ behind)
    (hk : Cursor.headKind behind = .keyword .kwProcedure) :
    ∃ ds t, statement context s = .error (.expected "`variable`" t.cursor) t ∧
      Passes s between ds t := by
  obtain ⟨q, ds, t, hq, hpasses⟩ := qualifiers_reads hbetween hrest hk
  have hprocedure : t.cursor.kind = .keyword .kwProcedure :=
    (Cursor.kind_eq_headKind (hpasses.reads.rest_eq hrest)).trans hk
  have hnone : t.cursor.check (.keyword .kwVariable) = false :=
    Cursor.check_keyword (by rw [hprocedure]; nofun)
  have hdeclaration : declarationStatement context s = .error (.expected "`variable`" t.cursor) t := by
    have hlook : ∀ (k : Bool → Parse Code), (check (.keyword .kwVariable) >>= k) t =
        k (t.cursor.check (.keyword .kwVariable)) t := fun _ => rfl
    unfold declarationStatement
    rw [bind_ok hq, hlook, hnone]
    rfl
  obtain ⟨token, more, rfl⟩ := List.exists_cons_of_ne_nil hsome
  have hkind : s.cursor.kind = token.kind := Cursor.kind_of_rest hrest
  have hqualifier := hbetween token List.mem_cons_self
  refine ⟨ds, t, ?_, hpasses⟩
  rw [← hdeclaration]
  show statementWith (statementTo s.cursor.rest.length) context s = _
  have hlook : ∀ (k : TokenKind → Parse Code), (kind >>= k) s = k s.cursor.kind s := fun _ => rfl
  unfold statementWith
  rw [hlook, hkind]
  cases hword : token.kind with
  | keyword word =>
      rw [hword] at hqualifier
      cases word <;> first | rfl | cases hqualifier
  | _ => rw [hword] at hqualifier; cases hqualifier

/-! ## Skipping nothing -/

theorem recovered_stays {set : KindSet} (hk : s.cursor.kind = .keyword .kwProcedure)
    (hset : set.contains (.keyword .kwProcedure) = true) : s.recovered set = s := by
  obtain ⟨⟨rest, eof, position, last⟩, table, ledger, pending, problems⟩ := s
  have hnone : rest.takeWhile (Cursor.passes set) = [] := by
    cases rest with
    | nil => rfl
    | cons token more =>
        have hkind : token.kind = .keyword .kwProcedure := hk
        simp [Cursor.passes, hkind, hset]
  have hstays : Cursor.synchronize ⟨rest, eof, position, last⟩ set =
      ⟨rest, eof, position, last⟩ := by
    simp [Cursor.synchronize, Cursor.skipWhile, hnone]
  have hcheck : Cursor.check ⟨rest, eof, position, last⟩ (.mark .semicolon) = false :=
    Cursor.check_mark (by rw [hk]; simp)
  unfold ParserState.recovered
  simp only [hstays, hcheck, Bool.false_eq_true, ↓reduceIte]

/-- A block is found open where a procedure starts, if only qualifiers stand in
between. -/
theorem blockRounds_unclosed {context : Context} (opener : Token) (code : Code)
    (hbetween : ∀ token ∈ between, token.kind.isQualifier = true)
    (hrest : s.cursor.rest = between ++ behind)
    (hk : Cursor.headKind behind = .keyword .kwProcedure) :
    ∃ ds t, repeatRounds (blockRound (statement context) opener) code s =
        .ok ⟨code, some (.unclosed opener "block")⟩ t ∧
      Passes s between ds t ∧ (between = [] → ds = []) := by
  have hforward : Forward (statement context) :=
    (inside_forward context.scope).statement_along rfl
  have hc := blockRound_consumes hforward opener
  have hf := (inside_forward none).blockRound_along hforward opener
  have hlast : ∀ {t : ParserState}, t.cursor.kind = .keyword .kwProcedure →
      repeatRounds (blockRound (statement context) opener) code t =
        .ok ⟨code, some (.unclosed opener "block")⟩ t := by
    intro t ht
    rw [repeatRounds_eq hc hf, bind_ok (blockRound_unclosed ht)]
    rfl
  by_cases hnone : between = []
  · subst hnone
    have hprocedure := (Cursor.kind_eq_headKind hrest).trans hk
    exact ⟨[], s, hlast hprocedure, ⟨.refl _, by simp⟩, fun _ => rfl⟩
  · obtain ⟨ds, t, hfails, hpasses⟩ := @statement_qualifiers _ _ _ context hnone hbetween
      hrest hk
    let e := ParseError.expected "`variable`" t.cursor
    have hcause : e.cause ≠ .unclosedBlock :=
      (by decide : Cause.unexpectedToken ≠ Cause.unclosedBlock)
    have hprocedure : t.cursor.kind = .keyword .kwProcedure :=
      (Cursor.kind_eq_headKind (hpasses.reads.rest_eq hrest)).trans hk
    have hreported : reported e t = { t with problems := t.problems.push e.diagnostic } :=
      recovered_stays hprocedure rfl
    have hmoved : (reported e t).cursor.position ≠ s.cursor.position := by
      have hread : t.cursor.position = s.cursor.position + between.length := hpasses.reads.position
      have := List.length_pos_iff.mpr hnone
      rw [hreported]
      show t.cursor.position ≠ s.cursor.position
      omega
    have hround : blockRound (statement context) opener code s =
        .ok (.inl code) (reported e t) := by
      obtain ⟨token, more, rfl⟩ := List.exists_cons_of_ne_nil hnone
      have hkind : s.cursor.kind.isQualifier = true := by
        rw [Cursor.kind_of_rest hrest]
        exact hbetween token List.mem_cons_self
      have hlook : ∀ k : TokenKind → Parse (Code ⊕ Block), (kind >>= k) s = k s.cursor.kind s :=
        fun _ => rfl
      have hopen : Cursor.closes s.cursor.kind ≠ true ∧
          ¬(s.cursor.kind = .eof ∨ s.cursor.kind = .keyword .kwProcedure) := by
        revert hkind
        cases s.cursor.kind with
        | keyword word => cases word <;> simp [Cursor.closes, TokenKind.isQualifier,
            Qualifier.ofKeyword?]
        | _ => exact fun h => by cases h
      unfold blockRound
      rw [hlook, if_neg hopen.1, if_neg hopen.2, blockStatement_error hfails hcause,
        if_neg hmoved]
    refine ⟨ds ++ [e.diagnostic], reported e t, ?_, ?_, fun h => absurd h hnone⟩
    · rw [repeatRounds_eq hc hf, bind_ok hround]
      exact hlast (by rw [hreported]; exact hprocedure)
    · have hreport : Passes t [] [e.diagnostic] (reported e t) := by
        rw [hreported]
        exact ⟨.refl _, rfl⟩
      simpa using hpasses.trans hreport

/-! ## Bodies -/

end Parse

/-- The state when a procedure is given its body. -/
def ParserState.attached (s : ParserState) (scope : ScopeId) (code : Code)
    (start finish : Position) : ParserState :=
  { s with table := s.table.modifyScope scope (·.withBody code start finish) }

namespace Parse

variable {between behind : List Token} {code : Code} {s t : ParserState} {scope : ScopeId}

theorem body_closes (ho : s.cursor.kind = .keyword .kwBegin)
    (h : Leads (blockRound (statement ⟨some scope, false⟩) s.cursor.current) [] s.skip code t)
    (hk : t.cursor.kind = .keyword .kwEnd) :
    body scope s = .ok ⟨⟩ (t.skip.attached scope code s.cursor.pos t.cursor.pos) := by
  have hforward : Forward (statement ⟨some scope, false⟩) :=
    (inside_forward (some scope)).statement_along rfl
  have hblock : openBlock (statement ⟨some scope, false⟩) s = .ok ⟨code, none⟩ t.skip := by
    have hc := blockRound_consumes hforward s.cursor.current
    have hf := (inside_forward none).blockRound_along hforward s.cursor.current
    rw [openBlock_eq, advance_bind, h.repeatRounds_eq hc hf, repeatRounds_eq hc hf,
      bind_ok (blockRound_closes ho hk)]
    rfl
  have hlast : t.skip.cursor.previousPos = t.cursor.pos :=
    (Cursor.reads_advance (by rw [hk]; nofun)).previousPos rfl
  have hpos : pos s = .ok s.cursor.pos s := rfl
  have hcursor : cursor t.skip = .ok t.skip.cursor t.skip := rfl
  unfold body
  rw [bind_ok hpos, bind_ok hblock, bind_ok hcursor, hlast]
  rfl

/-- The body that is found open keeps the code of its statements. -/
theorem body_unclosed
    (h : Leads (blockRound (statement ⟨some scope, false⟩) s.cursor.current) [] s.skip code t)
    (hbetween : ∀ token ∈ between, token.kind.isQualifier = true)
    (hrest : t.cursor.rest = between ++ behind)
    (hk : Cursor.headKind behind = .keyword .kwProcedure) :
    ∃ ds u, body scope s = .error (.unclosed s.cursor.current "block")
        (u.attached scope code s.cursor.pos u.cursor.previousPos) ∧
      Passes t between ds u ∧ (between = [] → ds = []) := by
  have hforward : Forward (statement ⟨some scope, false⟩) :=
    (inside_forward (some scope)).statement_along rfl
  obtain ⟨ds, u, hrounds, hpasses, hnone⟩ := blockRounds_unclosed
    s.cursor.current code hbetween hrest hk
  have hblock : openBlock (statement ⟨some scope, false⟩) s =
      .ok ⟨code, some (.unclosed s.cursor.current "block")⟩ u := by
    have hc := blockRound_consumes hforward s.cursor.current
    have hf := (inside_forward none).blockRound_along hforward s.cursor.current
    rw [openBlock_eq, advance_bind, h.repeatRounds_eq hc hf]
    exact hrounds
  have hpos : pos s = .ok s.cursor.pos s := rfl
  have hcursor : cursor u = .ok u.cursor u := rfl
  refine ⟨ds, u, ?_, hpasses, hnone⟩
  unfold body
  rw [bind_ok hpos, bind_ok hblock, bind_ok hcursor]
  rfl

/-! ## Items -/

/-- A procedure that is found open ends where the next one starts. -/
theorem itemRound_unclosed {e : ParseError} (code : Code) (h : item s = .error e t)
    (hs : s.cursor.atEnd = false) (hread : t.cursor.position ≠ s.cursor.position)
    (hk : t.cursor.kind = .keyword .kwProcedure) :
    itemRound code s = .ok (.inl code) { t with problems := t.problems.push e.diagnostic } := by
  have hreported : itemReported e t = { t with problems := t.problems.push e.diagnostic } :=
    recovered_stays hk rfl
  rw [itemRound_error code hs h, hreported, if_neg hread]

end Parse

end SslFrontend
