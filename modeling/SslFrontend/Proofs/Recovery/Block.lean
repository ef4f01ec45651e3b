import SslFrontend.Proofs.Recovery.Statement
import SslFrontend.Proofs.Twin.Seam

/-! # Rounds of a block

A round of a block always has an answer, and puts the code of its statement
behind the code that it was given.  On a malformed statement in front of a
semicolon it reads up to the semicolon and leaves the code as it was
(`blockRound_recovers`).
-/

namespace SslFrontend

namespace TokenKind

/-- No inner token ends the search for the end of a statement. -/
theorem passes_of_isInner {token : Token} (h : token.kind.isInner = true) :
    Cursor.passes .statementBoundary token = true := by
  have hbare : ∀ kind : TokenKind, kind.bare.isInner = kind.isInner := by
    intro kind
    cases kind <;> rfl
  have heof : token.kind ≠ .eof := by
    intro heof
    rw [heof] at h
    cases h
  have hboundary : KindSet.statementBoundary.contains token.kind = false := by
    unfold KindSet.statementBoundary
    rw [KindSet.contains_ofList, List.any_eq_false]
    intro kind hkind hsame
    have hout : kind.isInner = false := by
      clear hsame
      revert kind
      decide
    exact index_ne hbare (by rw [hout, h]; simp) (eq_of_beq hsame)
  simp [Cursor.passes, heof, hboundary]

end TokenKind

namespace ParserState

variable {s : ParserState} {more : List Token} {eof : Position}

theorem recovered_table (s : ParserState) (boundary : KindSet) :
    (s.recovered boundary).table = s.table := by
  unfold recovered
  dsimp only
  split <;> rfl

theorem recovered_problems (s : ParserState) (boundary : KindSet) :
    (s.recovered boundary).problems = s.problems := by
  unfold recovered
  dsimp only
  split <;> rfl

/-- Recovery reads up to the semicolon. -/
theorem Fenced.recovered_rest (h : s.Fenced) :
    ((s.onto more eof).recovered .statementBoundary).cursor.rest = more := by
  obtain ⟨inside, ⟨kind, pos⟩, hrest, hkind, hinside⟩ := h
  cases hkind
  have hmore : (s.onto more eof).cursor.rest = inside ++ ⟨.mark .semicolon, pos⟩ :: more := by
    show s.cursor.rest ++ more = _
    rw [hrest, List.append_assoc]
    rfl
  have hstop : ((s.onto more eof).cursor.synchronize .statementBoundary).rest =
      ⟨.mark .semicolon, pos⟩ :: more := by
    show (s.onto more eof).cursor.rest.drop _ = _
    rw [Cursor.drop_takeWhile, hmore, List.dropWhile_append_of_pos]
    · refine List.dropWhile_cons_of_neg ?_
      simp [Cursor.passes, KindSet.statementBoundary, KindSet.contains_ofList]
    · exact fun token ht => TokenKind.passes_of_isInner (hinside token ht)
  unfold recovered
  rw [if_pos]
  · show Cursor.rest (Cursor.advance _) = more
    unfold Cursor.advance
    rw [hstop]
    rfl
  · show Cursor.check _ _ = true
    unfold Cursor.check
    rw [Cursor.kind_of_rest hstop]
    rfl

end ParserState

namespace Parse

variable {inner : Parse Code} {opener : Token} {s t : ParserState}

/-! ## Answers -/

theorem Forward.of_error {α : Type} {p : Parse α} (h : Forward p) {e : ParseError}
    (hp : p s = .error e t) : s.cursor.Follows t.cursor := by
  have hs := h s
  unfold after at hs
  rwa [hp] at hs

theorem blockStatement_ok {code more : Code} (h : inner s = .ok more t) :
    blockStatement inner code s = .ok (.inl (code ++ more))
      (if t.cursor.position = s.cursor.position then t.skip else t) := by
  have hattempt : attempt inner s = .ok (.ok more) t := by
    unfold attempt
    rw [h]
  show ((attempt inner) >>= _) s = _
  rw [bind_ok hattempt]
  exact bind_ok (forceProgress_eq _ _)

theorem blockStatement_unclosed {code : Code} {e : ParseError} (h : inner s = .error e t)
    (he : e.cause = .unclosedBlock) :
    blockStatement inner code s = .ok (.inr ⟨code, some e⟩) t := by
  have hattempt : attempt inner s = .ok (.error e) t := by
    unfold attempt
    rw [h]
  show ((attempt inner) >>= _) s = _
  rw [bind_ok hattempt]
  simp only [he, if_true]
  rfl

/-- The state behind a malformed statement. -/
def reported (e : ParseError) (t : ParserState) : ParserState :=
  ParserState.recovered { t with problems := t.problems.push e.diagnostic } .statementBoundary

theorem blockStatement_error {code : Code} {e : ParseError} (h : inner s = .error e t)
    (he : e.cause ≠ .unclosedBlock) :
    blockStatement inner code s = .ok (.inl code)
      (if (reported e t).cursor.position = s.cursor.position then (reported e t).skip
        else reported e t) := by
  have hattempt : attempt inner s = .ok (.error e) t := by
    unfold attempt
    rw [h]
  have hreport : report e.diagnostic t =
      .ok ⟨⟩ { t with problems := t.problems.push e.diagnostic } := rfl
  show ((attempt inner) >>= _) s = _
  rw [bind_ok hattempt]
  simp only [he, if_false]
  rw [bind_ok hreport, bind_ok (recover_eq _ _)]
  exact bind_ok (forceProgress_eq _ _)

/-- A statement of a block is answered whatever happens. -/
theorem blockStatement_answers (inner : Parse Code) (code : Code) (s : ParserState) :
    ∃ found t, blockStatement inner code s = .ok found t := by
  cases h : inner s with
  | ok more t => exact ⟨_, _, blockStatement_ok h⟩
  | error e t =>
      by_cases he : e.cause = .unclosedBlock
      · exact ⟨_, _, blockStatement_unclosed h he⟩
      · exact ⟨_, _, blockStatement_error h he⟩

theorem blockRound_answers (inner : Parse Code) (opener : Token) (code : Code) (s : ParserState) :
    ∃ found t, blockRound inner opener code s = .ok found t := by
  have hlook : ∀ k : TokenKind → Parse (Code ⊕ Block), (kind >>= k) s = k s.cursor.kind s :=
    fun _ => rfl
  unfold blockRound
  rw [hlook]
  by_cases hcloses : Cursor.closes s.cursor.kind = true
  · have hcloser : ∃ t, checkCloser opener s.cursor.current s.skip = .ok ⟨⟩ t := by
      unfold checkCloser
      split <;> split <;> exact ⟨_, rfl⟩
    obtain ⟨t, ht⟩ := hcloser
    rw [if_pos hcloses, advance_bind, bind_ok ht]
    exact ⟨_, _, rfl⟩
  · rw [if_neg hcloses]
    split
    · exact ⟨_, _, rfl⟩
    · exact blockStatement_answers inner code s

/-- A block has an answer, closed or not. -/
theorem blockRounds_answer (hi : Forward inner) (opener : Token) (code : Code) (s : ParserState) :
    ∃ found t, repeatRounds (blockRound inner opener) code s = .ok found t := by
  have hrun := repeatRounds_repeats (blockRound_consumes hi opener)
    ((inside_forward none).blockRound_along hi opener) code s
  generalize repeatRounds (blockRound inner opener) code s = result at hrun ⊢
  induction hrun with
  | last _ => exact ⟨_, _, rfl⟩
  | fails h =>
      obtain ⟨found, t, hok⟩ := blockRound_answers inner opener _ _
      cases h.symm.trans hok
  | next _ _ ih => exact ih

/-! ## Code in front -/

/-- The answer of a round with more code in front. -/
def behind (front : Code) : Code ⊕ Block → Code ⊕ Block
  | .inl code => .inl (front ++ code)
  | .inr found => .inr { found with code := front ++ found.code }

theorem blockRound_behind (front : Code) {code : Code} {found : Code ⊕ Block}
    (h : blockRound inner opener code s = .ok found t) :
    blockRound inner opener (front ++ code) s = .ok (behind front found) t := by
  have hlook : ∀ k : TokenKind → Parse (Code ⊕ Block), (kind >>= k) s = k s.cursor.kind s :=
    fun _ => rfl
  unfold blockRound at h ⊢
  rw [hlook] at h ⊢
  by_cases hcloses : Cursor.closes s.cursor.kind = true
  · rw [if_pos hcloses, advance_bind] at h ⊢
    obtain ⟨_, u, hcheck, hpure⟩ := of_bind_ok h
    obtain ⟨rfl, rfl⟩ := of_pure_ok hpure
    rw [bind_ok hcheck]
    rfl
  · rw [if_neg hcloses] at h ⊢
    by_cases hends : s.cursor.kind = .eof ∨ s.cursor.kind = .keyword .kwProcedure
    · rw [if_pos hends] at h ⊢
      obtain ⟨rfl, rfl⟩ := of_pure_ok h
      rfl
    · rw [if_neg hends] at h ⊢
      cases hr : inner s with
      | ok more u =>
          rw [blockStatement_ok hr] at h ⊢
          cases h
          rw [List.append_assoc]
          rfl
      | error e u =>
          by_cases he : e.cause = .unclosedBlock
          · rw [blockStatement_unclosed hr he] at h ⊢
            cases h
            rfl
          · rw [blockStatement_error hr he] at h ⊢
            cases h
            rfl

/-- A block puts its code behind the code that it was given. -/
theorem blockRounds_behind (hi : Forward inner) (front : Code) {code : Code} {found : Block}
    (h : repeatRounds (blockRound inner opener) code s = .ok found t) :
    repeatRounds (blockRound inner opener) (front ++ code) s =
      .ok { found with code := front ++ found.code } t := by
  have hc := blockRound_consumes hi opener
  have hf := (inside_forward none).blockRound_along hi opener
  have hrun := repeatRounds_repeats hc hf code s
  rw [h] at hrun
  clear h
  refine (repeatRounds_repeats hc hf (front ++ code) s).unique ?_
  generalize hresult : EStateM.Result.ok found t = result at hrun
  induction hrun with
  | last hround =>
      cases hresult
      exact .last (blockRound_behind front hround)
  | fails _ => cases hresult
  | next hround _ ih => exact .next (blockRound_behind front hround) (ih hresult)

/-! ## A malformed statement -/

variable {context : Context} {code : Code} {bad rest : List Token} {semicolon : Token}
  {eof : Position}

/-- A round skips a malformed statement in front of a semicolon, and the
semicolon. -/
theorem blockRound_recovers (opener : Token) (code : Code) (hbad : bad ≠ []) (hinner : ∀ token ∈ bad, token.kind.isInner = true)
    (hsemicolon : semicolon.kind = .mark .semicolon)
    (hrest : s.cursor.rest = bad ++ semicolon :: rest) {e : ParseError} {u : ParserState}
    (hfails : statement context
      { s with cursor := { s.cursor with rest := bad ++ [semicolon], eof := eof } } = .error e u) :
    ∃ s', blockRound (statement context) opener code s = .ok (.inl code) s' ∧
      s.cursor.Reads (bad ++ [semicolon]) s'.cursor ∧ s.Quiet s' ∧
      s.problems.items.length < s'.problems.items.length := by
  let front : ParserState :=
    { s with cursor := { s.cursor with rest := bad ++ [semicolon], eof := eof } }
  have hfront : front.Fenced := ⟨bad, semicolon, rfl, hsemicolon, hinner⟩
  have hs : front.onto rest s.cursor.eof = s := by
    obtain ⟨⟨rest', eof', position, last⟩, table, ledger, pending, problems⟩ := s
    dsimp only at hrest
    subst hrest
    simp [front, ParserState.onto]
  have hstops : Stops rest s.cursor.eof (statement context) front := statement_stops hfront
  obtain ⟨hu, hquiet, he, hstatement⟩ := hstops.of_error hfails
  rw [hs] at hstatement
  let t := u.onto rest s.cursor.eof
  have hleft : (reported e t).cursor.rest = rest :=
    ParserState.Fenced.recovered_rest (s := { u with problems := u.problems.push e.diagnostic }) hu
  have hread : s.cursor.Follows (reported e t).cursor := by
    have hn := inside_forward context.scope
    have hrecover : t.cursor.Follows (reported e t).cursor :=
      Forward.of_ok (s := { t with problems := t.problems.push e.diagnostic })
        (hn.recover_along .statementBoundary) (recover_eq _ _)
    exact (Forward.of_error (hn.statement_along rfl) hstatement).trans hrecover
  have hmoved : (reported e t).cursor.position ≠ s.cursor.position := by
    have hlength := hread.rest_length
    rw [hleft, hrest, List.length_append, List.length_cons] at hlength
    omega
  refine ⟨reported e t, ?_, ?_, ?_, ?_⟩
  · obtain ⟨token, bad, rfl⟩ := List.exists_cons_of_ne_nil hbad
    have hkind : s.cursor.kind.isInner = true := by
      rw [Cursor.kind_of_rest hrest]
      exact hinner token List.mem_cons_self
    have hcloses : Cursor.closes s.cursor.kind ≠ true := by
      intro hcloses
      revert hkind hcloses
      generalize s.cursor.kind = kind
      cases kind with
      | keyword word => cases word <;> simp [Cursor.closes, TokenKind.isInner]
      | mark sign => cases sign <;> simp [Cursor.closes, TokenKind.isInner]
      | _ => simp [Cursor.closes]
    have hends : ¬(s.cursor.kind = .eof ∨ s.cursor.kind = .keyword .kwProcedure) := by
      rintro (hk | hk) <;> rw [hk] at hkind <;> cases hkind
    have hround : blockRound (statement context) opener code s =
        blockStatement (statement context) code s := by
      show (if _ then _ else _ : Parse (Code ⊕ Block)) s = _
      rw [if_neg hcloses, if_neg hends]
    rw [hround, blockStatement_error hstatement he, if_neg hmoved]
  · obtain ⟨taken, htaken, heof, hposition, hlast⟩ := hread
    have hsame : taken = bad ++ [semicolon] := by
      rw [hleft, hrest, ← List.singleton_append, ← List.append_assoc] at htaken
      exact (List.append_cancel_right htaken).symm
    subst hsame
    exact ⟨htaken, heof, hposition, hlast⟩
  · have hquiet : s.Quiet u := ⟨hquiet.table, hquiet.strings, hquiet.problems⟩
    refine hquiet.trans ⟨?_, ?_, [e.diagnostic], ?_, fun d hd => ?_⟩
    · rw [reported, ParserState.recovered_table]
      rfl
    · rw [reported, ParserState.recovered_table]
      exact .refl _
    · rw [reported, ParserState.recovered_problems]
      rfl
    · rw [List.mem_singleton.mp hd]
      exact he
  · obtain ⟨ds, hds, -⟩ := hquiet.problems
    rw [reported, ParserState.recovered_problems]
    show s.problems.items.length < (u.problems.items ++ [e.diagnostic]).length
    rw [hds, List.length_append, List.length_append]
    show s.problems.items.length < s.problems.items.length + ds.length + 1
    omega

end Parse

end SslFrontend
