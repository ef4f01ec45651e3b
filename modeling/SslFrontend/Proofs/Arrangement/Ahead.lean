import SslFrontend.Proofs.Grammar.ExpressionRecovery
import SslFrontend.Proofs.Grammar.Lookahead
import SslFrontend.Proofs.Recovery.Unclosed
import SslFrontend.Proofs.Twin.Seam

/-! # Looking ahead at the end of a declaration

A declaration says where it ends, but the search for an assignment looks beyond: an
index that no bracket closes goes on for it in the next declaration.  Where it finds
one there, there is not even an expression in front of it.
-/

namespace SslFrontend

open SslFrontend.Expr (bracketed)
open Assignment (afterBrackets? afterTarget? isNext)

/-- Where an index is read, a bracket closes it. -/
theorem indices_closed {scope : Option ScopeId} {inner : Parse Code} {front code : Code}
    {s s' : ParserState} (hi : Recovers scope inner) (h : Parse.indices inner front s = .ok code s')
    (hopen : s.cursor.check (.mark .lbracket) = true) :
    ∃ (x : Suffix) (more : List Token), x.Proper ∧ s.cursor.rest = x.printed ++ more := by
  refine Parse.of_repeatRounds_ok (P := fun _ s _ _ => s.cursor.check (.mark .lbracket) = true →
    ∃ (x : Suffix) (more : List Token), x.Proper ∧ s.cursor.rest = x.printed ++ more)
    ?_ ?_ h hopen
  · rintro front s code s' hround hcheck
    obtain ⟨opened, s₁, hopen, hround⟩ := Parse.of_bind_ok hround
    cases hopen
    rw [if_pos hcheck] at hround
    obtain ⟨x, index, -, hnext, -⟩ := index_recovers hi
      (fun pos index => (Sum.inl (front ++ index ++ [Node.op .index pos]) : Code ⊕ Code))
      hcheck hround
    cases hnext
  · rintro front s next s₁ code s' hround - hcheck
    obtain ⟨opened, s₁, hopen, hround⟩ := Parse.of_bind_ok hround
    cases hopen
    rw [if_pos hcheck] at hround
    obtain ⟨x, index, hx, -, hdone⟩ := index_recovers hi
      (fun pos index => (Sum.inl (front ++ index ++ [Node.op .index pos]) : Code ⊕ Code))
      hcheck hround
    exact ⟨x, _, hx, hdone.reads.rest⟩

/-- A name with an index that no bracket closes is no expression. -/
theorem Parse.expression_unbracketed {scope : Option ScopeId} {s : ParserState} {name : String}
    {pos opened : Position} {rest : List Token}
    (hs : s.cursor.rest = ⟨.ident name, pos⟩ :: ⟨.mark .lbracket, opened⟩ :: rest)
    (hopen : afterBrackets? 0 rest = none) : ∃ e s', expression scope s = .error e s' := by
  cases hr : expression scope s with
  | error e s' => exact ⟨e, s', rfl⟩
  | ok code s' =>
      exfalso
      obtain ⟨c, s₁, hc, hr⟩ := of_bind_ok hr
      cases hc
      obtain ⟨first, s₁, hoperand, -⟩ := of_bind_ok hr
      have hi := expressionTo_recovers scope s.cursor.rest.length
      obtain ⟨unaries, s₂, hunaries, h⟩ := of_bind_ok hoperand
      obtain ⟨front, s₃, hprimary, h⟩ := of_bind_ok h
      obtain ⟨indexed, s₄, hindices, -⟩ := of_bind_ok h
      obtain ⟨signs, -, hread, -⟩ := unaryRun_recovers hunaries
      have hfront : s₂.cursor.rest =
          ⟨.ident name, pos⟩ :: ⟨.mark .lbracket, opened⟩ :: rest := by
        cases signs with
        | nil => exact hread.rest_eq hs
        | cons sign signs =>
            have htoken : sign.printed = ⟨.ident name, pos⟩ :=
              List.head_eq_of_cons_eq (hread.rest.symm.trans hs)
            have hlisted := sign.unary?_printed
            rw [htoken] at hlisted
            cases hlisted
      have hkind : s₂.cursor.current.kind = .ident name := by
        rw [Cursor.current_of_rest hfront]
      -- the name is mentioned, and not called
      have hbehind : s₃.cursor.rest = ⟨.mark .lbracket, opened⟩ :: rest := by
        unfold primary at hprimary
        obtain ⟨c, s₄, hc, hname⟩ := of_bind_ok hprimary
        cases hc
        simp only [hkind, discard_advance_bind] at hname
        obtain ⟨callee, s₅, hcallee, hcall⟩ := of_bind_ok hname
        obtain ⟨node, s₆, hnode, hmention⟩ := mention_ok scope name s₂.cursor.pos s₂.skip
        cases hnode.symm.trans hcallee
        have hrest : s₅.cursor.rest = ⟨.mark .lbracket, opened⟩ :: rest := by
          have hskip : s₂.skip.cursor.rest = ⟨.mark .lbracket, opened⟩ :: rest :=
            (Cursor.reads_advance (by simp [Cursor.kind, hkind])).rest_eq (by
              rw [Cursor.current_of_rest hfront]
              exact hfront)
          exact hmention.reads.rest_eq hskip
        obtain ⟨eaten, s₇, heat, hlast⟩ := of_bind_ok hcall
        rcases of_eat_ok heat with ⟨rfl, hparen, rfl⟩ | ⟨rfl, rfl⟩
        · rw [Cursor.check, Cursor.kind_of_rest hrest] at hparen
          cases hparen
        · cases hlast
          exact hrest
      obtain ⟨x, more, hx, hprinted⟩ := indices_closed hi hindices
        (Cursor.check_of_kind (Cursor.kind_of_rest hbehind))
      have hsame : bracketed x.pos x.closed x.tokens ++ more =
          ⟨.mark .lbracket, opened⟩ :: rest := hprinted.symm.trans hbehind
      obtain ⟨-, rfl⟩ := List.cons_eq_cons.mp hsame
      have hsome : afterBrackets? 0 ((x.tokens ++ [⟨.mark .rbracket, x.closed⟩]) ++ more) =
          some more := by
        rw [List.append_assoc, hx.paired]
        rfl
      cases hopen.symm.trans hsome

namespace Assignment

/-- A bracket that is found is found whatever follows. -/
theorem afterBrackets?_append {tokens behind : List Token} {depth : Nat}
    (h : afterBrackets? depth tokens = some behind) (more : List Token) :
    afterBrackets? depth (tokens ++ more) = some (behind ++ more) := by
  induction tokens generalizing depth with
  | nil => cases h
  | cons token tokens ih =>
      rw [List.cons_append]
      unfold afterBrackets? at h ⊢
      split at h
      · exact ih h
      · cases depth with
        | zero =>
            cases h
            rfl
        | succ outer => exact ih h
      · cases h
      · cases h
      · exact ih h

/-- No declaration looks like what is behind a target. -/
theorem ofKind?_of_startsItem {kind : TokenKind} (h : kind.startsItem = true) :
    ofKind? kind = none := by
  cases kind with
  | keyword word => rfl
  | _ => cases h

/-- Whether an assignment comes next in a declaration does not depend on what
follows it, or there is not even an expression. -/
theorem isNext_alone {tokens more : List Token}
    (hmore : ∀ token ∈ more.head?, token.kind.startsItem = true) :
    isNext (tokens ++ more) = isNext tokens ∨ isNext tokens = false ∧
      ∀ scope (s : ParserState), s.cursor.rest = tokens →
        ∃ e s', Parse.expression scope s = .error e s' := by
  have hunassigned : ∀ behind : List Token,
      ((behind ++ more).head?.any fun token => (ofKind? token.kind).isSome) =
        behind.head?.any fun token => (ofKind? token.kind).isSome := by
    intro behind
    cases behind with
    | cons token behind => rfl
    | nil =>
        cases more with
        | nil => rfl
        | cons token more => simp [ofKind?_of_startsItem (hmore token rfl)]
  have hafter : ∀ behind, afterTarget? tokens = some behind →
      afterTarget? (tokens ++ more) = some (behind ++ more) →
        isNext (tokens ++ more) = isNext tokens := by
    intro behind h h'
    rw [isNext_of_after h, isNext_of_after h', hunassigned]
  cases tokens with
  | nil =>
      left
      cases more with
      | nil => rfl
      | cons token more =>
          refine not_isNext_of_kind ?_
          have hstarts := hmore token rfl
          cases hk : token.kind with
          | ident name => rw [hk] at hstarts; cases hstarts
          | _ => rfl
  | cons first tokens =>
      obtain ⟨kind, pos⟩ := first
      cases kind with
      | ident name =>
          cases tokens with
          | nil =>
              refine .inl (hafter [] rfl ?_)
              cases more with
              | nil => rfl
              | cons token more =>
                  refine afterTarget?_scalar fun hk => ?_
                  have hstarts := hmore token rfl
                  rw [hk] at hstarts
                  cases hstarts
          | cons second tokens =>
              by_cases hk : second.kind = .mark .lbracket
              · obtain ⟨kind, opened⟩ := second
                cases hk
                cases hclosed : afterBrackets? 0 tokens with
                | some behind =>
                    exact .inl (hafter behind hclosed (afterBrackets?_append hclosed more))
                | none =>
                    have hnone : afterTarget?
                        (⟨.ident name, pos⟩ :: ⟨.mark .lbracket, opened⟩ :: tokens) = none := hclosed
                    refine .inr ⟨by unfold isNext; rw [hnone], fun scope s hs => ?_⟩
                    exact Parse.expression_unbracketed hs hclosed
              · exact .inl (hafter _ (afterTarget?_scalar hk) (afterTarget?_scalar hk))
      | _ => exact .inl rfl

end Assignment

end SslFrontend
