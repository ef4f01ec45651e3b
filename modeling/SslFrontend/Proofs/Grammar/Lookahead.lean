import SslFrontend.Proofs.Grammar.ExpressionRuns
import SslFrontend.Proofs.Grammar.StatementTree

/-! # Looking ahead for an assignment

Whether a statement is an assignment is decided by what is behind its first name
and index.  Written expressions have their brackets in pairs, so the look ahead
finds an assignment operator behind a written target
(`Target.Prints.isNext`) and none behind the front of a written expression
(`Expr.Prints.not_isNext`).
-/

namespace SslFrontend

open SslFrontend.Expr (Prints Separated parenthesized bracketed)
open Assignment (afterBrackets? afterTarget? isNext)

namespace Assignment

/-- Whether the search for a closing bracket goes on past a token. -/
def passes : TokenKind → Bool
  | .mark .lbracket | .mark .rbracket | .mark .semicolon | .eof => false
  | _ => true

theorem afterBrackets?_cons {token : Token} (h : passes token.kind = true) (depth : Nat)
    (rest : List Token) : afterBrackets? depth (token :: rest) = afterBrackets? depth rest := by
  obtain ⟨kind, pos⟩ := token
  cases kind with
  | mark sign => cases sign <;> first | rfl | cases h
  | eof => cases h
  | _ => rfl

/-- Brackets in pairs: the search for a closing bracket goes on behind them. -/
def Paired (tokens : List Token) : Prop :=
  ∀ depth rest, afterBrackets? depth (tokens ++ rest) = afterBrackets? depth rest

namespace Paired

theorem nil : Paired [] := fun _ _ => rfl

theorem append {first second : List Token} (h₁ : Paired first) (h₂ : Paired second) :
    Paired (first ++ second) := by
  intro depth rest
  rw [List.append_assoc, h₁, h₂]

theorem cons {token : Token} {tokens : List Token} (ht : passes token.kind = true)
    (h : Paired tokens) : Paired (token :: tokens) := by
  intro depth rest
  rw [List.cons_append, afterBrackets?_cons ht, h]

theorem parenthesized {opened closed : Position} {tokens : List Token} (h : Paired tokens) :
    Paired (parenthesized opened closed tokens) :=
  .cons rfl (h.append (.cons rfl .nil))

theorem afterBrackets? {tokens : List Token} (h : Paired tokens) (depth : Nat) (closed : Position)
    (rest : List Token) : afterBrackets? (depth + 1) (tokens ++ ⟨.mark .rbracket, closed⟩ :: rest) =
      Assignment.afterBrackets? depth rest := by
  rw [h]
  rfl

theorem bracketed {opened closed : Position} {tokens : List Token} (h : Paired tokens) :
    Paired (bracketed opened closed tokens) := by
  intro depth rest
  rw [← h.afterBrackets? depth closed rest]
  simp [Expr.bracketed, Assignment.afterBrackets?]

theorem separated {pieces : List (List Token)} {tokens : List Token}
    (h : Separated pieces tokens) (each : ∀ piece ∈ pieces, Paired piece) : Paired tokens := by
  induction h with
  | none => exact .nil
  | one piece => exact each piece List.mem_cons_self
  | more first comma _ ih =>
      exact (each first List.mem_cons_self).append
        (.cons rfl (ih fun piece hpiece => each piece (List.mem_cons_of_mem _ hpiece)))

end Paired

theorem passes_unary (op : UnaryOp) : passes op.token = true := by
  obtain ⟨token, node, listed⟩ := op
  unfold Operator.unary? at listed
  split at listed <;> first | rfl | cases listed

theorem passes_binary (op : BinaryOp) : passes op.token = true := by
  obtain ⟨token, level, node, listed⟩ := op
  unfold Operator.binary? at listed
  split at listed <;> first | rfl | cases listed

end Assignment

open Assignment (Paired)

theorem Expr.Prints.paired {wanted : Nat} {e : Expr} {tokens : List Token}
    (h : Prints wanted e tokens) : Paired tokens := by
  induction h with
  | literal _ value pos =>
      refine .cons ?_ .nil
      cases value with
      | truth b => cases b <;> rfl
      | _ => rfl
  | name => exact .cons rfl .nil
  | call _ n pos opened closed _ all ih =>
      refine .cons rfl (.parenthesized (.separated all fun piece hpiece => ?_))
      obtain ⟨a, ha, rfl⟩ := List.mem_map.mp hpiece
      exact ih a ha
  | address => exact .cons rfl (.cons rfl .nil)
  | index _ pos closed _ _ ih₁ ih₂ => exact ih₁.append ih₂.bracketed
  | unary op pos _ _ ih => exact .cons (Assignment.passes_unary op) ih
  | binary op pos _ _ _ ih₁ ih₂ => exact ih₁.append (.cons (Assignment.passes_binary op) ih₂)
  | parens _ opened closed _ ih => exact ih.parenthesized

namespace Assignment

variable {n : String} {pos : Position} {tokens behind : List Token}

theorem afterTarget?_scalar {token : Token} (h : token.kind ≠ .mark .lbracket) :
    afterTarget? (⟨.ident n, pos⟩ :: token :: tokens) = some (token :: tokens) := by
  obtain ⟨kind, at'⟩ := token
  cases kind with
  | mark sign => cases sign <;> first | rfl | exact absurd rfl h
  | _ => rfl

theorem isNext_of_after (h : afterTarget? tokens = some behind) :
    isNext tokens = behind.head?.any fun token => (ofKind? token.kind).isSome := by
  unfold isNext
  rw [h]
  cases behind <;> rfl

end Assignment

/-- An assignment operator does not begin these tokens. -/
def Unassigned (tokens : List Token) : Prop :=
  ∀ token ∈ tokens.head?, Assignment.ofKind? token.kind = none

/-- Nothing is assigned to what ends in front of these tokens, be it a name that
an index in them goes on with. -/
structure Settled (tokens : List Token) : Prop where
  next : Unassigned tokens
  index (pos : Position) (rest behind : List Token) (h : tokens = ⟨.mark .lbracket, pos⟩ :: rest)
    (hb : afterBrackets? 0 rest = some behind) : Unassigned behind

namespace Settled

variable {tokens : List Token}

theorem of_kind {token : Token} {more : List Token}
    (h : Assignment.ofKind? token.kind = none) (hb : token.kind ≠ .mark .lbracket) :
    Settled (token :: more) where
  next := by rintro token ⟨⟩; exact h
  index pos rest behind heq := by
    cases heq
    exact absurd rfl hb

theorem index_front {pos closed : Position} {inside more : List Token} (hi : Paired inside)
    (h : Settled more) : Settled (bracketed pos closed inside ++ more) where
  next := by rintro token ⟨⟩; rfl
  index pos' rest behind heq hb := by
    cases heq
    have hbehind : afterBrackets? 0 ((inside ++ [⟨.mark .rbracket, closed⟩]) ++ more) =
        some more := by
      rw [List.append_assoc, hi]
      rfl
    cases hbehind.symm.trans hb
    exact h.next

theorem not_isNext {n : String} {pos : Position} (h : Settled tokens) :
    isNext (⟨.ident n, pos⟩ :: tokens) = false := by
  have unassigned : ∀ behind, Unassigned behind →
      (behind.head?.any fun token => (Assignment.ofKind? token.kind).isSome) = false := by
    intro behind hbehind
    cases behind with
    | nil => rfl
    | cons token more => simp [hbehind token rfl]
  cases tokens with
  | nil => rfl
  | cons token more =>
      by_cases hb : token.kind = .mark .lbracket
      · obtain ⟨kind, opened⟩ := token
        cases hb
        cases hafter : afterBrackets? 0 more with
        | none =>
            have hnone : afterTarget? (⟨.ident n, pos⟩ :: ⟨.mark .lbracket, opened⟩ :: more) =
                none := hafter
            unfold isNext
            rw [hnone]
        | some behind =>
            have hsome : afterTarget? (⟨.ident n, pos⟩ :: ⟨.mark .lbracket, opened⟩ :: more) =
                some behind := hafter
            rw [Assignment.isNext_of_after hsome]
            exact unassigned behind (h.index opened more behind rfl hafter)
      · rw [Assignment.isNext_of_after (Assignment.afterTarget?_scalar hb)]
        exact unassigned _ h.next

end Settled

theorem not_isNext_of_kind {token : Token} {more : List Token} (h : token.kind.isIdent = false) :
    isNext (token :: more) = false := by
  obtain ⟨kind, pos⟩ := token
  cases kind with
  | ident n => cases h
  | _ => rfl

theorem Assignment.ofKind?_binary (op : BinaryOp) : ofKind? op.token = none := by
  obtain ⟨token, level, node, listed⟩ := op
  unfold Operator.binary? at listed
  split at listed <;> first | rfl | cases listed

theorem UnaryOp.isIdent_token (op : UnaryOp) : op.token.isIdent = false := by
  obtain ⟨token, node, listed⟩ := op
  unfold Operator.unary? at listed
  split at listed <;> first | rfl | cases listed

/-- A written expression does not look like an assignment. -/
theorem Expr.Prints.not_isNext {wanted : Nat} {e : Expr} {tokens more : List Token}
    (h : Prints wanted e tokens) (hmore : Settled more) : isNext (tokens ++ more) = false := by
  induction h generalizing more with
  | literal _ value pos =>
      refine not_isNext_of_kind ?_
      cases value with
      | truth b => cases b <;> rfl
      | _ => rfl
  | name => exact hmore.not_isNext
  | call => exact Settled.not_isNext (.of_kind rfl (by nofun))
  | address => exact not_isNext_of_kind rfl
  | index _ pos closed _ h₂ ih₁ _ =>
      rw [List.append_assoc]
      exact ih₁ (.index_front h₂.paired hmore)
  | unary op pos _ _ _ => exact not_isNext_of_kind op.isIdent_token
  | binary op pos _ _ _ ih₁ _ =>
      rw [List.append_assoc]
      have hbracket := (op.endsOperand pos []).bracket
      exact ih₁ (.of_kind (Assignment.ofKind?_binary op) hbracket)
  | parens => exact not_isNext_of_kind rfl

/-- A written target with an assignment operator behind it is an assignment. -/
theorem Target.Prints.isNext {target : Target} {front more : List Token} {op : Token}
    (h : target.Prints front) (hop : (Assignment.ofKind? op.kind).isSome = true) :
    isNext (front ++ op :: more) = true := by
  cases h with
  | scalar n pos =>
      have hbracket : op.kind ≠ .mark .lbracket := by
        intro hb
        rw [hb] at hop
        cases hop
      have hafter : afterTarget? ([⟨.ident n, pos⟩] ++ op :: more) = some (op :: more) :=
        Assignment.afterTarget?_scalar hbracket
      rw [Assignment.isNext_of_after hafter]
      exact hop
  | element n pos opened closed hi =>
      rename_i index inside
      have hafter : afterTarget? (⟨.ident n, pos⟩ :: bracketed opened closed inside ++
          op :: more) = some (op :: more) := by
        show afterBrackets? 0 ((inside ++ [⟨.mark .rbracket, closed⟩]) ++ op :: more) = _
        rw [List.append_assoc, hi.paired]
        rfl
      rw [Assignment.isNext_of_after hafter]
      exact hop

end SslFrontend
