import SslFrontend.Proofs.Twin.Primitives

/-! # Expressions side by side

Two runs read the same expression and make alike code of it, or fail alike.  An
expression that would start at the seam fails in the left run.
-/

namespace SslFrontend

/-- The error of a token that no operand starts with. -/
def ParseError.noExpression (token : Token) : ParseError :=
  ⟨.expectedExpression, s!"expected expression, found `{token.kind.friendlyName}`", token.pos,
    some "expected expression", []⟩

/-- Whether an operand starts here, behind its unary operators. -/
def TokenKind.startsPrimary : TokenKind → Bool
  | .int _ | .float _ | .str _ | .ident _ | .invalid | .keyword .kwTrue | .keyword .kwFalse
  | .mark .atSign | .mark .lparen => true
  | _ => false

theorem Parse.primary_eq_error {scope : Option ScopeId} {inner : Parse Code} {s : ParserState}
    (h : s.cursor.kind.startsPrimary = false) :
    Parse.primary scope inner s = .error (.noExpression s.cursor.current) s := by
  have hlook : ∀ (k : Cursor → Parse Code), (Parse.cursor >>= k) s = k s.cursor s := fun _ => rfl
  have hkind : s.cursor.kind = s.cursor.current.kind := rfl
  unfold Parse.primary ParseError.noExpression
  rw [hlook, ← hkind]
  revert h
  cases s.cursor.kind with
  | keyword word => cases word <;> first | (intro h; rfl) | (intro h; cases h)
  | mark sign => cases sign <;> first | (intro h; rfl) | (intro h; cases h)
  | included path => intro h; rfl
  | eof => intro h; rfl
  | _ => intro h; cases h

namespace Operator

theorem isPlain_unary {kind : TokenKind} {node : NodeKind} (h : unary? kind = some node)
    (pos : Position) : (Node.op node pos).isPlain = true := by
  unfold unary? at h
  split at h <;> cases h <;> rfl

theorem isPlain_binary {kind : TokenKind} {level : Nat} {node : NodeKind}
    (h : binary? kind = some (level, node)) (pos : Position) :
    (Node.op node pos).isPlain = true := by
  unfold binary? at h
  split at h <;> cases h <;> rfl

end Operator

namespace Likeness

variable {K : Likeness} {r r' : Records} {a a' b b' : Code}

theorem Codes.append (h : K.Codes r r' a b) (h' : K.Codes r r' a' b') :
    K.Codes r r' (a ++ a') (b ++ b') :=
  List.rel_append h h'

theorem Codes.reverse (h : K.Codes r r' a b) : K.Codes r r' a.reverse b.reverse :=
  List.rel_reverse h

theorem Codes.isEmpty (h : K.Codes r r' a b) : b.isEmpty = a.isEmpty := by
  cases h <;> rfl

end Likeness

namespace Comparison

variable {C : Comparison} {s t : ParserState} {inner inner' : Parse Code} {bound : Nat}
  {σ τ : Option ScopeId}

theorem codes_plain {r r' : Records} {code : Code} (h : ∀ node ∈ code, node.isPlain = true) :
    C.Codes r r' code code := by
  induction code with
  | nil => exact .nil
  | cons node rest ih =>
      exact .cons (C.plain (h node List.mem_cons_self))
        (ih fun other ho => h other (List.mem_cons_of_mem _ ho))

/-- Operators that wait in one run and in the other. -/
def Links (C : Comparison) (s t : ParserState) : List (Operator × Code) → List (Operator × Code) →
    Prop :=
  List.Forall₂ fun a b =>
    b.1 = a.1 ∧ a.1.node.isPlain = true ∧ C.Codes s.records t.records a.2 b.2

theorem Later.links {s' t' : ParserState} (h : C.Later s t s' t')
    {a b : List (Operator × Code)} (hab : C.Links s t a b) : C.Links s' t' a b :=
  hab.imp fun _ _ hop => ⟨hop.1, hop.2.1, h.codes hop.2.2⟩

theorem release_plain (level : Nat) {waiting : List Operator}
    (h : ∀ op ∈ waiting, op.node.isPlain = true) :
    (∀ node ∈ (Operator.release level waiting).1, node.isPlain = true) ∧
      ∀ op ∈ (Operator.release level waiting).2, op.node.isPlain = true := by
  induction waiting with
  | nil => exact ⟨by simp [Operator.release], by simp [Operator.release]⟩
  | cons top below ih =>
      unfold Operator.release
      split
      · obtain ⟨hcode, hleft⟩ := ih fun op ho => h op (List.mem_cons_of_mem _ ho)
        refine ⟨fun node hn => ?_, hleft⟩
        rcases List.mem_cons.mp hn with rfl | hn
        · exact h top List.mem_cons_self
        · exact hcode node hn
      · exact ⟨by simp, h⟩

/-- A chain of alike operands has alike code. -/
theorem chain_codes {waiting : List Operator} (hw : ∀ op ∈ waiting, op.node.isPlain = true)
    {a b : List (Operator × Code)} (h : C.Links s t a b) :
    C.Codes s.records t.records (Operator.chain waiting a) (Operator.chain waiting b) := by
  induction h generalizing waiting with
  | nil =>
      refine codes_plain fun node hn => ?_
      obtain ⟨op, ho, rfl⟩ := List.mem_map.mp hn
      exact hw op ho
  | @cons a b _ _ hop _ ih =>
      obtain ⟨op, operand⟩ := a
      obtain ⟨op', operand'⟩ := b
      obtain ⟨rfl, hplain, hoperand⟩ := hop
      obtain ⟨hcode, hleft⟩ := release_plain op'.level hw
      refine .append (.append (codes_plain hcode) hoperand) (ih fun other ho => ?_)
      rcases List.mem_cons.mp ho with rfl | ho
      · exact hplain
      · exact hleft other ho

/-- Expressions inside the one that is read agree: those that start where fewer
tokens than `bound` are left. -/
def Inside (C : Comparison) (bound : Nat) (inner inner' : Parse Code) : Prop :=
  ∀ s t, C.Pair s t → s.cursor.rest.length < bound → C.Agree (Sure _) C.SameCode inner inner' s t

theorem Inside.mono {less : Nat} (h : C.Inside bound inner inner') (hle : less ≤ bound) :
    C.Inside less inner inner' :=
  fun s t hp hlt => h s t hp (Nat.lt_of_lt_of_le hlt hle)

namespace Agree

variable {α β : Type} {L : α → ParserState → Prop} {Q : ParserState → ParserState → α → β → Prop}

/-- A token is read for nothing but its kind. -/
theorem skip {k : PUnit → Parse α} {k' : PUnit → Parse β} (h : C.Pair s t)
    (hg : ¬C.seam.Gone s.cursor)
    (next : C.Later s t s.skip t.skip → C.Agree L Q (k ⟨⟩) (k' ⟨⟩) s.skip t.skip) :
    C.Agree L Q (Functor.discard Parse.advance >>= k) (Functor.discard Parse.advance >>= k') s t :=
  via (h.skip hg) Parse.discard_advance_bind Parse.discard_advance_bind (next (h.skip hg))

/-- A token that is eaten makes what is left to read less. -/
theorem less_of_check {kind : TokenKind} (h : s.cursor.check kind = true)
    (hk : kind.isSteady = true) : s.skip.cursor.rest.length < s.cursor.rest.length := by
  refine skip_less fun heof => ?_
  have hbare := (TokenKind.index_eq_iff _ _).mp (Cursor.check_eq_true h)
  rw [heof] at hbare
  cases kind <;> first | cases hbare; done | cases hk

end Agree

open Agree (less_of_check)

/-! ## Operators and arguments -/

theorem unaryRun_agree (h : C.Pair s t) :
    C.Agree (Sure _) C.SameCode Parse.unaryRun Parse.unaryRun s t := by
  have hblind : ∀ token : Token, Operator.unary? (C.seam.spell token).kind =
      Operator.unary? token.kind := Seam.spell_blind Operator.unary? rfl rfl
  have hl : ∀ token ∈ C.seam.left.head?, (Operator.unary? token.kind).isSome = false := by
    intro token ht
    rw [C.seam.closer token ht]
    rfl
  have hr : ∀ token ∈ C.seam.right.head?, (Operator.unary? token.kind).isSome = false := by
    intro token ht
    have hfront := C.seam.front token ht
    revert hfront
    cases token.kind with
    | keyword word => cases word <;> first | (intro; rfl) | (intro hf; cases hf)
    | _ => intro hf; cases hf
  obtain ⟨htaken, hjoins⟩ := h.joins.takeWhile
    (p := fun token => (Operator.unary? token.kind).isSome)
    (q := fun token => (Operator.unary? token.kind).isSome)
    (fun token => by rw [hblind]) hl hr
  refine .inr ⟨_, _, rfl, h.move (s.cursor.follows_skipWhile _) (t.cursor.follows_skipWhile _)
    hjoins, ?_⟩
  have hsame : (t.cursor.rest.takeWhile fun token => (Operator.unary? token.kind).isSome).filterMap
      (fun token => (Operator.unary? token.kind).map (Node.op · token.pos)) =
      (s.cursor.rest.takeWhile fun token => (Operator.unary? token.kind).isSome).filterMap
        fun token => (Operator.unary? token.kind).map (Node.op · token.pos) := by
    rw [htaken, List.filterMap_map]
    refine List.filterMap_congr fun token _ => ?_
    simp only [Function.comp, hblind, Seam.spell_pos]
  rw [hsame]
  refine codes_plain fun node hn => ?_
  obtain ⟨token, -, hnode⟩ := List.mem_filterMap.mp hn
  obtain ⟨kind, hkind, rfl⟩ := Option.map_eq_some_iff.mp hnode
  exact Operator.isPlain_unary hkind _

/-- Both answer with alike arguments, and as many. -/
def SameArguments (C : Comparison) (s t : ParserState) (a b : Code × Nat) : Prop :=
  C.Codes s.records t.records a.1 b.1 ∧ b.2 = a.2

theorem argumentRun_agree (hi : C.Inside bound inner inner')
    (hb : s.cursor.rest.length < bound) (h : C.Pair s t) :
    C.Agree (Sure _) C.SameArguments (Parse.argumentRun inner) (Parse.argumentRun inner') s t := by
  refine .repeatSure (I := C.SameArguments) (fun s₁ t₁ a b h₁ hab => ?_) h ⟨.nil, rfl⟩
  refine (hi s₁ t₁ h₁.pair (Nat.lt_of_le_of_lt h₁.rest_le hb)).next fun s₂ t₂ x y h₂ hxy => ?_
  have hnext : C.SameArguments s₂ t₂ (a.1 ++ x, a.2 + 1) (b.1 ++ y, b.2 + 1) :=
    ⟨(h₂.codes hab.1).append hxy, by rw [hab.2]⟩
  refine .eat h₂.pair rfl (fun hc h₃ => .pure h₃.pair ⟨⟨h₃.codes hnext.1, hnext.2⟩, ?_⟩)
    fun _ => .pure h₂.pair hnext
  exact Nat.lt_of_lt_of_le (less_of_check hc rfl) h₂.rest_le

theorem arguments_agree (hi : C.Inside bound inner inner') (hb : s.cursor.rest.length < bound)
    (h : C.Pair s t) :
    C.Agree (Sure _) C.SameArguments (Parse.arguments inner) (Parse.arguments inner') s t := by
  have hclose : ∀ {s t : ParserState} {a b : Code × Nat}, C.Pair s t → C.SameArguments s t a b →
      C.Agree (Sure _) C.SameArguments
        (do
          discard <| Parse.expect (.mark .rparen)
          return a : Parse (Code × Nat))
        (do
          discard <| Parse.expect (.mark .rparen)
          return b : Parse (Code × Nat)) s t := fun hp hab =>
    .expected hp rfl fun _ h₁ => .pure h₁.pair ⟨h₁.codes hab.1, hab.2⟩
  refine .check rfl h (.ite Iff.rfl (fun _ => ?_) fun _ => ?_)
  · exact hclose h ⟨.nil, rfl⟩
  · exact (argumentRun_agree hi hb h).next fun _ _ _ _ h₁ hab => hclose h₁.pair hab

/-! ## Operands -/

theorem primary_agree (hi : C.Inside s.cursor.rest.length inner inner') (hs : C.scope σ τ)
    (h : C.Pair s t) :
    C.Agree (Sure _) C.SameCode (Parse.primary σ inner) (Parse.primary τ inner') s t := by
  have hblind : ¬C.seam.Gone s.cursor →
      t.cursor.kind.startsPrimary = s.cursor.kind.startsPrimary := fun hg =>
    h.joins.blind hg TokenKind.startsPrimary rfl rfl
  cases hstart : s.cursor.kind.startsPrimary with
  | false =>
      refine .errors (f := .noExpression t.cursor.current) h (Parse.primary_eq_error hstart)
        fun hg => ⟨Parse.primary_eq_error ((hblind hg).trans hstart), ?_⟩
      exact h.joins.alikeErrors hg .noExpression (fun _ => rfl) (fun _ _ => rfl) fun _ => rfl
  | true =>
      have hg : ¬C.seam.Gone s.cursor := h.not_gone
        (fun hk => by rw [hk] at hstart; cases hstart) fun hk => by rw [hk] at hstart; cases hstart
      have hless : s.skip.cursor.rest.length < s.cursor.rest.length :=
        skip_less fun hk => by rw [hk] at hstart; cases hstart
      have hcurrent : t.cursor.current = s.cursor.current := by
        rw [h.joins.current hg, Seam.spell_of_not_delimiter]
        have hkind : s.cursor.current.kind = s.cursor.kind := rfl
        rw [hkind]
        revert hstart
        cases s.cursor.kind with
        | keyword word => cases word <;> first | (intro; rfl) | (intro hs; cases hs)
        | mark sign => cases sign <;> first | (intro; rfl) | (intro hs; cases hs)
        | _ => intro; rfl
      refine .cursor ?_
      rw [hcurrent]
      extract_lets token pos
      -- the literals
      have hplain : ∀ {node : Node}, node.isPlain = true → C.Agree (Sure _) C.SameCode
          (do
            discard Parse.advance
            return [node] : Parse Code)
          (do
            discard Parse.advance
            return [node] : Parse Code) s t := fun hp =>
        .skip h hg fun h₁ => .pure h₁.pair (.cons (C.plain hp) .nil)
      have hkind : token.kind = s.cursor.kind := rfl
      rw [← hkind] at hstart
      cases hk : token.kind with
      | int n => exact hplain rfl
      | float r => exact hplain rfl
      | str text => exact .skip h hg fun h₁ => .stringOperand text pos h₁.pair
      | ident name =>
          refine .skip h hg fun h₁ => ?_
          refine (Agree.mention name pos h₁.pair hs).next fun s₂ t₂ callee callee' h₂ hnode => ?_
          refine .eat h₂.pair rfl (fun _ h₃ => ?_) fun _ => .pure h₂.pair (.cons hnode .nil)
          have hb := Nat.lt_of_le_of_lt (h₂.trans h₃).rest_le hless
          refine (arguments_agree hi hb h₃.pair).next fun s₄ t₄ a b h₄ hab => ?_
          obtain ⟨args, count⟩ := a
          obtain ⟨args', count'⟩ := b
          obtain ⟨hcodes, rfl⟩ := hab
          refine .pure h₄.pair (.append hcodes (.cons ?_ (.cons (C.plain rfl) .nil)))
          exact (h₃.trans h₄).grown.node hnode
      | keyword word =>
          rw [hk] at hstart
          cases word with
          | kwTrue | kwFalse => exact hplain rfl
          | _ => cases hstart
      | mark sign =>
          rw [hk] at hstart
          cases sign with
          | atSign =>
              refine .skip h hg fun h₁ => .expectIdent h₁.pair fun name _ h₂ => ?_
              refine (Agree.mention name _ h₂.pair hs).next fun _ _ _ _ h₃ hnode => ?_
              exact .pure h₃.pair (.cons hnode (.cons (C.plain rfl) .nil))
          | lparen =>
              refine .skip h hg fun h₁ => (hi _ _ h₁.pair hless).next fun _ _ _ _ h₂ hab => ?_
              exact .expected h₂.pair rfl fun _ h₃ => .pure h₃.pair (h₃.codes hab)
          | _ => cases hstart
      | invalid => exact hplain rfl
      | included path => rw [hk] at hstart; cases hstart
      | eof => rw [hk] at hstart; cases hstart

theorem indices_agree (hi : C.Inside s.cursor.rest.length inner inner') {a b : Code}
    (h : C.Pair s t) (hab : C.SameCode s t a b) :
    C.Agree (Sure _) C.SameCode (Parse.indices inner a) (Parse.indices inner' b) s t := by
  refine .repeatSure (I := C.SameCode) (fun s₁ t₁ a b h₁ hab => ?_) h hab
  refine .check rfl h₁.pair (.ite Iff.rfl (fun hc => ?_) fun _ => .pure h₁.pair hab)
  have hkind := Cursor.kind_of_check_mark hc
  have hg := h₁.pair.not_gone (by rw [hkind]; nofun) (by rw [hkind]; nofun)
  have hless := less_of_check hc rfl
  refine .advance h₁.pair hg fun h₂ => ?_
  rw [Seam.spell_pos]
  have hb := Nat.lt_of_lt_of_le hless h₁.rest_le
  refine (hi _ _ h₂.pair hb).next fun s₃ t₃ x y h₃ hxy => .expected h₃.pair rfl fun _ h₄ => ?_
  refine .pure h₄.pair ⟨?_, Nat.lt_of_le_of_lt (h₃.trans h₄).rest_le hless⟩
  exact (((h₂.trans (h₃.trans h₄)).codes hab).append (h₄.codes hxy)).append
    (.cons (C.plain rfl) .nil)

theorem operand_agree (hi : C.Inside s.cursor.rest.length inner inner') (hs : C.scope σ τ)
    (h : C.Pair s t) :
    C.Agree (Sure _) C.SameCode (Parse.operand σ inner) (Parse.operand τ inner') s t := by
  refine (unaryRun_agree h).next fun s₁ t₁ u v h₁ huv => ?_
  refine (primary_agree (hi.mono h₁.rest_le) hs h₁.pair).next fun s₂ t₂ a b h₂ hab => ?_
  refine (indices_agree (hi.mono (h₁.trans h₂).rest_le) h₂.pair hab).next
    fun s₃ t₃ a b h₃ hab => .pure h₃.pair (hab.append ?_)
  exact ((h₂.trans h₃).codes huv).reverse

/-! ## Chains -/

theorem chainRun_agree (hi : C.Inside s.cursor.rest.length inner inner') (hs : C.scope σ τ)
    (h : C.Pair s t) :
    C.Agree (Sure _) C.Links (Parse.chainRun σ inner) (Parse.chainRun τ inner') s t := by
  refine .repeatSure (I := C.Links) (fun s₁ t₁ a b h₁ hab => .kind ?_) h .nil
  cases hop : Operator.binary? s₁.cursor.kind with
  | none =>
      have hright : Operator.binary? t₁.cursor.kind = none := by
        by_cases hg : C.seam.Gone s₁.cursor
        · rcases h₁.joins.gone_kind_right hg with hfront | heof
          · revert hfront
            cases t₁.cursor.kind with
            | keyword word => cases word <;> first | (intro; rfl) | (intro hf; cases hf)
            | _ => intro hf; cases hf
          · rw [heof]
            rfl
        · rw [← hop]
          exact h₁.joins.blind hg Operator.binary? rfl rfl
      rw [hright]
      exact .pure h₁.pair hab
  | some found =>
      obtain ⟨level, kind⟩ := found
      have hg : ¬C.seam.Gone s₁.cursor := h₁.pair.not_gone
        (fun hk => by rw [hk] at hop; cases hop) fun hk => by rw [hk] at hop; cases hop
      have hless : s₁.skip.cursor.rest.length < s₁.cursor.rest.length :=
        skip_less fun hk => by rw [hk] at hop; cases hop
      rw [h₁.joins.blind hg Operator.binary? rfl rfl, hop]
      refine .advance h₁.pair hg fun h₂ => ?_
      rw [Seam.spell_pos]
      refine (operand_agree (hi.mono (h₁.trans h₂).rest_le) hs h₂.pair).next
        fun s₃ t₃ x y h₃ hxy => .pure h₃.pair ⟨?_, Nat.lt_of_le_of_lt h₃.rest_le hless⟩
      refine List.rel_append ((h₂.trans h₃).links hab) (.cons ⟨rfl, ?_, hxy⟩ .nil)
      exact Operator.isPlain_binary hop _

theorem expressionTo_agree (hs : C.scope σ τ) (depth depth' : Nat)
    (hd : s.cursor.rest.length < depth) (hd' : t.cursor.rest.length < depth') (h : C.Pair s t) :
    C.Agree (Sure _) C.SameCode (Parse.expressionTo σ depth) (Parse.expressionTo τ depth') s t := by
  induction depth generalizing depth' s t with
  | zero => exact absurd hd (Nat.not_lt_zero _)
  | succ depth ih =>
      cases depth' with
      | zero => exact absurd hd' (Nat.not_lt_zero _)
      | succ depth' =>
          have hi : C.Inside s.cursor.rest.length (Parse.expressionTo σ depth)
              (Parse.expressionTo τ depth') := by
            intro s₁ t₁ h₁ hless
            have hlength := h.joins.rest_length
            have hlength' := h₁.joins.rest_length
            exact ih depth' (by omega) (by omega) h₁
          refine (operand_agree hi hs h).next fun s₁ t₁ a b h₁ hab => ?_
          refine (chainRun_agree (hi.mono h₁.rest_le) hs h₁.pair).next fun s₂ t₂ x y h₂ hxy => ?_
          exact .pure h₂.pair ((h₂.codes hab).append (chain_codes (by simp) hxy))

theorem expression_agree (hs : C.scope σ τ) (h : C.Pair s t) :
    C.Agree (Sure _) C.SameCode (Parse.expression σ) (Parse.expression τ) s t :=
  .cursor (expressionTo_agree hs _ _ (Nat.lt_succ_self _) (Nat.lt_succ_self _) h)

end Comparison

end SslFrontend
