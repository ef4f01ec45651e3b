import SslFrontend.Proofs.Recovery.Unclosed
import SslFrontend.Proofs.Twin.Same

/-! # A body with and without its `end`

Two streams are read that are the same but for the `end` of one body: the one
has it, and the other has a procedure there, with its qualifiers in front.  Both
runs read the same statements.  Then the run that has the `end` closes the body,
and the other one finds it open, and both go on at the procedure.
-/

namespace SslFrontend

/-! ## Looking ahead -/

open Assignment (afterBrackets? afterTarget? isNext ofKind?)

namespace Assignment

/-- Looking for a closing bracket passes keywords. -/
theorem afterBrackets?_keyword {token : Token} {word : Keyword} (h : token.kind = .keyword word)
    (depth : Nat) (rest : List Token) :
    afterBrackets? depth (token :: rest) = afterBrackets? depth rest := by
  simp only [afterBrackets?, h]

theorem afterBrackets?_keywords {between : List Token}
    (h : ∀ token ∈ between, ∃ word, token.kind = .keyword word) (depth : Nat)
    (rest : List Token) : afterBrackets? depth (between ++ rest) = afterBrackets? depth rest := by
  induction between with
  | nil => rfl
  | cons token between ih =>
      obtain ⟨word, hword⟩ := h token List.mem_cons_self
      rw [List.cons_append, afterBrackets?_keyword hword]
      exact ih fun token ht => h token (List.mem_cons_of_mem _ ht)

variable {left right : List Token}

/-- The bracket stands in front of where two streams part, or behind. -/
theorem afterBrackets?_parted
    (hsame : ∀ depth, afterBrackets? depth right = afterBrackets? depth left) (depth : Nat)
    (tokens : List Token) :
    (∃ more, afterBrackets? depth (tokens ++ left) = some (more ++ left) ∧
      afterBrackets? depth (tokens ++ right) = some (more ++ right)) ∨
    afterBrackets? depth (tokens ++ right) = afterBrackets? depth (tokens ++ left) := by
  induction tokens generalizing depth with
  | nil => exact .inr (hsame depth)
  | cons token tokens ih =>
      rw [List.cons_append, List.cons_append]
      unfold afterBrackets?
      split
      · exact ih (depth + 1)
      · cases depth with
        | zero => exact .inl ⟨tokens, rfl, rfl⟩
        | succ outer => exact ih outer
      · exact .inr rfl
      · exact .inr rfl
      · exact ih depth

/-- Whether an assignment comes next is seen alike in two streams that part at
keywords. -/
theorem isNext_parted {word word' : Keyword}
    (hsame : ∀ depth, afterBrackets? depth right = afterBrackets? depth left)
    (hl : Cursor.headKind left = .keyword word) (hr : Cursor.headKind right = .keyword word')
    (tokens : List Token) : isNext (tokens ++ right) = isNext (tokens ++ left) := by
  have hhead : ∀ {word : Keyword} {behind : List Token}, Cursor.headKind behind = .keyword word →
      ∃ pos more, behind = ⟨.keyword word, pos⟩ :: more := by
    intro word behind h
    cases behind with
    | nil => cases h
    | cons token more =>
        obtain ⟨kind, pos⟩ := token
        have hkind : kind = .keyword word := h
        exact ⟨pos, more, by rw [hkind]⟩
  obtain ⟨pos, more, rfl⟩ := hhead hl
  obtain ⟨pos', more', rfl⟩ := hhead hr
  cases tokens with
  | nil => rfl
  | cons first tokens =>
      obtain ⟨kind, at_⟩ := first
      cases kind with
      | ident name =>
          cases tokens with
          | nil => rfl
          | cons second tokens =>
              obtain ⟨kind, at'⟩ := second
              have hother : ∀ kind : TokenKind, kind ≠ .mark .lbracket → ∀ behind,
                  afterTarget? (⟨.ident name, at_⟩ :: ⟨kind, at'⟩ :: behind) =
                    some (⟨kind, at'⟩ :: behind) := by
                intro kind hk behind
                cases kind with
                | mark sign => cases sign <;> first | rfl | exact absurd rfl hk
                | _ => rfl
              have hbracket : ∀ behind,
                  afterTarget? (⟨.ident name, at_⟩ :: ⟨.mark .lbracket, at'⟩ :: behind) =
                    afterBrackets? 0 behind := fun _ => rfl
              unfold isNext
              simp only [List.cons_append]
              by_cases hk : kind = .mark .lbracket
              · subst hk
                rw [hbracket, hbracket]
                rcases afterBrackets?_parted hsame 0 tokens with ⟨front, h, h'⟩ | h
                · rw [h, h']
                  cases front <;> rfl
                · rw [h]
              · rw [hother kind hk, hother kind hk]
      | _ => rfl

end Assignment

/-! ## Rounds side by side -/

open Parse (Along Leads)

namespace Comparison

variable {C : Comparison} {α β γ δ : Type}

/-- Where rounds of the left run lead without getting lost, those of the right run
lead as well. -/
theorem leads_agree {round : γ → Parse (γ ⊕ α)} {round' : δ → Parse (δ ⊕ β)}
    {I : ParserState → ParserState → γ → δ → Prop} {Q : ParserState → ParserState → α → β → Prop}
    {R : γ ⊕ α → ParserState → Prop} {s t u : ParserState} {a b : γ} {a' : δ}
    (hl : ∀ a s, R (.inl a) s → C.Lost s) (hon : ∀ a, Along ParserState.Onward (round a))
    (hlost : ¬C.Lost u)
    (step : ∀ {s t a a'}, s.Onward u → C.Pair s t → I s t a a' →
      C.Agree R (Agree.RoundPost I Q s) (round a) (round' a') s t)
    (h : Leads round a s b u) (hp : C.Pair s t) (hI : I s t a a') :
    ∃ b' w, Leads round' a' t b' w ∧ C.Later s t u w ∧ I u w b b' := by
  induction h generalizing t a' with
  | refl a s => exact ⟨a', t, .refl a' t, hp.refl, hI⟩
  | @next a a₁ b s s₁ u hround hrest ih =>
      have hs₁ : s.Onward s₁ := by
        have hs := hon a s
        unfold Parse.after at hs
        rwa [hround] at hs
      have hu := hrest.onward hon
      have hagree := step (hs₁.trans hu) hp hI
      unfold Agree at hagree
      rw [hround] at hagree
      rcases hagree with hR | ⟨r, t₁, hr, hlater, hpost⟩
      · exact absurd ((hl a₁ s₁ hR).onward hu) hlost
      · cases r with
        | inr last => exact hpost.elim
        | inl next =>
            obtain ⟨b', w, hleads, hlater', hI'⟩ := ih hlost step hlater.pair hpost.1
            exact ⟨b', w, .next hr hleads, hlater.trans hlater', hI'⟩

/-- Statements of a block are read side by side. -/
theorem blockRounds_leads {inner inner' : Parse Code} {opener : Token} {s t u : ParserState}
    {a b a' : Code} (hb : C.seam.braces = false) (hi : ∀ n, C.Statements n inner inner')
    (hlost : ¬C.Lost u) (h : Leads (Parse.blockRound inner opener) a s b u) (hp : C.Pair s t)
    (ha : C.SameCode s t a a') :
    ∃ b' w, Leads (Parse.blockRound inner' opener) a' t b' w ∧ C.Later s t u w ∧
      C.SameCode u w b b' := by
  have hon := ParserState.Onward.inside none
  have hspell : C.seam.spell opener = opener := by rw [Seam.spell_eq hb, id]
  refine leads_agree (I := C.SameCode) (Q := C.SameBlock) (R := C.LosesRound) (fun _ _ => id)
    (hon.blockRound_along (hi 0).along opener) hlost (fun _ hp haa' => ?_) h hp ha
  have hround : ∀ opener : Token, C.Agree C.LosesRound _ (Parse.blockRound inner opener _)
      (Parse.blockRound inner' (C.seam.spell opener) _) _ _ :=
    fun _ => blockRound_agree (hi _) (fun h => by rw [hb] at h; cases h) hp haa'
  have hround := hround opener
  rwa [hspell] at hround

end Comparison

/-! ## Parted streams -/

/-- Where the `end` of a body is in the one stream only. -/
structure Parting where
  /-- What both have in common in front. -/
  shared : List Token
  closer : Token
  /-- Qualifiers that the other stream has in place of the `end`. -/
  between : List Token
  behind : List Token
  closes : closer.kind = .keyword .kwEnd
  qualifies : ∀ token ∈ between, token.kind.isQualifier = true
  front : Cursor.headKind behind = .keyword .kwProcedure

theorem TokenKind.exists_keyword_of_isQualifier {kind : TokenKind} (h : kind.isQualifier = true) :
    ∃ word, kind = .keyword word ∧ kind.startsItem = true := by
  cases kind with
  | keyword word => cases word <;> first | exact ⟨_, rfl, rfl⟩ | cases h
  | _ => cases h

namespace Parting

variable (P : Parting)

def left : List Token := P.closer :: P.behind

def right : List Token := P.between ++ P.behind

theorem headKind_right : ∃ word, Cursor.headKind P.right = .keyword word ∧
    (Cursor.headKind P.right).startsItem = true := by
  obtain ⟨shared, closer, between, behind, closes, qualifies, front⟩ := P
  cases between with
  | nil => exact ⟨_, front, congrArg TokenKind.startsItem front⟩
  | cons token between =>
      obtain ⟨word, hword, hstarts⟩ :=
        TokenKind.exists_keyword_of_isQualifier (qualifies token List.mem_cons_self)
      exact ⟨word, hword, hstarts⟩

theorem afterBrackets?_right (depth : Nat) :
    afterBrackets? depth P.right = afterBrackets? depth P.left := by
  unfold left right
  rw [Assignment.afterBrackets?_keyword P.closes, Assignment.afterBrackets?_keywords]
  intro token ht
  obtain ⟨word, hword, -⟩ := TokenKind.exists_keyword_of_isQualifier (P.qualifies token ht)
  exact ⟨word, hword⟩

def seam : Seam where
  shared := P.shared
  left := P.left
  right := P.right
  braces := false
  gap := true
  tolerant := false
  wordy := nofun
  joined := nofun
  closer token ht := by
    cases ht
    exact P.closes
  front token ht := by
    obtain ⟨word, -, hstarts⟩ := P.headKind_right
    unfold Cursor.headKind at hstarts
    rwa [Option.mem_def.mp ht] at hstarts

/-- The runs on parted streams, if the right one has reported this before. -/
def variation (before : List Diagnostic) : Variation where
  seam := P.seam
  closed := none
  reports a b := b = before ++ a
  extend hab hcd := by
    rw [Seam.eq_of_alike rfl hcd, hab, List.append_assoc]
  strict := rfl
  ahead {tokens} _ := by
    rw [Seam.spell_eq rfl, List.map_id]
    obtain ⟨word, hright, -⟩ := P.headKind_right
    exact Assignment.isNext_parted P.afterBrackets?_right (congrArg id P.closes) hright tokens
  lists := nofun

/-- Where the left run does not read on beyond the seam and has reported no error
it is not lost. -/
theorem not_lost {before : List Diagnostic} {s : ParserState}
    (hrest : P.left.length ≤ s.cursor.rest.length)
    (hsound : s.cursor.rest.length = P.left.length → ∀ d ∈ s.problems.items, d.isError = false) :
    ¬(P.variation before).comparison.Lost s := by
  rintro (hbeyond | ⟨htolerant | hgone, d, hd, he⟩ | ⟨n, hn, -⟩)
  · exact absurd hbeyond (Nat.not_lt.mpr hrest)
  · cases htolerant
  · have hle : s.cursor.rest.length ≤ P.left.length := hgone.2
    rw [hsound (Nat.le_antisymm hle hrest) d hd] at he
    cases he
  · cases hn

end Parting

/-- The runs from one state with and without the reports before it. -/
def Variation.unreported (shared : List Token) (before : List Diagnostic) : Variation where
  seam := .none shared
  closed := none
  reports a b := a = before ++ b
  extend hab hcd := by
    rw [Seam.eq_of_alike rfl hcd, hab, List.append_assoc]
  strict := none_strict shared
  ahead := @none_ahead shared
  lists := none_lists shared

open Parse (blockRound statement body)

/-- Statements are read side by side in runs that keep the same records. -/
theorem Variation.statements (V : Variation) (context : Context) (n : Nat) :
    V.comparison.Statements n (statement context) (statement context) :=
  ⟨fun hp _ => Comparison.statement_agree rfl rfl hp,
    (ParserState.Onward.inside context.scope).statement_along rfl⟩

/-- The statements of a block are read alike, whatever was reported before. -/
theorem Parse.leads_unreported {context : Context} {opener : Token} {s v : ParserState}
    {code : Code} (h : Leads (blockRound (statement context) opener) [] s code v) :
    ∃ v₀, Leads (blockRound (statement context) opener) [] { s with problems := ⟨[]⟩ } code v₀ ∧
      v₀.cursor.rest = v.cursor.rest ∧ v₀.table = v.table ∧ v₀.ledger = v.ledger ∧
      v₀.pending = v.pending ∧ v.problems.items = s.problems.items ++ v₀.problems.items := by
  let V := Variation.unreported s.cursor.rest s.problems.items
  have hpair : V.comparison.Pair s { s with problems := ⟨[]⟩ } := by
    refine ⟨⟨s.cursor.rest, ?_, ?_, List.suffix_rfl, fun _ => rfl, fun h => absurd rfl h⟩,
      .inl rfl, rfl, rfl, (List.append_nil _).symm⟩
    · exact (List.append_nil _).symm
    · rw [Seam.spell_eq rfl, List.map_id]
      exact (List.append_nil _).symm
  obtain ⟨code', v₀, hleads, hlater, hcodes⟩ := Comparison.blockRounds_leads rfl
    (V.statements context) (V.comparison.not_lost rfl V.strict rfl v) h hpair .nil
  obtain ⟨tokens, hjoins⟩ := hlater.joins
  have hleft : v.cursor.rest = tokens ++ [] := hjoins.left
  have hright : v₀.cursor.rest = tokens.map V.seam.spell ++ [] := hjoins.right
  have hdata : V.Same v.records v₀.records := hlater.grown.data
  have htable : v₀.table = v.table := hdata.table.eq_of_none
  refine ⟨v₀, Variation.codes_eq hcodes ▸ hleads, ?_, htable, hdata.ledger, hdata.pending,
    hdata.problems⟩
  rw [hright, hleft, Seam.spell_eq rfl, List.map_id]

namespace Parting

variable {P : Parting} {scope : ScopeId} {s t v : ParserState} {code : Code}
  {ds : List Diagnostic}

/-- The right run reads the statements of a body as the left one does. -/
theorem leads_right {context : Context} {opener : Token}
    (hp : (P.variation []).comparison.Pair s t)
    (h : Leads (blockRound (statement context) opener) [] s code v)
    (hrest : v.cursor.rest = P.left) (hds : v.problems.items = s.problems.items ++ ds)
    (hsound : ∀ d ∈ ds, d.isError = false) :
    ∃ w, Leads (blockRound (statement context) opener) [] t code w ∧
      w.cursor.rest = P.right ∧ w.table = v.table ∧ w.ledger = v.ledger ∧
      w.pending = v.pending ∧ w.problems = v.problems := by
  obtain ⟨v₀, hleads, hrest₀, htable₀, hledger₀, hpending₀, hproblems₀⟩ := Parse.leads_unreported h
  obtain rfl : v₀.problems.items = ds :=
    List.append_cancel_left (hproblems₀.symm.trans hds)
  let V := P.variation s.problems.items
  have hsame : (P.variation []).Same s.records t.records := hp.data
  have htable : t.table = s.table := hsame.table.eq_of_none
  have hproblems : t.problems.items = s.problems.items := hsame.problems
  have hpair : V.comparison.Pair { s with problems := ⟨[]⟩ } t :=
    ⟨hp.joins, .inl htable, hsame.ledger, hsame.pending,
      hproblems.trans (List.append_nil _).symm⟩
  have hlost : ¬V.comparison.Lost v₀ :=
    P.not_lost (Nat.le_of_eq (by rw [hrest₀, hrest])) fun _ => hsound
  obtain ⟨code', w, hleads', hlater, hcodes⟩ := Comparison.blockRounds_leads rfl
    (V.statements context) hlost hleads hpair .nil
  obtain ⟨tokens, hjoins⟩ := hlater.joins
  have hnil : tokens = [] := by
    have hleft : v₀.cursor.rest = tokens ++ P.left := hjoins.left
    rw [hrest₀, hrest] at hleft
    exact (List.append_cancel_right ((List.nil_append _).trans hleft)).symm
  have hdata : V.Same v₀.records w.records := hlater.grown.data
  have htable' : w.table = v₀.table := hdata.table.eq_of_none
  have hproblems' : w.problems.items = v.problems.items := hdata.problems.trans hproblems₀.symm
  refine ⟨w, Variation.codes_eq hcodes ▸ hleads', ?_, htable'.trans htable₀,
    hdata.ledger.trans hledger₀, hdata.pending.trans hpending₀, congrArg Queue.mk hproblems'⟩
  have hright : w.cursor.rest = tokens.map V.seam.spell ++ P.right := hjoins.right
  rw [hright, hnil]
  rfl

/-- The left run closes the body, and the right one finds it open. -/
theorem body_parts (hp : (P.variation []).comparison.Pair s t)
    (ho : s.cursor.kind = .keyword .kwBegin)
    (h : Leads (blockRound (statement ⟨some scope, false⟩) s.cursor.current) [] s.skip code v)
    (hrest : v.cursor.rest = P.left) (hds : v.problems.items = s.problems.items ++ ds)
    (hsound : ∀ d ∈ ds, d.isError = false) :
    body scope s = .ok ⟨⟩ (v.skip.attached scope code s.cursor.pos v.cursor.pos) ∧
    ∃ (es : List Diagnostic) (u : ParserState),
      body scope t = .error (.unclosed s.cursor.current "block")
        (u.attached scope code s.cursor.pos u.cursor.previousPos) ∧
      t.cursor.Follows u.cursor ∧ t.cursor.position < u.cursor.position ∧
      u.cursor.rest = P.behind ∧ u.table = v.table ∧ u.ledger = v.ledger ∧
      u.pending = v.pending ∧ u.problems.items = v.problems.items ++ es ∧
      (P.between = [] → es = []) := by
  have hgone : ¬P.seam.Gone s.cursor :=
    hp.not_gone (by rw [ho]; nofun) (by rw [ho]; nofun)
  have hcurrent : t.cursor.current = s.cursor.current := by
    have hsame := hp.joins.current hgone
    rwa [Seam.spell_eq rfl, id] at hsame
  have hkind : t.cursor.kind ≠ .eof := by
    rw [Cursor.kind, hcurrent]
    show s.cursor.kind ≠ .eof
    rw [ho]
    nofun
  have hclosed : v.cursor.kind = .keyword .kwEnd := (Cursor.kind_of_rest hrest).trans P.closes
  obtain ⟨w, hleads, hright, htable, hledger, hpending, hproblems⟩ :=
    leads_right (hp.skip hgone).pair h hrest hds hsound
  rw [← hcurrent] at hleads
  obtain ⟨es, u, hbody, hpasses, hnone⟩ := Parse.body_unclosed hleads P.qualifies hright P.front
  have hread : t.skip.cursor.Follows u.cursor := by
    have hon := (ParserState.Onward.inside none).blockRound_along
      ((P.variation []).statements ⟨some scope, false⟩ 0).along t.cursor.current
    refine (hleads.onward hon).cursor.trans ?_
    exact ⟨_, hpasses.reads.rest, hpasses.reads.eof, hpasses.reads.position, hpasses.reads.last⟩
  have hskip : t.skip.cursor.position = t.cursor.position + 1 := Cursor.advance_position hkind
  have hle := hread.position_le
  have hpos : t.cursor.pos = s.cursor.pos := congrArg Token.pos hcurrent
  refine ⟨Parse.body_closes ho h hclosed, es, u, ?_, t.cursor.follows_advance.trans hread,
    by omega, hpasses.reads.rest_eq hright, ?_, ?_, ?_, ?_, hnone⟩
  · rw [hbody, hcurrent, hpos]
  · rw [hpasses.records]
    exact htable
  · rw [hpasses.records]
    exact hledger
  · rw [hpasses.records]
    exact hpending
  · rw [hpasses.records, ← hproblems]

end Parting

end SslFrontend
