import SslFrontend.Proofs.Twin.Expression

/-! # Declarations side by side

Two runs read the same declaration and declare alike variables.  Here the left
run can get lost: a name may be taken on the right, a block of variables may end
behind the seam, and qualifiers may go on there.
-/

namespace SslFrontend

/-- The qualifier that a kind is. -/
def TokenKind.qualifier? : TokenKind → Option Qualifier
  | .keyword word => Qualifier.ofKeyword? word
  | _ => none

theorem Parse.expression_eq_error {scope : Option ScopeId} {s : ParserState}
    (hu : Operator.unary? s.cursor.kind = none) (hp : s.cursor.kind.startsPrimary = false) :
    Parse.expression scope s = .error (.noExpression s.cursor.current) s := by
  have hskip : (s.cursor.skipWhile fun token => (Operator.unary? token.kind).isSome) = s.cursor := by
    have hnone : (s.cursor.rest.takeWhile fun token => (Operator.unary? token.kind).isSome) = [] := by
      cases hrest : s.cursor.rest with
      | nil => rfl
      | cons token more =>
          have hkind : s.cursor.kind = token.kind := Cursor.kind_of_rest hrest
          rw [hkind] at hu
          simp [hu]
    unfold Cursor.skipWhile
    simp only [hnone]
    simp
  have hbind : ∀ {α β : Type} (p : Parse α) (k : α → Parse β) (s : ParserState),
      (p >>= k) s = EStateM.bind p k s := fun _ _ _ => rfl
  obtain ⟨code, hrun⟩ : ∃ code, Parse.unaryRun s = .ok code { s with
      cursor := s.cursor.skipWhile fun token => (Operator.unary? token.kind).isSome } := ⟨_, rfl⟩
  rw [hskip] at hrun
  have hoperand : ∀ inner, Parse.operand scope inner s =
      .error (.noExpression s.cursor.current) s := by
    intro inner
    unfold Parse.operand
    rw [hbind, EStateM.bind, hrun]
    show (Parse.primary scope inner >>= _) s = _
    rw [hbind, EStateM.bind, Parse.primary_eq_error hp]
  show (Parse.operand scope _ >>= _) s = _
  rw [hbind, EStateM.bind, hoperand]

theorem Parse.of_attempt_ok {α : Type} {p : Parse α} {s s' : ParserState} {a : α}
    (h : Parse.attempt p s = .ok (.ok a) s') : p s = .ok a s' := by
  unfold Parse.attempt at h
  cases hp : p s with
  | ok b u => rw [hp] at h; cases h; rfl
  | error e u => rw [hp] at h; cases h

theorem Parse.of_attempt_error {α : Type} {p : Parse α} {s s' : ParserState} {e : ParseError}
    (h : Parse.attempt p s = .ok (.error e) s') : p s = .error e s' := by
  unfold Parse.attempt at h
  cases hp : p s with
  | ok b u => rw [hp] at h; cases h
  | error f u => rw [hp] at h; cases h; rfl

namespace Comparison

variable {C : Comparison} {s t s' t' : ParserState} {σ τ : Option ScopeId}

/-- At the seam there is no expression. -/
theorem expression_gone (h : C.Pair s t) (hg : C.seam.Gone s.cursor) :
    Parse.expression σ s = .error (.noExpression s.cursor.current) s := by
  rcases h.joins.gone_kind hg with ⟨hk, -⟩ | hk
  · exact Parse.expression_eq_error (by rw [hk]; rfl) (by rw [hk]; rfl)
  · exact Parse.expression_eq_error (by rw [hk]; rfl) (by rw [hk]; rfl)

/-- Both see the same kind but for the spelling of delimiters. -/
theorem Pair.check (h : C.Pair s t) (hg : ¬C.seam.Gone s.cursor) {kind : TokenKind}
    (hk : kind.isDelimiter = false) : t.cursor.check kind = s.cursor.check kind :=
  h.joins.check hg hk

/-- Neither sees a closer where the left run sees none. -/
theorem Pair.check_gone_keyword (h : C.Pair s t) (hg : C.seam.Gone s.cursor) (word : Keyword)
    (hw : word ≠ .kwEnd) : s.cursor.check (.keyword word) = false := by
  refine Cursor.check_keyword fun hk => ?_
  rcases h.joins.gone_kind hg with ⟨hend, -⟩ | heof
  · rw [hend] at hk
    exact hw (by simpa using hk.symm)
  · rw [heof] at hk
    cases hk

open Agree (less_of_check)
open Parse (Along)

/-! ## Qualifiers -/

/-- Both answer with the same. -/
def Same {α : Type} : ParserState → ParserState → α → α → Prop := fun _ _ a b => b = a

/-- What a round of the qualifiers does with what it finds. -/
def qualifierRead (q : Qualifiers) : Option Qualifier → Parse (Qualifiers ⊕ Qualifiers)
  | some qualifier => do
    let pos := (← Parse.advance).pos
    if q.modifiers.has qualifier then
      Parse.report (.warning .repeatedQualifier s!"duplicate `{qualifier.word}` qualifier" pos
        "already given")
    return .inl ⟨q.written ++ [(qualifier, pos)]⟩
  | none => return .inr q

/-- The left run ends at the seam. -/
def Stops (C : Comparison) (α : Type) : α → ParserState → Prop := fun _ s =>
  C.seam.Gone s.cursor ∧ ∃ t, C.Pair s t

theorem qualifierRound_eq (q : Qualifiers) (s : ParserState) :
    Parse.qualifierRound q s = qualifierRead q s.cursor.kind.qualifier? s := by
  have hlook : ∀ k : TokenKind → Parse (Qualifiers ⊕ Qualifiers),
      (Parse.kind >>= k) s = k s.cursor.kind s := fun _ => rfl
  unfold Parse.qualifierRound TokenKind.qualifier?
  rw [hlook]
  cases s.cursor.kind with
  | keyword word => rfl
  | _ => rfl

theorem qualifiers_agree (h : C.Pair s t) :
    C.Agree (C.Stops _) Same Parse.qualifiers Parse.qualifiers s t := by
  refine .repeatRounds (I := Same) (Sum.elim (fun _ _ => False) (C.Stops _)) (fun _ _ => id)
    (fun _ _ _ h => h.elim) (fun s₁ t₁ q q' h₁ hq => ?_) h rfl
  cases hq
  refine .via h₁.pair.refl (qualifierRound_eq q s₁) (qualifierRound_eq q t₁) ?_
  cases hfound : s₁.cursor.kind.qualifier? with
  | none =>
      by_cases hg : C.seam.Gone s₁.cursor
      · exact .inl ⟨hg, t₁, h₁.pair⟩
      · rw [h₁.joins.blind hg TokenKind.qualifier? rfl rfl, hfound]
        exact .pure h₁.pair rfl
  | some qualifier =>
      have hg : ¬C.seam.Gone s₁.cursor := h₁.pair.not_gone
        (fun hk => by rw [hk] at hfound; cases hfound) fun hk => by rw [hk] at hfound; cases hfound
      have hless : s₁.skip.cursor.rest.length < s₁.cursor.rest.length :=
        skip_less fun hk => by rw [hk] at hfound; cases hfound
      rw [h₁.joins.blind hg TokenKind.qualifier? rfl rfl, hfound]
      refine .advance h₁.pair hg fun h₂ => ?_
      rw [Seam.spell_pos]
      refine .ite Iff.rfl (fun _ => ?_) fun _ => .pure h₂.pair ⟨rfl, hless⟩
      exact .report h₂.pair (.refl rfl) fun h₃ =>
        .pure h₃.pair ⟨rfl, Nat.lt_of_le_of_lt h₃.rest_le hless⟩

/-! ## Scopes, lengths and initial values -/

variable {context context' : Context}

theorem alike_self {ds : List Diagnostic} (h : ∀ d ∈ ds, d.Early) :
    List.Forall₂ C.seam.Alike ds ds :=
  List.forall₂_same.mpr fun d hd => .refl (h d hd)

/-- Nothing is read for the scope. -/
theorem declaredScope_agree (hs : C.scope context.scope context'.scope) (q : Qualifiers)
    (h : C.Pair s t) :
    C.Agree (Sure _) (fun s₁ _ a b => b = a ∧ s₁.cursor = s.cursor)
      (Parse.declaredScope context q) (Parse.declaredScope context' q) s t := by
  have hsome := C.nested hs
  unfold Parse.declaredScope
  cases hc : context.scope with
  | some scope =>
      rw [hc] at hsome
      obtain ⟨scope', hc'⟩ := Option.isSome_iff_exists.mp hsome
      rw [hc']
      exact .reportAll h (alike_self (q.misplaced_early _ _)) fun h₁ => .pure h₁.pair ⟨rfl, rfl⟩
  | none =>
      rw [hc] at hsome
      have hc' : context'.scope = none := by simpa using hsome
      rw [hc']
      refine .reportAll h (alike_self (q.misplaced_early _ _)) fun h₁ => ?_
      refine .ite Iff.rfl (fun hconflict => .pos ?_) fun _ => .pure h₁.pair ⟨rfl, rfl⟩
      obtain ⟨written⟩ := q
      -- where qualifiers conflict there is one, and its place is reported
      cases written with
      | nil => cases hconflict
      | cons first rest => exact .report h₁.pair (.refl rfl) fun h₂ => .pure h₂.pair ⟨rfl, rfl⟩

theorem arrayLength_agree (h : C.Pair s t) :
    C.Agree (Sure _) Same Parse.arrayLength Parse.arrayLength s t := by
  refine .eat h rfl (fun _ h₁ => .cursor ?_) fun _ => .pure h rfl
  generalize s.skip = s, t.skip = t at h₁
  have hthrow : ∀ {α : Type} {L : α → ParserState → Prop}
      {Q : ParserState → ParserState → α → α → Prop},
      C.Agree L Q (throw (Parse.arrayLength.noLength s.cursor) : Parse α)
        (throw (Parse.arrayLength.noLength t.cursor) : Parse α) s t :=
    .throwAt h₁.pair (fun token => ⟨.unexpectedToken,
      s!"array length must be a non-negative integer literal, found `{token.kind.friendlyName}`",
      token.pos, some "expected array length", []⟩) (fun _ => rfl) (fun _ _ => rfl) fun _ => rfl
  by_cases hint : ∃ n, s.cursor.kind = .int n
  · obtain ⟨n, hk⟩ := hint
    have hg := h₁.pair.not_gone (by rw [hk]; nofun) (by rw [hk]; nofun)
    rw [h₁.joins.kind_eq hg (by rw [hk]; rfl), hk, h₁.joins.pos hg]
    refine .ite Iff.rfl (fun _ => ?_) fun _ => .ite Iff.rfl (fun _ => hthrow) fun _ =>
      .raise h₁.pair (.refl rfl)
    exact .skip h₁.pair hg fun h₂ => .expected h₂.pair rfl fun _ h₃ => .pure h₃.pair rfl
  · have hleft : ∀ n, s.cursor.kind ≠ .int n := fun n hk => hint ⟨n, hk⟩
    refine .errors (e := Parse.arrayLength.noLength s.cursor)
      (f := Parse.arrayLength.noLength t.cursor) h₁.pair ?_ fun hg => ⟨?_, ?_⟩
    · revert hleft
      cases s.cursor.kind with
      | int n => exact fun h => absurd rfl (h n)
      | _ => exact fun _ => rfl
    · have hright : ∀ n, t.cursor.kind ≠ .int n := fun n hk =>
        hleft n (h₁.joins.kind_of_right hg hk rfl)
      revert hright
      cases t.cursor.kind with
      | int n => exact fun h => absurd rfl (h n)
      | _ => exact fun _ => rfl
    · exact h₁.joins.alikeErrors hg (fun token => ⟨.unexpectedToken,
        s!"array length must be a non-negative integer literal, found `{token.kind.friendlyName}`",
        token.pos, some "expected array length", []⟩) (fun _ => rfl) (fun _ _ => rfl) fun _ => rfl

/-- Both read an initial value, alike and at one place, or neither does. -/
def SameInitial (C : Comparison) (s t : ParserState) :
    Option (Code × Position) → Option (Code × Position) → Prop :=
  Option.Rel fun a b => C.Codes s.records t.records a.1 b.1 ∧ b.2 = a.2

theorem initializer_agree (hs : C.scope σ τ) (h : C.Pair s t) :
    C.Agree (Sure _) C.SameInitial (Parse.initializer σ) (Parse.initializer τ) s t := by
  have hvalue : ∀ {s t : ParserState}, C.Pair s t → C.Agree (Sure _) C.SameInitial
      (do
        let pos ← Parse.pos
        return some (← Parse.expression σ, pos) : Parse (Option (Code × Position)))
      (do
        let pos ← Parse.pos
        return some (← Parse.expression τ, pos) : Parse (Option (Code × Position))) s t := by
    intro s t h
    by_cases hg : C.seam.Gone s.cursor
    · refine .gone (e := .noExpression s.cursor.current) (u := s) ?_ (.refl _) hg
      show EStateM.bind (Parse.expression σ) _ s = _
      rw [EStateM.bind, expression_gone h hg]
    · refine .pos ?_
      rw [h.joins.pos hg]
      exact (expression_agree hs h).next fun _ _ _ _ h₁ hab => .pure h₁.pair (.some ⟨hab, rfl⟩)
  refine .eat h rfl (fun _ h₁ => hvalue h₁.pair) fun _ => ?_
  exact .eat h rfl (fun _ h₁ => hvalue h₁.pair) fun _ => .pure h .none

theorem setInitial_agree {a b : Symbol} {code code' : Code} (kind : VarScope) (length : Nat)
    (name : String) (pos start : Position) (h : C.Pair s t)
    (hsymbol : C.symbol s.records t.records a b) (hcode : C.SameCode s t code code') :
    C.Agree (Sure _) C.SameCode (Parse.setInitial a kind length name pos code start)
      (Parse.setInitial b kind length name pos code' start) s t := by
  unfold Parse.setInitial
  refine .ite Iff.rfl (fun _ => ?_) fun _ => ?_
  · exact .report h (.refl rfl) fun h₁ => .pure h₁.pair .nil
  have hconstant := C.constant hcode
  generalize hv : code.constant? = v, hw : code'.constant? = w at hconstant
  cases hconstant with
  | some hvalue =>
      exact (Agree.modifyVariable h (C.setValue h.data hsymbol hvalue)).next
        fun _ _ _ _ h₁ _ => .pure h₁.pair .nil
  | none =>
      refine .ite Iff.rfl (fun _ => ?_) fun _ => ?_
      · refine (Agree.modifyVariable h (C.setInitialized h.data hsymbol)).next
          fun _ _ _ _ h₁ _ => .pure h₁.pair ((h₁.codes hcode).append ?_)
        exact .cons (C.symbolNode pos (h₁.grown.symbol hsymbol)) (.cons (C.plain rfl) .nil)
      · exact .report h (.refl rfl) fun h₁ => .pure h₁.pair .nil

/-! ## Variables -/

theorem variableItem_agree (hs : C.scope context.scope context'.scope) (kind : VarScope)
    (h : C.Pair s t) :
    C.Agree (C.MayLose _) C.SameCode (Parse.variableItem context kind)
      (Parse.variableItem context' kind) s t := by
  refine .expectIdent h fun name _ h₁ => ?_
  refine (Agree.declareVariable kind name s.cursor.pos h₁.pair hs).onward (fun declared => ?_)
    fun s₂ t₂ a b h₂ hab => ?_
  · exact ParserState.Onward.declaredItem_along context kind name s.cursor.pos declared
  · refine (arrayLength_agree h₂.pair).next fun s₃ t₃ length _ h₃ hlength => ?_
    cases hlength
    refine (initializer_agree hs h₃.pair).next fun s₄ t₄ init init' h₄ hinit => ?_
    cases hab with
    | none => exact .pure h₄.pair .nil
    | some hsymbol =>
        have hsymbol := (h₃.trans h₄).grown.symbol hsymbol
        refine (Agree.modifyVariable h₄.pair (C.setLength length h₄.grown.data hsymbol)).next
          fun s₅ t₅ _ _ h₅ _ => ?_
        cases hinit with
        | none => exact .pure h₅.pair .nil
        | @some found found' hfound =>
            obtain ⟨code, start⟩ := found
            obtain ⟨code', start'⟩ := found'
            obtain ⟨hcode, rfl⟩ := hfound
            exact (setInitial_agree kind length name s.cursor.pos _ h₅.pair
              (h₅.grown.symbol hsymbol) (h₅.codes hcode)).sure

theorem variableBlock_agree (hs : C.scope context.scope context'.scope) (kind : VarScope)
    (opener : Token) (hbraces : C.seam.braces = false) (h : C.Pair s t) :
    C.Agree (C.MayLose _) C.SameCode (Parse.variableBlock context kind opener)
      (Parse.variableBlock context' kind opener) s t := by
  have hon := ParserState.Onward.inside context.scope
  have halong : ∀ code : Code, Along ParserState.Onward (do
      if ← Parse.eat (.keyword .kwEnd) then return .inr code
      let c ← Parse.cursor
      if c.atEnd || c.check (.keyword .kwProcedure) then
        throw (.unclosed opener "variable block")
      let item ← Parse.variableItem context kind
      discard <| Parse.expect (.mark .semicolon)
      return .inl (code ++ item) : Parse (Code ⊕ Code)) := by
    refine fun code => .bind hon (hon.eat _) fun _ => .ite (.pure hon _) ?_
    refine .bind hon hon.cursor fun _ => .ite (.throw hon _) ?_
    exact .bind hon (hon.variableItem_along rfl kind) fun _ =>
      .bind hon (.discard (hon.expect _)) fun _ => .pure hon _
  refine .repeatOnward (I := C.SameCode) halong (fun s₁ t₁ a b h₁ hab => ?_) h .nil
  by_cases hg : C.seam.Gone s₁.cursor
  · -- the block would end behind the seam, or not at all
    refine .escape ?_
    unfold Escapes
    rcases h₁.joins.gone_kind hg with ⟨hk, hbeyond⟩ | hk
    · have heat : Parse.eat (.keyword .kwEnd) s₁ = .ok true s₁.skip := by
        rw [Parse.eat_eq, if_pos (Cursor.check_of_kind hk)]
      rw [Parse.bind_ok heat]
      exact .inl hbeyond
    · have heat : Parse.eat (.keyword .kwEnd) s₁ = .ok false s₁ := by
        rw [Parse.eat_eq, if_neg]
        have hnone : s₁.cursor.check (.keyword .kwEnd) = false :=
          Cursor.check_keyword (by rw [hk]; nofun)
        simp [hnone]
      have hend : (s₁.cursor.atEnd || s₁.cursor.check (.keyword .kwProcedure)) = true := by
        simp [Cursor.atEnd, hk]
      have hlook : ∀ {α : Type} (k : Cursor → Parse α),
          (Parse.cursor >>= k) s₁ = k s₁.cursor s₁ := fun _ => rfl
      rw [Parse.bind_ok heat, if_neg (by simp), hlook, if_pos hend]
      exact .of_gone hg
  · have hcurrent : t₁.cursor.current = s₁.cursor.current := by
      rw [h₁.joins.current hg, Seam.spell_eq hbraces, id]
    have hcheck : ∀ kind, t₁.cursor.check kind = s₁.cursor.check kind := by
      intro kind
      unfold Cursor.check Cursor.kind
      rw [hcurrent]
    refine .eatAt h₁.pair (hcheck _) (fun _ => hg) (fun _ h₂ => .pure h₂.pair (h₂.codes hab))
      fun _ => .cursor ?_
    rw [h₁.joins.atEnd hg, hcheck]
    refine .ite Iff.rfl (fun _ => .errors h₁.pair rfl fun _ => ⟨rfl, .refl rfl⟩) fun _ => ?_
    refine (variableItem_agree hs kind h₁.pair).onward (fun item => ?_) fun s₂ t₂ x y h₂ hxy => ?_
    · exact .bind hon (.discard (hon.expect _)) fun _ => .pure hon _
    · refine .expected h₂.pair rfl fun hc h₃ => .pure h₃.pair ⟨?_, ?_⟩
      · exact ((h₂.trans h₃).codes hab).append (h₃.codes hxy)
      · exact Nat.lt_of_lt_of_le (less_of_check hc rfl) h₂.rest_le

/-- Tokens that recovery from a malformed variable passes are passed in any
spelling. -/
theorem passes_spell_declaration {token : Token}
    (h : Cursor.passes .declarationBoundary token = true) :
    Cursor.passes .declarationBoundary (C.seam.spell token) = true := by
  unfold Cursor.passes at h ⊢
  rw [Seam.spell_kind]
  split
  · revert h
    cases token.kind with
    | keyword word => cases word <;> first | exact id | (intro; decide)
    | _ => exact id
  · exact h

/-- Where it stops, it stops in any spelling but that of an `end`. -/
theorem stops_spell_declaration {token : Token}
    (h : Cursor.passes .declarationBoundary token = false)
    (hend : C.seam.braces = true → token.kind ≠ .keyword .kwEnd) :
    Cursor.passes .declarationBoundary (C.seam.spell token) = false := by
  unfold Cursor.passes at h ⊢
  rw [Seam.spell_kind]
  split
  · have hne := hend ‹_›
    revert h hne
    cases token.kind with
    | keyword word => cases word <;> first | exact fun h _ => h | exact fun _ hne => absurd rfl hne
    | _ => exact fun h _ => h
  · exact h

theorem variableList_agree (hs : C.scope context.scope context'.scope) (kind : VarScope)
    (hlist : C.seam.braces = true → ¬Parse.ListStrays context kind s) (h : C.Pair s t) :
    C.Agree (C.MayLose _) C.SameCode (Parse.variableList context kind)
      (Parse.variableList context' kind) s t := by
  have hon := ParserState.Onward.inside context.scope
  have halongComma : ∀ code : Code, Along ParserState.Onward (do
      if ← Parse.eat (.mark .comma) then return .inl code else return .inr code :
        Parse (Code ⊕ Code)) :=
    fun code => .bind hon (hon.eat _) fun _ => .ite (.pure hon _) (.pure hon _)
  let I : ParserState → ParserState → Code → Code → Prop := fun s t a b =>
    C.SameCode s t a b ∧ (C.seam.braces = true → ¬Parse.ListStrays context kind s)
  have hcomma : ∀ {s₁ s t : ParserState} {a b : Code}, C.Pair s t → C.SameCode s t a b →
      s.cursor.rest.length ≤ s₁.cursor.rest.length →
      (s.cursor.check (.mark .comma) = true → C.seam.braces = true →
        ¬Parse.ListStrays context kind s.skip) →
      C.Agree (C.MayLose _) (Agree.RoundPost I C.SameCode s₁)
        (do if ← Parse.eat (.mark .comma) then return .inl a else return .inr a :
          Parse (Code ⊕ Code))
        (do if ← Parse.eat (.mark .comma) then return .inl b else return .inr b :
          Parse (Code ⊕ Code)) s t := fun hp hab hle hnext =>
    .eat hp rfl
      (fun hc h₁ => .pure h₁.pair
        ⟨⟨h₁.codes hab, hnext hc⟩, Nat.lt_of_lt_of_le (less_of_check hc rfl) hle⟩)
      fun _ => .pure hp hab
  refine .repeatOnward (I := I) (fun code => ?_) (fun s₁ t₁ a b h₁ hI => ?_) h ⟨.nil, hlist⟩
  · refine .bind hon (hon.variableItem_along rfl kind).attempt fun found => ?_
    cases found with
    | ok item => exact halongComma _
    | error e =>
        exact .bind hon (hon.reported _) fun _ =>
          .bind hon (hon.moveCursor fun c => c.follows_synchronize _) fun _ => halongComma _
  refine (variableItem_agree hs kind h₁.pair).attempt.bind
    (fun s₂ t₂ r r' hrun h₂ hout => ?_) fun r s₂ hr => ?_
  · cases r with
    | ok item => cases r' with
      | error f => exact hout.elim
      | ok item' =>
          refine hcomma h₂.pair ((h₂.codes hI.1).append hout) h₂.rest_le fun hc hb hstray => ?_
          exact hI.2 hb (.next (Parse.of_attempt_ok hrun) hc hstray)
    | error e => cases r' with
      | ok item' => exact hout.elim
      | error f =>
          have hitem := Parse.of_attempt_error hrun
          refine .report h₂.pair hout.diagnostic fun h₃ => ?_
          refine .synchronized h₃.pair ⟨e.diagnostic, by simp [Queue.push], rfl⟩
            (fun _ => passes_spell_declaration) (fun token ht => ?_) (halongComma _) fun h₄ => ?_
          · have hhead : (s₂.cursor.synchronize .declarationBoundary).rest.head? = some token := ht
            obtain ⟨more, hmore⟩ := List.head?_eq_some_iff.mp hhead
            refine stops_spell_declaration (s₂.cursor.skipWhile_stops _ hmore) fun hb hend => ?_
            exact hI.2 hb (.here hitem ((Cursor.kind_of_rest hmore).trans hend))
          · refine hcomma h₄.pair (((h₂.trans h₃).trans h₄).codes hI.1)
              (h₂.trans (h₃.trans h₄)).rest_le fun hc hb hstray => ?_
            exact hI.2 hb (.recovered hitem hc hstray)
  · cases r with
    | ok item => exact Lost.escapes hr (halongComma _)
    | error e =>
        refine Agree.escape_report hr rfl (.bind hon ?_ fun _ => halongComma _)
        exact hon.moveCursor fun c => c.follows_synchronize _

/-- Where delimiters are spelled otherwise, the left run reads nothing but what
both have in common. -/
theorem Pair.common (h : C.Pair s t) (hb : C.seam.braces = true) :
    s.cursor.rest <:+ C.seam.shared := by
  obtain ⟨tokens, hj⟩ := h.joins
  rw [hj.left, (C.seam.joined (C.seam.wordy hb).1).1, List.append_nil]
  exact hj.suffix

/-- A token in front of the end of the input. -/
theorem rest_of_kind (h : s.cursor.kind ≠ .eof) :
    s.cursor.rest = s.cursor.current :: s.skip.cursor.rest := by
  obtain ⟨⟨rest, eof, position, last⟩, table, ledger, pending, problems⟩ := s
  cases rest with
  | nil => exact absurd rfl h
  | cons token more =>
      have hkind : token.kind ≠ .eof := h
      simp [ParserState.skip, Cursor.advance, Cursor.current, hkind]

/-- Where delimiters are spelled otherwise, the left run sees no brace. -/
theorem Pair.noBrace (h : C.Pair s t) (heof : s.cursor.kind ≠ .eof) (hb : C.seam.braces = true) :
    s.cursor.kind ≠ .mark .lbrace ∧ s.cursor.kind ≠ .mark .rbrace := by
  have hsuffix := h.common hb
  rw [rest_of_kind heof] at hsuffix
  exact (C.seam.wordy hb).2.noBrace _ (hsuffix.subset List.mem_cons_self)

/-- Both read the `begin` of a block of variables or neither does. -/
theorem opensVariables (h : C.Pair s t) (hk : s.cursor.kind = .keyword .kwVariable)
    (h₁ : C.Later s t s.skip t.skip) :
    t.skip.cursor.check (.keyword .kwBegin) = s.skip.cursor.check (.keyword .kwBegin) ∧
      (s.skip.cursor.check (.keyword .kwBegin) = true →
        ¬C.seam.Gone s.skip.cursor ∧ C.seam.braces = false) := by
  by_cases hg : C.seam.Gone s.skip.cursor
  · have hleft := h₁.pair.check_gone_keyword hg .kwBegin (by simp)
    have hright : t.skip.cursor.check (.keyword .kwBegin) = false := by
      refine Cursor.check_keyword fun hbegin => ?_
      rcases h₁.joins.gone_kind_right hg with hfront | heof
      · rw [hbegin] at hfront
        cases hfront
      · rw [hbegin] at heof
        cases heof
    rw [hleft, hright]
    exact ⟨rfl, (by simp)⟩
  · cases hb : C.seam.braces with
    | false =>
        have hcurrent := h₁.joins.current hg
        rw [Seam.spell_eq hb, id] at hcurrent
        refine ⟨?_, fun _ => ⟨hg, rfl⟩⟩
        unfold Cursor.check Cursor.kind
        rw [hcurrent]
    | true =>
        -- no variable is followed by a `begin`, and a brace is none
        have hleft : s.skip.cursor.check (.keyword .kwBegin) = false := by
          refine Cursor.check_keyword fun hbegin => ?_
          have hrest := rest_of_kind (s := s) (by rw [hk]; simp)
          rw [rest_of_kind (s := s.skip) (by rw [hbegin]; simp)] at hrest
          have hpair : [s.cursor.current, s.skip.cursor.current] <:+: C.seam.shared :=
            (List.prefix_append _ s.skip.skip.cursor.rest).isInfix.trans
              (hrest ▸ h.common hb).isInfix
          exact (C.seam.wordy hb).2.noVariables _ _ hpair hk hbegin
        have hright : t.skip.cursor.check (.keyword .kwBegin) = false := by
          refine Cursor.check_keyword fun hbegin => ?_
          have hkind := h₁.joins.kind hg
          rw [hbegin, Seam.spell_kind, if_pos hb] at hkind
          revert hkind
          cases s.skip.cursor.current.kind with
          | keyword word => cases word <;> nofun
          | _ => nofun
        rw [hleft, hright]
        exact ⟨rfl, (by simp)⟩

/-- A declaration in front of the seam. -/
theorem variableDeclaration_agree (hs : C.scope context.scope context'.scope) (q : Qualifiers)
    (hk : s.cursor.kind = .keyword .kwVariable) (h : C.Pair s t) :
    C.Agree (C.MayLose _) C.SameCode (Parse.variableDeclaration context q)
      (Parse.variableDeclaration context' q) s t := by
  refine (declaredScope_agree hs q h).next fun s₁ t₁ kind _ h₁ hkind => ?_
  obtain ⟨rfl, hcursor⟩ := hkind
  have hk₁ : s₁.cursor.kind = .keyword .kwVariable := by rw [hcursor, hk]
  have hg := h₁.pair.not_gone (by rw [hk₁]; nofun) (by rw [hk₁]; nofun)
  refine .advance h₁.pair hg fun h₂ => ?_
  rw [Seam.spell_of_not_delimiter (show s₁.cursor.kind.isDelimiter = false by rw [hk₁]; rfl)]
  obtain ⟨hsame, hbegin⟩ := opensVariables h₁.pair hk₁ h₂
  refine .eatAt h₂.pair hsame (fun hc => (hbegin hc).1) (fun hc h₃ => ?_) fun _ => ?_
  · exact variableBlock_agree hs _ _ (hbegin hc).2 h₃.pair
  · have hon := ParserState.Onward.inside context.scope
    refine (variableList_agree hs _ (fun hb => ?_) h₂.pair).onward (fun code => ?_)
      fun s₃ t₃ a b h₃ hab => ?_
    · refine C.lists hb hk₁ ?_
      rw [← rest_of_kind (by rw [hk₁]; nofun)]
      exact h₁.pair.common hb
    · exact .bind hon (.discard (hon.expect _)) fun _ => .pure hon _
    · exact .expected h₃.pair rfl fun _ h₄ => .pure h₄.pair (h₄.codes hab)

end Comparison

end SslFrontend
