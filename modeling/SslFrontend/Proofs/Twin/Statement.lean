import SslFrontend.Proofs.Twin.Declaration

/-! # Statements side by side

Two runs read the same statement.  A block of the left run that is open at the
seam either closes behind it, and then that run is lost, or fails there.  A
malformed statement is skipped in both runs to one and the same place, or in the
left run beyond the seam.
-/

namespace SslFrontend

theorem Assignment.isPlain_compound {kind : TokenKind} {op : NodeKind}
    (h : ofKind? kind = some (.compound op)) (pos : Position) :
    (Node.op op pos).isPlain = true := by
  unfold ofKind? at h
  split at h <;> cases h <;> rfl

theorem Assignment.isPlain_step {kind : TokenKind} {op : NodeKind}
    (h : ofKind? kind = some (.step op)) (pos : Position) : (Node.op op pos).isPlain = true := by
  unfold ofKind? at h
  split at h <;> cases h <;> rfl

namespace Comparison

variable {C : Comparison} {s t s' t' : ParserState} {σ τ : Option ScopeId} {bound : Nat}

open Agree (less_of_check)
open Parse (Along)

/-! ## Places -/

/-- Once something was read, both read the same last. -/
theorem Later.previousPos (h : C.Later s t s' t') (hp : C.Pair s t)
    (hless : s'.cursor.rest.length < s.cursor.rest.length) :
    t'.cursor.previousPos = s'.cursor.previousPos := by
  obtain ⟨before, hb⟩ := hp.joins
  obtain ⟨tokens, hj⟩ := h.joins
  have hlast : t'.cursor.last? = s'.cursor.last? := by
    refine hj.last fun heq => ?_
    have hle := hb.suffix.length_le
    rw [hj.left, hb.left, heq, List.length_append, List.length_append] at hless
    omega
  have hsome : s'.cursor.last?.isSome = true := by
    obtain ⟨taken, hrest, -, -, hl⟩ := h.left
    cases htaken : taken.getLast? with
    | none =>
        rw [List.getLast?_eq_none_iff.mp htaken] at hrest
        rw [hrest] at hless
        exact absurd hless (Nat.lt_irrefl _)
    | some token => rw [hl, htaken]; rfl
  obtain ⟨pos, hpos⟩ := Option.isSome_iff_exists.mp hsome
  unfold Cursor.previousPos
  rw [hlast, hpos]
  rfl

/-- Both have read something or neither has. -/
theorem Later.position_iff (h : C.Later s t s' t') (hp : C.Pair s t) :
    t'.cursor.position = t.cursor.position ↔ s'.cursor.position = s.cursor.position := by
  have hs := h.left.rest_length
  have ht := h.right.rest_length
  have hj := hp.joins.rest_length
  have hj' := h.joins.rest_length
  omega

/-! ## Assignments -/

/-- Both read an index, alike, or neither does. -/
def SameIndex (C : Comparison) (s t : ParserState) : Option Code → Option Code → Prop :=
  Option.Rel (C.SameCode s t)

theorem Later.index (h : C.Later s t s' t') {i j : Option Code} (hij : C.SameIndex s t i j) :
    C.SameIndex s' t' i j := by
  cases hij with
  | none => exact .none
  | some hcodes => exact .some (h.codes hcodes)

theorem targetValue_codes {a b : Node} {i j : Option Code} (hab : C.SameNode s t a b)
    (hij : C.SameIndex s t i j) (pos : Position) :
    C.SameCode s t (Assignment.targetValue a i pos) (Assignment.targetValue b j pos) := by
  cases hij with
  | none => exact .cons hab .nil
  | some hcodes =>
      exact .cons hab (Likeness.Codes.append hcodes (.cons (C.plain rfl) .nil))

theorem targetStore_codes {a b : Node} {i j : Option Code} (hab : C.SameNode s t a b)
    (hij : C.SameIndex s t i j) (pos : Position) :
    C.SameCode s t (Assignment.targetStore a i pos) (Assignment.targetStore b j pos) := by
  cases hij with
  | none => exact .cons hab (.cons (C.plain rfl) .nil)
  | some hcodes =>
      exact Likeness.Codes.append hcodes (.cons hab (.cons (C.plain rfl) .nil))

theorem assign_agree {a b : Node} {i j : Option Code} (hs : C.scope σ τ) (h : C.Pair s t)
    (hab : C.SameNode s t a b) (hij : C.SameIndex s t i j) :
    C.Agree (Sure _) C.SameCode (Parse.assign σ a i) (Parse.assign τ b j) s t := by
  by_cases hg : C.seam.Gone s.cursor
  · have hnone : Assignment.ofKind? s.cursor.current.kind = none := by
      have hkind : s.cursor.current.kind = s.cursor.kind := rfl
      rw [hkind]
      rcases h.joins.gone_kind hg with ⟨hk, -⟩ | hk <;> rw [hk] <;> rfl
    refine .gone (e := ⟨.unexpectedToken,
      s!"expected assignment operator, found `{s.cursor.current.kind.friendlyName}`",
      s.cursor.current.pos, none, []⟩) (u := s.skip) ?_ s.cursor.follows_advance hg
    unfold Parse.assign
    rw [Parse.advance_bind, hnone]
    rfl
  · refine .advance h hg fun h₁ => ?_
    have hblind := Seam.spell_blind (m := C.seam) Assignment.ofKind? rfl rfl s.cursor.current
    rw [Seam.spell_pos]
    cases hop : Assignment.ofKind? s.cursor.current.kind with
    | none =>
        rw [hblind, hop]
        refine .raise h₁.pair ⟨rfl, rfl, rfl, fun hb => ?_⟩
        rw [Seam.spell_eq hb, id]
    | some operation =>
        rw [hblind, hop]
        cases operation with
        | store =>
            refine (expression_agree hs h₁.pair).next fun s₂ t₂ x y h₂ hxy => .pure h₂.pair ?_
            have h₂ := h₁.trans h₂
            exact hxy.append (targetStore_codes (h₂.grown.node hab) (h₂.index hij) _)
        | compound kind =>
            refine (expression_agree hs h₁.pair).next fun s₂ t₂ x y h₂ hxy => .pure h₂.pair ?_
            have h₂ := h₁.trans h₂
            have hvalue := targetValue_codes (h₂.grown.node hab) (h₂.index hij) s.cursor.current.pos
            refine ((hvalue.append hxy).append (.cons (C.plain ?_) .nil)).append
              (targetStore_codes (h₂.grown.node hab) (h₂.index hij) _)
            exact Assignment.isPlain_compound hop _
        | step kind =>
            have hvalue := targetValue_codes (h₁.grown.node hab) (h₁.index hij) s.cursor.current.pos
            refine .pure h₁.pair ((hvalue.append (.cons (C.plain rfl) (.cons (C.plain ?_) .nil))).append
              (targetStore_codes (h₁.grown.node hab) (h₁.index hij) _))
            exact Assignment.isPlain_step hop _

theorem assignment_agree (hs : C.scope σ τ) (h : C.Pair s t) :
    C.Agree (Sure _) C.SameCode (Parse.assignment σ) (Parse.assignment τ) s t := by
  refine .expectIdent h fun name _ h₁ => ?_
  refine (Agree.mention name s.cursor.pos h₁.pair hs).next fun s₂ t₂ a b h₂ hab => ?_
  refine .eat h₂.pair rfl (fun _ h₃ => ?_) fun _ => assign_agree hs h₂.pair hab .none
  refine (expression_agree hs h₃.pair).next fun s₄ t₄ x y h₄ hxy => .expected h₄.pair rfl
    fun _ h₅ => ?_
  exact assign_agree hs h₅.pair ((h₃.trans (h₄.trans h₅)).grown.node hab) (.some (h₅.codes hxy))

/-- At the seam there is no statement that ends with a semicolon. -/
theorem simple_gone (h : C.Pair s t) (hg : C.seam.Gone s.cursor) :
    Parse.simple σ s = .error (.noExpression s.cursor.current) s := by
  have hnext : Assignment.isNext s.cursor.rest = false := by
    have hkind := h.joins.gone_kind hg
    unfold Cursor.kind Cursor.current at hkind
    cases hrest : s.cursor.rest with
    | nil => rfl
    | cons token more =>
        obtain ⟨kind, pos⟩ := token
        rw [hrest] at hkind
        rcases hkind with ⟨hk, -⟩ | hk
        · cases hk; rfl
        · cases hk; rfl
  have hlook : ∀ (k : Cursor → Parse Code), (Parse.cursor >>= k) s = k s.cursor s := fun _ => rfl
  unfold Parse.simple
  rw [hlook, if_neg (by simp [hnext])]
  show EStateM.bind (Parse.expression σ) _ s = _
  rw [EStateM.bind, expression_gone h hg]

theorem simple_agree (hs : C.scope σ τ) (h : C.Pair s t) :
    C.Agree (Sure _) C.SameCode (Parse.simple σ) (Parse.simple τ) s t := by
  by_cases hg : C.seam.Gone s.cursor
  · exact .gone (simple_gone h hg) (.refl _) hg
  obtain ⟨tokens, hj⟩ := h.joins
  rcases C.ahead hj.suffix with hsame | ⟨htolerant, hnext, hfails⟩
  · refine .cursor (.ite ?_ (fun _ => assignment_agree hs h) fun _ => ?_)
    · rw [hj.left, hj.right, hsame]
    · rw [h.joins.pos hg]
      refine (expression_agree hs h).next fun _ _ _ _ h₁ hab => .pure h₁.pair (hab.append ?_)
      exact .cons (C.plain rfl) .nil
  · obtain ⟨e, s', he⟩ := hfails σ s hj.left
    refine .escape ?_
    have hlook : ∀ (k : Cursor → Parse Code), (Parse.cursor >>= k) s = k s.cursor s := fun _ => rfl
    have hsimple : Parse.simple σ s = .error e s' := by
      unfold Parse.simple
      rw [hlook, if_neg (by simp [hj.left, hnext])]
      show EStateM.bind (Parse.expression σ) _ s = _
      rw [EStateM.bind, he]
    exact .of_error hsimple (.inl (.inl htolerant))

/-! ## Blocks -/

/-- Statements inside the one that is read agree: those that start where fewer
tokens than `bound` are left. -/
structure Statements (C : Comparison) (bound : Nat) (inner inner' : Parse Code) : Prop where
  agree : ∀ {s t}, C.Pair s t → s.cursor.rest.length < bound →
    C.Agree (C.MayLose _) C.SameCode inner inner' s t
  along : Along ParserState.Onward inner

variable {inner inner' : Parse Code}

theorem Statements.mono {less : Nat} (h : C.Statements bound inner inner') (hle : less ≤ bound) :
    C.Statements less inner inner' :=
  ⟨fun hp hlt => h.agree hp (Nat.lt_of_lt_of_le hlt hle), h.along⟩

theorem checkCloser_agree {opener closer : Token} (h : C.Pair s t)
    (hopens : C.seam.braces = true → opener.kind = .keyword .kwBegin)
    (hcloses : C.seam.braces = true → closer.kind = .keyword .kwEnd) :
    C.Agree (Sure _) Done (Parse.checkCloser opener closer)
      (Parse.checkCloser (C.seam.spell opener) (C.seam.spell closer)) s t := by
  cases hb : C.seam.braces with
  | true =>
      -- the closer is of the kind of the opener in both spellings
      have hleft : Parse.checkCloser opener closer = pure ⟨⟩ := by
        unfold Parse.checkCloser
        rw [hopens hb, hcloses hb]
        rfl
      have hright : Parse.checkCloser (C.seam.spell opener) (C.seam.spell closer) = pure ⟨⟩ := by
        unfold Parse.checkCloser
        rw [Seam.spell_kind, Seam.spell_kind, if_pos hb, if_pos hb, hopens hb, hcloses hb]
        rfl
      rw [hleft, hright]
      exact .pure h trivial
  | false =>
      rw [Seam.spell_eq hb, id, id]
      unfold Parse.checkCloser
      refine .ite Iff.rfl (fun _ => ?_) fun _ => .pure h trivial
      refine .via h.refl (by rw [bind_pure]) (by rw [bind_pure])
        (.report h (.refl ?_) fun h₁ => .pure h₁.pair trivial)
      exact rfl

/-- Both read a token if neither has read one since it was here. -/
theorem progress_agree {s₀ t₀ : ParserState} {α β : Type} {L : α → ParserState → Prop}
    {Q : ParserState → ParserState → α → β → Prop} {p k : Parse α} {q k' : Parse β}
    (hp : C.Pair s₀ t₀) (hg : ¬C.seam.Gone s₀.cursor) (heof : s₀.cursor.kind ≠ .eof)
    (h : C.Later s₀ t₀ s t)
    (hleft : p s = k (if s.cursor.position = s₀.cursor.position then s.skip else s))
    (hright : q t = k' (if t.cursor.position = t₀.cursor.position then t.skip else t))
    (next : ∀ s' t', C.Later s t s' t' → s'.cursor.rest.length < s₀.cursor.rest.length →
      C.Agree L Q k k' s' t') :
    C.Agree L Q p q s t := by
  by_cases hpos : s.cursor.position = s₀.cursor.position
  · have hs : s.cursor = s₀.cursor := h.left.eq_of_position_eq hpos
    have hlater := h.pair.skip (by rwa [hs])
    refine .via hlater (f := k) (g := k') ?_ ?_ (next _ _ hlater ?_)
    · rw [hleft, if_pos hpos]
    · rw [hright, if_pos ((h.position_iff hp).mpr hpos)]
    · have hless := skip_less (s := s) (by rwa [hs])
      rwa [hs] at hless
  · refine .via h.pair.refl (f := k) (g := k') ?_ ?_ (next _ _ h.pair.refl ?_)
    · rw [hleft, if_neg hpos]
    · rw [hright, if_neg fun ht => hpos ((h.position_iff hp).mp ht)]
    · have := h.left.position_le
      have := h.left.rest_length
      omega

theorem forceProgress_agree {s₀ t₀ : ParserState} {α β : Type} {L : α → ParserState → Prop}
    {Q : ParserState → ParserState → α → β → Prop} {k : PUnit → Parse α} {k' : PUnit → Parse β}
    (hp : C.Pair s₀ t₀) (hg : ¬C.seam.Gone s₀.cursor) (heof : s₀.cursor.kind ≠ .eof)
    (h : C.Later s₀ t₀ s t)
    (next : ∀ s' t', C.Later s t s' t' → s'.cursor.rest.length < s₀.cursor.rest.length →
      C.Agree L Q (k ⟨⟩) (k' ⟨⟩) s' t') :
    C.Agree L Q (Parse.blockStatement.forceProgress s₀.cursor.position >>= k)
      (Parse.blockStatement.forceProgress t₀.cursor.position >>= k') s t := by
  have hforce : ∀ {α : Type} (k : PUnit → Parse α) (start : Nat) (s : ParserState),
      (Parse.blockStatement.forceProgress start >>= k) s =
        k ⟨⟩ (if s.cursor.position = start then s.skip else s) := by
    intro α k start s
    have hlook : ∀ (k : Cursor → Parse PUnit), (Parse.cursor >>= k) s = k s.cursor s :=
      fun _ => rfl
    refine Parse.bind_ok ?_
    unfold Parse.blockStatement.forceProgress
    rw [hlook]
    split <;> rfl
  exact progress_agree hp hg heof h (hforce k _ s) (hforce k' _ t) next

/-- Recovery from a malformed statement tells no delimiter from another. -/
theorem passes_spell_statement (token : Token) :
    Cursor.passes .statementBoundary (C.seam.spell token) =
      Cursor.passes .statementBoundary token := by
  refine Seam.spell_blind (m := C.seam)
    (fun kind => kind != .eof && !KindSet.statementBoundary.contains kind) ?_ ?_ token
  · decide
  · decide

/-- What keeps the left run from being compared behind a block. -/
def LosesBlock (C : Comparison) (found : Parse.Block) (s : ParserState) : Prop :=
  C.Lost s ∨ (found.failure.isSome = true ∧ C.seam.Waived s.cursor)

/-- Blocks with alike code that fail alike, or do not fail. -/
def SameBlock (C : Comparison) (s t : ParserState) (a b : Parse.Block) : Prop :=
  C.SameCode s t a.code b.code ∧ Option.Rel C.seam.AlikeErrors a.failure b.failure

/-- What a round in a block leaves of the comparison. -/
def LosesRound (C : Comparison) : Code ⊕ Parse.Block → ParserState → Prop
  | .inl _, s => C.Lost s
  | .inr found, s => C.LosesBlock found s

theorem Lost.losesRound (h : C.Lost s) (r : Code ⊕ Parse.Block) : C.LosesRound r s := by
  cases r with
  | inl more => exact h
  | inr found => exact .inl h

theorem blockStatement_agree {a b : Code} {s₀ : ParserState}
    (hi : C.Statements (s.cursor.rest.length + 1) inner inner')
    (hg : ¬C.seam.Gone s.cursor) (heof : s.cursor.kind ≠ .eof) (h : C.Pair s t)
    (hle : s.cursor.rest.length ≤ s₀.cursor.rest.length) (hab : C.SameCode s t a b) :
    C.Agree C.LosesRound (Agree.RoundPost C.SameCode C.SameBlock s₀)
      (Parse.blockStatement inner a) (Parse.blockStatement inner' b) s t := by
  have hon := ParserState.Onward.inside none
  have hlast : ∀ more : Code, Along ParserState.Onward
      (Parse.blockStatement.forceProgress s.cursor.position >>= fun _ =>
        (return .inl more : Parse (Code ⊕ Parse.Block))) :=
    fun _ => .bind hon (hon.forceProgress_along _) fun _ => .pure hon _
  refine .cursor ((hi.agree h (Nat.lt_succ_self _)).attempt.bind
    (fun s₁ t₁ r r' _ h₁ hout => ?_) fun r s₁ hr => ?_)
  · cases r with
    | ok more => cases r' with
      | error f => exact hout.elim
      | ok more' =>
          refine forceProgress_agree h hg heof h₁ fun s₂ t₂ h₂ hless => .pure h₂.pair ⟨?_, ?_⟩
          · exact ((h₁.trans h₂).codes hab).append (h₂.codes hout)
          · exact Nat.lt_of_lt_of_le hless hle
    | error e => cases r' with
      | ok more' => exact hout.elim
      | error f =>
          refine .ite (by rw [hout.cause]) (fun _ => .pure h₁.pair ⟨h₁.codes hab, .some hout⟩)
            fun _ => ?_
          refine Agree.weaken (M := C.MayLose _)
            (P := Agree.RoundPost C.SameCode C.SameBlock s₀) ?_
            (fun r _ h => Lost.losesRound h r) fun _ _ _ _ _ h => h
          refine .report h₁.pair hout.diagnostic fun h₂ => ?_
          refine .recovered passes_spell_statement h₂.pair
            ⟨e.diagnostic, by simp [Queue.push], rfl⟩ (hlast _) fun s₃ t₃ h₃ => ?_
          have h₃ := h₁.trans (h₂.trans h₃)
          refine forceProgress_agree h hg heof h₃ fun s₄ t₄ h₄ hless => .pure h₄.pair ⟨?_, ?_⟩
          · exact (h₃.trans h₄).codes hab
          · exact Nat.lt_of_lt_of_le hless hle
  · cases r with
    | ok more => exact Escapes.weaken (Lost.escapes hr (hlast _)) fun r _ h => h.losesRound r
    | error e =>
        refine Escapes.ite (fun _ => ?_) fun _ =>
          Escapes.weaken (M := C.MayLose _) ?_ fun r _ h => Lost.losesRound h r
        · rcases hr with hw | hlost
          · exact .inr ⟨rfl, hw⟩
          · exact .inl hlost
        · refine Agree.escape_report hr rfl ?_
          exact .bind hon (hon.recover_along _) fun _ => hlast _

/-- A block that opens with no brace opens with a `begin`. -/
theorem opens_wordy {kind : TokenKind} (h : Cursor.opens kind = true)
    (hbrace : kind ≠ .mark .lbrace) : kind = .keyword .kwBegin := by
  unfold Cursor.opens at h
  split at h
  · rfl
  · exact absurd rfl hbrace
  · cases h

theorem closes_wordy {kind : TokenKind} (h : Cursor.closes kind = true)
    (hbrace : kind ≠ .mark .rbrace) : kind = .keyword .kwEnd := by
  unfold Cursor.closes at h
  split at h
  · rfl
  · exact absurd rfl hbrace
  · cases h

theorem blockRound_agree {opener : Token} {a b : Code}
    (hi : C.Statements (s.cursor.rest.length + 1) inner inner')
    (hopener : C.seam.braces = true → opener.kind = .keyword .kwBegin) (h : C.Pair s t)
    (hab : C.SameCode s t a b) :
    C.Agree C.LosesRound (Agree.RoundPost C.SameCode C.SameBlock s)
      (Parse.blockRound inner opener a) (Parse.blockRound inner' (C.seam.spell opener) b) s t := by
  have hon := ParserState.Onward.inside none
  refine .kind ?_
  by_cases hg : C.seam.Gone s.cursor
  · refine .escape ?_
    rcases h.joins.gone_kind hg with ⟨hk, hbeyond⟩ | hk
    · rw [hk]
      have hlost : C.Lost s.skip := .inl hbeyond
      refine Escapes.weaken (M := C.MayLose _) ?_ fun r _ h => Lost.losesRound h r
      exact hlost.escapes (.bind hon (.ite (hon.reported _) (.pure hon _)) fun _ => .pure hon _)
    · rw [hk]
      exact .inr ⟨rfl, .of_gone hg⟩
  · have hcloses : Cursor.closes t.cursor.kind = Cursor.closes s.cursor.kind :=
      h.joins.blind hg Cursor.closes rfl rfl
    have hends : (t.cursor.kind = .eof ∨ t.cursor.kind = .keyword .kwProcedure) ↔
        (s.cursor.kind = .eof ∨ s.cursor.kind = .keyword .kwProcedure) := by
      have := h.joins.blind hg
        (fun kind => decide (kind = .eof ∨ kind = .keyword .kwProcedure)) rfl rfl
      exact decide_eq_decide.mp this
    refine .ite (by rw [hcloses]) (fun hclose => ?_) fun hopen => .ite hends (fun _ => ?_)
      fun hmore => ?_
    · refine .advance h hg fun h₁ => ?_
      refine (checkCloser_agree h₁.pair hopener fun hb => ?_).next fun s₂ t₂ _ _ h₂ _ =>
        .pure h₂.pair ⟨(h₁.trans h₂).codes hab, .none⟩
      have hbrace := (h.noBrace (fun hk => by rw [hk] at hclose; cases hclose) hb).2
      exact closes_wordy hclose hbrace
    · refine .pure h ⟨hab, .some ⟨rfl, rfl, ?_, ?_⟩⟩
      · exact Seam.spell_pos _
      · intro hb
        rw [Seam.spell_eq hb, id]
    · exact blockStatement_agree hi hg (fun hk => hmore (.inl hk)) h (Nat.le_refl _) hab

/-- A block from behind its opening token. -/
theorem blockRounds_agree {opener : Token} {a b : Code}
    (hi : C.Statements (s.cursor.rest.length + 1) inner inner')
    (hopener : C.seam.braces = true → opener.kind = .keyword .kwBegin) (h : C.Pair s t)
    (hab : C.SameCode s t a b) :
    C.Agree C.LosesBlock C.SameBlock (Parse.repeatRounds (Parse.blockRound inner opener) a)
      (Parse.repeatRounds (Parse.blockRound inner' (C.seam.spell opener)) b) s t := by
  have hon := ParserState.Onward.inside none
  refine .repeatRounds (I := C.SameCode) C.LosesRound (fun _ _ => id)
    (fun n a s' hlost => ?_) (fun s₁ t₁ a b h₁ hab => ?_) h hab
  · exact Escapes.weaken
      (Lost.escapes hlost (.rounds hon (hon.blockRound_along hi.along opener) n a))
      fun _ _ => .inl
  · exact blockRound_agree (hi.mono (Nat.succ_le_succ h₁.rest_le)) hopener h₁.pair hab

theorem openBlock_agree (hi : C.Statements s.cursor.rest.length inner inner')
    (hopens : Cursor.opens s.cursor.kind = true) (h : C.Pair s t) :
    C.Agree C.LosesBlock C.SameBlock (Parse.openBlock inner) (Parse.openBlock inner') s t := by
  have hg : ¬C.seam.Gone s.cursor :=
    h.not_gone (fun hk => by rw [hk] at hopens; cases hopens)
      fun hk => by rw [hk] at hopens; cases hopens
  have hless := skip_less (s := s) fun hk => by rw [hk] at hopens; cases hopens
  refine .advance h hg fun h₁ => blockRounds_agree (hi.mono hless) (fun hb => ?_) h₁.pair .nil
  have hbrace := (h.noBrace (fun hk => by rw [hk] at hopens; cases hopens) hb).1
  exact opens_wordy hopens hbrace

theorem block_agree (hi : C.Statements s.cursor.rest.length inner inner')
    (hopens : Cursor.opens s.cursor.kind = true) (h : C.Pair s t) :
    C.Agree (C.MayLose _) C.SameCode (Parse.block inner) (Parse.block inner') s t := by
  refine (openBlock_agree hi hopens h).bind (fun s₁ t₁ a b _ h₁ hab => ?_) fun a s₁ ha => ?_
  · obtain ⟨code, failure⟩ := a
    obtain ⟨code', failure'⟩ := b
    obtain ⟨hcode, hfailure⟩ := hab
    dsimp only at hcode hfailure
    cases hfailure with
    | none => exact .pure h₁.pair hcode
    | some he => exact .raise h₁.pair he
  · obtain ⟨code, failure⟩ := a
    cases failure with
    | none =>
        rcases ha with hlost | ⟨hfail, -⟩
        · exact hlost
        · cases hfail
    | some e =>
        rcases ha with hlost | ⟨-, hw⟩
        · exact hlost.fails
        · exact .inl hw

/-! ## Conditions and loops -/

/-- A token whose kind is no delimiter is in front of the seam, and the same in
both runs. -/
theorem Pair.reads (h : C.Pair s t) {word : Keyword} (hk : s.cursor.kind = .keyword word)
    (hword : TokenKind.isDelimiter (.keyword word) = false) :
    ¬C.seam.Gone s.cursor ∧ C.seam.spell s.cursor.current = s.cursor.current ∧
      s.skip.cursor.rest.length < s.cursor.rest.length := by
  refine ⟨h.not_gone ?_ (by rw [hk]; nofun), Seam.spell_of_not_delimiter ?_,
    skip_less (by rw [hk]; nofun)⟩
  · intro hend
    rw [hk] at hend
    cases hend
    cases hword
  · exact (congrArg TokenKind.isDelimiter hk).trans hword

theorem ifStatement_agree (hs : C.scope σ τ) (hi : C.Statements s.cursor.rest.length inner inner')
    (hk : s.cursor.kind = .keyword .kwIf) (h : C.Pair s t) :
    C.Agree (C.MayLose _) C.SameCode (Parse.ifStatement σ inner) (Parse.ifStatement τ inner')
      s t := by
  have hon := ParserState.Onward.inside none
  obtain ⟨hg, hspell, hless⟩ := h.reads hk rfl
  have hlast : ∀ {s₁ t₁ : ParserState} {pos : Position} {a a' b b' c c' : Code},
      C.Later s.skip t.skip s₁ t₁ → C.SameCode s₁ t₁ a a' → C.SameCode s₁ t₁ b b' →
      C.SameCode s₁ t₁ c c' → C.Agree (C.MayLose _) C.SameCode
        (do
          let last := (← Parse.cursor).previousPos
          return a ++ [Node.op .branch pos] ++ b ++ c ++ [Node.op .endBranch last] : Parse Code)
        (do
          let last := (← Parse.cursor).previousPos
          return a' ++ [Node.op .branch pos] ++ b' ++ c' ++ [Node.op .endBranch last] : Parse Code)
        s₁ t₁ := by
    intro s₁ t₁ pos a a' b b' c c' h₁ ha hb hc
    refine .cursor ?_
    rw [((h.skip hg).trans h₁).previousPos h (Nat.lt_of_le_of_lt h₁.rest_le hless)]
    exact .pure h₁.pair ((((ha.append (.cons (C.plain rfl) .nil)).append hb).append hc).append
      (.cons (C.plain rfl) .nil))
  refine .advance h hg fun h₁ => ?_
  rw [hspell]
  refine (expression_agree hs h₁.pair).next fun s₂ t₂ x y h₂ hxy => .expected h₂.pair rfl
    fun _ h₃ => ?_
  have hinner : ∀ {s' t' : ParserState}, C.Later s.skip t.skip s' t' →
      C.Agree (C.MayLose _) C.SameCode inner inner' s' t' := fun h' =>
    hi.agree h'.pair (Nat.lt_of_le_of_lt h'.rest_le hless)
  have hxy := h₃.codes hxy
  have h₃ := h₂.trans h₃
  refine (hinner h₃).onward (fun a => ?_) fun s₄ t₄ a b h₄ hab => ?_
  · refine .bind hon (hon.check _) fun _ => .ite ?_ ?_
    · exact .bind hon hon.advance fun _ => .bind hon hi.along fun _ => .bind hon (.pure hon _)
        fun _ => .bind hon hon.cursor fun _ => .pure hon _
    · exact .bind hon (.pure hon _) fun _ => .bind hon hon.cursor fun _ => .pure hon _
  · refine .check rfl h₄.pair (.ite Iff.rfl (fun hc => ?_) fun _ => ?_)
    · obtain ⟨hg₄, hspell₄, -⟩ := h₄.pair.reads (Cursor.kind_of_check_keyword hc) rfl
      refine .advance h₄.pair hg₄ fun h₅ => ?_
      rw [hspell₄]
      refine (hinner (h₃.trans (h₄.trans h₅))).onward (fun a => ?_) fun s₆ t₆ c d h₆ hcd => ?_
      · exact .bind hon (.pure hon _) fun _ => .bind hon hon.cursor fun _ => .pure hon _
      · have h₅₆ := h₅.trans h₆
        exact hlast (h₃.trans (h₄.trans h₅₆)) ((h₄.trans h₅₆).codes hxy) (h₅₆.codes hab)
          (.cons (C.plain rfl) hcd)
    · exact hlast (h₃.trans h₄) (h₄.codes hxy) hab .nil

theorem whileStatement_agree (hs : C.scope σ τ)
    (hi : C.Statements s.cursor.rest.length inner inner')
    (hk : s.cursor.kind = .keyword .kwWhile) (h : C.Pair s t) :
    C.Agree (C.MayLose _) C.SameCode (Parse.whileStatement σ inner)
      (Parse.whileStatement τ inner') s t := by
  have hon := ParserState.Onward.inside none
  obtain ⟨hg, hspell, hless⟩ := h.reads hk rfl
  refine .advance h hg fun h₁ => ?_
  rw [hspell]
  refine (expression_agree hs h₁.pair).next fun s₂ t₂ x y h₂ hxy => .expected h₂.pair rfl
    fun _ h₃ => ?_
  have hxy := h₃.codes hxy
  have h₃ := h₂.trans h₃
  refine (hi.agree h₃.pair (Nat.lt_of_le_of_lt h₃.rest_le hless)).onward (fun a => ?_)
    fun s₄ t₄ a b h₄ hab => ?_
  · exact .bind hon hon.cursor fun _ => .pure hon _
  · refine .cursor ?_
    have h₄' := h₃.trans h₄
    rw [(h₁.trans h₄').previousPos h (Nat.lt_of_le_of_lt h₄'.rest_le hless)]
    have hop : ∀ kind pos, (Node.op kind pos).isPlain = true →
        C.SameCode s₄ t₄ [Node.op kind pos] [Node.op kind pos] :=
      fun _ _ hp => .cons (C.plain hp) .nil
    exact .pure h₄.pair (((((hop _ _ rfl).append (h₄.codes hxy)).append (hop _ _ rfl)).append
      hab).append (hop _ _ rfl))

theorem forStatement_agree (hs : C.scope σ τ) (hi : C.Statements s.cursor.rest.length inner inner')
    (hk : s.cursor.kind = .keyword .kwFor) (h : C.Pair s t) :
    C.Agree (C.MayLose _) C.SameCode (Parse.forStatement σ inner) (Parse.forStatement τ inner')
      s t := by
  have hon := ParserState.Onward.inside none
  obtain ⟨hg, hspell, hless⟩ := h.reads hk rfl
  have hsimple : ∀ {s t : ParserState} {skip : Bool}, C.Pair s t → C.Agree (Sure _) C.SameCode
      (if skip = true then pure [] else Parse.simple σ)
      (if skip = true then pure [] else Parse.simple τ) s t := fun hp =>
    .ite Iff.rfl (fun _ => .pure hp .nil) fun _ => simple_agree hs hp
  refine .advance h hg fun h₁ => ?_
  rw [hspell]
  refine .expected h₁.pair rfl fun _ h₂ => .check rfl h₂.pair (.join ?_)
  refine (hsimple h₂.pair).next fun s₃ t₃ start start' h₃ hstart => .expected h₃.pair rfl
    fun _ h₄ => .check rfl h₄.pair (.join ?_)
  refine Agree.next (P := C.SameCode)
    (.ite Iff.rfl (fun _ => .pure h₄.pair (.cons (C.plain rfl) .nil))
      fun _ => expression_agree hs h₄.pair) fun s₅ t₅ x y h₅ hxy => ?_
  refine .expected h₅.pair rfl fun _ h₆ => .check rfl h₆.pair (.join ?_)
  refine (hsimple h₆.pair).next fun s₇ t₇ step step' h₇ hstep => .expected h₇.pair rfl
    fun _ h₈ => ?_
  have h₇₈ := h₇.trans h₈
  have h₆₈ := h₆.trans h₇₈
  have h₂₈ := h₂.trans (h₃.trans (h₄.trans (h₅.trans h₆₈)))
  refine (hi.agree h₈.pair (Nat.lt_of_le_of_lt h₂₈.rest_le hless)).onward (fun a => ?_)
    fun s₉ t₉ a b h₉ hab => ?_
  · exact .bind hon hon.cursor fun _ => .pure hon _
  · refine .cursor ?_
    have h₂₉ := h₂₈.trans h₉
    rw [(h₁.trans h₂₉).previousPos h (Nat.lt_of_le_of_lt h₂₉.rest_le hless)]
    have hop : ∀ kind pos, (Node.op kind pos).isPlain = true →
        C.SameCode s₉ t₉ [Node.op kind pos] [Node.op kind pos] :=
      fun _ _ hp => .cons (C.plain hp) .nil
    have hstep := (h₈.trans h₉).codes hstep
    have hxy := (h₆₈.trans h₉).codes hxy
    have hstart := (h₄.trans (h₅.trans (h₆₈.trans h₉))).codes hstart
    have hstepCode : C.SameCode s₉ t₉
        (if step.isEmpty = true then [] else Node.op .loopStep s.cursor.current.pos :: step)
        (if step.isEmpty = true then [] else Node.op .loopStep s.cursor.current.pos :: step') := by
      split
      · exact .nil
      · exact .cons (C.plain rfl) hstep
    rw [hstep.isEmpty]
    exact .pure h₉.pair ((((((hstart.append (hop _ _ rfl)).append hxy).append
      (hop _ _ rfl)).append hab).append hstepCode).append (hop _ _ rfl))

/-! ## Jumps, calls and declarations -/

theorem returnStatement_agree (hs : C.scope σ τ) (hk : s.cursor.kind = .keyword .kwReturn)
    (h : C.Pair s t) :
    C.Agree (Sure _) C.SameCode (Parse.returnStatement σ) (Parse.returnStatement τ) s t := by
  obtain ⟨hg, hspell, -⟩ := h.reads hk rfl
  refine .advance h hg fun h₁ => ?_
  rw [hspell]
  refine .check rfl h₁.pair (.ite Iff.rfl (fun hc => ?_) fun _ => ?_)
  · have hkind := Cursor.kind_of_check_mark hc
    have hg₁ := h₁.pair.not_gone (by rw [hkind]; nofun) (by rw [hkind]; nofun)
    exact .skip h₁.pair hg₁ fun h₂ => .pure h₂.pair (.cons (C.plain rfl) .nil)
  · refine (expression_agree hs h₁.pair).next fun _ _ _ _ h₂ hab => .expected h₂.pair rfl
      fun _ h₃ => .pure h₃.pair ((h₃.codes hab).append ?_)
    exact .cons (C.plain rfl) .nil

theorem jumpStatement_agree (inLoop : Bool) {word : Keyword}
    (hk : s.cursor.kind = .keyword word) (hword : TokenKind.isDelimiter (.keyword word) = false)
    (h : C.Pair s t) :
    C.Agree (Sure _) C.SameCode (Parse.jumpStatement inLoop) (Parse.jumpStatement inLoop) s t := by
  obtain ⟨hg, hspell, -⟩ := h.reads hk hword
  refine .advance h hg fun h₁ => ?_
  rw [hspell]
  have hend : ∀ {s t : ParserState} {code : Code}, C.Pair s t → C.SameCode s t code code →
      C.Agree (Sure _) C.SameCode
        (do
          discard <| Parse.expect (.mark .semicolon)
          return code : Parse Code)
        (do
          discard <| Parse.expect (.mark .semicolon)
          return code : Parse Code) s t := fun hp hcode =>
    .expected hp rfl fun _ h₂ => .pure h₂.pair (h₂.codes hcode)
  have hcode : ∀ {s t : ParserState} {op : NodeKind} {pos : Position},
      (Node.op op pos).isPlain = true → C.SameCode s t
        (if inLoop = true then [Node.op op pos] else [])
        (if inLoop = true then [Node.op op pos] else []) := by
    intro s t op pos hp
    split
    · exact .cons (C.plain hp) .nil
    · exact .nil
  have hplain : (Node.op (if s.cursor.current.kind = .keyword .kwBreak then .leave else .next)
      s.cursor.current.pos).isPlain = true := by
    split <;> rfl
  refine .ite Iff.rfl (fun _ => .report h₁.pair (.refl rfl) fun h₂ => ?_) fun _ => ?_
  · exact hend h₂.pair (hcode hplain)
  · exact hend h₁.pair (hcode hplain)

theorem callStatement_agree (hs : C.scope σ τ) (hk : s.cursor.kind = .keyword .kwCall)
    (h : C.Pair s t) :
    C.Agree (Sure _) C.SameCode (Parse.callStatement σ) (Parse.callStatement τ) s t := by
  obtain ⟨hg, -, -⟩ := h.reads hk rfl
  refine .skip h hg fun h₁ => .expectIdent h₁.pair fun name _ h₂ => ?_
  refine (Agree.mention name _ h₂.pair hs).next fun s₃ t₃ a b h₃ hab => ?_
  have hend : ∀ {s₄ t₄ : ParserState} {x y : Code × Nat} {pos : Position}, C.Later s₃ t₃ s₄ t₄ →
      C.SameArguments s₄ t₄ x y → C.Agree (Sure _) C.SameCode
        (do
          discard <| Parse.expect (.mark .semicolon)
          return Parse.callCode x.1 a x.2 pos ++ [Node.op .pop pos] : Parse Code)
        (do
          discard <| Parse.expect (.mark .semicolon)
          return Parse.callCode y.1 b y.2 pos ++ [Node.op .pop pos] : Parse Code) s₄ t₄ := by
    intro s₄ t₄ x y pos h₄ hxy
    refine .expected h₄.pair rfl fun _ h₅ => .pure h₅.pair ?_
    rw [hxy.2]
    refine Likeness.Codes.append (Likeness.Codes.append (h₅.codes hxy.1) ?_)
      (.cons (C.plain rfl) .nil)
    exact .cons ((h₄.trans h₅).grown.node hab) (.cons (C.plain rfl) .nil)
  refine .eat h₃.pair rfl (fun _ h₄ => ?_) fun _ => hend (x := ([], 0)) (y := ([], 0)) h₃.pair.refl
    ⟨.nil, rfl⟩
  exact (arguments_agree (fun _ _ hp _ => expression_agree hs hp) (Nat.lt_succ_self _)
    h₄.pair).next fun _ _ _ _ h₅ hxy => hend (h₄.trans h₅) hxy

variable {context context' : Context}

theorem declarationStatement_agree (hs : C.scope context.scope context'.scope)
    (h : C.Pair s t) :
    C.Agree (C.MayLose _) C.SameCode (Parse.declarationStatement context)
      (Parse.declarationStatement context') s t := by
  have hthrow : ∀ (q : Qualifiers) (s : ParserState),
      s.cursor.check (.keyword .kwVariable) = false → (do
        if ← Parse.check (.keyword .kwVariable) then Parse.variableDeclaration context q
        else throw (.expected "`variable`" (← Parse.cursor)) : Parse Code) s =
      .error (.expected "`variable`" s.cursor) s := by
    intro q s hc
    have hlook : ∀ (k : Bool → Parse Code), (Parse.check (.keyword .kwVariable) >>= k) s =
        k (s.cursor.check (.keyword .kwVariable)) s := fun _ => rfl
    rw [hlook, hc]
    rfl
  refine (qualifiers_agree h).bind (fun s₁ t₁ q q' _ h₁ hq => ?_) fun q s₁ hg => ?_
  · cases hq
    by_cases hg : C.seam.Gone s₁.cursor
    · refine .gone (hthrow q s₁ (h₁.pair.check_gone_keyword hg _ nofun)) (.refl _) hg
    · refine .checkAt h₁.pair (h₁.pair.check hg rfl) (.ite Iff.rfl (fun hc => ?_) fun _ => ?_)
      · exact variableDeclaration_agree hs q (Cursor.kind_of_check_keyword hc) h₁.pair
      · exact .cursor (.throwExpected h₁.pair _)
  · obtain ⟨hg, t₁, hpair⟩ := hg
    exact .of_error (hthrow q s₁ (hpair.check_gone_keyword hg _ nofun)) (.of_gone hg)

/-! ## Statements -/

/-- At the seam there is no statement. -/
theorem statementWith_gone {inner : Context → Parse Code} (h : C.Pair s t)
    (hg : C.seam.Gone s.cursor) :
    Parse.statementWith inner context s = .error (.noExpression s.cursor.current) s := by
  have hlook : ∀ (k : TokenKind → Parse Code), (Parse.kind >>= k) s = k s.cursor.kind s :=
    fun _ => rfl
  unfold Parse.statementWith
  rw [hlook]
  rcases h.joins.gone_kind hg with ⟨hk, -⟩ | hk
  all_goals
    rw [hk]
    show EStateM.bind (Parse.simple _) _ s = _
    rw [EStateM.bind, simple_gone h hg]

theorem statementWith_agree {inner inner' : Context → Parse Code}
    (hs : C.scope context.scope context'.scope) (hloop : context'.inLoop = context.inLoop)
    (hi : ∀ {context context' : Context}, C.scope context.scope context'.scope →
      context'.inLoop = context.inLoop →
      C.Statements s.cursor.rest.length (inner context) (inner' context'))
    (h : C.Pair s t) :
    C.Agree (C.MayLose _) C.SameCode (Parse.statementWith inner context)
      (Parse.statementWith inner' context') s t := by
  have hsame := hi hs hloop
  have hbody : C.Statements s.cursor.rest.length (inner { context with inLoop := true })
      (inner' { context' with inLoop := true }) := hi hs rfl
  have hsimple : ∀ {σ τ : Option ScopeId} {s t : ParserState}, C.scope σ τ → C.Pair s t →
      C.Agree (C.MayLose _) C.SameCode
        (do
          let code ← Parse.simple σ
          discard <| Parse.expect (.mark .semicolon)
          return code : Parse Code)
        (do
          let code ← Parse.simple τ
          discard <| Parse.expect (.mark .semicolon)
          return code : Parse Code) s t := fun hs hp =>
    (simple_agree hs hp).next fun _ _ _ _ h₁ hab => .expected h₁.pair rfl fun _ h₂ =>
      .pure h₂.pair (h₂.codes hab)
  refine .kind ?_
  by_cases hg : C.seam.Gone s.cursor
  · exact .gone (statementWith_gone h hg) (.refl _) hg
  cases hd : s.cursor.kind.isDelimiter with
  | true =>
      have hkind : t.cursor.kind = if C.seam.braces then s.cursor.kind.braced else s.cursor.kind :=
        (h.joins.kind hg).trans (Seam.spell_kind _)
      rw [hkind]
      cases hk : s.cursor.kind with
      | keyword word =>
          rw [hk] at hd
          cases word with
          | kwBegin =>
              have hblock := block_agree hsame (by rw [hk]; rfl) h
              cases C.seam.braces <;> exact hblock
          | kwEnd =>
              cases C.seam.braces <;> exact hsimple hs h
          | _ => cases hd
      | mark sign =>
          rw [hk] at hd
          cases sign with
          | lbrace =>
              have hblock := block_agree hsame (by rw [hk]; rfl) h
              cases C.seam.braces <;> exact hblock
          | rbrace =>
              cases C.seam.braces <;> exact hsimple hs h
          | _ => cases hd
      | _ => rw [hk] at hd; cases hd
  | false =>
      rw [h.joins.kind_eq hg hd]
      cases hk : s.cursor.kind with
      | keyword word =>
          cases word with
          | kwBegin => rw [hk] at hd; cases hd
          | kwIf => exact ifStatement_agree hs hsame hk h
          | kwWhile => exact whileStatement_agree hs hbody hk h
          | kwFor => exact forStatement_agree hs hbody hk h
          | kwReturn => exact (returnStatement_agree hs hk h).sure
          | kwBreak => exact hloop ▸ (jumpStatement_agree _ hk rfl h).sure
          | kwContinue => exact hloop ▸ (jumpStatement_agree _ hk rfl h).sure
          | kwCall => exact (callStatement_agree hs hk h).sure
          | kwVariable | kwImport | kwExport | kwCritical | kwPure | kwInline =>
              exact declarationStatement_agree hs h
          | _ => exact hsimple hs h
      | mark sign =>
          cases sign with
          | semicolon => exact .skip h hg fun h₁ => .pure h₁.pair .nil
          | lbrace => rw [hk] at hd; cases hd
          | _ => exact hsimple hs h
      | _ => exact hsimple hs h

theorem statementTo_agree (depth depth' : Nat) (hs : C.scope context.scope context'.scope)
    (hloop : context'.inLoop = context.inLoop) (hd : s.cursor.rest.length < depth)
    (hd' : t.cursor.rest.length < depth') (h : C.Pair s t) :
    C.Agree (C.MayLose _) C.SameCode (Parse.statementTo depth context)
      (Parse.statementTo depth' context') s t := by
  induction depth generalizing depth' context context' s t with
  | zero => exact absurd hd (Nat.not_lt_zero _)
  | succ depth ih =>
      cases depth' with
      | zero => exact absurd hd' (Nat.not_lt_zero _)
      | succ depth' =>
          refine statementWith_agree hs hloop (fun {σ τ} hs hloop => ⟨fun {s₁ t₁} h₁ hless => ?_, ?_⟩) h
          · have hlength := h.joins.rest_length
            have hlength' := h₁.joins.rest_length
            exact ih depth' hs hloop (by omega) (by omega) h₁
          · exact (ParserState.Onward.inside σ.scope).statementTo_along depth rfl

theorem statement_agree (hs : C.scope context.scope context'.scope)
    (hloop : context'.inLoop = context.inLoop) (h : C.Pair s t) :
    C.Agree (C.MayLose _) C.SameCode (Parse.statement context) (Parse.statement context') s t :=
  .cursor (statementTo_agree _ _ hs hloop (Nat.lt_succ_self _) (Nat.lt_succ_self _) h)

end Comparison

end SslFrontend
