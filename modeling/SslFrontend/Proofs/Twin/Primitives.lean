import SslFrontend.Proofs.Twin.Rules

/-! # Primitives side by side

What productions are made of, in two runs that are compared: tokens that are
expected, names that are read, mentioned and declared, variables that are
changed, and reports.
-/

namespace SslFrontend

namespace Comparison

variable {C : Comparison} {α β : Type} {s t : ParserState} {L : α → ParserState → Prop}
  {Q : ParserState → ParserState → α → β → Prop}

/-- Both answer with nothing. -/
def Done : ParserState → ParserState → Unit → Unit → Prop := fun _ _ _ _ => True

/-- Both answer with alike nodes. -/
def SameNode (C : Comparison) (s t : ParserState) : Node → Node → Prop :=
  C.node s.records t.records

/-- Both declare alike symbols, or neither declares one. -/
def SameSymbol (C : Comparison) (s t : ParserState) : Option Symbol → Option Symbol → Prop :=
  Option.Rel (C.symbol s.records t.records)

namespace Agree

/-- An error at a place that both see alike, if it is not at the seam. -/
theorem errors {p : Parse α} {q : Parse β} {e f : ParseError} (h : C.Pair s t)
    (hp : p s = .error e s)
    (hq : ¬C.seam.Gone s.cursor → q t = .error f t ∧ C.seam.AlikeErrors e f) :
    C.Agree L Q p q s t := by
  unfold Agree
  rw [hp]
  by_cases hg : C.seam.Gone s.cursor
  · exact .inl (.of_gone hg)
  · obtain ⟨hq, he⟩ := hq hg
    exact .inr ⟨f, t, hq, h.refl, he⟩

/-- The left run fails at the seam. -/
theorem gone {p : Parse α} {q : Parse β} {e : ParseError} {u : ParserState}
    (hp : p s = .error e u) (hf : s.cursor.Follows u.cursor) (hg : C.seam.Gone s.cursor) :
    C.Agree L Q p q s t :=
  escape (.of_error hp (.of_gone (hg.follows hf)))

/-- An error about the current token. -/
theorem throwAt (h : C.Pair s t) (f : Token → ParseError)
    (hearly : ∀ a, (f a).cause.isFinal = false)
    (hcause : ∀ a b, (f a).cause = (f b).cause) (hpos : ∀ a, (f a).pos = a.pos) :
    C.Agree L Q (throw (f s.cursor.current) : Parse α) (throw (f t.cursor.current) : Parse β)
      s t :=
  errors h rfl fun hg => ⟨rfl, h.joins.alikeErrors hg f hearly hcause hpos⟩

theorem throwExpected (h : C.Pair s t) (what : String) :
    C.Agree L Q (throw (.expected what s.cursor) : Parse α)
      (throw (.expected what t.cursor) : Parse β) s t :=
  throwAt h (fun token => ⟨.unexpectedToken,
    s!"expected {what}, found `{token.kind.friendlyName}`", token.pos, some s!"expected {what}",
    []⟩) (fun _ => rfl) (fun _ _ => rfl) fun _ => rfl

theorem expect {kind : TokenKind} {k : Token → Parse α} {k' : Token → Parse β} (h : C.Pair s t)
    (hk : kind.isSteady = true)
    (next : s.cursor.check kind = true → C.Later s t s.skip t.skip →
      C.Agree L Q (k s.cursor.current) (k' t.cursor.current) s.skip t.skip) :
    C.Agree L Q (Parse.expect kind >>= k) (Parse.expect kind >>= k') s t := by
  have hexpect : ∀ {α : Type} (k : Token → Parse α) (s : ParserState),
      (Parse.expect kind >>= k) s =
        if s.cursor.check kind = true then k s.cursor.current s.skip
        else .error (.expected s!"`{kind.friendlyName}`" s.cursor) s := by
    intro α k s
    show EStateM.bind (Parse.expect kind) k s = _
    rw [EStateM.bind, Parse.expect_eq]
    by_cases hc : s.cursor.check kind = true
    · rw [if_pos hc, if_pos hc]
    · rw [if_neg hc, if_neg hc]
  have hsame := h.joins.check_steady hk
  cases hcheck : s.cursor.check kind with
  | true =>
      have hg : ¬C.seam.Gone s.cursor := by
        intro hg
        rw [(h.joins.check_gone hg hk).1] at hcheck
        cases hcheck
      refine via (h.skip hg) ?_ ?_ (next hcheck (h.skip hg))
      · rw [hexpect, if_pos hcheck]
      · rw [hexpect, if_pos (hsame.trans hcheck)]
  | false =>
      refine via h.refl (f := throw _) (g := throw _) ?_ ?_
        (throwExpected h s!"`{kind.friendlyName}`")
      · rw [hexpect, if_neg (by simp [hcheck])]
        rfl
      · rw [hexpect, if_neg (by simp [hsame, hcheck])]
        rfl

/-- A token that is expected, and read for nothing but its kind. -/
theorem expected {kind : TokenKind} {k : PUnit → Parse α} {k' : PUnit → Parse β}
    (h : C.Pair s t) (hk : kind.isSteady = true)
    (next : s.cursor.check kind = true → C.Later s t s.skip t.skip →
      C.Agree L Q (k ⟨⟩) (k' ⟨⟩) s.skip t.skip) :
    C.Agree L Q (Functor.discard (Parse.expect kind) >>= k)
      (Functor.discard (Parse.expect kind) >>= k') s t :=
  discard (expect h hk next)

theorem expectIdent {k : String × Position → Parse α} {k' : String × Position → Parse β}
    (h : C.Pair s t)
    (next : ∀ name, s.cursor.kind = .ident name → C.Later s t s.skip t.skip →
      C.Agree L Q (k (name, s.cursor.pos)) (k' (name, s.cursor.pos)) s.skip t.skip) :
    C.Agree L Q (Parse.expectIdent >>= k) (Parse.expectIdent >>= k') s t := by
  have hbind : ∀ {α : Type} (k : String × Position → Parse α) (s : ParserState),
      (Parse.expectIdent >>= k) s = EStateM.bind Parse.expectIdent k s := fun _ _ => rfl
  by_cases hident : ∃ name, s.cursor.kind = .ident name
  · obtain ⟨name, hname⟩ := hident
    have hg := h.not_gone (by rw [hname]; nofun) (by rw [hname]; nofun)
    have hkind : t.cursor.kind = .ident name :=
      (h.joins.kind_eq hg (by rw [hname]; rfl)).trans hname
    refine via (h.skip hg) ?_ ?_ (next name hname (h.skip hg))
    · rw [hbind, EStateM.bind, ParserState.expectIdent_of_ident hname]
      rfl
    · rw [hbind, EStateM.bind, ParserState.expectIdent_of_ident hkind, h.joins.pos hg]
      rfl
  · have hnone : ∀ name, s.cursor.kind ≠ .ident name := fun name hname => hident ⟨name, hname⟩
    have hleft : (Parse.expectIdent >>= k) s = .error (.noName s.cursor.current) s := by
      rw [hbind, EStateM.bind, ParserState.expectIdent_eq_error hnone]
    refine errors (f := .noName t.cursor.current) h hleft fun hg => ⟨?_, ?_⟩
    · rw [hbind, EStateM.bind, ParserState.expectIdent_eq_error]
      exact fun name hname => hnone name (h.joins.kind_of_right hg hname rfl)
    · exact h.joins.alikeErrors hg .noName (fun _ => rfl) (fun _ _ => rfl) fun _ => rfl

/-! ## Reports and tables -/

/-- Reports, and what follows them. -/
theorem reportAll {ds ds' : List Diagnostic} {k : PUnit → Parse α} {k' : PUnit → Parse β}
    (h : C.Pair s t) (hd : List.Forall₂ C.seam.Alike ds ds')
    (next : C.Later s t { s with problems := ⟨s.problems.items ++ ds⟩ }
        { t with problems := ⟨t.problems.items ++ ds'⟩ } →
      C.Agree L Q (k ⟨⟩) (k' ⟨⟩) { s with problems := ⟨s.problems.items ++ ds⟩ }
        { t with problems := ⟨t.problems.items ++ ds'⟩ }) :
    C.Agree L Q (Parse.reportAll ds >>= k) (Parse.reportAll ds' >>= k') s t :=
  have hlater : C.Later s t { s with problems := ⟨s.problems.items ++ ds⟩ }
      { t with problems := ⟨t.problems.items ++ ds'⟩ } :=
    h.records rfl rfl (C.report h.data hd)
  .via hlater rfl rfl (next hlater)

/-- A report, and what follows it. -/
theorem report {d d' : Diagnostic} {k : PUnit → Parse α} {k' : PUnit → Parse β}
    (h : C.Pair s t) (hd : C.seam.Alike d d')
    (next : C.Later s t { s with problems := s.problems.push d }
        { t with problems := t.problems.push d' } →
      C.Agree L Q (k ⟨⟩) (k' ⟨⟩) { s with problems := s.problems.push d }
        { t with problems := t.problems.push d' }) :
    C.Agree L Q (Parse.report d >>= k) (Parse.report d' >>= k') s t :=
  reportAll h (.cons hd .nil) next

theorem mention {σ τ : Option ScopeId} (name : String) (pos : Position) (h : C.Pair s t)
    (hs : C.scope σ τ) :
    C.Agree (Sure _) C.SameNode (Parse.mention σ name pos) (Parse.mention τ name pos) s t := by
  have hmade : ∀ (σ : Option ScopeId) (s : ParserState),
      Making.mention σ name pos s.records =
        ((s.mentioned σ name pos).1, (s.mentioned σ name pos).2.records) := by
    intro σ s
    obtain ⟨node, s', heq, hdone⟩ := Parse.mention_ok σ name pos s
    rw [s.mention_eq] at heq
    cases heq
    exact hdone.made
  obtain ⟨hgrown, hnode⟩ := C.mention name pos hs h.data
  rw [hmade, hmade] at hgrown hnode
  unfold Agree
  rw [s.mention_eq]
  exact .inr ⟨_, _, t.mention_eq .., h.records (s.mentioned_cursor ..) (t.mentioned_cursor ..)
    hgrown, hnode⟩

theorem stringOperand (text : String) (pos : Position) (h : C.Pair s t) :
    C.Agree (Sure _) C.SameCode (Parse.stringOperand text pos) (Parse.stringOperand text pos)
      s t := by
  obtain ⟨a, s', hs, hdone⟩ := Parse.stringOperand_ok text pos s
  obtain ⟨b, t', ht, hdone'⟩ := Parse.stringOperand_ok text pos t
  obtain ⟨hgrown, hnode⟩ := C.text text pos h.data
  rw [hdone.made, hdone'.made] at hgrown hnode
  have hsame : ∀ {c c' : Cursor}, c.Reads [] c' → c' = c := by
    rintro ⟨rest, eof, position, last⟩ ⟨rest', eof', position', last'⟩ hread
    obtain ⟨hr, he, hp, hl⟩ := hread
    simp_all
  unfold Agree
  rw [hs]
  exact .inr ⟨_, _, ht, h.records (hsame hdone.reads) (hsame hdone'.reads) hgrown,
    .cons hnode .nil⟩

theorem declareVariable {context context' : Context} (kind : VarScope) (name : String)
    (pos : Position) (h : C.Pair s t) (hs : C.scope context.scope context'.scope) :
    C.Agree (C.MayLose _) C.SameSymbol (Parse.declareVariable context kind name pos)
      (Parse.declareVariable context' kind name pos) s t := by
  have hlast : ∀ (context : Context) (s : ParserState),
      Parse.declareVariable context kind name pos s =
        (Parse.declareVariable context kind name pos >>= Pure.pure) s := by
    intro context s
    rw [bind_pure]
  refine via h.refl (hlast context s) (hlast context' t) ?_
  cases hd : s.table.declareIn context.scope kind name pos with
  | ok found =>
      obtain ⟨a, u⟩ := found
      rcases C.declared h.data hs hd with htaken | ⟨b, u', hd', hgrown, hsymbol⟩
      · refine escape ?_
        unfold Escapes
        rw [ParserState.declareVariable_ok hd]
        exact .inr (.inr htaken)
      · have hlater : C.Later s t
            { s with table := u, ledger := s.ledger.record a pos .declaration }
            { t with table := u', ledger := t.ledger.record b pos .declaration } :=
          h.records rfl rfl hgrown
        exact via hlater (ParserState.declareVariable_ok hd _)
          (ParserState.declareVariable_ok hd' _) (pure hlater.pair (.some hsymbol))
  | error d =>
      rcases C.refused h.data hs hd with htolerant | ⟨d', hd', halike⟩
      · refine escape ?_
        unfold Escapes
        rw [ParserState.declareVariable_error hd]
        exact .inr (.inl ⟨.inl htolerant, d, by simp [Queue.push],
          SymbolTable.isError_of_declareIn hd⟩)
      · refine via h.refl (ParserState.declareVariable_error hd _)
          (ParserState.declareVariable_error hd' _) ?_
        exact report h halike fun hlater => pure hlater.pair .none

theorem modifyVariable {a b : Symbol} {f g : Variable → Variable} (h : C.Pair s t)
    (hg : C.Grown s.records t.records (s.records.adjust a f) (t.records.adjust b g)) :
    C.Agree (Sure _) Done (Parse.modifyVariable a f) (Parse.modifyVariable b g) s t :=
  .inr ⟨⟨⟩, { t with table := t.table.modifyVariable b g }, rfl, h.records rfl rfl hg, trivial⟩

/-! ## Recovery -/

/-- An error of the left run that is reported. -/
theorem escape_report {d : Diagnostic} {k : PUnit → Parse α} (h : C.Fails s)
    (hd : d.isError = true) (ha : Parse.Along ParserState.Onward (k ⟨⟩)) :
    C.Escapes (C.MayLose α) (Parse.report d >>= k) s :=
  (h.report hd).escapes ha

/-- Both skip to where a malformed piece of text ends; if that is behind the seam,
the left run is lost. -/
theorem synchronized {set : KindSet} {k : PUnit → Parse α} {k' : PUnit → Parse β}
    (h : C.Pair s t) (herror : ∃ d ∈ s.problems.items, d.isError = true)
    (pass : ∀ token, Cursor.passes set token = true →
      Cursor.passes set (C.seam.spell token) = true)
    (stop : ∀ token ∈ (s.cursor.synchronize set).rest.head?,
      Cursor.passes set (C.seam.spell token) = false)
    (ha : Parse.Along ParserState.Onward (k ⟨⟩))
    (next : C.Later s t { s with cursor := s.cursor.synchronize set }
        { t with cursor := t.cursor.synchronize set } →
      C.Agree (C.MayLose α) Q (k ⟨⟩) (k' ⟨⟩) { s with cursor := s.cursor.synchronize set }
        { t with cursor := t.cursor.synchronize set }) :
    C.Agree (C.MayLose α) Q (Parse.moveCursor (·.synchronize set) >>= k)
      (Parse.moveCursor (·.synchronize set) >>= k') s t := by
  by_cases hg : C.seam.Gone (s.cursor.synchronize set)
  · have hlost : C.Lost { s with cursor := s.cursor.synchronize set } :=
      .inr (.inl ⟨.of_gone hg, herror⟩)
    exact escape (hlost.escapes ha)
  · have hlater := h.move (s.cursor.follows_synchronize set) (t.cursor.follows_synchronize set)
      (h.joins.skipWhile pass stop hg)
    exact via hlater rfl rfl (next hlater)

/-- Recovery with a set of kinds that tells no delimiter from another. -/
theorem recovered {set : KindSet} {k : PUnit → Parse α} {k' : PUnit → Parse β}
    (hset : ∀ token, Cursor.passes set (C.seam.spell token) = Cursor.passes set token)
    (h : C.Pair s t) (herror : ∃ d ∈ s.problems.items, d.isError = true)
    (ha : Parse.Along ParserState.Onward (k ⟨⟩))
    (next : ∀ s' t', C.Later s t s' t' →
      C.Agree (C.MayLose α) Q (k ⟨⟩) (k' ⟨⟩) s' t') :
    C.Agree (C.MayLose α) Q (Parse.recover set >>= k) (Parse.recover set >>= k') s t := by
  have hon := ParserState.Onward.inside none
  have hassoc : ∀ {γ : Type} (k : PUnit → Parse γ), (Parse.recover set >>= k) =
      Parse.moveCursor (·.synchronize set) >>= fun _ =>
        Functor.discard (Parse.eat (.mark .semicolon)) >>= k := by
    intro γ k
    unfold Parse.recover
    rw [bind_assoc]
  rw [hassoc, hassoc]
  refine synchronized h herror (fun token hp => (hset token).trans hp) (fun token ht => ?_)
    (.bind hon (.discard (hon.eat _)) fun _ => ha) fun h₁ => .discard ?_
  · have hhead : (s.cursor.synchronize set).rest.head? = some token := ht
    obtain ⟨more, hmore⟩ := List.head?_eq_some_iff.mp hhead
    rw [hset]
    exact s.cursor.skipWhile_stops _ hmore
  · exact .eat h₁.pair rfl (fun _ h₂ => next _ _ (h₁.trans h₂)) fun _ => next _ _ h₁

end Agree

end Comparison

end SslFrontend
