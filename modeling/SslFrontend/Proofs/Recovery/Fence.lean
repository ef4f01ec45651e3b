import SslFrontend.Proofs.Progress.Depth
import SslFrontend.Proofs.Symbol.Pool

/-! # In front of a semicolon

A production that stands in front of a semicolon, with nothing between that ends
a statement, opens a block or declares something, does not see what is behind
the semicolon: it does the same whatever comes there.  `Sheltered` says so, and
that the production stays in front of the semicolon, declares nothing and
reports no unclosed block.
-/

namespace SslFrontend

/-- Whether a token of this kind ends no statement, opens and closes no block,
and starts no loop with a header and no declaration. -/
def TokenKind.isInner : TokenKind → Bool
  | .mark .semicolon | .mark .lbrace | .mark .rbrace | .keyword .kwBegin | .keyword .kwEnd
  | .keyword .kwProcedure | .keyword .kwFor | .keyword .kwVariable | .keyword .kwImport
  | .keyword .kwExport | .keyword .kwCritical | .keyword .kwPure | .keyword .kwInline | .eof => false
  | _ => true

namespace ParserState

/-- The state with more tokens behind those that are left. -/
def onto (s : ParserState) (more : List Token) (eof : Position) : ParserState :=
  { s with cursor := { s.cursor with rest := s.cursor.rest ++ more, eof := eof } }

/-- Only inner tokens are left, and the semicolon behind them. -/
def Fenced (s : ParserState) : Prop :=
  ∃ inside semicolon, s.cursor.rest = inside ++ [semicolon] ∧
    semicolon.kind = .mark .semicolon ∧ ∀ token ∈ inside, token.kind.isInner = true

/-- Nothing is declared, and no unclosed block is reported. -/
structure Quiet (s t : ParserState) : Prop where
  table : t.table = { s.table with strings := t.table.strings }
  strings : s.table.strings.Grows t.table.strings
  problems : ∃ ds, t.problems.items = s.problems.items ++ ds ∧ ∀ d ∈ ds, d.cause ≠ .unclosedBlock

theorem Quiet.refl (s : ParserState) : s.Quiet s :=
  ⟨rfl, .refl _, [], (List.append_nil _).symm, fun _ h => nomatch h⟩

theorem Quiet.skip (s : ParserState) : s.Quiet s.skip :=
  ⟨rfl, .refl _, [], (List.append_nil _).symm, fun _ h => nomatch h⟩

theorem Quiet.trans {s t u : ParserState} (h₁ : s.Quiet t) (h₂ : t.Quiet u) : s.Quiet u where
  table := by rw [h₂.table, h₁.table]
  strings := h₁.strings.trans h₂.strings
  problems := by
    obtain ⟨ds, hds, hclosed⟩ := h₁.problems
    obtain ⟨ds', hds', hclosed'⟩ := h₂.problems
    refine ⟨ds ++ ds', by rw [hds', hds, List.append_assoc], fun d hd => ?_⟩
    rcases List.mem_append.mp hd with hd | hd
    · exact hclosed d hd
    · exact hclosed' d hd

namespace Fenced

variable {s : ParserState} {more : List Token} {eof : Position}

theorem current_onto (h : s.Fenced) : (s.onto more eof).cursor.current = s.cursor.current := by
  obtain ⟨inside, semicolon, hrest, -, -⟩ := h
  show (s.cursor.rest ++ more).headD _ = s.cursor.rest.headD _
  rw [hrest]
  cases inside <;> rfl

theorem kind_onto (h : s.Fenced) : (s.onto more eof).cursor.kind = s.cursor.kind := by
  unfold Cursor.kind
  rw [h.current_onto]

theorem pos_onto (h : s.Fenced) : (s.onto more eof).cursor.pos = s.cursor.pos := by
  unfold Cursor.pos
  rw [h.current_onto]

theorem check_onto (h : s.Fenced) (kind : TokenKind) :
    (s.onto more eof).cursor.check kind = s.cursor.check kind := by
  unfold Cursor.check
  rw [h.kind_onto]

/-- The current token is inner, or the semicolon. -/
theorem kind_cases (h : s.Fenced) :
    s.cursor.kind.isInner = true ∨ s.cursor.kind = .mark .semicolon ∧ ∃ token,
      s.cursor.rest = [token] := by
  obtain ⟨inside, semicolon, hrest, hsemicolon, hinside⟩ := h
  cases inside with
  | nil => exact .inr ⟨(Cursor.kind_of_rest hrest).trans hsemicolon, semicolon, hrest⟩
  | cons token inside =>
      left
      rw [Cursor.kind_of_rest (c := s.cursor) hrest]
      exact hinside token List.mem_cons_self

/-- An inner token is read, whatever is behind the semicolon. -/
theorem skip (h : s.Fenced) (more : List Token) (eof : Position)
    (hkind : s.cursor.kind ≠ .mark .semicolon) :
    s.skip.Fenced ∧ (s.onto more eof).skip = s.skip.onto more eof := by
  obtain ⟨inside, semicolon, hrest, hsemicolon, hinside⟩ := h
  obtain ⟨⟨rest, eof', position, last⟩, table, ledger, pending, problems⟩ := s
  dsimp only at hrest
  subst hrest
  cases inside with
  | nil => exact absurd hsemicolon hkind
  | cons token inside =>
      have hne : token.kind ≠ .eof := by
        intro heof
        have := hinside token List.mem_cons_self
        rw [heof] at this
        cases this
      have hskip : ∀ (rest : List Token) (eof : Position),
          Cursor.advance ⟨token :: rest, eof, position, last⟩ =
            ⟨rest, eof, position + 1, some token.pos⟩ := by
        intro rest eof
        simp [Cursor.advance, hne]
      constructor
      · refine ⟨inside, semicolon, ?_, hsemicolon, fun t ht => hinside t (List.mem_cons_of_mem _ ht)⟩
        show (Cursor.advance _).rest = _
        rw [List.cons_append, hskip]
      · simp only [ParserState.skip, onto, List.cons_append, hskip]

/-- Nothing is left behind the semicolon. -/
theorem skip_semicolon (h : s.Fenced) (hkind : s.cursor.kind = .mark .semicolon) :
    s.skip.cursor.rest = [] := by
  obtain hinner | ⟨-, token, hrest⟩ := h.kind_cases
  · rw [hkind] at hinner
    cases hinner
  · show s.cursor.advance.rest = []
    rw [Cursor.kind_of_rest hrest] at hkind
    unfold Cursor.advance
    rw [hrest]
    simp [hkind]

end Fenced

end ParserState

namespace Parse

variable {α β : Type} {s t : ParserState} {more : List Token} {eof : Position}

/-- What a production ends with in front of the semicolon. -/
def Stays (more : List Token) (eof : Position) (p : Parse α) (s : ParserState) : Prop :=
  match p s with
  | .ok a t => t.Fenced ∧ s.Quiet t ∧ p (s.onto more eof) = .ok a (t.onto more eof)
  | .error e t => t.Fenced ∧ s.Quiet t ∧ e.cause ≠ .unclosedBlock ∧
      p (s.onto more eof) = .error e (t.onto more eof)

/-- In front of a semicolon, a production stays there and does not see what is
behind it. -/
def Sheltered (more : List Token) (eof : Position) (p : Parse α) : Prop :=
  ∀ s, s.Fenced → Stays more eof p s

namespace Stays

theorem of_ok {p : Parse α} {a : α} (h : Stays more eof p s) (hp : p s = .ok a t) :
    t.Fenced ∧ s.Quiet t ∧ p (s.onto more eof) = .ok a (t.onto more eof) := by
  unfold Stays at h
  rwa [hp] at h

theorem of_error {p : Parse α} {e : ParseError} (h : Stays more eof p s) (hp : p s = .error e t) :
    t.Fenced ∧ s.Quiet t ∧ e.cause ≠ .unclosedBlock ∧
      p (s.onto more eof) = .error e (t.onto more eof) := by
  unfold Stays at h
  rwa [hp] at h

/-- It goes on as another production does from a later state. -/
theorem via {p q : Parse α} (hq : s.Quiet t) (hp : p s = q t)
    (hmore : p (s.onto more eof) = q (t.onto more eof)) (h : Stays more eof q t) :
    Stays more eof p s := by
  unfold Stays at h ⊢
  rw [hp, hmore]
  cases hr : q t with
  | ok a u =>
      rw [hr] at h
      exact ⟨h.1, hq.trans h.2.1, h.2.2⟩
  | error e u =>
      rw [hr] at h
      exact ⟨h.1, hq.trans h.2.1, h.2.2⟩

theorem ok {p : Parse α} {a : α} (hp : p s = .ok a t) (hf : t.Fenced) (hq : s.Quiet t)
    (hmore : p (s.onto more eof) = .ok a (t.onto more eof)) : Stays more eof p s := by
  unfold Stays
  rw [hp]
  exact ⟨hf, hq, hmore⟩

theorem error {p : Parse α} {e : ParseError} (hp : p s = .error e s) (hf : s.Fenced)
    (he : e.cause ≠ .unclosedBlock) (hmore : p (s.onto more eof) = .error e (s.onto more eof)) :
    Stays more eof p s := by
  unfold Stays
  rw [hp]
  exact ⟨hf, .refl s, he, hmore⟩

theorem bind {p : Parse α} {k : α → Parse β} (hp : Stays more eof p s)
    (hk : ∀ a t, t.Fenced → p s = .ok a t → Stays more eof (k a) t) :
    Stays more eof (p >>= k) s := by
  have hbind : ∀ s, (p >>= k) s = EStateM.bind p k s := fun _ => rfl
  unfold Stays
  cases hr : p s with
  | error e t =>
      obtain ⟨hf, hq, he, hmore⟩ := hp.of_error hr
      rw [hbind, hbind, EStateM.bind, EStateM.bind, hr, hmore]
      exact ⟨hf, hq, he, rfl⟩
  | ok a t =>
      obtain ⟨hf, hq, hmore⟩ := hp.of_ok hr
      have hnext := hk a t hf hr
      unfold Stays at hnext
      rw [hbind, hbind, EStateM.bind, EStateM.bind, hr, hmore]
      dsimp only
      cases hr' : k a t with
      | ok b u =>
          rw [hr'] at hnext
          exact ⟨hnext.1, hq.trans hnext.2.1, hnext.2.2⟩
      | error e u =>
          rw [hr'] at hnext
          exact ⟨hnext.1, hq.trans hnext.2.1, hnext.2.2⟩

theorem pure (a : α) (hf : s.Fenced) : Stays more eof (pure a) s :=
  .ok rfl hf (.refl s) rfl

theorem throw {e : ParseError} (hf : s.Fenced) (he : e.cause ≠ .unclosedBlock) :
    Stays more eof (throw e : Parse α) s :=
  .error rfl hf he rfl

theorem ite {c : Prop} [Decidable c] {p q : Parse α} (hp : c → Stays more eof p s)
    (hq : ¬c → Stays more eof q s) : Stays more eof (if c then p else q) s := by
  by_cases h : c
  · rw [if_pos h]
    exact hp h
  · rw [if_neg h]
    exact hq h

/-- A production by itself, with nothing behind it. -/
theorem alone {p : Parse α} (h : Stays more eof (p >>= Pure.pure) s) : Stays more eof p s := by
  rwa [bind_pure] at h

theorem discard {p : Parse α} {k : PUnit → Parse β}
    (h : Stays more eof (p >>= fun _ => k ⟨⟩) s) : Stays more eof (discard p >>= k) s :=
  .via (.refl s) discard_bind discard_bind h

/-! ## Primitives -/

/-- The cursor is looked at, but nothing behind the semicolon is. -/
theorem cursor {k : Cursor → Parse β} (h : Stays more eof (k s.cursor) s)
    (hmore : k (s.onto more eof).cursor (s.onto more eof) = k s.cursor (s.onto more eof)) :
    Stays more eof (Parse.cursor >>= k) s :=
  .via (.refl s) (q := k s.cursor) rfl hmore h

theorem kind {k : TokenKind → Parse β} (hf : s.Fenced) (h : Stays more eof (k s.cursor.kind) s) :
    Stays more eof (Parse.kind >>= k) s :=
  .via (.refl s) (q := k s.cursor.kind) rfl (congrArg (k · (s.onto more eof)) hf.kind_onto) h

theorem pos {k : Position → Parse β} (hf : s.Fenced) (h : Stays more eof (k s.cursor.pos) s) :
    Stays more eof (Parse.pos >>= k) s :=
  .via (.refl s) (q := k s.cursor.pos) rfl (congrArg (k · (s.onto more eof)) hf.pos_onto) h

theorem check {kind : TokenKind} {k : Bool → Parse β} (hf : s.Fenced)
    (h : Stays more eof (k (s.cursor.check kind)) s) : Stays more eof (Parse.check kind >>= k) s :=
  .via (.refl s) (q := k (s.cursor.check kind)) rfl
    (congrArg (k · (s.onto more eof)) (hf.check_onto kind)) h

theorem advance {k : Token → Parse β} (hf : s.Fenced) (hkind : s.cursor.kind ≠ .mark .semicolon)
    (h : s.skip.Fenced → Stays more eof (k s.cursor.current) s.skip) :
    Stays more eof (Parse.advance >>= k) s := by
  obtain ⟨hskip, hmore⟩ := hf.skip more eof hkind
  refine .via (.skip s) advance_bind ?_ (h hskip)
  rw [advance_bind, hf.current_onto, hmore]

/-- The token is not looked at. -/
theorem skip {p : Parse β} (hf : s.Fenced) (hkind : s.cursor.kind ≠ .mark .semicolon)
    (h : s.skip.Fenced → Stays more eof p s.skip) :
    Stays more eof (Functor.discard Parse.advance >>= fun _ => p) s :=
  .discard (.advance hf hkind h)

/-- A mark that is no semicolon is read if it is there. -/
theorem eat {sign : Mark} {k : Bool → Parse β} (hsign : sign ≠ .semicolon) (hf : s.Fenced)
    (yes : s.cursor.check (.mark sign) = true → s.skip.Fenced → Stays more eof (k true) s.skip)
    (no : ¬s.cursor.check (.mark sign) = true → Stays more eof (k false) s) :
    Stays more eof (Parse.eat (.mark sign) >>= k) s := by
  have heat : ∀ s : ParserState, (Parse.eat (.mark sign) >>= k) s =
      if s.cursor.check (.mark sign) = true then k true s.skip else k false s := by
    intro s
    show EStateM.bind (Parse.eat (.mark sign)) k s = _
    rw [EStateM.bind, eat_eq]
    by_cases hc : s.cursor.check (.mark sign) = true
    · rw [if_pos hc, if_pos hc]
    · rw [if_neg hc, if_neg hc]
  by_cases hc : s.cursor.check (.mark sign) = true
  · have hkind : s.cursor.kind ≠ .mark .semicolon := by
      rw [Cursor.kind_of_check_mark hc]
      exact fun h => hsign (TokenKind.mark.inj h)
    obtain ⟨hskip, hmore⟩ := hf.skip more eof hkind
    refine .via (.skip s) ?_ ?_ (yes hc hskip)
    · rw [heat, if_pos hc]
    · rw [heat, hf.check_onto, if_pos hc, hmore]
  · refine .via (.refl s) ?_ ?_ (no hc)
    · rw [heat, if_neg hc]
    · rw [heat, hf.check_onto, if_neg hc]

/-- What is expected, no semicolon, is read, or it is an error. -/
theorem expect {kind : TokenKind} {k : Token → Parse β} (hkind : kind.index ≠ (TokenKind.mark .semicolon).index)
    (hf : s.Fenced)
    (h : s.cursor.check kind = true → s.skip.Fenced → Stays more eof (k s.cursor.current) s.skip) :
    Stays more eof (Parse.expect kind >>= k) s := by
  by_cases hc : s.cursor.check kind = true
  · refine .via (.refl s) (q := Parse.advance >>= k) ?_ ?_ (.advance hf ?_ (h hc))
    · rw [advance_bind]
      exact bind_ok (by rw [expect_eq, if_pos hc])
    · rw [advance_bind]
      exact bind_ok (by rw [expect_eq, hf.check_onto, if_pos hc])
    · intro hs
      have := Cursor.check_eq_true hc
      rw [hs] at this
      exact hkind this.symm
  · have herror : ∀ {s : ParserState}, s.cursor.check kind ≠ true →
        (Parse.expect kind >>= k) s =
          .error (.expected s!"`{kind.friendlyName}`" s.cursor) s := by
      intro s hc
      show EStateM.bind (Parse.expect kind) k s = _
      rw [EStateM.bind, expect_eq, if_neg hc]
    have hsame : ParseError.expected s!"`{kind.friendlyName}`" (s.onto more eof).cursor =
        .expected s!"`{kind.friendlyName}`" s.cursor := by
      unfold ParseError.expected
      rw [hf.kind_onto, hf.pos_onto]
    refine .error (herror hc) hf nofun ?_
    rw [herror (by rwa [hf.check_onto]), hsame]

theorem report {d : Diagnostic} {k : PUnit → Parse β} (hf : s.Fenced)
    (hd : d.cause ≠ .unclosedBlock)
    (h : ∀ t, t.Fenced → Stays more eof (k ⟨⟩) t) : Stays more eof (Parse.report d >>= k) s := by
  refine .bind (.ok rfl hf ⟨rfl, .refl _, [d], rfl, ?_⟩ rfl) fun _ t ht _ => h t ht
  intro d' hd'
  rw [List.mem_singleton.mp hd']
  exact hd

/-- A name is read, or it is an error. -/
theorem expectIdent {k : String × Position → Parse β} (hf : s.Fenced)
    (h : ∀ name, s.skip.Fenced → Stays more eof (k (name, s.cursor.pos)) s.skip) :
    Stays more eof (Parse.expectIdent >>= k) s := by
  by_cases hident : ∃ name, s.cursor.kind = .ident name
  · obtain ⟨name, hk⟩ := hident
    obtain ⟨hskip, hmore⟩ := hf.skip more eof (by rw [hk]; nofun)
    have hkind : (s.onto more eof).cursor.kind = .ident name := hf.kind_onto.trans hk
    refine .via (.skip s) (bind_ok (ParserState.expectIdent_of_ident hk)) ?_ (h name hskip)
    rw [bind_ok (ParserState.expectIdent_of_ident hkind), hf.pos_onto]
    exact congrArg (k (name, s.cursor.pos)) hmore
  · have hno : ∀ name, s.cursor.kind ≠ .ident name := fun name hk => hident ⟨name, hk⟩
    have hno' : ∀ name, (s.onto more eof).cursor.kind ≠ .ident name := by
      rwa [hf.kind_onto]
    have herror := ParserState.expectIdent_eq_error hno'
    rw [hf.current_onto] at herror
    exact .bind (.error (ParserState.expectIdent_eq_error hno) hf nofun herror) fun _ _ _ hok =>
      nomatch (ParserState.expectIdent_eq_error hno).symm.trans hok

theorem mention {scope : Option ScopeId} {name : String} {pos : Position} {k : Node → Parse β}
    (hf : s.Fenced)
    (h : ∀ node t, t.Fenced → t.cursor = s.cursor → Stays more eof (k node) t) :
    Stays more eof (Parse.mention scope name pos >>= k) s := by
  have hnode : (s.onto more eof).mentioned scope name pos =
      ((s.mentioned scope name pos).1, (s.mentioned scope name pos).2.onto more eof) := by
    have htable : (s.onto more eof).table = s.table := rfl
    unfold ParserState.mentioned
    rw [htable]
    cases s.table.lookupDeclared scope name <;> rfl
  have hcursor := s.mentioned_cursor scope name pos
  refine .bind (.ok (s.mention_eq scope name pos) ?_ ?_ ?_) fun node t ht hok => h node t ht ?_
  · unfold ParserState.Fenced
    rw [hcursor]
    exact hf
  · have htable := s.mentioned_table scope name pos
    have hproblems := s.mentioned_problems scope name pos
    refine ⟨by rw [htable], by rw [htable]; exact .refl _, [], ?_, fun _ h => nomatch h⟩
    rw [hproblems, List.append_nil]
  · rw [ParserState.mention_eq, hnode]
  · cases (s.mention_eq scope name pos).symm.trans hok
    exact hcursor

end Stays

end Parse

end SslFrontend
