import SslFrontend.Proofs.Grammar.ExpressionRecovery
import SslFrontend.Proofs.Grammar.Lookahead
import SslFrontend.Proofs.Recovery.Fence

/-! # Statements in front of a semicolon

Every part of an expression is sheltered (`expression_sheltered`): it ends in
front of the semicolon, with the same code or the same error whatever is behind.

A statement in front of a semicolon ends with the semicolon, or it is an error
in front of it (`statement_stops`).  No statement reads past the semicolon and is
an error behind it, so that the error is the same whatever comes there.
-/

/-! ## Expressions in front of a semicolon -/

namespace SslFrontend.Parse

variable {α β : Type} {more : List Token} {eof : Position}

/-! ## Rounds -/

theorem rounds_sheltered {round : α → Parse (α ⊕ β)} (h : ∀ a, Sheltered more eof (round a))
    (bound : Nat) (a : α) : Sheltered more eof (rounds round bound a) := by
  induction bound generalizing a with
  | zero =>
      intro s hs
      refine .cursor (.throw hs nofun) ?_
      unfold ParseError.stalled
      rw [hs.pos_onto]
  | succ bound ih =>
      refine fun s hs => .bind (h a s hs) fun r t ht _ => ?_
      cases r with
      | inl next => exact ih next t ht
      | inr last => exact .pure last ht

theorem repeatRounds_sheltered {round : α → Parse (α ⊕ β)} (hc : Consumes round)
    (hf : ∀ a, Forward (round a)) (h : ∀ a, Sheltered more eof (round a)) (a : α) :
    Sheltered more eof (repeatRounds round a) := by
  intro s hs
  have hless : ∀ t : ParserState, t.cursor.rest.length ≤ (s.onto more eof).cursor.rest.length →
      repeatRounds round a t = rounds round ((s.onto more eof).cursor.rest.length + 1) a t :=
    fun t ht => (rounds_eq_repeatRounds hc hf (Nat.lt_succ_of_le ht) a).symm
  refine .via (.refl s) (hless s ?_) (hless _ (Nat.le_refl _)) (rounds_sheltered h _ a s hs)
  show s.cursor.rest.length ≤ (s.cursor.rest ++ more).length
  rw [List.length_append]
  exact Nat.le_add_right _ _

/-! ## Operands -/

variable {scope : Option ScopeId} {inner : Parse Code}

/-- The tokens that a test takes from those that are left, if it does not take
the semicolon. -/
theorem taken_inside {s : ParserState} (hs : s.Fenced) {p : Token → Bool}
    (hp : ∀ token : Token, token.kind = .mark .semicolon → p token = false) :
    ∃ taken inside semicolon, s.cursor.rest = taken ++ (inside ++ [semicolon]) ∧
      semicolon.kind = .mark .semicolon ∧ (∀ token ∈ inside, token.kind.isInner = true) ∧
      ∀ more, (s.cursor.rest ++ more).takeWhile p = taken := by
  obtain ⟨inside, semicolon, hrest, hsemicolon, hinside⟩ := hs
  refine ⟨inside.takeWhile p, inside.dropWhile p, semicolon, ?_, hsemicolon, fun token ht =>
    hinside token ((List.dropWhile_sublist p).subset ht), fun more => ?_⟩
  · rw [← List.append_assoc, List.takeWhile_append_dropWhile, hrest]
  · have hstop : (semicolon :: more).takeWhile p = [] := by
      rw [List.takeWhile_cons_of_neg]
      rw [hp semicolon hsemicolon]
      exact Bool.false_ne_true
    rw [hrest, List.append_assoc, List.takeWhile_append, List.singleton_append, hstop,
      List.append_nil]
    split <;> rename_i h
    · exact (List.takeWhile_prefix p).eq_of_length h |>.symm
    · rfl

theorem unaryRun_sheltered : Sheltered more eof unaryRun := by
  intro s hs
  obtain ⟨taken, inside, semicolon, hrest, hsemicolon, hinside, htaken⟩ :=
    taken_inside hs (p := fun token => (Operator.unary? token.kind).isSome) fun token ht => by
      rw [ht]
      rfl
  have hread : ∀ (s : ParserState) {behind : List Token}, s.cursor.rest = taken ++ behind →
      s.cursor.rest.takeWhile (fun token => (Operator.unary? token.kind).isSome) = taken →
      unaryRun s = .ok
        (taken.filterMap fun token => (Operator.unary? token.kind).map (Node.op · token.pos))
        { s with cursor := ⟨behind, s.cursor.eof, s.cursor.position + taken.length,
            (taken.getLast?.map Token.pos).or s.cursor.last?⟩ } := by
    intro s behind hrest htake
    have hskip : s.cursor.skipWhile (fun token => (Operator.unary? token.kind).isSome) =
        ⟨behind, s.cursor.eof, s.cursor.position + taken.length,
          (taken.getLast?.map Token.pos).or s.cursor.last?⟩ := by
      simp only [Cursor.skipWhile, htake]
      rw [hrest, List.drop_left]
    rw [← hskip, ← htake]
    rfl
  refine .ok (hread s hrest ?_) ⟨inside, semicolon, rfl, hsemicolon, hinside⟩ ?_ ?_
  · have := htaken []
    rwa [List.append_nil] at this
  · exact ⟨rfl, .refl _, [], (List.append_nil _).symm, by simp⟩
  · have hrest' : (s.onto more eof).cursor.rest = taken ++ (inside ++ [semicolon] ++ more) := by
      show s.cursor.rest ++ more = _
      rw [hrest, List.append_assoc]
    exact hread (s.onto more eof) hrest' (htaken more)

theorem argumentRun_sheltered (hi : Sheltered more eof inner) (hf : Forward inner) :
    Sheltered more eof (argumentRun inner) := by
  refine repeatRounds_sheltered (argumentRound_consumes hf)
    ((inside_forward none).argumentRound_along hf) (fun found s hs => ?_) _
  refine .bind (hi s hs) fun _ t ht _ => ?_
  exact .eat nofun ht (fun _ hs => .ite (fun _ => .pure _ hs) fun _ => .pure _ hs)
    fun _ => .ite (fun _ => .pure _ ht) fun _ => .pure _ ht

/-- What is expected last, no semicolon. -/
theorem closed_sheltered {kind : TokenKind} (hkind : kind.index ≠ (TokenKind.mark .semicolon).index)
    (a : α) : Sheltered more eof (do
      discard <| expect kind
      return a : Parse α) :=
  fun _ hs => .discard (.expect hkind hs fun _ hs => .pure a hs)

theorem arguments_sheltered (hi : Sheltered more eof inner) (hf : Forward inner) :
    Sheltered more eof (arguments inner) := by
  have hclose : ∀ found : Code × Nat, Sheltered more eof (do
      discard <| expect (.mark .rparen)
      return found : Parse (Code × Nat)) := closed_sheltered (by decide)
  refine fun s hs => .check hs (.ite (fun _ => hclose ([], 0) s hs) fun _ => ?_)
  exact .bind (argumentRun_sheltered hi hf s hs) fun found t ht _ => hclose found t ht

theorem stringOperand_sheltered (text : String) (pos : Position) :
    Sheltered more eof (stringOperand text pos) := by
  intro s hs
  have hmore := stringOperand_eq text pos (s.onto more eof)
  have hs' := stringOperand_eq text pos s
  have htable : (s.onto more eof).table = s.table := rfl
  rw [htable] at hmore
  cases hi : s.table.strings.intern text with
  | ok found =>
      rw [hi] at hs' hmore
      exact .ok hs' hs ⟨rfl, (Pool.intern_spec hi).1, [], (List.append_nil _).symm,
        by simp⟩ hmore
  | error e =>
      rw [hi] at hs' hmore
      refine .ok hs' hs ⟨rfl, .refl _, [SymbolTable.refused pos e], rfl, fun d hd => ?_⟩ hmore
      rw [List.mem_singleton.mp hd]
      exact (by decide : Cause.expectedIdentifier ≠ Cause.unclosedBlock)

theorem primary_sheltered (hi : Sheltered more eof inner) (hf : Forward inner) :
    Sheltered more eof (primary scope inner) := by
  intro s hs
  have hcurrent : (s.onto more eof).cursor.current = s.cursor.current := hs.current_onto
  refine .cursor ?_ (by dsimp only; rw [hcurrent])
  have hne : ∀ {kind : TokenKind}, s.cursor.current.kind = kind → kind ≠ .mark .semicolon →
      s.cursor.kind ≠ .mark .semicolon := fun hk hkind => by
    rwa [show s.cursor.kind = _ from hk]
  dsimp only
  cases hkind : s.cursor.current.kind with
  | int n => exact .skip hs (hne hkind nofun) (.pure _)
  | float x => exact .skip hs (hne hkind nofun) (.pure _)
  | str text => exact .skip hs (hne hkind nofun) (stringOperand_sheltered text _ _)
  | ident name =>
      refine .skip hs (hne hkind nofun) fun hs => .mention hs fun callee t ht _ => ?_
      refine .eat nofun ht (fun _ ht => .ite (fun _ => ?_) fun _ => .pure _ ht)
        fun _ => .ite (fun h => nomatch h) fun _ => .pure _ ht
      exact .bind (arguments_sheltered hi hf _ ht) fun _ _ ht _ => .pure _ ht
  | keyword word =>
      cases word with
      | kwTrue | kwFalse => exact .skip hs (hne hkind nofun) (.pure _)
      | _ => exact .throw hs nofun
  | mark sign =>
      cases sign with
      | atSign =>
          refine .skip hs (hne hkind nofun) fun hs => .expectIdent hs fun name hs => ?_
          exact .mention hs fun _ _ ht _ => .pure _ ht
      | lparen =>
          refine .skip hs (hne hkind nofun) fun hs => .bind (hi _ hs) fun code t ht _ => ?_
          exact closed_sheltered (by decide) code t ht
      | _ => exact .throw hs nofun
  | included path => exact .throw hs nofun
  | invalid => exact .skip hs (hne hkind nofun) (.pure _)
  | eof => exact .throw hs nofun

theorem indices_sheltered (hi : Sheltered more eof inner) (hf : Forward inner) (code : Code) :
    Sheltered more eof (indices inner code) := by
  refine repeatRounds_sheltered (indexRound_consumes hf)
    ((inside_forward none).indexRound_along hf) (fun code s hs => ?_) code
  refine .check hs (.ite (fun hc => ?_) fun _ => .pure _ hs)
  have hmark := Cursor.kind_of_check_mark hc
  refine .advance hs (by rw [hmark]; nofun) fun hs => .bind (hi _ hs) fun _ t ht _ => ?_
  exact closed_sheltered (by decide) _ t ht

theorem operand_sheltered (hi : Sheltered more eof inner) (hf : Forward inner) :
    Sheltered more eof (operand scope inner) := by
  refine fun s hs => .bind (unaryRun_sheltered s hs) fun _ t ht _ => ?_
  refine .bind (primary_sheltered hi hf t ht) fun code t ht _ => ?_
  exact .bind (indices_sheltered hi hf code t ht) fun _ _ ht _ => .pure _ ht

theorem chainRun_sheltered (hi : Sheltered more eof inner) (hf : Forward inner) :
    Sheltered more eof (chainRun scope inner) := by
  refine repeatRounds_sheltered (linkRound_consumes hf)
    ((inside_forward scope).linkRound_along hf) (fun links s hs => .kind hs ?_) _
  cases hop : Operator.binary? s.cursor.kind with
  | none => exact .pure _ hs
  | some found =>
      refine .advance hs (fun hk => ?_) fun hs =>
        .bind (operand_sheltered hi hf _ hs) fun _ _ ht _ => .pure _ ht
      rw [hk] at hop
      cases hop

theorem expressionTo_sheltered (depth : Nat) : Sheltered more eof (expressionTo scope depth) := by
  have h := inside_forward scope
  induction depth with
  | zero =>
      intro s hs
      refine .cursor (.throw hs nofun) ?_
      unfold ParseError.stalled
      rw [hs.pos_onto]
  | succ depth ih =>
      have hf : Forward (expressionTo scope depth) := h.expressionTo_along depth
      refine fun s hs => .bind (operand_sheltered ih hf s hs) fun _ t ht _ => ?_
      exact .bind (chainRun_sheltered ih hf t ht) fun _ _ ht _ => .pure _ ht

theorem expression_sheltered : Sheltered more eof (expression scope) := by
  intro s hs
  have hdeep := expressions_nested.deep_below_whole ((s.onto more eof).cursor.rest.length + 1) scope
  refine .via (.refl s) (hdeep s ?_).symm (hdeep _ (Nat.lt_succ_self _)).symm
    (expressionTo_sheltered _ s hs)
  show s.cursor.rest.length < (s.cursor.rest ++ more).length + 1
  rw [List.length_append]
  omega

end SslFrontend.Parse

namespace SslFrontend

namespace Assignment

/-- The look ahead for a bracket's end stops at a semicolon. -/
theorem afterBrackets?_fenced (depth : Nat) (inside : List Token) (pos : Position) :
    ∃ found : Option (List Token), ∀ more,
      afterBrackets? depth (inside ++ ⟨.mark .semicolon, pos⟩ :: more) =
        found.map (· ++ ⟨.mark .semicolon, pos⟩ :: more) := by
  induction inside generalizing depth with
  | nil => exact ⟨none, fun _ => rfl⟩
  | cons token inside ih =>
      obtain ⟨kind, pos'⟩ := token
      cases kind with
      | mark sign =>
          cases sign with
          | lbracket => exact ih (depth + 1)
          | rbracket => cases depth with
            | zero => exact ⟨some inside, fun _ => rfl⟩
            | succ outer => exact ih outer
          | semicolon => exact ⟨none, fun _ => rfl⟩
          | _ => exact ih depth
      | eof => exact ⟨none, fun _ => rfl⟩
      | _ => exact ih depth

theorem afterTarget?_fenced (inside : List Token) (pos : Position) :
    ∃ found : Option (List Token), ∀ more,
      afterTarget? (inside ++ ⟨.mark .semicolon, pos⟩ :: more) =
        found.map (· ++ ⟨.mark .semicolon, pos⟩ :: more) := by
  cases inside with
  | nil => exact ⟨none, fun _ => rfl⟩
  | cons token inside =>
      obtain ⟨kind, pos'⟩ := token
      cases kind with
      | ident name =>
          cases inside with
          | nil => exact ⟨some [], fun _ => rfl⟩
          | cons token inside =>
              by_cases hbracket : token.kind = .mark .lbracket
              · obtain ⟨kind, opened⟩ := token
                cases hbracket
                exact afterBrackets?_fenced 0 inside pos
              · exact ⟨some (token :: inside), fun _ => afterTarget?_scalar hbracket⟩
      | _ => exact ⟨none, fun _ => rfl⟩

/-- The look ahead for an assignment does not see what is behind the semicolon. -/
theorem isNext_onto {s : ParserState} {more : List Token} {eof : Position} (hs : s.Fenced) :
    isNext (s.onto more eof).cursor.rest = isNext s.cursor.rest := by
  obtain ⟨inside, ⟨kind, pos⟩, hrest, hkind, -⟩ := hs
  cases hkind
  obtain ⟨found, hfound⟩ := afterTarget?_fenced inside pos
  show isNext (s.cursor.rest ++ more) = _
  rw [hrest, List.append_assoc, List.singleton_append]
  unfold isNext
  rw [hfound, hfound]
  cases found with
  | none => rfl
  | some front => cases front <;> rfl

/-- What the look ahead for an assignment finds. -/
theorem exists_of_isNext {tokens : List Token} (h : isNext tokens = true) :
    ∃ name pos rest op tail, tokens = ⟨.ident name, pos⟩ :: rest ∧ (ofKind? op.kind).isSome = true ∧
      (rest = op :: tail ∨ ∃ opened inside, rest = ⟨.mark .lbracket, opened⟩ :: inside ∧
        afterBrackets? 0 inside = some (op :: tail)) := by
  obtain _ | ⟨⟨kind, pos⟩, rest⟩ := tokens
  · cases h
  cases kind with
  | ident name =>
      have hfound : ∀ {behind : List Token}, afterTarget? (⟨.ident name, pos⟩ :: rest) = some behind →
          ∃ op tail, behind = op :: tail ∧ (ofKind? op.kind).isSome = true := by
        intro behind hbehind
        rw [isNext_of_after hbehind] at h
        cases behind with
        | nil => cases h
        | cons op tail => exact ⟨op, tail, rfl, h⟩
      obtain _ | ⟨token, inside⟩ := rest
      · obtain ⟨op, tail, heq, -⟩ := hfound rfl
        cases heq
      by_cases hbracket : token.kind = .mark .lbracket
      · obtain ⟨kind, opened⟩ := token
        cases hbracket
        cases hafter : afterBrackets? 0 inside with
        | none =>
            unfold isNext at h
            have hnone : afterTarget? (⟨.ident name, pos⟩ :: ⟨.mark .lbracket, opened⟩ :: inside) =
                none := hafter
            rw [hnone] at h
            cases h
        | some behind =>
            have hbehind : afterTarget? (⟨.ident name, pos⟩ :: ⟨.mark .lbracket, opened⟩ :: inside) =
                some behind := hafter
            obtain ⟨op, tail, rfl, hop⟩ := hfound hbehind
            exact ⟨name, pos, _, op, tail, rfl, hop, .inr ⟨opened, inside, rfl, hafter⟩⟩
      · obtain ⟨op, tail, heq, hop⟩ := hfound (afterTarget?_scalar hbracket)
        exact ⟨name, pos, _, op, tail, rfl, hop, .inl heq⟩
  | _ => cases h

end Assignment

namespace Parse

variable {α β : Type} {s t : ParserState} {more : List Token} {eof : Position}

/-- What a statement ends with in front of the semicolon. -/
def Stops (more : List Token) (eof : Position) (p : Parse α) (s : ParserState) : Prop :=
  match p s with
  | .ok _ t => t.cursor.rest = []
  | .error e t => t.Fenced ∧ s.Quiet t ∧ e.cause ≠ .unclosedBlock ∧
      p (s.onto more eof) = .error e (t.onto more eof)

namespace Stops

theorem of_error {p : Parse α} {e : ParseError} (h : Stops more eof p s) (hp : p s = .error e t) :
    t.Fenced ∧ s.Quiet t ∧ e.cause ≠ .unclosedBlock ∧
      p (s.onto more eof) = .error e (t.onto more eof) := by
  unfold Stops at h
  rwa [hp] at h

theorem ok {p : Parse α} {a : α} (hp : p s = .ok a t) (ht : t.cursor.rest = []) :
    Stops more eof p s := by
  unfold Stops
  rw [hp]
  exact ht

/-- What has not come to the semicolon is followed by what comes to it. -/
theorem behind {p : Parse α} {k : α → Parse β} (hp : Stays more eof p s)
    (hk : ∀ a t, t.Fenced → p s = .ok a t → Stops more eof (k a) t) :
    Stops more eof (p >>= k) s := by
  have hbind : ∀ s, (p >>= k) s = EStateM.bind p k s := fun _ => rfl
  unfold Stops
  cases hr : p s with
  | error e t =>
      obtain ⟨hf, hq, he, hmore⟩ := hp.of_error hr
      rw [hbind, hbind, EStateM.bind, EStateM.bind, hr, hmore]
      exact ⟨hf, hq, he, rfl⟩
  | ok a t =>
      obtain ⟨hf, hq, hmore⟩ := hp.of_ok hr
      have hnext := hk a t hf hr
      unfold Stops at hnext
      rw [hbind, hbind, EStateM.bind, EStateM.bind, hr, hmore]
      dsimp only
      cases hr' : k a t with
      | ok b u =>
          rw [hr'] at hnext
          exact hnext
      | error e u =>
          rw [hr'] at hnext
          exact ⟨hnext.1, hq.trans hnext.2.1, hnext.2.2⟩

/-- What came to the semicolon is followed by what reads nothing more. -/
theorem last {p : Parse α} {k : α → Parse β} (hp : Stops more eof p s)
    (hk : ∀ a t, t.cursor.rest = [] → ∃ b, k a t = .ok b t) : Stops more eof (p >>= k) s := by
  have hbind : ∀ s, (p >>= k) s = EStateM.bind p k s := fun _ => rfl
  unfold Stops at hp ⊢
  cases hr : p s with
  | error e t =>
      rw [hr] at hp
      obtain ⟨hf, hq, he, hmore⟩ := hp
      rw [hbind, hbind, EStateM.bind, EStateM.bind, hr, hmore]
      exact ⟨hf, hq, he, rfl⟩
  | ok a t =>
      rw [hr] at hp
      obtain ⟨b, hb⟩ := hk a t hp
      rw [hbind, EStateM.bind, hr]
      dsimp only
      rw [hb]
      exact hp

theorem ite {c : Prop} [Decidable c] {p q : Parse α} (hp : c → Stops more eof p s)
    (hq : ¬c → Stops more eof q s) : Stops more eof (if c then p else q) s := by
  by_cases h : c
  · rw [if_pos h]
    exact hp h
  · rw [if_neg h]
    exact hq h

theorem discard {p : Parse α} {k : PUnit → Parse β}
    (h : Stops more eof (p >>= fun _ => k ⟨⟩) s) : Stops more eof (discard p >>= k) s := by
  have hsame : (Functor.discard p >>= k) = (p >>= fun _ => k ⟨⟩) := funext fun _ => discard_bind
  rwa [hsame]

/-- What is expected, no semicolon, is read, or it is an error. -/
theorem expected {kind : TokenKind} {k : Parse β}
    (hkind : kind.index ≠ (TokenKind.mark .semicolon).index) (hf : s.Fenced)
    (h : ∀ t, t.Fenced → Stops more eof k t) :
    Stops more eof (Functor.discard (Parse.expect kind) >>= fun _ => k) s :=
  .discard (.behind (.alone (.expect hkind hf fun _ => .pure _)) fun _ t ht _ => h t ht)

theorem token {k : Token → Parse β} (hf : s.Fenced) (hkind : s.cursor.kind ≠ .mark .semicolon)
    (h : s.skip.Fenced → Stops more eof (k s.cursor.current) s.skip) :
    Stops more eof (Parse.advance >>= k) s := by
  refine .behind (.alone (.advance hf hkind (.pure _))) ?_
  rintro _ _ ht ⟨⟩
  exact h ht

/-- The semicolon is read, or it is not there. -/
theorem semicolon {k : Parse β} (hf : s.Fenced) (hk : ∀ t, ∃ b, k t = .ok b t) :
    Stops more eof (Functor.discard (Parse.expect (.mark .semicolon)) >>= fun _ => k) s := by
  refine .discard (.last ?_ fun _ t _ => hk t)
  have hcheck : (s.onto more eof).cursor.check (.mark .semicolon) =
      s.cursor.check (.mark .semicolon) := hf.check_onto _
  by_cases hc : s.cursor.check (.mark .semicolon) = true
  · exact .ok (t := s.skip) (by rw [expect_eq, if_pos hc])
      (hf.skip_semicolon (Cursor.kind_of_check_mark hc))
  · have hsame : ParseError.expected s!"`{(TokenKind.mark .semicolon).friendlyName}`"
        (s.onto more eof).cursor =
        .expected s!"`{(TokenKind.mark .semicolon).friendlyName}`" s.cursor := by
      unfold ParseError.expected
      rw [hf.kind_onto, hf.pos_onto]
    have herror : Parse.expect (.mark .semicolon) s = .error
        (.expected s!"`{(TokenKind.mark .semicolon).friendlyName}`" s.cursor) s := by
      rw [expect_eq, if_neg hc]
    unfold Stops
    rw [herror]
    refine ⟨hf, .refl s, nofun, ?_⟩
    rw [expect_eq, if_neg (by rwa [hcheck]), hsame]

end Stops

/-! ## Simple statements -/

variable {scope : Option ScopeId}

/-- An assignment operator is read, and what is behind it. -/
theorem assign_stays (target : Node) (index : Option Code) (hs : s.Fenced)
    (hop : (Assignment.ofKind? s.cursor.kind).isSome = true) :
    Stays more eof (assign scope target index) s := by
  refine .advance hs (fun hkind => ?_) fun ht => ?_
  · rw [hkind] at hop
    cases hop
  have hop' : (Assignment.ofKind? s.cursor.current.kind).isSome = true := hop
  cases hkind : Assignment.ofKind? s.cursor.current.kind with
  | none =>
      rw [hkind] at hop'
      cases hop'
  | some op =>
      cases op with
      | store | compound => exact .bind (expression_sheltered _ ht) fun _ _ hu _ => .pure _ hu
      | step => exact .pure _ ht

/-- The index of a target ends where the look ahead finds its end. -/
theorem afterBrackets?_of_expression {code : Code} (h : expression scope s = .ok code t)
    (hclose : t.cursor.check (.mark .rbracket) = true) :
    Assignment.afterBrackets? 0 s.cursor.rest = some t.skip.cursor.rest := by
  obtain ⟨e, tokens, hprints, hdone⟩ := expression_recovers scope s code t h
  obtain ⟨closed, hread⟩ := hdone.mark hclose
  rw [hread.reads.rest, List.append_assoc, hprints.paired]
  rfl

theorem assignment_stays (hs : s.Fenced) (hnext : Assignment.isNext s.cursor.rest = true) :
    Stays more eof (assignment scope) s := by
  obtain ⟨name, pos, rest, op, tail, hrest, hop, htarget⟩ := Assignment.exists_of_isNext hnext
  have hskip : s.skip.cursor.rest = rest := by
    show s.cursor.advance.rest = rest
    unfold Cursor.advance
    rw [hrest]
    rfl
  have hready : ∀ {t : ParserState}, t.cursor.rest = op :: tail →
      (Assignment.ofKind? t.cursor.kind).isSome = true := by
    intro t ht
    rwa [Cursor.kind_of_rest ht]
  refine .expectIdent hs fun name hs => .mention hs fun target t ht hcursor => ?_
  have hbehind : t.cursor.rest = rest := by rw [hcursor, hskip]
  refine .eat nofun ht (fun hopen ht => ?_) fun hopen => ?_
  · obtain rfl | ⟨opened, inside, rfl, hafter⟩ := htarget
    · have := hready hbehind
      rw [Cursor.kind_of_check_mark hopen] at this
      cases this
    have hinside : t.skip.cursor.rest = inside := by
      show t.cursor.advance.rest = inside
      unfold Cursor.advance
      rw [hbehind]
      rfl
    refine .bind (expression_sheltered _ ht) fun code u hu hcode => ?_
    refine .discard (.expect (by decide) hu fun hclose hu => ?_)
    refine assign_stays target (some code) hu (hready ?_)
    have hend := afterBrackets?_of_expression hcode hclose
    rw [hinside] at hend
    exact Option.some.inj (hend.symm.trans hafter)
  · obtain rfl | ⟨opened, inside, rfl, -⟩ := htarget
    · exact assign_stays target none ht (hready hbehind)
    · refine absurd ?_ hopen
      unfold Cursor.check
      rw [Cursor.kind_of_rest hbehind]
      rfl

theorem simple_sheltered : Sheltered more eof (simple scope) := by
  intro s hs
  have hnext : Assignment.isNext (s.onto more eof).cursor.rest =
      Assignment.isNext s.cursor.rest := Assignment.isNext_onto hs
  refine .cursor (.ite (assignment_stays hs) fun _ => ?_) ?_
  · exact .bind (expression_sheltered s hs) fun _ _ ht _ => .pure _ ht
  · simp only [hnext, hs.pos_onto]

/-! ## Statements -/

variable {inner : Parse Code}

theorem ifStatement_stops (hi : ∀ s, s.Fenced → Stops more eof inner s) (hs : s.Fenced)
    (hkind : s.cursor.kind ≠ .mark .semicolon) : Stops more eof (ifStatement scope inner) s := by
  refine .token hs hkind fun hs => .behind (expression_sheltered _ hs) fun _ t ht _ => ?_
  refine .expected (by decide) ht fun t ht => .last (hi t ht) fun code u hu => ?_
  have helse : check (.keyword .kwElse) u = .ok false u := by
    show EStateM.Result.ok (u.cursor.check (.keyword .kwElse)) u = _
    unfold Cursor.check Cursor.kind Cursor.current
    rw [hu]
    rfl
  exact ⟨_, bind_ok helse⟩

theorem whileStatement_stops (hi : ∀ s, s.Fenced → Stops more eof inner s) (hs : s.Fenced)
    (hkind : s.cursor.kind ≠ .mark .semicolon) : Stops more eof (whileStatement scope inner) s := by
  refine .token hs hkind fun hs => .behind (expression_sheltered _ hs) fun _ t ht _ => ?_
  exact .expected (by decide) ht fun t ht => .last (hi t ht) fun _ _ _ => ⟨_, rfl⟩

theorem returnStatement_stops (hs : s.Fenced) (hkind : s.cursor.kind ≠ .mark .semicolon) :
    Stops more eof (returnStatement scope) s := by
  refine .token hs hkind fun hs => .behind (.alone (.check hs (.pure _ hs))) ?_
  rintro _ _ ht ⟨⟩
  refine .ite (fun hc => ?_) fun _ => .behind (expression_sheltered _ ht) fun _ t ht _ =>
    .semicolon ht fun _ => ⟨_, rfl⟩
  exact .ok rfl (ht.skip_semicolon (Cursor.kind_of_check_mark hc))

theorem jumpStatement_stops (inLoop : Bool) (hs : s.Fenced)
    (hkind : s.cursor.kind ≠ .mark .semicolon) : Stops more eof (jumpStatement inLoop) s := by
  refine .token hs hkind fun hs => .ite (fun _ => ?_) fun _ => .semicolon hs fun _ => ⟨_, rfl⟩
  exact .behind (.alone (.report hs nofun fun _ => .pure _)) fun _ t ht _ =>
    .semicolon ht fun _ => ⟨_, rfl⟩

theorem callStatement_stops (hs : s.Fenced) (hkind : s.cursor.kind ≠ .mark .semicolon) :
    Stops more eof (callStatement scope) s := by
  refine .discard (.token hs hkind fun hs => ?_)
  refine .behind (.alone (.expectIdent hs fun _ => .pure _)) fun _ t ht _ => ?_
  refine .behind (.alone (.mention ht fun _ _ ht _ => .pure _ ht)) fun _ t ht _ => ?_
  refine .behind (.alone (.eat nofun ht (fun _ => .pure _) fun _ => .pure _ ht)) fun _ t ht _ => ?_
  refine .ite (fun _ => ?_) fun _ => .semicolon ht fun _ => ⟨_, rfl⟩
  refine .behind (arguments_sheltered expression_sheltered
    (inside_forward scope).expression_along t ht) fun _ t ht _ => ?_
  exact .semicolon ht fun _ => ⟨_, rfl⟩

variable {context : Context} {body : Context → Parse Code}

theorem statementWith_stops (hi : ∀ context s, s.Fenced → Stops more eof (body context) s)
    (hs : s.Fenced) : Stops more eof (statementWith body context) s := by
  have hlook : ∀ {k : TokenKind → Parse Code}, Stops more eof (k s.cursor.kind) s →
      Stops more eof (kind >>= k) s := by
    intro k hk
    refine .behind (.alone (.kind hs (.pure _ hs))) ?_
    rintro _ _ - ⟨⟩
    exact hk
  refine hlook ?_
  have hsimple : Stops more eof (do
      let code ← simple context.scope
      discard <| expect (.mark .semicolon)
      return code) s :=
    .behind (simple_sheltered s hs) fun _ t ht _ => .semicolon ht fun _ => ⟨_, rfl⟩
  have hinner : s.cursor.kind.isInner = true ∨ s.cursor.kind = .mark .semicolon :=
    hs.kind_cases.imp_right And.left
  have hne : ∀ {kind : TokenKind}, s.cursor.kind = kind → kind ≠ .mark .semicolon →
      s.cursor.kind ≠ .mark .semicolon := fun hk hkind => hk ▸ hkind
  cases hkind : s.cursor.kind with
  | keyword word =>
      cases word with
      | kwIf => exact ifStatement_stops (hi _) hs (hne hkind nofun)
      | kwWhile => exact whileStatement_stops (hi _) hs (hne hkind nofun)
      | kwReturn => exact returnStatement_stops hs (hne hkind nofun)
      | kwBreak | kwContinue => exact jumpStatement_stops _ hs (hne hkind nofun)
      | kwCall => exact callStatement_stops hs (hne hkind nofun)
      | kwBegin | kwFor | kwVariable | kwImport | kwExport | kwCritical | kwPure | kwInline =>
          rw [hkind] at hinner
          simp [TokenKind.isInner] at hinner
      | _ => exact hsimple
  | mark sign =>
      cases sign with
      | semicolon => exact .ok rfl (hs.skip_semicolon hkind)
      | lbrace =>
          rw [hkind] at hinner
          simp [TokenKind.isInner] at hinner
      | _ => exact hsimple
  | _ => exact hsimple

theorem statementTo_stops (depth : Nat) (hs : s.Fenced) :
    Stops more eof (statementTo depth context) s := by
  induction depth generalizing s context with
  | zero =>
      have hstalled : ParseError.stalled (s.onto more eof).cursor = .stalled s.cursor := by
        unfold ParseError.stalled
        rw [hs.pos_onto]
      refine ⟨hs, .refl s, nofun, ?_⟩
      rw [← hstalled]
      rfl
  | succ depth ih => exact statementWith_stops (fun _ _ => ih) hs

/-- A statement that does not end with the semicolon is an error in front of it. -/
theorem statement_stops (hs : s.Fenced) : Stops more eof (statement context) s := by
  have hdeep := statements_nested.deep_below_whole ((s.onto more eof).cursor.rest.length + 1)
    context
  have hless : s.cursor.rest.length < (s.onto more eof).cursor.rest.length + 1 := by
    show s.cursor.rest.length < (s.cursor.rest ++ more).length + 1
    rw [List.length_append]
    omega
  have hends : Stops more eof
      (statementTo ((s.onto more eof).cursor.rest.length + 1) context) s :=
    statementTo_stops _ hs
  have hself := hdeep s hless
  have hmore := hdeep (s.onto more eof) (Nat.lt_succ_self _)
  unfold Stops at hends ⊢
  rw [show statement context s = _ from hself.symm, show statement context (s.onto more eof) = _
    from hmore.symm]
  exact hends

end Parse

end SslFrontend
