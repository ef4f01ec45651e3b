import SslFrontend.Parser.Statement
import SslFrontend.Proofs.Run.Primitives

/-! # Exact runs

The state of the parser is its cursor and its records: the tables, the ledger,
the names that wait, and the reports.  A production is told exactly when it is
known which tokens it reads and what it does to the records.  `Runs` says this
of a production in a state; there is one rule for each way of putting
productions together, and one for each primitive.
-/

namespace SslFrontend

variable {α β : Type}

/-- What a parser keeps besides its cursor. -/
structure Records where
  table : SymbolTable
  ledger : Ledger
  pending : Pending
  problems : Queue

/-- Work on the records.  It reads no tokens and always has an answer. -/
abbrev Making := StateM Records

def ParserState.records (s : ParserState) : Records :=
  ⟨s.table, s.ledger, s.pending, s.problems⟩

namespace Making

theorem bind_eq {m : Making α} {f : α → Making β} {r r' : Records} {a : α}
    (h : m r = (a, r')) : (m >>= f) r = f a r' := by
  show (f (m r).1) (m r).2 = _
  rw [h]

/-- The node for a name: what it is bound to, or a place among the names that
wait. -/
def mention (scope : Option ScopeId) (name : String) (pos : Position) : Making Node := fun r =>
  match r.table.lookupDeclared scope name with
  | some symbol => (symbol.toNode pos, { r with ledger := r.ledger.record symbol pos .use })
  | none =>
    let (number, ledger) := r.ledger.reserve
    let (place, pending) := r.pending.mention name scope number pos
    (Pending.node place pos, { r with ledger := ledger, pending := pending })

/-- The node for a text, which enters the string space.  A text that the string
space refuses is reported and leaves an error. -/
def text (text : String) (pos : Position) : Making Node := fun r =>
  match r.table.strings.intern text with
  | .ok (handle, strings) =>
    (⟨.string, .string handle, pos⟩, { r with table := { r.table with strings := strings } })
  | .error error =>
    (Node.op .error pos, { r with problems := r.problems.push (SymbolTable.refused pos error) })

end Making

namespace Cursor

variable {a b c : Cursor} {first second tokens more : List Token} {token : Token}

/-- Reading just these tokens leads from one cursor to the other. -/
structure Reads (c : Cursor) (tokens : List Token) (c' : Cursor) : Prop where
  rest : c.rest = tokens ++ c'.rest
  eof : c'.eof = c.eof
  position : c'.position = c.position + tokens.length
  last : c'.last? = (tokens.getLast?.map Token.pos).or c.last?

namespace Reads

theorem refl (c : Cursor) : c.Reads [] c := ⟨rfl, rfl, rfl, rfl⟩

theorem trans (h₁ : a.Reads first b) (h₂ : b.Reads second c) : a.Reads (first ++ second) c where
  rest := by rw [h₁.rest, h₂.rest, List.append_assoc]
  eof := h₂.eof.trans h₁.eof
  position := by rw [h₂.position, h₁.position, List.length_append, Nat.add_assoc]
  last := by
    rw [h₂.last, h₁.last, List.getLast?_append]
    cases second.getLast? <;> rfl

theorem rest_eq (h : a.Reads tokens b) (hrest : a.rest = tokens ++ more) : b.rest = more :=
  List.append_cancel_left (h.rest.symm.trans hrest)

/-- Behind something that was read stands its last token. -/
theorem previousPos (h : a.Reads tokens b) (hlast : tokens.getLast? = some token) :
    b.previousPos = token.pos := by
  unfold Cursor.previousPos
  rw [h.last, hlast]
  rfl

end Reads

theorem current_of_rest (h : c.rest = token :: more) : c.current = token := by
  simp [current, h]

theorem kind_of_rest (h : c.rest = token :: more) : c.kind = token.kind := by
  rw [kind, current_of_rest h]

/-- Kind of the token in front of a list. -/
def headKind (tokens : List Token) : TokenKind := (tokens.head?.map Token.kind).getD .eof

theorem kind_eq_headKind (h : c.rest = more) : c.kind = headKind more := by
  subst h
  unfold kind current headKind
  cases c.rest <;> rfl

/-- Reading a token that is not the end of file. -/
theorem reads_advance (h : c.kind ≠ .eof) : c.Reads [c.current] c.advance := by
  obtain ⟨rest, eof, position, last⟩ := c
  cases rest with
  | nil => exact absurd rfl h
  | cons token more =>
      have hkind : token.kind ≠ .eof := h
      have hadvance : advance ⟨token :: more, eof, position, last⟩ =
          ⟨more, eof, position + 1, some token.pos⟩ := by simp [advance, hkind]
      rw [hadvance]
      exact ⟨rfl, rfl, rfl, rfl⟩

/-- Reading as long as a test holds. -/
theorem reads_skipWhile (c : Cursor) (p : Token → Bool) :
    c.Reads (c.rest.takeWhile p) (c.skipWhile p) := by
  refine ⟨?_, rfl, rfl, rfl⟩
  rw [skipWhile]
  simp only [drop_takeWhile, List.takeWhile_append_dropWhile]

theorem current_of_kind {kind : TokenKind} (h : c.kind = kind) : c.current = ⟨kind, c.pos⟩ := by
  subst h
  rfl

theorem check_of_kind {kind : TokenKind} (h : c.kind = kind) : c.check kind = true := by
  simp [check, h]

theorem check_mark {sign : Mark} (h : c.kind ≠ .mark sign) : c.check (.mark sign) = false := by
  cases hcheck : c.check (.mark sign) with
  | false => rfl
  | true => exact absurd (kind_of_check_mark hcheck) h

theorem kind_of_check_keyword {word : Keyword} (h : c.check (.keyword word) = true) :
    c.kind = .keyword word := by
  have hbare := (TokenKind.index_eq_iff _ _).mp (check_eq_true h)
  revert hbare
  cases c.kind <;> simp [TokenKind.bare]

theorem check_keyword {word : Keyword} (h : c.kind ≠ .keyword word) :
    c.check (.keyword word) = false := by
  cases hcheck : c.check (.keyword word) with
  | false => rfl
  | true => exact absurd (kind_of_check_keyword hcheck) h

end Cursor

/-! ## Runs -/

/-- From one state to the other, just these tokens were read and just this was
done. -/
structure Exactly (m : Making α) (s : ParserState) (tokens : List Token) (a : α)
    (s' : ParserState) : Prop where
  reads : s.cursor.Reads tokens s'.cursor
  made : m s.records = (a, s'.records)

/-- Run from a state, a production reads just these tokens and does just this. -/
def Runs (p : Parse α) (s : ParserState) (tokens : List Token) (m : Making α) : Prop :=
  ∃ a s', p s = .ok a s' ∧ Exactly m s tokens a s'

/-- The state behind the current token. -/
def ParserState.skip (s : ParserState) : ParserState := { s with cursor := s.cursor.advance }

variable {s s₁ s' : ParserState} {p : Parse α} {a : α} {b : β}

namespace Exactly

theorem pure (a : α) (s : ParserState) : Exactly (pure a) s [] a s := ⟨.refl _, rfl⟩

theorem bind {m : Making α} {first second : List Token} (h₁ : Exactly m s first a s₁)
    (m' : α → Making β) (h₂ : Exactly (m' a) s₁ second b s') :
    Exactly (m >>= m') s (first ++ second) b s' where
  reads := h₁.reads.trans h₂.reads
  made := (Making.bind_eq h₁.made).trans h₂.made

/-- A token is read in front of what is read. -/
theorem skip {m : Making α} {tokens : List Token} {kind : TokenKind} (hk : s.cursor.kind = kind)
    (hne : kind ≠ .eof) (h : Exactly m s.skip tokens a s') :
    Exactly m s (⟨kind, s.cursor.pos⟩ :: tokens) a s' := by
  have hread := Cursor.reads_advance (hk ▸ hne)
  rw [Cursor.current_of_kind hk] at hread
  exact ⟨hread.trans h.reads, h.made⟩

/-- A mark is read behind what was read. -/
theorem mark {m : Making α} {tokens : List Token} {sign : Mark} (h : Exactly m s tokens a s')
    (hk : s'.cursor.check (.mark sign) = true) :
    ∃ pos, Exactly m s (tokens ++ [⟨.mark sign, pos⟩]) a s'.skip := by
  have hkind := Cursor.kind_of_check_mark hk
  have hread := Cursor.reads_advance (by rw [hkind]; nofun)
  rw [Cursor.current_of_kind hkind] at hread
  exact ⟨_, h.reads.trans hread, h.made⟩

theorem pure_bind {m : Making α} {tokens : List Token} (f : α → β)
    (h : Exactly m s tokens a s') : Exactly (m >>= fun a => Pure.pure (f a)) s tokens (f a) s' :=
  ⟨h.reads, Making.bind_eq h.made⟩

theorem of_pure_bind {m : Making α} {tokens : List Token} {f : α → β}
    (h : Exactly (m >>= fun a => Pure.pure (f a)) s tokens b s') :
    ∃ a, b = f a ∧ Exactly m s tokens a s' := by
  obtain ⟨⟨a, r⟩, hm⟩ : ∃ p, m s.records = p := ⟨_, rfl⟩
  have hmade := h.made
  rw [Making.bind_eq hm] at hmade
  cases hmade
  exact ⟨a, rfl, h.reads, hm⟩

end Exactly

namespace Parse

/-! ## Binds -/

theorem bind_ok {k : α → Parse β} (h : p s = .ok a s₁) : (p >>= k) s = k a s₁ := by
  show EStateM.bind p k s = _
  simp [EStateM.bind, h]

theorem of_bind_ok {k : α → Parse β} (h : (p >>= k) s = .ok b s') :
    ∃ a s₁, p s = .ok a s₁ ∧ k a s₁ = .ok b s' := by
  have hbind : EStateM.bind p k s = .ok b s' := h
  unfold EStateM.bind at hbind
  cases hp : p s with
  | ok a s₁ =>
      rw [hp] at hbind
      exact ⟨a, s₁, rfl, hbind⟩
  | error e s₁ =>
      rw [hp] at hbind
      cases hbind

theorem discard_bind {k : PUnit → Parse β} :
    (discard p >>= k) s = (p >>= fun _ => k ⟨⟩) s := by
  show EStateM.bind (EStateM.map _ p) k s = EStateM.bind p _ s
  unfold EStateM.bind EStateM.map
  cases p s <;> rfl

theorem of_pure_ok {a' : α} (h : (pure a : Parse α) s = .ok a' s') : a' = a ∧ s' = s := by
  cases h
  exact ⟨rfl, rfl⟩

theorem advance_bind {k : Token → Parse β} : (advance >>= k) s = k s.cursor.current s.skip := rfl

theorem discard_advance_bind {k : PUnit → Parse β} :
    (discard advance >>= k) s = k ⟨⟩ s.skip := rfl

theorem eat_eq (kind : TokenKind) (s : ParserState) : eat kind s =
    if s.cursor.check kind = true then .ok true s.skip else .ok false s := by
  show (if s.cursor.check kind = true then _ else _ : Parse Bool) s = _
  split <;> rfl

theorem expect_eq (kind : TokenKind) (s : ParserState) : expect kind s =
    if s.cursor.check kind = true then .ok s.cursor.current s.skip
    else .error (.expected s!"`{kind.friendlyName}`" s.cursor) s := by
  show (if s.cursor.check kind = true then _ else _ : Parse Token) s = _
  split <;> rfl

/-- A token is eaten if it is of the kind. -/
theorem of_eat_ok {kind : TokenKind} {eaten : Bool} (h : eat kind s = .ok eaten s') :
    (eaten = true ∧ s.cursor.check kind = true ∧ s' = s.skip) ∨ (eaten = false ∧ s' = s) := by
  rw [eat_eq] at h
  split at h
  · cases h
    exact .inl ⟨rfl, ‹_›, rfl⟩
  · cases h
    exact .inr ⟨rfl, rfl⟩

/-- A token that is expected and comes is read. -/
theorem of_expect_ok {kind : TokenKind} {token : Token} (h : expect kind s = .ok token s') :
    s.cursor.check kind = true ∧ token = s.cursor.current ∧ s' = s.skip := by
  rw [expect_eq] at h
  split at h
  · cases h
    exact ⟨‹_›, rfl, rfl⟩
  · cases h

/-- A production that ends with a token that is expected. -/
theorem of_expect_last {kind : TokenKind} {a' : α}
    (h : (do discard <| expect kind; return a : Parse α) s = .ok a' s') :
    a' = a ∧ s.cursor.check kind = true ∧ s' = s.skip := by
  rw [discard_bind] at h
  obtain ⟨token, s₁, hexpect, hpure⟩ := of_bind_ok h
  obtain ⟨hcheck, -, rfl⟩ := of_expect_ok hexpect
  obtain ⟨rfl, rfl⟩ := of_pure_ok hpure
  exact ⟨rfl, hcheck, rfl⟩

theorem of_expectIdent_ok {found : String × Position} (h : expectIdent s = .ok found s') :
    s.cursor.kind = .ident found.1 ∧ found.2 = s.cursor.pos ∧ s' = s.skip := by
  by_cases hident : ∃ name, s.cursor.kind = .ident name
  · obtain ⟨name, hname⟩ := hident
    rw [ParserState.expectIdent_of_ident hname] at h
    cases h
    exact ⟨hname, rfl, rfl⟩
  · unfold expectIdent at h
    obtain ⟨c, s₁, hc, h⟩ := of_bind_ok h
    cases hc
    cases hk : s.cursor.kind with
    | ident name => exact absurd ⟨name, hk⟩ hident
    | _ => simp only [hk] at h; cases h

theorem mention_ok (scope : Option ScopeId) (name : String) (pos : Position) (s : ParserState) :
    ∃ node s', mention scope name pos s = .ok node s' ∧
      Exactly (Making.mention scope name pos) s [] node s' := by
  refine ⟨_, _, s.mention_eq scope name pos, ?_, ?_⟩
  · rw [s.mentioned_cursor]
    exact .refl _
  · have htable : s.records.table = s.table := rfl
    unfold ParserState.mentioned Making.mention
    rw [htable]
    cases s.table.lookupDeclared scope name <;> rfl

theorem stringOperand_ok (text : String) (pos : Position) (s : ParserState) :
    ∃ node s', stringOperand text pos s = .ok [node] s' ∧
      Exactly (Making.text text pos) s [] node s' := by
  unfold stringOperand
  show ∃ node s', EStateM.bind Parse.table _ s = .ok [node] s' ∧ _
  have htable : Parse.table s = .ok s.table s := rfl
  simp only [EStateM.bind, htable]
  cases hi : s.table.strings.intern text with
  | ok found =>
      refine ⟨_, _, rfl, .refl _, ?_⟩
      have hi' : s.records.table.strings.intern text = .ok found := hi
      simp only [Making.text, hi']
      rfl
  | error error =>
      refine ⟨_, _, rfl, .refl _, ?_⟩
      have hi' : s.records.table.strings.intern text = .error error := hi
      simp only [Making.text, hi']
      rfl

/-! ## Rounds -/

/-- What holds of the last round, and of every other one if it holds of those
behind it, holds of rounds that succeed. -/
theorem of_repeatRounds_ok {round : α → Parse (α ⊕ β)}
    {P : α → ParserState → β → ParserState → Prop}
    (last : ∀ a s b s', round a s = .ok (.inr b) s' → P a s b s')
    (next : ∀ a s a' s₁ b s', round a s = .ok (.inl a') s₁ → P a' s₁ b s' → P a s b s')
    (h : repeatRounds round a s = .ok b s') : P a s b s' := by
  have hrounds : ∀ bound a s b s', rounds round bound a s = .ok b s' → P a s b s' := by
    intro bound
    induction bound with
    | zero => intro a s b s' h; cases h
    | succ bound ih =>
        intro a s b s' h
        obtain ⟨r, s₁, hr, hrest⟩ := of_bind_ok h
        cases r with
        | inl a' => exact next a s a' s₁ b s' hr (ih a' s₁ b s' hrest)
        | inr b' =>
            cases hrest
            exact last a s b s' hr
  exact hrounds _ a s b s' h

end Parse

/-! ## Rules -/

namespace Runs

variable {tokens first second more : List Token} {token : Token} {m : Making β}

theorem pure (a : α) : Runs (Pure.pure a) s [] (Pure.pure a) := ⟨a, s, rfl, .pure a s⟩

theorem bind {k : α → Parse β} {m : Making α} {m' : α → Making β} (hp : Runs p s first m)
    (hk : ∀ a s₁, Exactly m s first a s₁ → Runs (k a) s₁ second (m' a)) :
    Runs (p >>= k) s (first ++ second) (m >>= m') := by
  obtain ⟨a, s₁, hp, hfirst⟩ := hp
  obtain ⟨b, s', hb, hsecond⟩ := hk a s₁ hfirst
  exact ⟨b, s', (Parse.bind_ok hp).trans hb, hfirst.bind m' hsecond⟩

theorem of_eq {m m' : Making α} {tokens tokens' : List Token} (h : Runs p s tokens m)
    (ht : tokens = tokens') (hm : m = m') : Runs p s tokens' m' :=
  ht ▸ hm ▸ h

/-- Nothing more is read behind a production. -/
theorem bind_last {k : α → Parse β} {m : Making α} {m' : α → Making β}
    (hp : Runs p s tokens m)
    (hk : ∀ a s₁, Exactly m s tokens a s₁ → Runs (k a) s₁ [] (m' a)) :
    Runs (p >>= k) s tokens (m >>= m') :=
  (bind hp hk).of_eq (List.append_nil _) rfl

/-- Behind a production something more is read, and nothing more done. -/
theorem bind_reads {k : α → Parse α} {m : Making α} (hp : Runs p s first m)
    (hk : ∀ a s₁, Exactly m s first a s₁ → Runs (k a) s₁ second (Pure.pure a)) :
    Runs (p >>= k) s (first ++ second) m :=
  (bind hp hk).of_eq rfl (bind_pure m)

/-- A production whose answer is only put into another form. -/
theorem pure_bind {m : Making α} (f : α → β) (h : Runs p s tokens m) :
    Runs (p >>= fun a => Pure.pure (f a)) s tokens (m >>= fun a => Pure.pure (f a)) := by
  obtain ⟨a, s', hp, hdone⟩ := h
  exact ⟨f a, s', Parse.bind_ok hp, hdone.pure_bind f⟩

/-- A production that changes nothing, and whose answer does not matter. -/
theorem then_pure (b : β) (h : Runs p s tokens (Pure.pure a)) :
    Runs (p >>= fun _ => Pure.pure b) s tokens (Pure.pure b) :=
  (h.pure_bind fun _ => b).of_eq rfl (LawfulMonad.pure_bind _ _)

theorem pureBind {a : α} {k : α → Parse β} (h : Runs (k a) s tokens m) :
    Runs (Pure.pure a >>= k) s tokens m := by
  rwa [LawfulMonad.pure_bind]

/-- What follows both branches is run after either of them. -/
theorem join {c : Prop} [Decidable c] {p q : Parse α} {k : α → Parse β}
    (h : Runs ((if c then p else q) >>= k) s tokens m) :
    Runs (if c then p >>= k else q >>= k) s tokens m := by
  split
  · rwa [if_pos ‹c›] at h
  · rwa [if_neg ‹¬c›] at h

theorem cursor {k : Cursor → Parse β} (h : Runs (k s.cursor) s tokens m) :
    Runs (Parse.cursor >>= k) s tokens m := h

theorem kind {k : TokenKind → Parse β} (h : Runs (k s.cursor.kind) s tokens m) :
    Runs (Parse.kind >>= k) s tokens m := h

theorem kindAt {k : TokenKind → Parse β} (hs : s.cursor.rest = token :: more)
    (h : Runs (k token.kind) s tokens m) : Runs (Parse.kind >>= k) s tokens m :=
  kind (Cursor.kind_of_rest hs ▸ h)

theorem check {kind : TokenKind} {k : Bool → Parse β}
    (h : Runs (k (s.cursor.check kind)) s tokens m) :
    Runs (Parse.check kind >>= k) s tokens m := h

theorem discard {k : PUnit → Parse β} (h : Runs (p >>= fun _ => k ⟨⟩) s tokens m) :
    Runs (discard p >>= k) s tokens m := by
  unfold Runs
  rwa [Parse.discard_bind]

theorem of_skip {k : Parse β} {q : Parse β} (hs : s.cursor.rest = token :: more)
    (hk : token.kind ≠ .eof) (heq : q s = k s.skip)
    (h : s.skip.cursor.rest = more → Runs k s.skip tokens m) : Runs q s (token :: tokens) m := by
  have hkind : s.cursor.kind ≠ .eof := by rwa [Cursor.kind_of_rest hs]
  have hread := Cursor.reads_advance hkind
  rw [Cursor.current_of_rest hs] at hread
  obtain ⟨b, s', hb, hdone⟩ := h (hread.rest_eq hs)
  exact ⟨b, s', heq.trans hb, hread.trans hdone.reads, hdone.made⟩

theorem advance {k : Token → Parse β} (hs : s.cursor.rest = token :: more)
    (hk : token.kind ≠ .eof)
    (h : s.skip.cursor.rest = more → Runs (k token) s.skip tokens m) :
    Runs (Parse.advance >>= k) s (token :: tokens) m := by
  refine of_skip hs hk ?_ h
  rw [← Cursor.current_of_rest hs]
  rfl

theorem eat {kind : TokenKind} {k : Bool → Parse β} (hs : s.cursor.rest = token :: more)
    (hk : token.kind = kind) (hne : kind ≠ .eof)
    (h : s.skip.cursor.rest = more → Runs (k true) s.skip tokens m) :
    Runs (Parse.eat kind >>= k) s (token :: tokens) m := by
  refine of_skip hs (hk ▸ hne) ?_ h
  have hcheck := Cursor.check_of_kind ((Cursor.kind_of_rest hs).trans hk)
  exact Parse.bind_ok (by rw [Parse.eat_eq, if_pos hcheck])

theorem eatNot {kind : TokenKind} {k : Bool → Parse β} (hk : s.cursor.check kind = false)
    (h : Runs (k false) s tokens m) : Runs (Parse.eat kind >>= k) s tokens m := by
  obtain ⟨b, s', hb, hdone⟩ := h
  exact ⟨b, s', (Parse.bind_ok (by rw [Parse.eat_eq, if_neg (by simp [hk])])).trans hb, hdone⟩

theorem expect {kind : TokenKind} {k : Token → Parse β} (hs : s.cursor.rest = token :: more)
    (hk : token.kind = kind) (hne : kind ≠ .eof)
    (h : s.skip.cursor.rest = more → Runs (k token) s.skip tokens m) :
    Runs (Parse.expect kind >>= k) s (token :: tokens) m := by
  refine of_skip hs (hk ▸ hne) ?_ h
  have hcheck := Cursor.check_of_kind ((Cursor.kind_of_rest hs).trans hk)
  refine Parse.bind_ok ?_
  rw [Parse.expect_eq, if_pos hcheck, Cursor.current_of_rest hs]

theorem expectIdent {name : String} {pos : Position} {k : String × Position → Parse β}
    (hs : s.cursor.rest = ⟨.ident name, pos⟩ :: more)
    (h : s.skip.cursor.rest = more → Runs (k (name, pos)) s.skip tokens m) :
    Runs (Parse.expectIdent >>= k) s (⟨.ident name, pos⟩ :: tokens) m := by
  refine of_skip hs TokenKind.noConfusion ?_ h
  have hpos : s.cursor.pos = pos := by rw [Cursor.pos, Cursor.current_of_rest hs]
  refine Parse.bind_ok ?_
  rw [ParserState.expectIdent_of_ident (Cursor.kind_of_rest hs), hpos]
  rfl

/-- A production that succeeds hands its answer over. -/
theorem attempt {m : Making α} {k : Except ParseError α → Parse β} {m' : α → Making β}
    (hp : Runs p s first m)
    (hk : ∀ a s₁, Exactly m s first a s₁ → Runs (k (.ok a)) s₁ second (m' a)) :
    Runs (Parse.attempt p >>= k) s (first ++ second) (m >>= m') := by
  obtain ⟨a, s₁, hp, hfirst⟩ := hp
  obtain ⟨b, s', hb, hsecond⟩ := hk a s₁ hfirst
  have hattempt : Parse.attempt p s = .ok (.ok a) s₁ := by
    unfold Parse.attempt
    rw [hp]
  exact ⟨b, s', (Parse.bind_ok hattempt).trans hb, hfirst.bind m' hsecond⟩

theorem mention {scope : Option ScopeId} {name : String} {pos : Position} {k : Node → Parse β}
    {m : Node → Making β}
    (h : ∀ node s₁, s₁.cursor.rest = s.cursor.rest → Runs (k node) s₁ tokens (m node)) :
    Runs (Parse.mention scope name pos >>= k) s tokens (Making.mention scope name pos >>= m) :=
  bind (Parse.mention_ok scope name pos s) fun node s₁ hdone =>
    h node s₁ (hdone.reads.rest_eq rfl)

/-! ## Rounds -/

/-- A round is the last, or it reads something and the rounds behind it go on
with what is left to read and to do. -/
inductive Round (round : α → Parse (α ⊕ β))
    (I : α → ParserState → List Token → Making β → Prop) (a : α) (s : ParserState) :
    List Token → Making β → Prop
  | last {tokens : List Token} {m : Making β}
      (h : Runs (round a) s tokens (m >>= fun b => Pure.pure (.inr b))) : Round round I a s tokens m
  | next {tokens : List Token} {m : Making β} (first second : List Token) (m₁ : Making α)
      (m₂ : α → Making β) (ht : tokens = first ++ second) (hm : m = m₁ >>= m₂) (some : first ≠ [])
      (h : Runs (round a) s first (m₁ >>= fun a => Pure.pure (.inl a)))
      (rest : ∀ a' s₁, Exactly m₁ s first a' s₁ → I a' s₁ second (m₂ a')) :
      Round round I a s tokens m

/-- Rounds that keep up what is left to read and to do come to its end. -/
theorem repeatRounds {round : α → Parse (α ⊕ β)}
    (I : α → ParserState → List Token → Making β → Prop)
    (step : ∀ a s tokens m, I a s tokens m → Round round I a s tokens m)
    (start : I a s tokens m) : Runs (Parse.repeatRounds round a) s tokens m := by
  have hrounds : ∀ bound a s tokens m, I a s tokens m → s.cursor.rest.length < bound →
      Runs (Parse.rounds round bound a) s tokens m := by
    intro bound
    induction bound with
    | zero => intro a s tokens m _ hbound; exact absurd hbound (Nat.not_lt_zero _)
    | succ bound ih =>
        intro a s tokens m hI hbound
        cases step a s tokens m hI with
        | last h =>
            obtain ⟨b, s', hround, hdone⟩ := h
            obtain ⟨b, rfl, hlast⟩ := hdone.of_pure_bind
            exact ⟨b, s', Parse.bind_ok hround, hlast⟩
        | next first second m₁ m₂ ht hm some h rest =>
            subst ht hm
            obtain ⟨b, s₁, hround, hdone⟩ := h
            obtain ⟨a', rfl, hnext⟩ := hdone.of_pure_bind
            have hless : s₁.cursor.rest.length < bound := by
              have hlength := congrArg List.length hdone.reads.rest
              have hfirst := List.length_pos_iff.mpr some
              rw [List.length_append] at hlength
              omega
            obtain ⟨b, s', hrest, hdone'⟩ := ih a' s₁ second (m₂ a') (rest a' s₁ hnext) hless
            exact ⟨b, s', (Parse.bind_ok hround).trans hrest, hnext.bind m₂ hdone'⟩
  exact hrounds _ a s tokens m start (Nat.lt_succ_self _)

end Runs

end SslFrontend
