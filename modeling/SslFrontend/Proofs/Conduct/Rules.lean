import SslFrontend.Proofs.Grammar.Exact
import SslFrontend.Proofs.Progress.Literals
import SslFrontend.Proofs.Run.Known
import SslFrontend.Proofs.Symbol.Early

/-! # The conduct of productions

A production answers or fails.  `Conduct` has a relation for each of the two
outcomes, and `Conduct.Inside` says that they hold across whatever is done at a
time inside a scope: tokens are read, a literal enters the string space, something
is reported, declared or entered, and an error is thrown, caught and reported.
Once there is an error among the reports, any tokens may be skipped; no other
literal is passed, and no `procedure`.  There is one rule for each way of putting
productions together, and one for each primitive.
-/

namespace SslFrontend

namespace TokenKind

/-- The text of a string literal. -/
def literal? : TokenKind → Option String
  | str text => some text
  | _ => none

theorem literal?_of_isPlain {kind : TokenKind} (h : kind.isPlain = true) :
    kind.literal? = none := by
  cases kind with
  | str text => cases h
  | _ => rfl

end TokenKind

/-- Something was reported as an error. -/
def ParserState.Erred (s : ParserState) : Prop := ∃ d ∈ s.problems.items, d.isError = true

/-- What holds of the states before and after a production that answers, and what
of those of one that fails. -/
structure Conduct where
  ok : ParserState → ParserState → Prop
  fails : ParserState → ParseError → ParserState → Prop

/-- The conduct is kept across whatever is done at a time inside a scope. -/
structure Conduct.Inside (C : Conduct) (scope : Option ScopeId) : Prop where
  refl : ∀ s, C.ok s s
  trans : ∀ {s t u}, C.ok s t → C.ok t u → C.ok s u
  fail : ∀ {s e t u}, C.ok s t → C.fails t e u → C.fails s e u
  /-- What is thrown is about the text that was just read. -/
  raise : ∀ s {e c}, e.diagnostic.Plain → s.cursor.Follows c → C.fails s e { s with cursor := c }
  /-- What was thrown is reported. -/
  caught : ∀ {s e t}, C.fails s e t → C.ok s { t with problems := t.problems.push e.diagnostic }
  read : ∀ s {tokens c}, s.cursor.Reads tokens c →
    (∀ token ∈ tokens, token.kind.isPlain = true) ∨ s.Erred → C.ok s { s with cursor := c }
  report : ∀ s {ds}, (∀ d ∈ ds, d.Plain) →
    C.ok s { s with problems := ⟨s.problems.items ++ ds⟩ }
  /-- A string literal is read, and enters the string space. -/
  text : ∀ s {text handle strings}, s.cursor.kind = .str text →
    s.table.strings.intern text = .ok (handle, strings) →
    C.ok s { s.skip with table := { s.table with strings := strings } }
  refused : ∀ s {text error}, s.cursor.kind = .str text →
    s.table.strings.intern text = .error error →
    C.ok s { s.skip with
      problems := s.problems.push (SymbolTable.refused s.cursor.pos error) }
  /-- Something is entered into the ledger, or waits. -/
  enter : ∀ s ledger pending, C.ok s { s with ledger := ledger, pending := pending }
  adjust : ∀ s symbol {f}, (∀ v, (f v).label = v.label) →
    C.ok s { s with table := s.table.modifyVariable symbol f }
  declare : ∀ s {kind name pos symbol table},
    s.table.declareIn scope kind name pos = .ok (symbol, table) → C.ok s { s with table := table }
  redeclare : ∀ s {kind name pos problem},
    s.table.declareIn scope kind name pos = .error problem →
    C.ok s { s with problems := s.problems.push problem }

namespace Conduct

variable {C : Conduct} {scope : Option ScopeId} {α β : Type} {s t u : ParserState}

/-- From the state, the production answers as `Q` says, or fails as `C` does. -/
def Comes (C : Conduct) (Q : ParserState → α → ParserState → Prop) (p : Parse α)
    (s : ParserState) : Prop :=
  match p s with
  | .ok a t => Q s a t
  | .error e t => C.fails s e t

/-- The production keeps the conduct. -/
def Keeps (C : Conduct) (p : Parse α) (s : ParserState) : Prop :=
  C.Comes (fun s _ t => C.ok s t) p s

/-- What holds of an answer holds from any state before. -/
def Lasting (C : Conduct) (Q : ParserState → α → ParserState → Prop) : Prop :=
  ∀ s t a u, C.ok s t → Q t a u → Q s a u

variable {Q : ParserState → α → ParserState → Prop} {P : ParserState → β → ParserState → Prop}

/-- What a round leaves: one that goes on keeps the conduct. -/
def roundPost (C : Conduct) (Q : ParserState → α → ParserState → Prop) (s : ParserState) :
    β ⊕ α → ParserState → Prop
  | .inl _, t => C.ok s t
  | .inr a, t => Q s a t

namespace Comes

/-! ## Rules -/

theorem pure {a : α} (h : Q s a s) : C.Comes Q (Pure.pure a) s := h

theorem weaken {Q' : ParserState → α → ParserState → Prop} {p : Parse α} (h : C.Comes Q p s)
    (hQ : ∀ a t, Q s a t → Q' s a t) : C.Comes Q' p s := by
  unfold Comes at h ⊢
  cases hr : p s with
  | ok a t => rw [hr] at h; exact hQ a t h
  | error e t => rw [hr] at h; exact h

theorem ite {c : Prop} [Decidable c] {p q : Parse α} (hp : c → C.Comes Q p s)
    (hq : ¬c → C.Comes Q q s) : C.Comes Q (if c then p else q) s := by
  by_cases h : c
  · rw [if_pos h]
    exact hp h
  · rw [if_neg h]
    exact hq h

/-- What follows both branches is run after either of them. -/
theorem join {c : Prop} [Decidable c] {p q : Parse β} {k : β → Parse α}
    (hp : C.Comes Q ((if c then p else q) >>= k) s) :
    C.Comes Q (if c then p >>= k else q >>= k) s := by
  by_cases h : c
  · rwa [if_pos h] at hp ⊢
  · rwa [if_neg h] at hp ⊢

/-- Another state from which the same happens. -/
theorem via {p q : Parse α} (hC : C.Inside scope) (hQ : C.Lasting Q) (hst : C.ok s t)
    (heq : p s = q t) (h : C.Comes Q q t) : C.Comes Q p s := by
  unfold Comes at h ⊢
  rw [heq]
  cases hr : q t with
  | ok a u => rw [hr] at h; exact hQ _ _ _ _ hst h
  | error e u => rw [hr] at h; exact hC.fail hst h

theorem bind {p : Parse β} {k : β → Parse α} (hp : C.Comes P p s)
    (hk : ∀ b t, p s = .ok b t → P s b t →
      match k b t with
      | .ok a u => Q s a u
      | .error e u => C.fails s e u) : C.Comes Q (p >>= k) s := by
  unfold Comes at hp ⊢
  have hbind : (p >>= k) s = EStateM.bind p k s := rfl
  rw [hbind]
  unfold EStateM.bind
  cases hr : p s with
  | ok b t =>
      rw [hr] at hp
      exact hk b t hr hp
  | error e t =>
      rw [hr] at hp
      exact hp

/-- A production that keeps the conduct, and what follows it. -/
theorem next {p : Parse β} {k : β → Parse α} (hC : C.Inside scope) (hQ : C.Lasting Q)
    (hp : C.Keeps p s) (hk : ∀ b t, p s = .ok b t → C.Comes Q (k b) t) :
    C.Comes Q (p >>= k) s := by
  refine bind hp fun b t hr hst => ?_
  have h := hk b t hr
  unfold Comes at h
  cases hkr : k b t with
  | ok a u => rw [hkr] at h; exact hQ _ _ _ _ hst h
  | error e u => rw [hkr] at h; exact hC.fail hst h

/-! ## Looking -/

theorem cursor {k : Cursor → Parse α} (h : C.Comes Q (k s.cursor) s) :
    C.Comes Q (Parse.cursor >>= k) s := h

theorem kind {k : TokenKind → Parse α} (h : C.Comes Q (k s.cursor.kind) s) :
    C.Comes Q (Parse.kind >>= k) s := h

theorem pos {k : Position → Parse α} (h : C.Comes Q (k s.cursor.pos) s) :
    C.Comes Q (Parse.pos >>= k) s := h

theorem table {k : SymbolTable → Parse α} (h : C.Comes Q (k s.table) s) :
    C.Comes Q (Parse.table >>= k) s := h

theorem check {kind : TokenKind} {k : Bool → Parse α}
    (h : C.Comes Q (k (s.cursor.check kind)) s) : C.Comes Q (Parse.check kind >>= k) s := h

end Comes

theorem Inside.lasting (hC : C.Inside scope) : C.Lasting fun s (_ : α) t => C.ok s t :=
  fun _ _ _ _ hst htu => hC.trans hst htu

theorem Inside.lasting_round (hC : C.Inside scope) (hQ : C.Lasting Q) :
    C.Lasting (C.roundPost (β := β) Q) := by
  intro s t r u hst h
  cases r with
  | inl next => exact hC.trans hst h
  | inr last => exact hQ _ _ _ _ hst h

namespace Keeps

theorem weaken {p : Parse α} (h : C.Comes Q p s) (hQ : ∀ a t, Q s a t → C.ok s t) :
    C.Keeps p s :=
  Comes.weaken h hQ

end Keeps

namespace Inside

variable (hC : C.Inside scope)

include hC

theorem pure (a : α) : C.Keeps (Pure.pure a) s := hC.refl s

theorem throw {e : ParseError} (he : e.diagnostic.Plain) : C.Comes Q (throw e : Parse α) s :=
  hC.raise s he (.refl _)

/-- A production without a rule of its own for its answer. -/
theorem bind {p : Parse β} {k : β → Parse α} (hp : C.Keeps p s)
    (hk : ∀ b t, C.Keeps (k b) t) : C.Keeps (p >>= k) s :=
  .next hC hC.lasting hp fun b t _ => hk b t

omit hC in
theorem discard {p : Parse α} (hp : C.Keeps p s) : C.Keeps (discard p) s := by
  unfold Keeps Comes at hp ⊢
  have hmap : (Functor.discard p) s = EStateM.map (fun _ => ⟨⟩) p s := rfl
  rw [hmap]
  unfold EStateM.map
  cases hr : p s with
  | ok a t => rwa [hr] at hp
  | error e t => rwa [hr] at hp

theorem rounds (hQ : C.Lasting Q) {f : β → Parse (β ⊕ α)}
    (hround : ∀ b s, C.Comes (C.roundPost Q) (f b) s) (bound : Nat) (b : β) :
    C.Comes Q (Parse.rounds f bound b) s := by
  induction bound generalizing b s with
  | zero => exact hC.raise s rfl (.refl _)
  | succ bound ih =>
      refine .bind (hround b s) fun r t _ hr => ?_
      cases r with
      | inr last => exact hr
      | inl next =>
          have hrest := ih (s := t) next
          unfold Comes at hrest
          show match Parse.rounds f bound next t with
            | .ok a u => Q s a u
            | .error e u => C.fails s e u
          cases hkr : Parse.rounds f bound next t with
          | ok a u => rw [hkr] at hrest; exact hQ _ _ _ _ hr hrest
          | error e u => rw [hkr] at hrest; exact hC.fail hr hrest

theorem repeatRounds (hQ : C.Lasting Q) {f : β → Parse (β ⊕ α)}
    (hround : ∀ b s, C.Comes (C.roundPost Q) (f b) s) (b : β) :
    C.Comes Q (Parse.repeatRounds f b) s :=
  hC.rounds hQ hround (s.cursor.rest.length + 1) b

/-- Rounds that keep the conduct. -/
theorem repeats {f : β → Parse (β ⊕ α)} (hround : ∀ b s, C.Keeps (f b) s) (b : β) :
    C.Keeps (Parse.repeatRounds f b) s := by
  refine hC.repeatRounds hC.lasting (fun b s => Comes.weaken (hround b s) fun r t h => ?_) b
  cases r <;> exact h

/-- An error is reported, and then what follows it goes on from there. -/
theorem attempt {p : Parse β} {k : Except ParseError β → Parse α} (hQ : C.Lasting Q)
    (hp : C.Keeps p s) (hok : ∀ b t, p s = .ok b t → C.Comes Q (k (.ok b)) t)
    (hfail : ∀ e t, C.fails s e t →
      match k (.error e) t with
      | .ok a u => Q s a u
      | .error f u => C.fails s f u) : C.Comes Q (Parse.attempt p >>= k) s := by
  unfold Keeps Comes at hp
  unfold Comes
  have hbind : (Parse.attempt p >>= k) s = EStateM.bind (Parse.attempt p) k s := rfl
  rw [hbind]
  unfold EStateM.bind Parse.attempt
  cases hr : p s with
  | ok b t =>
      rw [hr] at hp
      have h := hok b t hr
      unfold Comes at h
      simp only
      cases hkr : k (.ok b) t with
      | ok a u => rw [hkr] at h; exact hQ _ _ _ _ hp h
      | error e u => rw [hkr] at h; exact hC.fail hp h
  | error e t =>
      rw [hr] at hp
      exact hfail e t hp

/-- The error that was caught is reported first. -/
theorem reported (hQ : C.Lasting Q) {e : ParseError} {k : Parse α} (h : C.fails s e t)
    (hk : ∀ u : ParserState, u.Erred → C.Comes Q k u) :
    match (Parse.report e.diagnostic >>= fun _ => k) t with
    | .ok a u => Q s a u
    | .error f u => C.fails s f u := by
  have hcaught := hC.caught h
  have hrest := hk { t with problems := t.problems.push e.diagnostic }
    ⟨e.diagnostic, by simp [Queue.push], rfl⟩
  unfold Comes at hrest
  show match k { t with problems := t.problems.push e.diagnostic } with
    | .ok a u => Q s a u
    | .error f u => C.fails s f u
  cases hkr : k { t with problems := t.problems.push e.diagnostic } with
  | ok a u => rw [hkr] at hrest; exact hQ _ _ _ _ hcaught hrest
  | error f u => rw [hkr] at hrest; exact hC.fail hcaught hrest

/-! ## Primitives -/

/-- A plain token is read. -/
theorem skip (hk : s.cursor.kind.isPlain = true) : C.ok s s.skip := by
  by_cases heof : s.cursor.kind = .eof
  · have hsame : s.cursor.advance = s.cursor := by
      unfold Cursor.advance
      split
      · rfl
      · rename_i token rest hrest
        rw [if_pos]
        rwa [Cursor.kind_of_rest hrest] at heof
    unfold ParserState.skip
    rw [hsame]
    exact hC.refl s
  · refine hC.read s (Cursor.reads_advance heof) (.inl ?_)
    exact List.forall_mem_singleton.mpr hk

/-- Any token may be skipped once there is an error. -/
theorem move {f : Cursor → Cursor} (hf : s.cursor.Follows (f s.cursor)) (he : s.Erred) :
    C.Keeps (Parse.moveCursor f) s := by
  obtain ⟨tokens, hrest, heof, hposition, hlast⟩ := hf
  exact hC.read s (⟨hrest, heof, hposition, hlast⟩ : s.cursor.Reads tokens _) (.inr he)

theorem token (hQ : C.Lasting Q) (hk : s.cursor.kind.isPlain = true) {k : Token → Parse α}
    (h : C.Comes Q (k s.cursor.current) s.skip) : C.Comes Q (Parse.advance >>= k) s :=
  .via hC hQ (hC.skip hk) rfl h

theorem advance (hk : s.cursor.kind.isPlain = true) : C.Keeps Parse.advance s := hC.skip hk

theorem passed (hk : s.cursor.kind.isPlain = true) {k : PUnit → Parse α}
    (h : C.Keeps (k ⟨⟩) s.skip) : C.Keeps (Functor.discard Parse.advance >>= k) s :=
  .via hC hC.lasting (hC.skip hk) rfl h

theorem skip_of_check {kind : TokenKind} (hk : kind.isPlain = true)
    (hc : s.cursor.check kind = true) : C.ok s s.skip :=
  hC.skip (TokenKind.isPlain_of_index (Cursor.check_eq_true hc) hk)

theorem eat {kind : TokenKind} (hk : kind.isPlain = true) : C.Keeps (Parse.eat kind) s := by
  unfold Keeps Comes
  rw [Parse.eat_eq]
  by_cases hc : s.cursor.check kind = true
  · rw [if_pos hc]
    exact hC.skip_of_check hk hc
  · rw [if_neg hc]
    exact hC.refl s

theorem expect {kind : TokenKind} (hk : kind.isPlain = true) : C.Keeps (Parse.expect kind) s := by
  unfold Keeps Comes
  rw [Parse.expect_eq]
  by_cases hc : s.cursor.check kind = true
  · rw [if_pos hc]
    exact hC.skip_of_check hk hc
  · rw [if_neg hc]
    exact hC.raise s rfl (.refl _)

/-- A token that must be of a kind is read in front of an answer. -/
theorem closed {kind : TokenKind} (hk : kind.isPlain = true) (a : α) :
    C.Keeps (do Functor.discard (Parse.expect kind); return a : Parse α) s :=
  hC.bind (Inside.discard (hC.expect hk)) fun _ _ => hC.pure a

theorem expectIdent : C.Keeps Parse.expectIdent s := by
  unfold Keeps Comes
  by_cases hident : ∃ name, s.cursor.kind = .ident name
  · obtain ⟨name, hk⟩ := hident
    rw [ParserState.expectIdent_of_ident hk]
    exact hC.skip (by rw [hk]; rfl)
  · have hfail : ∃ e, Parse.expectIdent s = .error e s ∧ e.diagnostic.Plain := by
      unfold Parse.expectIdent
      show ∃ e, EStateM.bind Parse.cursor _ s = .error e s ∧ _
      have hcursor : Parse.cursor s = .ok s.cursor s := rfl
      simp only [EStateM.bind, hcursor]
      cases hk : s.cursor.kind with
      | ident name => exact absurd ⟨name, hk⟩ hident
      | _ => exact ⟨_, rfl, rfl⟩
    obtain ⟨e, he, hplain⟩ := hfail
    rw [he]
    exact hC.raise s hplain (.refl _)

theorem reportAll {ds : List Diagnostic} (h : ∀ d ∈ ds, d.Plain) :
    C.Keeps (Parse.reportAll ds) s :=
  hC.report s h

theorem told {d : Diagnostic} (h : d.Plain) : C.Keeps (Parse.report d) s :=
  hC.report s (List.forall_mem_singleton.mpr h)

theorem mention (name : String) (pos : Position) (context : Option ScopeId) :
    C.Keeps (Parse.mention context name pos) s := by
  unfold Keeps Comes
  rw [ParserState.mention_eq]
  cases hl : s.table.lookupDeclared context name with
  | some symbol =>
      rw [ParserState.mentioned_of_some _ hl]
      exact hC.enter s _ s.pending
  | none =>
      rw [ParserState.mentioned_of_none _ hl]
      exact hC.enter s _ _

theorem reserve : C.Keeps Parse.reserve s := hC.enter s _ s.pending

theorem recordAt (number : Nat) (symbol : Symbol) (pos : Position) (mention : Mention) :
    C.Keeps (Parse.recordAt number symbol pos mention) s :=
  hC.enter s _ s.pending

theorem modifyVariable (symbol : Symbol) {f : Variable → Variable}
    (hf : ∀ v, (f v).label = v.label) : C.Keeps (Parse.modifyVariable symbol f) s :=
  hC.adjust s symbol hf

/-- A string literal becomes part of the string space, or is reported. -/
theorem literal {text : String} (hk : s.cursor.kind = .str text) :
    C.Keeps (Functor.discard Parse.advance >>= fun _ =>
      Parse.stringOperand text s.cursor.pos) s := by
  have hrun : (Functor.discard Parse.advance >>= fun _ => Parse.stringOperand text s.cursor.pos) s =
      Parse.stringOperand text s.cursor.pos s.skip := rfl
  unfold Keeps Comes
  rw [hrun, Parse.stringOperand_eq]
  have htable : s.skip.table = s.table := rfl
  rw [htable]
  cases hi : s.table.strings.intern text with
  | ok found =>
      obtain ⟨handle, strings⟩ := found
      exact hC.text s hk hi
  | error error => exact hC.refused s hk hi

theorem declareVariable {context : Context} (hc : context.scope = scope) (kind : VarScope)
    (name : String) (pos : Position) : C.Keeps (Parse.declareVariable context kind name pos) s := by
  subst hc
  unfold Keeps Comes
  rw [Parse.declareVariable_eq]
  cases hd : s.table.declareIn context.scope kind name pos with
  | ok found =>
      obtain ⟨symbol, table⟩ := found
      exact hC.trans (hC.declare s hd) (hC.enter { s with table := table } _ s.pending)
  | error problem => exact hC.redeclare s hd

end Inside

end Conduct

end SslFrontend
