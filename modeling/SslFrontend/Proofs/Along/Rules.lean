import SslFrontend.Proofs.Run.Declaration
import SslFrontend.Proofs.Symbol.Lawful

/-! # Along productions

Inside a procedure, and between procedures, a production does one of a few
things at a time: it moves the cursor forward, reports, interns a text, changes
the value of a variable, mentions a name that it reads, or declares one.  A
relation between states that holds across each of them, and from one to the
next, holds along every production, whether it fails or not: this file has the
rules for putting productions together and for the primitives.
-/

namespace SslFrontend

/-- The relation holds across whatever is done at a time in a scope, where nothing
is declared unless `declares`. -/
structure HoldsWithin (declares : Prop) (scope : Option ScopeId)
    (R : ParserState → ParserState → Prop) : Prop where
  refl : ∀ s, R s s
  trans : ∀ {s t u}, R s t → R t u → R s u
  move : ∀ s {c}, s.cursor.Follows c → R s { s with cursor := c }
  report : ∀ s ds, R s { s with problems := ⟨s.problems.items ++ ds⟩ }
  intern : ∀ s {text handle strings}, s.table.strings.intern text = .ok (handle, strings) →
    R s { s with table := { s.table with strings := strings } }
  adjust : declares → ∀ s symbol {f}, symbol.IsIn scope → s.table.Amends symbol f →
    R s { s with table := s.table.modifyVariable symbol f }
  /-- A name is read and mentioned. -/
  mention : ∀ s {name}, s.cursor.kind = .ident name →
    R s ({ s with cursor := s.cursor.advance }.mentioned scope name s.cursor.pos).2
  /-- A name is read and declared. -/
  declare : declares → ∀ s {name kind symbol table}, s.cursor.kind = .ident name →
    s.table.declareIn scope kind name s.cursor.pos = .ok (symbol, table) →
    R s { s with
      cursor := s.cursor.advance
      table := table
      ledger := s.ledger.record symbol s.cursor.pos .declaration }

/-- The relation holds across whatever is done at a time in a scope. -/
abbrev HoldsInside := HoldsWithin True

/-- The error of a token that is no name. -/
def ParseError.noName (token : Token) : ParseError :=
  ⟨.expectedIdentifier, s!"expected identifier, found `{token.kind.friendlyName}`", token.pos,
    some "expected identifier", []⟩

/-- What is read must be a name. -/
theorem ParserState.expectIdent_eq_error {s : ParserState}
    (h : ∀ name, s.cursor.kind ≠ .ident name) :
    Parse.expectIdent s = .error (.noName s.cursor.current) s := by
  unfold Parse.expectIdent
  show EStateM.bind Parse.cursor _ s = _
  have hcursor : Parse.cursor s = .ok s.cursor s := rfl
  simp only [EStateM.bind, hcursor]
  have hkind : s.cursor.kind = s.cursor.current.kind := rfl
  unfold ParseError.noName
  rw [← hkind]
  cases hk : s.cursor.kind with
  | ident name => exact absurd hk (h name)
  | _ => rfl

namespace Parse

variable {α β : Type} {R : ParserState → ParserState → Prop} {declares : Prop}
  {scope : Option ScopeId}

/-- The state in which a production ends, failed or not. -/
def after (p : Parse α) (s : ParserState) : ParserState :=
  match p s with
  | .ok _ t => t
  | .error _ t => t

/-- The relation holds from every state to the one after a production. -/
def Along (R : ParserState → ParserState → Prop) (p : Parse α) : Prop := ∀ s, R s (p.after s)

namespace Along

theorem of_ok {p : Parse α} {s t : ParserState} {a : α} (h : Along R p) (hp : p s = .ok a t) :
    R s t := by
  have hafter := h s
  unfold after at hafter
  rwa [hp] at hafter

/-! ## Rules -/

/-- What follows a production starts in a state that is related to the first one. -/
theorem bind_behind (h : HoldsWithin declares scope R) {p : Parse α} {k : α → Parse β}
    {s : ParserState} (hp : R s (p.after s)) (hk : ∀ a t, R s t → R t ((k a).after t)) :
    R s ((p >>= k).after s) := by
  have hbind : (p >>= k) s = EStateM.bind p k s := rfl
  unfold after at hp ⊢
  rw [hbind]
  unfold EStateM.bind
  cases hr : p s with
  | ok a t =>
      rw [hr] at hp
      exact h.trans hp (hk a t hp)
  | error e t =>
      rw [hr] at hp
      exact hp

/-- A production that starts in a known state. -/
theorem bind_at (h : HoldsWithin declares scope R) {p : Parse α} {k : α → Parse β}
    {s : ParserState} (hp : R s (p.after s)) (hk : ∀ a, Along R (k a)) : R s ((p >>= k).after s) :=
  bind_behind h hp fun a t _ => hk a t

theorem bind (h : HoldsWithin declares scope R) {p : Parse α} {k : α → Parse β}
    (hp : Along R p) (hk : ∀ a, Along R (k a)) : Along R (p >>= k) :=
  fun s => bind_at h (hp s) hk

theorem pure (h : HoldsWithin declares scope R) (a : α) : Along R (pure a : Parse α) :=
  fun s => h.refl s

theorem throw (h : HoldsWithin declares scope R) (e : ParseError) : Along R (throw e : Parse α) :=
  fun s => h.refl s

theorem discard {p : Parse α} (hp : Along R p) :
    Along R (discard p) := by
  intro s
  have hp := hp s
  have hmap : (Functor.discard p) s = EStateM.map (fun _ => ⟨⟩) p s := rfl
  unfold after at hp ⊢
  rw [hmap]
  unfold EStateM.map
  cases hr : p s with
  | ok a t => rwa [hr] at hp
  | error e t => rwa [hr] at hp

theorem attempt {p : Parse α} (hp : Along R p) : Along R (Parse.attempt p) := by
  intro s
  have hp := hp s
  unfold after at hp ⊢
  unfold Parse.attempt
  cases hr : p s with
  | ok a t => rwa [hr] at hp
  | error e t => rwa [hr] at hp

theorem ite {c : Prop} [Decidable c] {p q : Parse α} (hp : Along R p) (hq : Along R q) :
    Along R (if c then p else q) := by
  split
  · exact hp
  · exact hq

/-- What follows both branches is run after either of them. -/
theorem join {c : Prop} [Decidable c] {p q : Parse α} {k : α → Parse β}
    (hp : Along R ((if c then p else q) >>= k)) :
    Along R (if c then p >>= k else q >>= k) := by
  split
  · rwa [if_pos ‹c›] at hp
  · rwa [if_neg ‹¬c›] at hp

theorem rounds (h : HoldsWithin declares scope R) {round : α → Parse (α ⊕ β)}
    (hround : ∀ a, Along R (round a)) (bound : Nat) (a : α) :
    Along R (Parse.rounds round bound a) := by
  induction bound generalizing a with
  | zero => exact bind h (fun s => h.refl s) fun _ => throw h _
  | succ bound ih =>
      refine bind h (hround a) fun r => ?_
      cases r with
      | inl next => exact ih next
      | inr last => exact pure h last

theorem repeatRounds (h : HoldsWithin declares scope R) {round : α → Parse (α ⊕ β)}
    (hround : ∀ a, Along R (round a)) (a : α) : Along R (Parse.repeatRounds round a) :=
  bind h (fun s => h.refl s) fun _ => rounds h hround _ a

end Along

end Parse

namespace HoldsWithin

open Parse (Along)

/-- Two relations that hold, hold together. -/
theorem both {R S : ParserState → ParserState → Prop} {declares : Prop} {scope : Option ScopeId}
    (h : HoldsWithin declares scope R) (h' : HoldsWithin declares scope S) :
    HoldsWithin declares scope fun s t => R s t ∧ S s t where
  refl s := ⟨h.refl s, h'.refl s⟩
  trans h₁ h₂ := ⟨h.trans h₁.1 h₂.1, h'.trans h₁.2 h₂.2⟩
  move s _ hc := ⟨h.move s hc, h'.move s hc⟩
  report s ds := ⟨h.report s ds, h'.report s ds⟩
  intern s _ _ _ hi := ⟨h.intern s hi, h'.intern s hi⟩
  adjust hd s symbol _ hi hf := ⟨h.adjust hd s symbol hi hf, h'.adjust hd s symbol hi hf⟩
  mention s _ hk := ⟨h.mention s hk, h'.mention s hk⟩
  declare hd s _ _ _ _ hk hok := ⟨h.declare hd s hk hok, h'.declare hd s hk hok⟩

/-- Where something is declared, nothing has to be. -/
theorem silent {R : ParserState → ParserState → Prop} {declares : Prop} {scope : Option ScopeId}
    (h : HoldsWithin declares scope R) : HoldsWithin False scope R where
  refl := h.refl
  trans := h.trans
  move := h.move
  report := h.report
  intern := h.intern
  adjust := False.elim
  mention := h.mention
  declare := False.elim

/-- Variables of the unit keep their scopes, whatever is done. -/
theorem keepsScopes (declares : Prop) (scope : Option ScopeId) :
    HoldsWithin declares scope fun s t => s.table.KeepsScopes t.table where
  refl s := .refl _
  trans h₁ h₂ := h₁.trans h₂
  move _ _ _ := .refl _
  report _ _ := .refl _
  intern _ _ _ _ _ := .refl _
  adjust _ _ _ _ _ hf := SymbolTable.keepsScopes_modifyVariable _ hf.scope
  mention s _ _ := by
    rw [ParserState.mentioned_table]
    exact .refl _
  declare _ _ _ _ _ _ _ hd := SymbolTable.keepsScopes_declareIn hd

variable {α β : Type} {R : ParserState → ParserState → Prop} {declares : Prop}
  {scope : Option ScopeId} (h : HoldsWithin declares scope R)

include h

/-! ## Primitives -/

theorem cursor : Along R Parse.cursor := fun s => h.refl s

theorem kind : Along R Parse.kind := fun s => h.refl s

theorem pos : Along R Parse.pos := fun s => h.refl s

theorem check (kind : TokenKind) : Along R (Parse.check kind) := fun s => h.refl s

theorem moveCursor {f : Cursor → Cursor} (hf : ∀ c, Cursor.Follows c (f c)) :
    Along R (Parse.moveCursor f) :=
  fun s => h.move s (hf s.cursor)

theorem advance : Along R Parse.advance := fun s => h.move s s.cursor.follows_advance

theorem eat (kind : TokenKind) : Along R (Parse.eat kind) :=
  .bind h (h.check kind) fun _ =>
    .ite (.bind h (h.moveCursor Cursor.follows_advance) fun _ => .pure h true) (.pure h false)

theorem expect (kind : TokenKind) : Along R (Parse.expect kind) :=
  .bind h (h.check kind) fun _ => .ite h.advance (.bind h h.cursor fun _ => .throw h _)

theorem expectIdent : Along R Parse.expectIdent := by
  refine .bind h h.cursor fun c => ?_
  split
  · exact .bind h (h.moveCursor Cursor.follows_advance) fun _ => .pure h _
  · exact .throw h _

theorem reported (d : Diagnostic) : Along R (Parse.report d) := fun s => h.report s [d]

theorem reportAll (ds : List Diagnostic) : Along R (Parse.reportAll ds) := fun s => h.report s ds

/-! ## Names -/

/-- The token that is read must be a name; what comes next starts behind it. -/
theorem nameNext {next : String × Position → Parse α}
    (hnext : ∀ s name, s.cursor.kind = .ident name →
      R s ((next (name, s.cursor.pos)).after { s with cursor := s.cursor.advance })) :
    Along R (Parse.expectIdent >>= next) := by
  intro s
  have hbind : (Parse.expectIdent >>= next) s = EStateM.bind Parse.expectIdent next s := rfl
  unfold Parse.after
  rw [hbind]
  unfold EStateM.bind
  by_cases hident : ∃ name, s.cursor.kind = .ident name
  · obtain ⟨name, hk⟩ := hident
    rw [ParserState.expectIdent_of_ident hk]
    exact hnext s name hk
  · rw [ParserState.expectIdent_eq_error fun name hk => hident ⟨name, hk⟩]
    exact h.refl s

/-- A name that was read is mentioned. -/
theorem mentionRead {s : ParserState} {name : String} {k : Node → Parse α}
    (hk : s.cursor.kind = .ident name) (hrest : ∀ node, Along R (k node)) :
    R s ((Parse.mention scope name s.cursor.pos >>= k).after
      { s with cursor := s.cursor.advance }) := by
  have hmade : (Parse.mention scope name s.cursor.pos >>= k)
      { s with cursor := s.cursor.advance } = k
        ({ s with cursor := s.cursor.advance }.mentioned scope name s.cursor.pos).1
        ({ s with cursor := s.cursor.advance }.mentioned scope name s.cursor.pos).2 := by
    show EStateM.bind (Parse.mention _ _ _) k _ = _
    simp only [EStateM.bind, ParserState.mention_eq]
  have hafter := hrest
    ({ s with cursor := s.cursor.advance }.mentioned scope name s.cursor.pos).1
    ({ s with cursor := s.cursor.advance }.mentioned scope name s.cursor.pos).2
  unfold Parse.after at hafter ⊢
  rw [hmade]
  exact h.trans (h.mention s hk) hafter

/-- A name that was read is declared, or what keeps it from that is reported. -/
theorem declareEither {s : ParserState} {name : String} {context : Context} {kind : VarScope}
    {k : Option Symbol → Parse α}
    (hok : ∀ symbol table,
      s.table.declareIn context.scope kind name s.cursor.pos = .ok (symbol, table) →
      R s ((k (some symbol)).after { s with
        cursor := s.cursor.advance
        table := table
        ledger := s.ledger.record symbol s.cursor.pos .declaration }))
    (herror : Along R (k none)) :
    R s ((Parse.declareVariable context kind name s.cursor.pos >>= k).after
      { s with cursor := s.cursor.advance }) := by
  cases hd : s.table.declareIn context.scope kind name s.cursor.pos with
  | ok found =>
      obtain ⟨symbol, table⟩ := found
      have hread := ParserState.declareVariable_ok
        (s := { s with cursor := s.cursor.advance }) hd k
      have hafter := hok symbol table hd
      unfold Parse.after at hafter ⊢
      rw [hread]
      exact hafter
  | error problem =>
      have hread := ParserState.declareVariable_error
        (s := { s with cursor := s.cursor.advance }) hd k
      have hafter := Along.bind h (h.reported problem) (fun _ => herror)
        { s with cursor := s.cursor.advance }
      unfold Parse.after at hafter ⊢
      rw [hread]
      exact h.trans (h.move s s.cursor.follows_advance) hafter

omit h in
/-- A name that was read is declared, or reported.  What is declared belongs to the
scope, and a variable of the unit has its kind. -/
theorem declareRead (h : HoldsInside scope R) {s : ParserState} {name : String}
    {context : Context} {kind : VarScope} {k : Option Symbol → Parse α}
    (hc : context.scope = scope) (hk : s.cursor.kind = .ident name)
    (hrest : ∀ declared t, (∀ symbol, declared = some symbol → symbol.IsIn scope) →
      (∀ i, declared = some (.global i) → ∃ v, t.table.vars[i]? = some v ∧ v.scope = kind) →
        R t ((k declared).after t)) :
    R s ((Parse.declareVariable context kind name s.cursor.pos >>= k).after
      { s with cursor := s.cursor.advance }) := by
  subst hc
  refine h.declareEither (fun symbol table hd => ?_) fun t => hrest none t nofun nofun
  exact h.trans (h.declare trivial s hk hd) <| hrest (some symbol) _
    (fun _ ha => Option.some.inj ha ▸ SymbolTable.isIn_of_declareIn hd)
    fun _ hi => SymbolTable.scope_of_declareIn (Option.some.inj hi ▸ hd)

end HoldsWithin

end SslFrontend
