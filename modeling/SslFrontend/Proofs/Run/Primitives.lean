import SslFrontend.Proofs.Run.Yields
import SslFrontend.Proofs.Symbol.Binds

/-! # Primitives of the parser

One rule for each primitive: what it does to a configuration, and what is left
to run.  Reading a name and mentioning it is one step (`Yields.mentionNext`), so
that no name is mentioned without a token that was read for it.
-/

namespace SslFrontend

variable {stream : TokenStream} {α : Type}

/-- Steps among which are those inside. -/
class Covers (R : Config stream → Config stream → Prop) : Prop where
  inner : ∀ {x y : Config stream}, InnerStep x y → R x y

instance : Covers (@InnerStep stream) := ⟨id⟩

instance : Covers (@Step stream) := ⟨.inner⟩

namespace Symbol

/-- A symbol that is not a built-in is what a mention leaves. -/
theorem isMention_toNode {symbol : Symbol} (h : ∀ i, symbol ≠ .builtin i) (pos : Position) :
    (symbol.toNode pos).kind.isMention = true := by
  cases symbol with
  | builtin i => exact absurd rfl (h i)
  | _ => rfl

end Symbol

namespace ParserState

variable (s : ParserState) (scope : Option ScopeId) (name : String) (pos : Position)

theorem mention_eq :
    Parse.mention scope name pos s =
      .ok (s.mentioned scope name pos).1 (s.mentioned scope name pos).2 := by
  unfold Parse.mention mentioned
  show EStateM.bind Parse.table _ s = _
  have htable : Parse.table s = .ok s.table s := rfl
  simp only [EStateM.bind, htable]
  cases s.table.lookupDeclared scope name <;> rfl

theorem expectIdent_of_ident {s : ParserState} {name : String}
    (h : s.cursor.kind = .ident name) :
    Parse.expectIdent s =
      .ok (name, s.cursor.pos) { s with cursor := s.cursor.advance } := by
  unfold Parse.expectIdent
  show EStateM.bind Parse.cursor _ s = _
  have hcursor : Parse.cursor s = .ok s.cursor s := rfl
  simp only [EStateM.bind, hcursor, h]
  rfl

theorem mentioned_isMention : (s.mentioned scope name pos).1.kind.isMention = true := by
  unfold mentioned
  split
  · rename_i symbol h
    exact Symbol.isMention_toNode (SymbolTable.lookupDeclared_ne_builtin h) pos
  · rfl

theorem mentioned_pos : (s.mentioned scope name pos).1.pos = pos := by
  unfold mentioned
  split
  · rename_i symbol _
    cases symbol <;> rfl
  · rfl

end ParserState

/-- A name was read and mentioned. -/
structure Config.Mentions (x y : Config stream) (node : Node) : Prop where
  step : InnerStep x y
  ident : ∃ name, x.cursor.kind = .ident name
  cursor : y.cursor = x.cursor.advance
  position : y.cursor.position = x.cursor.position + 1
  kind : node.kind.isMention = true
  pos : node.pos = x.cursor.pos
  leaf : (y.vocabulary x.scope).name node

theorem Config.mentions (x : Config stream) {name : String} (h : x.cursor.kind = .ident name) :
    x.Mentions (x.advance.mention name x.cursor.pos)
      (x.advance.state.mentioned x.scope name x.cursor.pos).1 where
  step := .mention x h
  ident := ⟨name, h⟩
  cursor := x.advance.mention_cursor name x.cursor.pos
  position := by
    rw [x.advance.mention_cursor]
    exact Cursor.advance_position (by rw [h]; exact TokenKind.noConfusion)
  kind := x.advance.state.mentioned_isMention _ _ _
  pos := x.advance.state.mentioned_pos _ _ _
  leaf := ⟨_, List.mem_append_right _ List.mem_cons_self, rfl, rfl⟩

namespace Yields

variable {R : Config stream → Config stream → Prop} {x : Config stream}
  {Q : α → Config stream → Prop} {E : Config stream → Prop}

/-! ## Looking -/

theorem cursor {k : Cursor → Parse α} (h : Yields R (k x.cursor) x Q E) :
    Yields R (Parse.cursor >>= k) x Q E := h

theorem kind {k : TokenKind → Parse α} (h : Yields R (k x.cursor.kind) x Q E) :
    Yields R (Parse.kind >>= k) x Q E := h

theorem pos {k : Position → Parse α} (h : Yields R (k x.cursor.pos) x Q E) :
    Yields R (Parse.pos >>= k) x Q E := h

theorem table {k : SymbolTable → Parse α} (h : Yields R (k x.table) x Q E) :
    Yields R (Parse.table >>= k) x Q E := h

theorem check {kind : TokenKind} {k : Bool → Parse α}
    (h : Yields R (k (x.cursor.check kind)) x Q E) : Yields R (Parse.check kind >>= k) x Q E := h

/-! ## Reading -/

variable [Covers R]

theorem stepVia {p q : Parse α} {y : Config stream} (hs : InnerStep x y)
    (heq : p x.state = q y.state) (h : Yields R q y Q E) : Yields R p x Q E :=
  via (.single (Covers.inner hs)) heq h

theorem moveCursor {f : Cursor → Cursor} {k : PUnit → Parse α}
    (hf : x.cursor.Follows (f x.cursor)) (h : Yields R (k ⟨⟩) (x.move (f x.cursor) hf) Q E) :
    Yields R (Parse.moveCursor f >>= k) x Q E :=
  stepVia (.move x _ hf) rfl h

theorem advance {k : Token → Parse α} (h : Yields R (k x.cursor.current) x.advance Q E) :
    Yields R (Parse.advance >>= k) x Q E :=
  stepVia (.move x _ x.cursor.follows_advance) rfl h

theorem eat {kind : TokenKind} {k : Bool → Parse α}
    (ht : x.cursor.check kind = true → Yields R (k true) x.advance Q E)
    (hf : x.cursor.check kind = false → Yields R (k false) x Q E) :
    Yields R (Parse.eat kind >>= k) x Q E := by
  cases hc : x.cursor.check kind with
  | true =>
      refine stepVia (.move x _ x.cursor.follows_advance) ?_ (ht hc)
      show EStateM.bind (Parse.eat kind) k x.state = _
      have heat : Parse.eat kind x.state = .ok true x.advance.state := by
        show (if x.cursor.check kind = true then _ else _ : Parse Bool) x.state = _
        rw [if_pos hc]
        rfl
      simp only [EStateM.bind, heat]
      rfl
  | false =>
      refine via (y := x) .refl ?_ (hf hc)
      show EStateM.bind (Parse.eat kind) k x.state = _
      have heat : Parse.eat kind x.state = .ok false x.state := by
        show (if x.cursor.check kind = true then _ else _ : Parse Bool) x.state = _
        rw [if_neg (by simp [hc])]
        rfl
      simp only [EStateM.bind, heat]
      rfl

theorem expect {kind : TokenKind} {k : Token → Parse α} (hE : E x)
    (h : x.cursor.check kind = true → Yields R (k x.cursor.current) x.advance Q E) :
    Yields R (Parse.expect kind >>= k) x Q E := by
  refine bind (P := fun token y => token = x.cursor.current ∧ y = x.advance ∧
    x.cursor.check kind = true) ?_ ?_
  · refine check ?_
    split
    · rename_i hc
      exact stepVia (.move x _ x.cursor.follows_advance) rfl
        (pure (a := x.cursor.current) ⟨rfl, rfl, hc⟩)
    · exact cursor (throw hE)
  · rintro token y _ ⟨rfl, rfl, hc⟩
    exact h hc

theorem expectIdent {k : String × Position → Parse α} (hE : E x)
    (h : ∀ name, x.cursor.kind = .ident name →
      Yields R (k (name, x.cursor.pos)) x.advance Q E) :
    Yields R (Parse.expectIdent >>= k) x Q E := by
  refine bind (P := fun found y => ∃ name, x.cursor.kind = .ident name ∧
    found = (name, x.cursor.pos) ∧ y = x.advance) ?_ ?_
  · refine cursor ?_
    split
    · rename_i name hname
      exact stepVia (.move x _ x.cursor.follows_advance) rfl
        (pure (a := (name, x.cursor.pos)) ⟨name, hname, rfl, rfl⟩)
    · exact throw hE
  · rintro found y _ ⟨name, hname, rfl, rfl⟩
    exact h name hname

/-! ## Reports and numbers -/

theorem report {d : Diagnostic} {k : PUnit → Parse α}
    (h : Yields R (k ⟨⟩) (x.report [d]) Q E) : Yields R (Parse.report d >>= k) x Q E :=
  stepVia (.report x [d]) rfl h

theorem reportAll {ds : List Diagnostic} {k : PUnit → Parse α}
    (h : Yields R (k ⟨⟩) (x.report ds) Q E) : Yields R (Parse.reportAll ds >>= k) x Q E :=
  stepVia (.report x ds) rfl h

theorem reserve {k : Nat → Parse α}
    (h : Yields R (k x.state.ledger.next) (x.setLedger x.state.ledger.reserve.2) Q E) :
    Yields R (Parse.reserve >>= k) x Q E :=
  stepVia (.reserve x) rfl h

theorem recordAt {number : Nat} {symbol : Symbol} {pos : Position} {k : PUnit → Parse α}
    (site : stream.Has pos)
    (h : Yields R (k ⟨⟩)
      (x.setLedger (x.state.ledger.recordAt number symbol pos .declaration)) Q E) :
    Yields R (Parse.recordAt number symbol pos .declaration >>= k) x Q E :=
  stepVia (.record x number symbol site) rfl h

theorem record {symbol : Symbol} {pos : Position} {k : PUnit → Parse α} (site : stream.Has pos)
    (h : ∀ y, Relation.ReflTransGen R x y → y.table = x.table → Yields R (k ⟨⟩) y Q E) :
    Yields R (Parse.record symbol pos .declaration >>= k) x Q E := by
  have hreserve : R x (x.setLedger x.state.ledger.reserve.2) := Covers.inner (.reserve x)
  have hrecord := InnerStep.record (x.setLedger x.state.ledger.reserve.2) x.state.ledger.next
    symbol site
  refine via ((Relation.ReflTransGen.single hreserve).tail (Covers.inner hrecord)) rfl ?_
  exact h _ ((Relation.ReflTransGen.single hreserve).tail (Covers.inner hrecord)) rfl

/-! ## Names -/

theorem mentionRead {scope : Option ScopeId} {name : String} {pos : Position}
    {k : Node → Parse α} (hx : x.scope = scope) (hk : x.cursor.kind = .ident name)
    (hpos : x.cursor.pos = pos)
    (h : ∀ node y, x.Mentions y node → Yields R (k node) y Q E) :
    Yields R (Parse.advance >>= fun _ => Parse.mention scope name pos >>= k) x Q E := by
  subst hx hpos
  have hmentions := x.mentions hk
  refine stepVia hmentions.step ?_ (h _ _ hmentions)
  show EStateM.bind (Parse.mention x.scope name x.cursor.pos) k x.advance.state = _
  simp only [EStateM.bind, ParserState.mention_eq]
  rfl

/-- The token that is read must be a name, and is mentioned. -/
theorem mentionNext {scope : Option ScopeId} {k : String → Position → Node → Parse α}
    {next : String × Position → Parse α} (hx : x.scope = scope) (hE : E x)
    (hnext : ∀ name pos, next (name, pos) = Parse.mention scope name pos >>= k name pos)
    (h : ∀ name node y, x.Mentions y node → Yields R (k name x.cursor.pos node) y Q E) :
    Yields R (Parse.expectIdent >>= next) x Q E := by
  by_cases hident : ∃ name, x.cursor.kind = .ident name
  · obtain ⟨name, hname⟩ := hident
    refine via .refl ?_ (mentionRead hx hname rfl fun node y hy => h name node y hy)
    show EStateM.bind Parse.expectIdent _ x.state = _
    simp only [EStateM.bind, ParserState.expectIdent_of_ident hname, hnext]
    rfl
  · exact expectIdent hE fun name hname => absurd ⟨name, hname⟩ hident

end Yields

end SslFrontend
