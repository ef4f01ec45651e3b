import SslFrontend.Include.Splice
import SslFrontend.Proofs.Progress.Depth

/-! # The parser reads everything and stops

The parser has no bound of its own: rounds are repeated until one is the last,
and productions hold one another as deep as the text does.  Every loop reads a
token in each round but its last, whatever errors occur, and what is held stands
behind a token; so all of it comes to an end.  The cursor only goes forward, and
when the items are read it stands at the end of the stream.  Main statement:
`TokenStream.reads_through`.
-/

namespace SslFrontend

namespace Cursor

/-- One step of the search for a token: read it if it is passed. -/
theorem synchronize_eq (c : Cursor) (set : KindSet) :
    c.synchronize set = if passes set c.current then c.advance.synchronize set else c := by
  obtain ⟨rest, eof, position, last⟩ := c
  cases rest with
  | nil => rfl
  | cons token more =>
      by_cases hpass : passes set token = true
      · have hkind : token.kind ≠ .eof := by
          rintro heof
          simp [passes, heof] at hpass
        have htaken : (token :: more).takeWhile (passes set) =
            token :: more.takeWhile (passes set) := List.takeWhile_cons_of_pos hpass
        have hlast : ((token :: more.takeWhile (passes set)).getLast?.map Token.pos).or last =
            ((more.takeWhile (passes set)).getLast?.map Token.pos).or (some token.pos) := by
          cases more.takeWhile (passes set) with
          | nil => rfl
          | cons next others => simp [List.getLast?_cons]
        simp only [current, List.headD_cons, hpass, if_true, synchronize, skipWhile, advance, hkind,
          if_false, htaken, hlast, List.length_cons, List.drop_succ_cons]
        rw [Nat.add_assoc, Nat.add_comm 1]
      · have htaken : (token :: more).takeWhile (passes set) = [] := by
          simp [hpass]
        simp only [current, List.headD_cons, hpass, synchronize, skipWhile, htaken]
        rfl

theorem position_advance_of_passes {c : Cursor} {set : KindSet} (h : passes set c.current = true) :
    c.advance.position = c.position + 1 := by
  refine advance_position fun heof => ?_
  have hkind : c.current.kind = .eof := heof
  simp [passes, hkind] at h

end Cursor

namespace Assignment

/-- One step of the search for the bracket that closes `depth + 1` open ones: the
depth and the tokens behind the next token, or what was found. -/
def bracketStep : Nat → List Token → (Nat × List Token) ⊕ Option (List Token)
  | _, [] => .inr none
  | depth, token :: rest =>
    match token.kind with
    | .mark .lbracket => .inl (depth + 1, rest)
    | .mark .rbracket =>
      match depth with
      | 0 => .inr (some rest)
      | outer + 1 => .inl (outer, rest)
    | .mark .semicolon | .eof => .inr none
    | _ => .inl (depth, rest)

theorem afterBrackets?_eq (depth : Nat) (tokens : List Token) :
    afterBrackets? depth tokens =
      match bracketStep depth tokens with
      | .inl (depth', rest) => afterBrackets? depth' rest
      | .inr found => found := by
  cases tokens with
  | nil => rfl
  | cons token rest =>
      obtain ⟨kind, pos⟩ := token
      cases kind with
      | mark sign =>
          cases sign with
          | rbracket => cases depth <;> rfl
          | _ => rfl
      | _ => rfl

/-- A step looks one token further, and never beyond the end of file. -/
theorem bracketStep_looks {depth depth' : Nat} {tokens rest : List Token}
    (h : bracketStep depth tokens = .inl (depth', rest)) :
    ∃ token, token.kind ≠ .eof ∧ tokens = token :: rest := by
  cases tokens with
  | nil => cases h
  | cons token more =>
      obtain ⟨kind, pos⟩ := token
      cases kind with
      | eof => cases h
      | mark sign =>
          cases sign with
          | semicolon => cases h
          | rbracket =>
              cases depth with
              | zero => cases h
              | succ outer => cases h; exact ⟨_, by nofun, rfl⟩
          | _ => cases h; exact ⟨_, by nofun, rfl⟩
      | _ => cases h; exact ⟨_, by nofun, rfl⟩

end Assignment

namespace Parse

/-- The loops of the grammar: what one round does, what it starts with, and what
is read by all rounds. -/
inductive Loop : {α β : Type} → (α → Parse (α ⊕ β)) → α → Parse β → Prop
  | items : Loop itemRound [] items
  | block (context : Context) (opener : Token) :
      Loop (blockRound (statement context) opener) []
        (repeatRounds (blockRound (statement context) opener) [])
  | variableList (context : Context) (kind : VarScope) :
      Loop (variableListRound context kind) [] (variableList context kind)
  | variableBlock (context : Context) (kind : VarScope) (opener : Token) :
      Loop (variableBlockRound context kind opener) [] (variableBlock context kind opener)
  | parameters : Loop parameterRound [] parameterRun
  | triggers : Loop triggerRound .none trigger
  | qualifiers : Loop qualifierRound ⟨[]⟩ qualifiers
  | arguments (scope : Option ScopeId) :
      Loop (argumentRound (expression scope)) ([], 0) (argumentRun (expression scope))
  | indices (scope : Option ScopeId) (code : Code) :
      Loop (indexRound (expression scope)) code (indices (expression scope) code)
  | operators (scope : Option ScopeId) :
      Loop (linkRound scope (expression scope)) [] (chainRun scope (expression scope))

namespace Loop

variable {α β : Type} {round : α → Parse (α ⊕ β)} {a : α} {p : Parse β}

theorem eq (h : Loop round a p) : p = repeatRounds round a := by
  cases h <;> rfl

theorem consumes (h : Loop round a p) : Consumes round := by
  have he : ∀ scope, Forward (expression scope) := fun scope =>
    (inside_forward scope).expression_along
  cases h with
  | items => exact itemRound_consumes
  | block context opener =>
      exact blockRound_consumes ((inside_forward context.scope).statement_along rfl) opener
  | variableList context kind => exact variableListRound_consumes context kind
  | variableBlock context kind opener => exact variableBlockRound_consumes context kind opener
  | parameters => exact parameterRound_consumes
  | triggers => exact triggerRound_consumes
  | qualifiers => exact qualifierRound_consumes
  | arguments scope => exact argumentRound_consumes (he scope)
  | indices scope code => exact indexRound_consumes (he scope)
  | operators scope => exact linkRound_consumes (he scope)

theorem forward (h : Loop round a p) (b : α) : Forward (round b) := by
  have hn := inside_forward none
  have he : ∀ scope, Forward (expression scope) := fun scope =>
    (inside_forward scope).expression_along
  cases h with
  | items => exact Along.forward (ParserState.Onward.throughout.itemRound_along b)
  | block context opener =>
      exact hn.blockRound_along ((inside_forward context.scope).statement_along rfl) opener b
  | variableList context kind =>
      exact (inside_forward context.scope).variableListRound_along rfl kind b
  | variableBlock context kind opener =>
      exact (inside_forward context.scope).variableBlockRound_along rfl kind opener b
  | parameters => exact hn.parameterRound_along (fun _ => .refl _) b
  | triggers => exact hn.triggerRound_along b
  | qualifiers => exact hn.qualifierRound_along b
  | arguments scope => exact hn.argumentRound_along (he scope) b
  | indices scope code => exact hn.indexRound_along (he scope) b
  | operators scope => exact (inside_forward scope).linkRound_along (he scope) b

/-- A loop that is repeated without a bound comes to an end. -/
theorem repeats (h : Loop round a p) (s : ParserState) : Repeats round a s (p s) := by
  rw [h.eq]
  exact repeatRounds_repeats h.consumes h.forward a s

end Loop

/-- The productions of the grammar. -/
inductive Production : {α : Type} → Parse α → Prop
  | items : Production items
  | item : Production item
  | procedure (q : Qualifiers) : Production (procedure q)
  | parameters : Production parameters
  | trigger : Production trigger
  | body (scope : ScopeId) : Production (body scope)
  | discardedBody (header : Header) : Production (discardedBody header)
  | qualifiers : Production qualifiers
  | variableDeclaration (context : Context) (q : Qualifiers) :
      Production (variableDeclaration context q)
  | variableItem (context : Context) (kind : VarScope) : Production (variableItem context kind)
  | block (context : Context) : Production (block (statement context))
  | statement (context : Context) : Production (statement context)
  | simple (scope : Option ScopeId) : Production (simple scope)
  | arguments (scope : Option ScopeId) : Production (arguments (expression scope))
  | primary (scope : Option ScopeId) : Production (primary scope (expression scope))
  | operand (scope : Option ScopeId) : Production (operand scope (expression scope))
  | expression (scope : Option ScopeId) : Production (expression scope)

theorem Production.forward {α : Type} {p : Parse α} (h : Production p) : Forward p := by
  have hn := inside_forward none
  have he : ∀ scope, Forward (Parse.expression scope) := fun scope =>
    (inside_forward scope).expression_along
  cases h with
  | items => exact .repeatRounds hn (Loop.forward .items) _
  | item => exact item_forward
  | procedure q => exact Along.forward (ParserState.Onward.throughout.procedure_along q)
  | parameters => exact hn.parameters_along fun _ => .refl _
  | trigger => exact hn.trigger_along
  | body scope => exact Along.forward (ParserState.Onward.throughout.body_along scope)
  | discardedBody header => exact Along.forward (ParserState.Onward.throughout.discardedBody_along header)
  | qualifiers => exact hn.qualifiers_along
  | variableDeclaration context q =>
      exact (inside_forward context.scope).variableDeclaration_along rfl q
  | variableItem context kind => exact (inside_forward context.scope).variableItem_along rfl kind
  | block context => exact hn.block_along ((inside_forward context.scope).statement_along rfl)
  | statement context => exact (inside_forward context.scope).statement_along rfl
  | simple scope => exact (inside_forward scope).simple_along
  | arguments scope => exact hn.arguments_along (he scope)
  | primary scope => exact (inside_forward scope).primary_along (he scope)
  | operand scope => exact (inside_forward scope).operand_along (he scope)
  | expression scope => exact he scope

/-- Rounds over items never fail, and the last one is at the end. -/
theorem items_end {code : Code} {s : ParserState}
    {result : EStateM.Result ParseError ParserState Code}
    (h : Repeats itemRound code s result) :
    ∃ main t, result = .ok main t ∧ t.cursor.atEnd = true := by
  induction h with
  | @last code last s t hr =>
      cases hend : s.cursor.atEnd with
      | true =>
          rw [itemRound_last code hend] at hr
          cases hr
          exact ⟨_, _, rfl, hend⟩
      | false =>
          obtain ⟨more, t', -, ht⟩ := itemRound_goes code hend
          cases ht.symm.trans hr
  | @fails code e s t hr =>
      cases hend : s.cursor.atEnd with
      | true => cases (itemRound_last code hend).symm.trans hr
      | false =>
          obtain ⟨more, t', -, ht⟩ := itemRound_goes code hend
          cases ht.symm.trans hr
  | next _ _ ih => exact ih

/-- The loops and the productions of the grammar come to an end. -/
structure Ends : Prop where
  /-- A round of a loop reads a token or is the last. -/
  reads : ∀ {α β : Type} {round : α → Parse (α ⊕ β)} {a : α} {p : Parse β},
    Loop round a p → Consumes round
  /-- Every loop, repeated without a bound, has a last round. -/
  loops : ∀ {α β : Type} {round : α → Parse (α ⊕ β)} {a : α} {p : Parse β},
    Loop round a p → ∀ s, Repeats round a s (p s)
  /-- Expressions hold one another less deep than there are tokens: what lies
  deeper does not matter. -/
  expressions : ∀ bottom scope depth s, s.cursor.rest.length < depth →
    holdingExpressions^[depth] bottom scope s = expression scope s
  statements : ∀ bottom context depth s, s.cursor.rest.length < depth →
    statementWith^[depth] bottom context s = statement context s
  /-- Looking for a token of a set reads a token in each step but the last. -/
  synchronize : ∀ c set, Cursor.synchronize c set =
    if Cursor.passes set c.current then c.advance.synchronize set else c
  synchronizeReads : ∀ {c : Cursor} {set}, Cursor.passes set c.current = true →
    c.advance.position = c.position + 1
  /-- Looking ahead for a closing bracket looks one token further in each step
  but the last, and never beyond the end of file. -/
  lookahead : ∀ depth tokens, Assignment.afterBrackets? depth tokens =
    match Assignment.bracketStep depth tokens with
    | .inl (depth', rest) => Assignment.afterBrackets? depth' rest
    | .inr found => found
  lookaheadMoves : ∀ {depth depth' : Nat} {tokens rest : List Token},
    Assignment.bracketStep depth tokens = .inl (depth', rest) →
      ∃ token, token.kind ≠ .eof ∧ tokens = token :: rest

theorem ends : Ends where
  reads h := h.consumes
  loops h := h.repeats
  expressions bottom scope depth s := expressions_nested.below_whole bottom depth scope s
  statements bottom context depth s := statements_nested.below_whole bottom depth context s
  synchronize := Cursor.synchronize_eq
  synchronizeReads := Cursor.position_advance_of_passes
  lookahead := Assignment.afterBrackets?_eq
  lookaheadMoves := Assignment.bracketStep_looks

end Parse

namespace TokenStream

/-- The cursor goes forward through the stream, and to its end. -/
structure ReadThrough (stream : TokenStream) : Prop where
  /-- Every production leaves the cursor where it was or further on, but not
  behind the end. -/
  forward : ∀ {α : Type} {p : Parse α}, Parse.Production p → ∀ {s}, stream.Tracks s.cursor →
    s.cursor.position ≤ (p.after s).cursor.position ∧
      (p.after s).cursor.position ≤ stream.tokens.length ∧ stream.Tracks (p.after s).cursor
  /-- All items are read, whatever errors they have. -/
  whole : ∃ main s, Parse.Repeats Parse.itemRound [] (.start stream) (.ok main s) ∧
    Parse.items (.start stream) = .ok main s ∧
    s.cursor.atEnd = true ∧ s.cursor.position = stream.tokens.length

/-- A stream with no end of file but its own is read through, and everything
that is done on the way comes to an end. -/
theorem reads_through (stream : TokenStream)
    (h : ∀ token ∈ stream.tokens, token.kind ≠ .eof) : stream.ReadThrough ∧ Parse.Ends := by
  have hforward : ∀ {α : Type} {p : Parse α}, Parse.Production p → ∀ {s},
      stream.Tracks s.cursor → stream.Tracks (p.after s).cursor :=
    fun hp s hs => hs.follows (hp.forward s)
  refine ⟨⟨fun hp s hs => ?_, ?_⟩, Parse.ends⟩
  · exact ⟨(hp.forward s).position_le, (hforward hp hs).position_le, hforward hp hs⟩
  · have hrepeats := Parse.Loop.repeats .items (.start stream)
    obtain ⟨main, s, hs, hend⟩ := Parse.items_end hrepeats
    have htracks := hforward .items (s := .start stream) (.start stream)
    unfold Parse.after at htracks
    rw [hs] at htracks
    rw [hs] at hrepeats
    refine ⟨main, s, hrepeats, hs, hend, ?_⟩
    have hnone : s.cursor.rest = [] := by
      cases hrest : s.cursor.rest with
      | nil => rfl
      | cons token more =>
          have hmem := htracks.mem_of_mem_rest (hrest ▸ List.mem_cons_self)
          refine absurd ?_ (h token hmem)
          simpa [Cursor.atEnd, Cursor.kind_of_rest hrest] using hend
    have hlength := Cursor.Follows.rest_length htracks
    rw [hnone] at hlength
    simpa [Cursor.start] using hlength

/-- Nothing here is as it should be, and nothing is closed. -/
def malformed : TokenStream :=
  .ofString .none .default "procedure ( while x begin a[ := \x7b variable , , else" ⟨"a.ssl"⟩

theorem reads_through_malformed :
    (∀ token ∈ malformed.tokens, token.kind ≠ .eof) ∧ malformed.ReadThrough ∧ Parse.Ends := by
  have hone : ∀ token ∈ malformed.tokens, token.kind ≠ .eof := inner_ofText _ _ _ _ _
  exact ⟨hone, malformed.reads_through hone⟩

end TokenStream

end SslFrontend
