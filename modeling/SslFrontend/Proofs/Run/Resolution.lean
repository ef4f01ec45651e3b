import SslFrontend.Proofs.Postfix.Linked
import SslFrontend.Proofs.Run.Coded
import SslFrontend.Proofs.Run.Finish
import SslFrontend.Proofs.Run.Known

/-! # Resolving what a run leaves

A mention of a declared name is bound to its declaration, and stays so: the
symbol goes on to be the same declaration of the same name.  A mention of any
other name stands for a pending name of the same context.

When a run is over, every mention of its log is bound: to what was declared when
it was made, or else to what the tables at the end have for its name.  The code
that is kept is made of nothing but resolved mentions, literals, operations and
locals that their declarations store into.
-/

namespace SslFrontend

variable {stream : TokenStream} {x y : Config stream}

/-- What a mention is known to be in a later configuration. -/
structure Mentioned.Recorded (e : Mentioned) (x : Config stream) : Prop where
  pos : stream.Has e.pos
  scope : ∀ sc, e.scope = some sc → x.Settled sc
  early : ∀ symbol, e.table.lookupDeclared e.scope e.name = some symbol →
    e.node = symbol.toNode e.pos ∧ x.table.Binds e.name symbol ∧
      x.table.siteOf? symbol = e.table.siteOf? symbol
  late : e.table.lookupDeclared e.scope e.name = none → ∃ place p,
    x.state.pending.names[place]? = some p ∧ p.name = e.name ∧ p.context = e.scope ∧
      e.node = Pending.node place e.pos

theorem Step.pending_grows (h : Step x y) : x.state.pending.Grows y.state.pending := by
  cases h with
  | inner h =>
      cases h with
      | @mention name hk =>
          show x.state.pending.Grows
            (x.advance.state.mentioned x.scope name x.cursor.pos).2.pending
          let s := x.advance.state
          cases hl : s.table.lookupDeclared x.scope name with
          | some symbol =>
              rw [ParserState.mentioned_of_some _ hl]
              exact .refl _
          | none =>
              rw [ParserState.mentioned_of_none _ hl]
              exact (s.pending.mention_spec name x.scope s.ledger.next x.cursor.pos).grows
      | _ => exact .refl _
  | _ => exact .refl _

namespace Mentioned

theorem Recorded.step {e : Mentioned} (h : e.Recorded x) (hs : Step x y) : e.Recorded y where
  pos := h.pos
  scope sc hsc := hs.settled (h.scope sc hsc)
  early symbol hl := by
    obtain ⟨hnode, hbinds, hsite⟩ := h.early symbol hl
    have hfits := (SymbolTable.binds_of_lookupDeclared hl).2
    -- A header can rebuild the locals of a scope, but not of one that is settled.
    obtain ⟨hbinds', hsite'⟩ := hbinds.grows hs.extends.table fun scope i hinner => by
      subst hinner
      exact h.scope scope hfits
    exact ⟨hnode, hbinds', hsite'.trans hsite⟩
  late hl := by
    obtain ⟨place, p, hp, hname, hcontext, hnode⟩ := h.late hl
    obtain ⟨q, hq, hname', hcontext', _⟩ := hs.pending_grows place p hp
    exact ⟨place, q, hq, hname'.trans hname, hcontext'.trans hcontext, hnode⟩

theorem Recorded.made (hc : x.Coded) (name : String) :
    Recorded ⟨x.scope, name, x.cursor.pos, x.table,
        (x.advance.state.mentioned x.scope name x.cursor.pos).1⟩
      (x.advance.mention name x.cursor.pos) := by
  have htable : (x.advance.mention name x.cursor.pos).table = x.table :=
    x.advance.mention_table _ _
  constructor
  · exact x.tracked.has_pos
  · intro sc hsc
    obtain ⟨p, hp, _⟩ := hc.current hsc
    exact ⟨p, by rw [htable]; exact hp, .inl hsc⟩
  · intro symbol hl
    have hl : x.advance.state.table.lookupDeclared x.scope name = some symbol := hl
    rw [htable]
    refine ⟨?_, (SymbolTable.binds_of_lookupDeclared hl).1, rfl⟩
    rw [ParserState.mentioned_of_some _ hl]
  · intro hl
    have hl : x.advance.state.table.lookupDeclared x.scope name = none := hl
    let s := x.advance.state
    have hspec := s.pending.mention_spec name x.scope s.ledger.next x.cursor.pos
    obtain ⟨p, hp, hname, hcontext, _⟩ := hspec.there
    refine ⟨(s.pending.mention name x.scope s.ledger.next x.cursor.pos).1, p, ?_, hname,
      hcontext, ?_⟩
    · show (x.advance.state.mentioned x.scope name x.cursor.pos).2.pending.names[_]? = _
      rw [ParserState.mentioned_of_none _ hl]
      exact hp
    · rw [ParserState.mentioned_of_none _ hl]

end Mentioned

/-- Every mention of the log is known. -/
def Config.Logged (x : Config stream) : Prop := ∀ e ∈ x.log, e.Recorded x

/-- A step adds at most the one mention that it makes. -/
theorem Config.Logged.step (h : x.Logged) (hc : x.Coded) (hs : Step x y) : y.Logged := by
  intro e he
  by_cases hold : e ∈ x.log
  · exact (h e hold).step hs
  · cases hs with
    | inner hs =>
        cases hs with
        | mention hk =>
            rcases List.mem_append.mp he with hmem | hnew
            · exact absurd hmem hold
            · rw [List.mem_singleton.mp hnew]
              exact .made hc _
        | _ => exact absurd he hold
    | _ => exact absurd he hold

theorem Config.Logged.steps (h : x.Logged) (hc : x.Coded) (hs : Steps x y) : y.Logged := by
  induction hs with
  | refl => exact h
  | tail hfirst hstep ih => exact ih.step (hc.steps hfirst) hstep

theorem Config.Logged.start (stream : TokenStream) : (Config.start stream).Logged :=
  fun _ he => absurd he List.not_mem_nil

/-! ## The end of a run -/

/-- A run over a stream that ends where the parser does. -/
structure Config.Ends (x : Config stream) : Prop where
  steps : Steps (.start stream) x
  leaves : x.Leaves stream.draft

/-- A run at whose end the leaves of the main code are known. -/
structure Config.Completes (x : Config stream) : Prop extends x.Ends where
  main : Statements (x.vocabulary none) false stream.draft.main

theorem TokenStream.completes (stream : TokenStream) : ∃ x : Config stream, x.Completes := by
  obtain ⟨x, hsteps, hleaves, hmain⟩ := stream.reaches_draft
  exact ⟨x, ⟨hsteps, hleaves⟩, hmain⟩

namespace Config.Ends

theorem coded (h : x.Ends) : x.Coded := (Config.Coded.start stream).steps h.steps

theorem known (h : x.Ends) : x.Known := (Config.Known.start stream).steps h.steps

theorem logged (h : x.Ends) : x.Logged :=
  (Config.Logged.start stream).steps (Config.Coded.start stream) h.steps

theorem sound (h : x.Ends) : stream.draft.table.Sound stream.Has := h.leaves.table ▸ h.known.table

theorem bounded (h : x.Ends) : stream.draft.table.Bounded stream.tokens.length :=
  h.leaves.table ▸ h.known.bounded.mono x.tracked.position_le

/-- The code of every procedure that the run leaves behind is known of. -/
theorem finished_coded (h : x.Ends) {i : Nat} {p q : Procedure} (hq : stream.draft.Finished i p q) :
    q.Coded x (.proc i) :=
  h.coded.procedure (h.leaves.table ▸ hq.there)

/-- A procedure that is defined returns at its end. -/
theorem returns (h : x.Ends) {i : Nat} {p q : Procedure} (hq : stream.draft.Finished i p q)
    (hd : p.defined = true) : ∃ code pos, p.body = code ++ [⟨.ret, .int 0, pos⟩] := by
  obtain ⟨code, last, hbody, _, _⟩ := (h.finished_coded hq).body (hq.defined ▸ hd)
  refine ⟨code.resolved stream.draft.found, last, ?_⟩
  rw [hq.body, hbody, Code.resolved_append _ (Code.startsFresh_cons rfl []),
    Code.resolved_singleton _ (by simp) rfl]

/-- A local that its declaration stores into is one of the table. -/
theorem own_holds (hx : x.Ends) {node : Node} {context : Option ScopeId}
    (h : (x.vocabulary context).own node) :
    ∃ symbol, node = symbol.toNode node.pos ∧ stream.Has node.pos ∧
      stream.draft.table.Holds context symbol := by
  obtain ⟨sc, index, pos, hscope, rfl, hpos, hsite⟩ := h
  obtain ⟨p, hp, hlocal⟩ := Option.bind_eq_some_iff.mp hsite
  obtain ⟨v, hv, _⟩ := Option.map_eq_some_iff.mp hlocal
  exact ⟨.inner sc index, rfl, hpos, hscope, p, hx.leaves.table ▸ hp,
    (List.getElem?_eq_some_iff.mp hv).1⟩

end Config.Ends

namespace Draft

/-- What a mention is bound to: a local that its context had declared, a variable
or procedure of the unit that was declared, or what the tables at the end have
for the name. -/
def binding? (draft : Draft) (e : Mentioned) : Option Symbol :=
  (e.scope.bind (e.table.lookupLocal · e.name)).or
    ((e.table.lookupGlobal e.name).or (draft.closed.lookup e.scope e.name))

theorem binding?_eq (draft : Draft) (e : Mentioned) : draft.binding? e =
    (e.table.lookupDeclared e.scope e.name).or (draft.closed.lookup e.scope e.name) :=
  (Option.or_assoc ..).symm

end Draft

namespace Mentioned.Recorded

variable {e : Mentioned}

theorem offers (h : e.Recorded x) (hx : x.Ends) {symbol : Symbol}
    (hb : stream.draft.binding? e = some symbol) :
    stream.draft.table.Offers e.scope e.name symbol := by
  rw [Draft.binding?_eq] at hb
  rcases Option.or_eq_some_iff.mp hb with hdeclared | ⟨_, hlater⟩
  · obtain ⟨_, hbinds, _⟩ := h.early symbol hdeclared
    exact ⟨(SymbolTable.binds_of_lookupDeclared hdeclared).2, .inl (hx.leaves.table ▸ hbinds)⟩
  · rw [Draft.closed_lookup] at hlater
    exact SymbolTable.offers_of_lookup hlater

/-- A mention that waits has a place among the pending names. -/
theorem place (h : e.Recorded x) (hx : x.Ends) (fits : stream.Fits)
    (hnone : e.table.lookupDeclared e.scope e.name = none) :
    ∃ place, e.node = Pending.node place e.pos ∧ (Value.ofIndex place).index? = some place ∧
      stream.draft.found[place]? = some (stream.draft.closed.lookup e.scope e.name) := by
  obtain ⟨place, p, hp, hname, hcontext, hnode⟩ := h.late hnone
  have hplace : place ≤ Value.maxIndex := by
    have hlt := (List.getElem?_eq_some_iff.mp hp).1
    have hread := Nat.le_trans hx.known.names x.tracked.position_le
    have hlimit : stream.tokens.length ≤ Value.maxIndex := fits
    omega
  refine ⟨place, hnode, Value.index?_ofIndex hplace, ?_⟩
  have hpending : stream.draft.pending = x.state.pending := hx.leaves.pending
  unfold Draft.found Pending.resolutions
  rw [List.getElem?_map, hpending, hp, Option.map_some, hname, hcontext]

theorem resolved_of_some (h : e.Recorded x) (hx : x.Ends) (fits : stream.Fits) {symbol : Symbol}
    (hb : stream.draft.binding? e = some symbol) :
    e.node.resolved stream.draft.found = symbol.toNode e.pos := by
  rw [Draft.binding?_eq] at hb
  rcases Option.or_eq_some_iff.mp hb with hdeclared | ⟨hnone, hlater⟩
  · obtain ⟨hnode, _, _⟩ := h.early symbol hdeclared
    rw [hnode]
    have hne := SymbolTable.lookupDeclared_ne_builtin hdeclared
    exact Node.resolved_of_ne_ident _ (by cases symbol <;> exact NodeKind.noConfusion)
  · obtain ⟨place, hnode, hplace, hfound⟩ := h.place hx fits hnone
    rw [hlater] at hfound
    rw [hnode]
    simp only [Node.resolved, Pending.node, if_pos, hplace, Option.bind_some, hfound,
      Option.join_some]

theorem resolved_of_none (h : e.Recorded x) (hx : x.Ends) (fits : stream.Fits)
    (hb : stream.draft.binding? e = none) :
    ∃ n, e.node.resolved stream.draft.found = ⟨.error, .int n, e.pos⟩ := by
  rw [Draft.binding?_eq] at hb
  obtain ⟨hnone, hlater⟩ := Option.or_eq_none_iff.mp hb
  obtain ⟨place, hnode, hplace, hfound⟩ := h.place hx fits hnone
  rw [hlater] at hfound
  rw [hnode]
  simp only [Node.resolved, Pending.node, if_pos, hplace, Option.bind_some, hfound]
  exact ⟨_, rfl⟩

end Mentioned.Recorded

/-! ## Code that is kept -/

/-- The code that is kept is resolved from code of a known shape. -/
theorem Draft.Keeps.emitted (hx : x.Completes) {context : Option ScopeId} {code : Code}
    (h : stream.draft.Keeps context code) :
    ∃ source, code = Code.resolved stream.draft.found source ∧
      (x.vocabulary context).Emits source := by
  cases h with
  | main => exact ⟨stream.draft.main, rfl, hx.main.emits⟩
  | body there =>
      obtain ⟨q, hq, hbody, _⟩ := Draft.resolved_scope? there
      have hcoded := hx.coded.procedure (hx.leaves.table ▸ hq)
      refine ⟨q.body, hbody, ?_⟩
      cases hd : q.defined with
      | false =>
          rw [hcoded.blank hd]
          exact Values.nil.emits
      | true =>
          obtain ⟨code, last, hcode, hlast, hshape⟩ := hcoded.body hd
          rw [hcode]
          exact (hshape.append (.ret hlast)).emits
  | condition there trigger =>
      obtain ⟨q, hq, _, htrigger⟩ := Draft.resolved_scope? there
      have hcoded := hx.coded.procedure (hx.leaves.table ▸ hq)
      rw [htrigger] at trigger
      cases hc : q.trigger with
      | none => rw [hc] at trigger; cases trigger
      | timed time => rw [hc] at trigger; cases trigger
      | conditional condition =>
          rw [hc] at trigger
          cases trigger
          exact ⟨condition, rfl, (hcoded.condition condition hc).emits⟩

/-- Every node of the code that is kept is one that a run knows. -/
theorem Draft.Keeps.gives (hx : x.Completes) {context : Option ScopeId} {code : Code}
    (h : stream.draft.Keeps context code) :
    ∀ node ∈ code, (x.vocabulary context).Gives stream.draft.found node := by
  obtain ⟨source, rfl, hemits⟩ := h.emitted hx
  refine hemits.gives stream.draft.found ?_
  rintro node ⟨e, he, _, rfl⟩
  have hrecorded := hx.logged e he
  have hpos : e.node.pos = e.pos := by
    cases hl : e.table.lookupDeclared e.scope e.name with
    | some symbol => rw [(hrecorded.early symbol hl).1]; rfl
    | none =>
        obtain ⟨place, p, _, _, _, hnode⟩ := hrecorded.late hl
        rw [hnode]
        rfl
  rw [hpos]
  exact hrecorded.pos

end SslFrontend
