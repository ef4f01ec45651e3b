import SslFrontend.Proofs.Reference.Sites
import SslFrontend.Proofs.Run.Growth
import SslFrontend.Proofs.Symbol.Binds

/-! # What is known of a configuration

An edit adds at most one variable or local, and a header at most one procedure,
whose locals are at most as many as its parameters.  So a table is never larger
than the number of names that were read for it, and its indices are small.

All through a run the table is sound, everything in it and in the ledger stands
at a position of the stream, no table is larger than the number of tokens read,
and each mention of the log is entered once.
-/

/-! ## Sizes of tables -/

namespace SslFrontend.SymbolTable

/-- No more than `n` variables, procedures, or locals of one procedure. -/
structure Bounded (n : Nat) (t : SymbolTable) : Prop where
  vars : t.vars.length ≤ n
  procs : t.procs.length ≤ n
  locals : ∀ {sc : ScopeId} {p : Procedure}, t.scope? sc = some p → p.locals.length ≤ n

variable {t u : SymbolTable} {m n : Nat}

namespace Bounded

theorem empty (n : Nat) : SymbolTable.empty.Bounded n := by
  refine ⟨Nat.zero_le n, Nat.zero_le n, ?_⟩
  intro sc p hp
  cases sc <;> cases hp

theorem mono (h : t.Bounded m) (hmn : m ≤ n) : t.Bounded n :=
  ⟨Nat.le_trans h.vars hmn, Nat.le_trans h.procs hmn, fun hp => Nat.le_trans (h.locals hp) hmn⟩

theorem strings (h : t.Bounded n) (strings : Pool) :
    ({ t with strings := strings } : SymbolTable).Bounded n := by
  refine ⟨h.vars, h.procs, ?_⟩
  intro sc p hp
  have hold : t.scope? sc = some p := by cases sc <;> exact hp
  exact h.locals hold

theorem modifyScope (h : t.Bounded n) {id : ScopeId} {f : Procedure → Procedure}
    (hf : ∀ p, t.scope? id = some p → (f p).locals.length ≤ n) :
    (t.modifyScope id f).Bounded n := by
  refine ⟨by simpa using h.vars, by simpa using h.procs, ?_⟩
  intro sc q hq
  by_cases hsc : sc = id
  · subst hsc
    rw [scope?_modifyScope_self] at hq
    obtain ⟨p, hp, rfl⟩ := Option.map_eq_some_iff.mp hq
    exact hf p hp
  · rw [scope?_modifyScope_of_ne _ _ _ hsc] at hq
    exact h.locals hq

theorem declareVar (h : t.Bounded n) {name : String} {scope : VarScope} {pos : Position}
    {symbol : Symbol} (hd : t.declareVar name scope pos = .ok (symbol, u)) :
    u.Bounded (n + 1) := by
  obtain ⟨_, handle, strings, _, _, rfl⟩ := declareVar_spec hd
  have hwider := (h.mono (Nat.le_succ n)).strings strings
  refine ⟨by simpa using h.vars, hwider.procs, ?_⟩
  intro sc p hp
  have hold : ({ t with strings := strings } : SymbolTable).scope? sc = some p := by
    cases sc <;> exact hp
  exact hwider.locals hold

theorem declareLocal (h : t.Bounded n) {scope : ScopeId} {name : String} {pos : Position}
    {symbol : Symbol} (hd : t.declareLocal scope name pos = .ok (symbol, u)) :
    u.Bounded (n + 1) := by
  obtain ⟨p, handle, namelist, hp, _, _, _, rfl⟩ := declareLocal_spec hd
  refine (h.mono (Nat.le_succ n)).modifyScope fun q hq => ?_
  simpa using h.locals hq

theorem modifyVariable (h : t.Bounded n) (symbol : Symbol) (f : Variable → Variable) :
    (t.modifyVariable symbol f).Bounded n := by
  cases symbol with
  | global i =>
      refine ⟨by simpa [SymbolTable.modifyVariable] using h.vars, h.procs, ?_⟩
      intro sc p hp
      have hold : t.scope? sc = some p := by cases sc <;> exact hp
      exact h.locals hold
  | inner scope i => exact h.modifyScope fun p hp => by simpa using h.locals hp
  | proc i => exact h
  | builtin i => exact h

end Bounded

/-! ## Parameters -/

/-- Each procedure of the second table is one of the first, with at most so many
more locals in one scope and as many as before in all others. -/
structure Widens (scope : ScopeId) (more : Nat) (t u : SymbolTable) : Prop where
  vars : u.vars.length = t.vars.length
  procs : u.procs.length = t.procs.length
  locals : ∀ {sc : ScopeId} {q : Procedure}, u.scope? sc = some q → ∃ p, t.scope? sc = some p ∧
    q.locals.length ≤ p.locals.length + if sc = scope then more else 0

namespace Widens

variable {w : SymbolTable} {scope : ScopeId}

theorem refl (scope : ScopeId) (t : SymbolTable) : t.Widens scope 0 t :=
  ⟨rfl, rfl, fun hq => ⟨_, hq, Nat.le_add_right _ _⟩⟩

theorem trans (h₁ : t.Widens scope m u) (h₂ : u.Widens scope n w) : t.Widens scope (m + n) w := by
  refine ⟨h₂.vars.trans h₁.vars, h₂.procs.trans h₁.procs, ?_⟩
  intro sc r hr
  obtain ⟨q, hq, hqr⟩ := h₂.locals hr
  obtain ⟨p, hp, hpq⟩ := h₁.locals hq
  refine ⟨p, hp, ?_⟩
  by_cases hsc : sc = scope
  · rw [if_pos hsc] at hqr hpq ⊢
    omega
  · rw [if_neg hsc] at hqr hpq ⊢
    omega

theorem modifyScope {f : Procedure → Procedure}
    (hf : ∀ p, t.scope? scope = some p → (f p).locals.length ≤ p.locals.length + n) :
    t.Widens scope n (t.modifyScope scope f) := by
  refine ⟨by simp, by simp, ?_⟩
  intro sc q hq
  by_cases hsc : sc = scope
  · subst hsc
    rw [scope?_modifyScope_self] at hq
    obtain ⟨p, hp, rfl⟩ := Option.map_eq_some_iff.mp hq
    exact ⟨p, hp, by rw [if_pos rfl]; exact hf p hp⟩
  · rw [scope?_modifyScope_of_ne _ _ _ hsc] at hq
    exact ⟨q, hq, Nat.le_add_right _ _⟩

end Widens

theorem addParam_widens (scope : ScopeId) (param : Param) (problems : List Diagnostic) :
    t.Widens scope 1 (addParam scope (t, problems) param).1 := by
  unfold addParam
  cases h : t.declareLocal scope param.name param.pos with
  | error problem =>
      simp only [h]
      exact ⟨rfl, rfl, fun hq => ⟨_, hq, Nat.le_add_right _ _⟩⟩
  | ok declared =>
      obtain ⟨symbol, u⟩ := declared
      simp only [h]
      obtain ⟨p, handle, namelist, hp, _, _, rfl, rfl⟩ := declareLocal_spec h
      have hdeclare : t.Widens scope 1 (t.modifyScope scope fun p =>
          { p with
            namelist := namelist
            locals := p.locals ++ [.fresh handle .localVar param.pos] }) :=
        .modifyScope fun q _ => by simp
      have hvalue : ∀ u : SymbolTable, u.Widens scope 0
          (u.modifyVariable (.inner scope p.locals.length) (·.withValue param.default)) :=
        fun u => .modifyScope fun q _ => by simp
      exact hdeclare.trans (hvalue _)

theorem setParams_widens (scope : ScopeId) (params : List Param) :
    t.Widens scope params.length (t.setParams scope params).1 := by
  have hfold : ∀ (ps : List Param) (problems : List Diagnostic) (u : SymbolTable),
      u.Widens scope ps.length (ps.foldl (addParam scope) (u, problems)).1 := by
    intro ps
    induction ps with
    | nil => exact fun _ u => .refl scope u
    | cons param rest ih =>
        intro problems u
        have hfirst := @addParam_widens u scope param problems
        rw [List.length_cons, Nat.add_comm]
        exact hfirst.trans (ih (addParam scope (u, problems) param).2 _)
  have hcount : ∀ u : SymbolTable, u.Widens scope 0 (u.modifyScope scope fun p =>
      { p with numArgs := params.length, minArgs := Param.required params }) :=
    fun u => .modifyScope fun _ _ => Nat.le_refl _
  exact (hfold params [] t).trans (hcount _)

theorem Bounded.setParams (h : t.Bounded n) {scope : ScopeId} {params : List Param}
    (hnil : ∀ p, t.scope? scope = some p → p.locals = []) (hparams : params.length ≤ n) :
    (t.setParams scope params).1.Bounded n := by
  have hwidens := @setParams_widens t scope params
  refine ⟨hwidens.vars ▸ h.vars, hwidens.procs ▸ h.procs, ?_⟩
  intro sc q hq
  obtain ⟨p, hp, hpq⟩ := hwidens.locals hq
  have hold := h.locals hp
  by_cases hsc : sc = scope
  · subst hsc
    rw [if_pos rfl, hnil p hp, List.length_nil] at hpq
    omega
  · rw [if_neg hsc] at hpq
    omega

/-! ## Headers -/

theorem Declares.bounded {header : Header} {verdict : Verdict} (h : Declares t header verdict u)
    (ht : t.Bounded n) (room : t.procs.length < n) (hparams : header.params.length ≤ n) :
    u.Bounded n := by
  cases h with
  | reject named => exact ht
  | @first handle strings modifiers _ _ _ _ =>
      have hopened : (t.opened header handle strings modifiers).Bounded n := by
        refine ⟨ht.vars, ?_, ?_⟩
        · rw [opened, List.length_append]
          exact room
        · intro sc p hp
          rcases scope?_opened_cases hp with hold | ⟨_, rfl⟩
          · exact ht.locals hold
          · exact Nat.zero_le n
      refine hopened.setParams (fun p hp => ?_) hparams
      rcases scope?_opened_cases hp with hold | ⟨_, rfl⟩
      · exact absurd (List.getElem?_eq_some_iff.mp hold).1 (Nat.lt_irrefl _)
      · rfl
  | announce _ _ =>
      refine ht.modifyScope fun p hp => ?_
      have hold := ht.locals hp
      exact hold
  | @define index trigger modifiers p there _ _ =>
      have hcleared : (t.cleared index trigger modifiers).Bounded n :=
        ht.modifyScope fun p _ => Nat.zero_le n
      refine hcleared.setParams (fun q hq => ?_) hparams
      unfold cleared at hq
      rw [scope?_modifyScope_self, there] at hq
      obtain rfl := Option.some.inj hq
      rfl

theorem Bounded.declareDiscarded (h : t.Bounded n) {header : Header} {scope : ScopeId}
    {problems : List Diagnostic} (hparams : header.params.length ≤ n)
    (hd : t.declareDiscarded header = .ok (scope, u, problems)) : u.Bounded n := by
  obtain ⟨handle, namelist, rfl, rfl⟩ := declareDiscarded_spec hd
  have hopened : (t.disowned header handle namelist).Bounded n := by
    refine ⟨h.vars, h.procs, ?_⟩
    intro sc p hp
    rcases scope?_disowned_cases hp with hold | ⟨_, rfl⟩
    · exact h.locals hold
    · exact Nat.zero_le n
  refine hopened.setParams (fun p hp => ?_) hparams
  rcases scope?_disowned_cases hp with hold | ⟨_, rfl⟩
  · exact absurd (List.getElem?_eq_some_iff.mp hold).1 (Nat.lt_irrefl _)
  · rfl

/-! ## Indices -/

/-- A node can carry the index of a symbol of the table. -/
theorem Holds.index_le {context : Option ScopeId} {symbol : Symbol} (h : t.Holds context symbol)
    (hb : t.Bounded n) (hn : n ≤ Value.maxIndex) : symbol.index ≤ Value.maxIndex := by
  have hlt : ∀ {i size : Nat}, i < size → size ≤ n → i ≤ Value.maxIndex := by
    intro i size hi hsize
    omega
  obtain ⟨_, hindex⟩ := h
  cases symbol with
  | global i => exact hlt hindex hb.vars
  | proc i => exact hlt hindex hb.procs
  | inner scope i =>
      obtain ⟨p, hp, hi⟩ := hindex
      exact hlt hi (hb.locals hp)
  | builtin i =>
      have hall : Builtin.all.length ≤ Value.maxIndex := by decide
      exact Nat.le_trans (Nat.le_of_lt hindex) hall

end SslFrontend.SymbolTable

namespace SslFrontend

variable {stream : TokenStream} {x y : Config stream}

namespace ParserState

variable {s : ParserState} {scope : Option ScopeId} {name : String}

/-- A declared name is bound at once. -/
theorem mentioned_of_some (pos : Position) {symbol : Symbol}
    (h : s.table.lookupDeclared scope name = some symbol) :
    s.mentioned scope name pos =
      (symbol.toNode pos, { s with ledger := s.ledger.record symbol pos .use }) := by
  unfold mentioned
  rw [h]

/-- Any other name waits. -/
theorem mentioned_of_none (pos : Position) (h : s.table.lookupDeclared scope name = none) :
    s.mentioned scope name pos =
      (Pending.node (s.pending.mention name scope s.ledger.next pos).1 pos,
        { s with
          ledger := s.ledger.reserve.2
          pending := (s.pending.mention name scope s.ledger.next pos).2 }) := by
  unfold mentioned
  rw [h]
  rfl

/-- What a mention enters. -/
structure Enters (known : Position → Prop) (s grown : ParserState) : Prop where
  entries : s.ledger.SitesIn known → grown.ledger.SitesIn known
  sites : s.pending.SitesIn known → grown.pending.SitesIn known
  names : grown.pending.names.length ≤ s.pending.names.length + 1
  count : grown.ledger.uses + grown.pending.mentions = s.ledger.uses + s.pending.mentions + 1

theorem mentioned_enters {known : Position → Prop} (s : ParserState) (scope : Option ScopeId)
    (name : String) {pos : Position} (site : known pos) :
    s.Enters known (s.mentioned scope name pos).2 := by
  cases hl : s.table.lookupDeclared scope name with
  | some symbol =>
      rw [mentioned_of_some _ hl]
      have huses := @Ledger.uses_record_use s.ledger symbol pos
        (SymbolTable.lookupDeclared_ne_builtin hl)
      refine ⟨fun h => h.record symbol .use site, id, Nat.le_succ _, ?_⟩
      simp only [huses]
      omega
  | none =>
      rw [mentioned_of_none _ hl]
      have hspec := s.pending.mention_spec name scope s.ledger.next pos
      refine ⟨Ledger.SitesIn.reserve, hspec.sites site, hspec.length, ?_⟩
      have huses : s.ledger.reserve.2.uses = s.ledger.uses := rfl
      simp only [hspec.count, huses]
      omega

end ParserState

/-- What a run knows of the table, the ledger and the pending names. -/
structure Config.Known (x : Config stream) : Prop where
  table : x.table.Sound stream.Has
  bounded : x.table.Bounded x.cursor.position
  entries : x.state.ledger.SitesIn stream.Has
  sites : x.state.pending.SitesIn stream.Has
  names : x.state.pending.names.length ≤ x.cursor.position
  count : x.state.ledger.uses + x.state.pending.mentions = x.log.length

namespace Config.Known

theorem start (stream : TokenStream) : (Config.start stream).Known := by
  constructor
  · exact .empty _
  · exact .empty _
  · exact .empty _
  · exact fun p hp => absurd hp List.not_mem_nil
  · exact Nat.le_refl 0
  · rfl

theorem move (h : x.Known) (c : Cursor) (hc : x.cursor.Follows c) : (x.move c hc).Known :=
  ⟨h.table, h.bounded.mono hc.position_le, h.entries, h.sites,
    Nat.le_trans h.names hc.position_le, h.count⟩

theorem setTable (h : x.Known) {table : SymbolTable} (hs : table.Sound stream.Has)
    (hb : table.Bounded x.cursor.position) : (x.setTable table).Known :=
  ⟨hs, hb, h.entries, h.sites, h.names, h.count⟩

theorem enter (h : x.Known) (scope : Option ScopeId) : (x.enter scope).Known :=
  ⟨h.table, h.bounded, h.entries, h.sites, h.names, h.count⟩

theorem mention (h : x.Known) {name : String} (hk : x.cursor.kind = .ident name) :
    (x.advance.mention name x.cursor.pos).Known := by
  -- A name is a token of its own, which makes room for one more pending name.
  have hposition : x.cursor.advance.position = x.cursor.position + 1 :=
    Cursor.advance_position (by rw [hk]; exact TokenKind.noConfusion)
  have henters := x.advance.state.mentioned_enters x.scope name x.tracked.has_pos
  have hcursor : (x.advance.mention name x.cursor.pos).cursor = x.cursor.advance :=
    x.advance.mention_cursor _ _
  constructor
  · rw [Config.mention_table]
    exact h.table
  · rw [Config.mention_table, hcursor]
    exact h.bounded.mono x.cursor.follows_advance.position_le
  · exact henters.entries h.entries
  · exact henters.sites h.sites
  · rw [hcursor, hposition]
    exact Nat.le_trans henters.names (Nat.succ_le_succ h.names)
  · show _ = (x.log ++ [_]).length
    rw [List.length_append]
    exact henters.count.trans (congrArg (· + 1) h.count)

theorem inner (h : x.Known) (hs : InnerStep x y) : y.Known := by
  have hnext : ∀ {name : String}, x.cursor.kind = .ident name →
      x.cursor.advance.position = x.cursor.position + 1 :=
    fun hk => Cursor.advance_position (by rw [hk]; exact TokenKind.noConfusion)
  have hmoved : x.advance.Known := h.move _ _
  cases hs with
  | move c hc => exact h.move c hc
  | report ds => exact ⟨h.table, h.bounded, h.entries, h.sites, h.names, h.count⟩
  | intern hi => exact h.setTable (h.table.strings (Pool.intern_spec hi).1) (h.bounded.strings _)
  | reserve => exact ⟨h.table, h.bounded, h.entries.reserve, h.sites, h.names, h.count⟩
  | record number symbol site =>
      refine ⟨h.table, h.bounded, h.entries.recordAt number symbol _ site, h.sites, h.names, ?_⟩
      show (x.state.ledger.recordAt _ _ _ _).uses + _ = _
      rw [Ledger.uses_recordAt_declaration]
      exact h.count
  | mention hk => exact h.mention hk
  | declareVar hx hk declared =>
      refine hmoved.setTable (h.table.declareVar x.tracked.has_pos declared) ?_
      show SymbolTable.Bounded x.cursor.advance.position _
      rw [hnext hk]
      exact h.bounded.declareVar declared
  | declareLocal hx hk declared =>
      refine hmoved.setTable (h.table.declareLocal x.tracked.has_pos declared) ?_
      show SymbolTable.Bounded x.cursor.advance.position _
      rw [hnext hk]
      exact h.bounded.declareLocal declared
  | adjust symbol hf =>
      exact h.setTable (h.table.modifyVariable symbol hf) (h.bounded.modifyVariable symbol _)

theorem step (h : x.Known) (hs : Step x y) : y.Known := by
  cases hs with
  | inner hs => exact h.inner hs
  | announce header hx room read verdict =>
      have hspec := SymbolTable.declare_spec x.table header
      exact h.setTable (hspec.sound read.params read.pos h.table)
        (hspec.bounded h.bounded room read.bound)
  | define header hx room read verdict =>
      have hspec := SymbolTable.declare_spec x.table header
      exact (h.setTable (hspec.sound read.params read.pos h.table)
        (hspec.bounded h.bounded room read.bound)).enter _
  | discard header hx read declared =>
      exact (h.setTable (h.table.declareDiscarded read.params declared)
        (h.bounded.declareDiscarded read.bound declared)).enter _
  | @attach scope code first last hx site site' shape =>
      have hsound : (x.table.modifyScope scope (·.withBody code first last)).Sound stream.Has :=
        h.table.modifyScope_of_locals (fun _ => rfl) (fun _ => rfl) fun _ => rfl
      refine (h.setTable hsound (h.bounded.modifyScope fun p hp => ?_)).enter _
      have hold := h.bounded.locals hp
      exact hold

theorem steps (h : x.Known) (hs : Steps x y) : y.Known := by
  induction hs with
  | refl => exact h
  | tail _ hstep ih => exact ih.step hstep

end Config.Known

end SslFrontend
