import SslFrontend.Proofs.Journal.Settled

/-! # Names and entries

Whatever is entered under a number is a declaration that has the name under that
number, and a mention that was read is entered or waits.
-/

namespace SslFrontend

variable {stream : TokenStream} {x y : Journal stream}

/-- An entry stands for the name that has its number. -/
structure Entry.StandsFor (e : Entry) (x : Journal stream) : Prop where
  read : ∃ r, x.names[e.number]? = some r ∧ e.site = r.pos.site ∧
    (e.mention = .use ↔ r.mention?.isSome = true) ∧ x.table.Binds r.name e.symbol
  scope : ∀ sc i, e.symbol = .inner sc i → x.config.Settled sc

theorem Entry.StandsFor.turn {e : Entry} (h : e.StandsFor x) (hxy : Turn x y) :
    e.StandsFor y where
  read := by
    obtain ⟨r, hr, hsite, hmention, hbinds⟩ := h.read
    refine ⟨r, SymbolTable.getElem?_of_prefix hxy.names_prefix hr, hsite, hmention, ?_⟩
    exact (hbinds.grows hxy.extends.table h.scope).1
  scope sc i hsymbol := hxy.settled (h.scope sc i hsymbol)

namespace Journal

/-- A name that waits is the one with the number of the mention. -/
def Awaits (x : Journal stream) (name : String) (context : Option ScopeId) (number : Nat)
    (pos : Position) : Prop :=
  ∃ r m, x.names[number]? = some r ∧ r.mention? = some m ∧ r.name = name ∧ r.pos = pos ∧
    m.scope = context

/-- A mention is entered for what was declared, and waits if nothing was. -/
structure Counts (x : Journal stream) (number : Nat) (m : Mentioned) : Prop where
  early : ∀ symbol, m.table.lookupDeclared m.scope m.name = some symbol →
    ⟨number, symbol, m.pos.site, .use⟩ ∈ x.state.ledger.entries
  late : m.table.lookupDeclared m.scope m.name = none →
    x.state.pending.Waits m.name m.scope number m.pos

/-- Names and entries agree. -/
structure Accounts (x : Journal stream) : Prop where
  entered : ∀ e ∈ x.state.ledger.entries, e.StandsFor x
  waiting : ∀ name context number pos,
    x.state.pending.Waits name context number pos → x.Awaits name context number pos
  counted : ∀ number r m, x.names[number]? = some r → r.mention? = some m → x.Counts number m

/-- A declaration inside a scope that is open is there to stay. -/
theorem settled_of_binds {name : String} {symbol : Symbol} (hb : x.table.Binds name symbol)
    (hf : symbol.FitsIn x.scope) (sc : ScopeId) (i : Nat) (hs : symbol = .inner sc i) :
    x.config.Settled sc := by
  subst hs
  obtain ⟨_, p, hp, _⟩ := hb.holds hf
  exact ⟨p, hp, .inl hf⟩

theorem mention_table (name : String) : (x.mention name).state.table = x.table :=
  ParserState.mentioned_table ..

/-- A mention of what is declared is entered. -/
theorem mention_early {name : String} {symbol : Symbol}
    (hl : x.table.lookupDeclared x.scope name = some symbol) :
    (x.mention name).state.ledger.entries = x.state.ledger.entries ++
        [⟨x.names.length, symbol, x.cursor.pos.site, .use⟩] ∧
      (x.mention name).state.pending = x.state.pending := by
  have hstate := ParserState.mentioned_of_some (s := { x.state with cursor := x.cursor.advance })
    x.cursor.pos hl
  show (x.mentioned name).2.ledger.entries = _ ∧ (x.mentioned name).2.pending = _
  unfold Journal.mentioned
  rw [hstate, ← x.numbered]
  exact ⟨Ledger.entries_recordAt _ _ _ _ _ (SymbolTable.lookupDeclared_ne_builtin hl), rfl⟩

/-- Any other mention waits. -/
theorem mention_late {name : String} (hl : x.table.lookupDeclared x.scope name = none) :
    (x.mention name).state.ledger.entries = x.state.ledger.entries ∧
      (x.mention name).state.pending =
        (x.state.pending.mention name x.scope x.names.length x.cursor.pos).2 := by
  have hstate := ParserState.mentioned_of_none (s := { x.state with cursor := x.cursor.advance })
    x.cursor.pos hl
  show (x.mentioned name).2.ledger.entries = _ ∧ (x.mentioned name).2.pending = _
  unfold Journal.mentioned
  rw [hstate, ← x.numbered]
  exact ⟨rfl, rfl⟩

namespace Accounts

theorem start (stream : TokenStream) : (Journal.start stream).Accounts where
  entered _ he := absurd he List.not_mem_nil
  waiting := by
    rintro _ _ _ _ ⟨p, hp, _⟩
    exact absurd hp List.not_mem_nil
  counted number r m hr _ := by simp [Journal.start] at hr

/-- What a turn must account for: the entries that it adds, the names that wait
after it, and the mention that it reads. -/
theorem of_turn (h : x.Accounts) (hxy : Turn x y)
    (hentered : ∀ e ∈ y.state.ledger.entries, e ∈ x.state.ledger.entries ∨ e.StandsFor y)
    (hkept : x.state.ledger.entries ⊆ y.state.ledger.entries)
    (hwaiting : ∀ name context number pos, y.state.pending.Waits name context number pos →
      x.state.pending.Waits name context number pos ∨ y.Awaits name context number pos)
    (hstill : ∀ name context number pos, x.state.pending.Waits name context number pos →
      y.state.pending.Waits name context number pos)
    (hcounted : ∀ number r m, y.names[number]? = some r → r.mention? = some m →
      x.names[number]? = some r ∨ y.Counts number m) : y.Accounts where
  entered e he := (hentered e he).elim (fun hold => (h.entered e hold).turn hxy) id
  waiting name context number pos hw := by
    refine (hwaiting name context number pos hw).elim (fun hold => ?_) id
    obtain ⟨r, m, hr, hrest⟩ := h.waiting name context number pos hold
    exact ⟨r, m, SymbolTable.getElem?_of_prefix hxy.names_prefix hr, hrest⟩
  counted number r m hr hm := by
    refine (hcounted number r m hr hm).elim (fun hold => ?_) id
    have hcounts := h.counted number r m hold hm
    exact ⟨fun symbol hl => hkept (hcounts.early symbol hl),
      fun hl => hstill _ _ _ _ (hcounts.late hl)⟩

/-- A turn that enters nothing and mentions nothing. -/
theorem silent (h : x.Accounts) (hxy : Turn x y) (hnames : y.names = x.names)
    (hledger : y.state.ledger.entries = x.state.ledger.entries)
    (hpending : y.state.pending = x.state.pending) : y.Accounts :=
  h.of_turn hxy (fun _ he => .inl (hledger ▸ he)) (hledger ▸ List.Subset.refl _)
    (fun _ _ _ _ hw => .inl (hpending ▸ hw)) (fun _ _ _ _ hw => hpending ▸ hw)
    fun _ _ _ hr _ => .inl (hnames ▸ hr)

/-- A turn that enters one declaration. -/
theorem entry (h : x.Accounts) (hxy : Turn x y) {e : Entry} (he : e.StandsFor y)
    (hledger : y.state.ledger.entries = x.state.ledger.entries ++ [e])
    (hpending : y.state.pending = x.state.pending)
    (hnames : ∀ (number : Nat) (r : NameRead) (m : Mentioned), y.names[number]? = some r →
      r.mention? = some m → x.names[number]? = some r) : y.Accounts := by
  refine h.of_turn hxy ?_ (hledger ▸ List.subset_append_left _ _)
    (fun _ _ _ _ hw => .inl (hpending ▸ hw)) (fun _ _ _ _ hw => hpending ▸ hw)
    fun number r m hr hm => .inl (hnames number r m hr hm)
  intro e' he'
  rw [hledger] at he'
  rcases List.mem_append.mp he' with hold | hnew
  · exact .inl hold
  · rw [List.mem_singleton.mp hnew]
    exact .inr he

/-- The name under a number is an old one or the one that was just read. -/
theorem getElem?_concat_cases {names : List NameRead} {last r : NameRead} {number : Nat}
    (h : (names ++ [last])[number]? = some r) :
    names[number]? = some r ∨ (number = names.length ∧ r = last) := by
  by_cases hlt : number < names.length
  · rw [List.getElem?_append_left hlt] at h
    exact .inl h
  · rw [List.getElem?_append_right (Nat.le_of_not_lt hlt)] at h
    obtain ⟨hlast, rfl⟩ := List.getElem?_eq_some_iff.mp h
    simp only [List.length_singleton] at hlast
    exact .inr ⟨by omega, by simp⟩

theorem hold (h : x.Accounts) {name : String} (hk : x.cursor.kind = .ident name) :
    (x.hold name).Accounts := by
  refine h.of_turn (.inner (.hold x hk)) (fun _ he => .inl he) (List.Subset.refl _)
    (fun _ _ _ _ hw => .inl hw) (fun _ _ _ _ hw => hw) fun number r m hr hm => ?_
  rcases getElem?_concat_cases hr with hold | ⟨_, rfl⟩
  · exact .inl hold
  · cases hm

theorem declare (h : x.Accounts) {name : String} {kind : VarScope} {symbol : Symbol}
    {table : SymbolTable} (hk : x.cursor.kind = .ident name)
    (declared : x.table.declareIn x.scope kind name x.cursor.pos = .ok (symbol, table)) :
    (x.declare name symbol table).Accounts := by
  have hturn : Turn x _ := .inner (.declare x hk declared)
  obtain ⟨hbinds, _, hfits⟩ := SymbolTable.binds_of_declareIn declared
  have hnumber : x.state.ledger.next = x.names.length := x.numbered
  have hentry := Ledger.entries_recordAt (x.hold name).state.ledger x.state.ledger.next symbol
    x.cursor.pos .declaration hbinds.ne_builtin
  refine h.entry hturn ?_ hentry rfl ?_
  · refine ⟨⟨⟨x.cursor.position, name, x.cursor.pos, none⟩, ?_, rfl, by simp, hbinds⟩, ?_⟩
    · rw [hnumber]
      exact List.getElem?_concat_length
    · exact Journal.settled_of_binds (x := x.declare name symbol table) hbinds hfits
  · intro number r m hr hm
    rcases getElem?_concat_cases hr with hold | ⟨_, rfl⟩
    · exact hold
    · cases hm

/-- The name that was just mentioned. -/
theorem names_mention (x : Journal stream) (name : String) :
    (x.mention name).names[x.names.length]? = some ⟨x.cursor.position, name, x.cursor.pos,
      some ⟨x.scope, name, x.cursor.pos, x.table, (x.mentioned name).1⟩⟩ :=
  List.getElem?_concat_length

theorem mention_declared (h : x.Accounts) {name : String} {symbol : Symbol}
    (hk : x.cursor.kind = .ident name) (hl : x.table.lookupDeclared x.scope name = some symbol) :
    (x.mention name).Accounts := by
  obtain ⟨hledger, hpending⟩ := mention_early hl
  obtain ⟨hbinds, hfits⟩ := SymbolTable.binds_of_lookupDeclared hl
  have hbinds : (x.mention name).table.Binds name symbol := by
    rwa [Journal.table, mention_table]
  refine h.of_turn (.inner (.mention x hk)) ?_ (hledger ▸ List.subset_append_left _ _)
    (fun _ _ _ _ hw => .inl (hpending ▸ hw)) (fun _ _ _ _ hw => hpending ▸ hw) ?_
  · intro e he
    rw [hledger] at he
    rcases List.mem_append.mp he with hold | hnew
    · exact .inl hold
    · rw [List.mem_singleton.mp hnew]
      exact .inr ⟨⟨_, names_mention x name, rfl, by simp, hbinds⟩, settled_of_binds hbinds hfits⟩
  · intro number r m hr hm
    rcases getElem?_concat_cases hr with hold | ⟨rfl, rfl⟩
    · exact .inl hold
    · cases hm
      refine .inr ⟨fun symbol' hl' => ?_, fun hnone => ?_⟩
      · rw [hl] at hl'
        cases hl'
        rw [hledger]
        exact List.mem_append_right _ List.mem_cons_self
      · rw [hl] at hnone
        cases hnone

theorem mention_undeclared (h : x.Accounts) {name : String} (hk : x.cursor.kind = .ident name)
    (hl : x.table.lookupDeclared x.scope name = none) : (x.mention name).Accounts := by
  obtain ⟨hledger, hpending⟩ := mention_late hl
  refine h.of_turn (.inner (.mention x hk)) (fun _ he => .inl (hledger ▸ he))
    (hledger ▸ List.Subset.refl _) ?_ ?_ ?_
  · intro n c i q hw
    rw [hpending] at hw
    refine (Pending.waits_mention.mp hw).imp id ?_
    rintro ⟨rfl, rfl, rfl, rfl⟩
    exact ⟨_, _, names_mention x name, rfl, rfl, rfl, rfl⟩
  · intro n c i q hw
    rw [hpending]
    exact Pending.waits_mention.mpr (.inl hw)
  · intro number r m hr hm
    rcases getElem?_concat_cases hr with hold | ⟨rfl, rfl⟩
    · exact .inl hold
    · cases hm
      refine .inr ⟨fun symbol hl' => ?_, fun _ => ?_⟩
      · rw [hl] at hl'
        cases hl'
      · rw [hpending]
        exact Pending.waits_mention.mpr (.inr ⟨rfl, rfl, rfl, rfl⟩)

theorem mention (h : x.Accounts) {name : String} (hk : x.cursor.kind = .ident name) :
    (x.mention name).Accounts := by
  cases hl : x.table.lookupDeclared x.scope name with
  | some symbol => exact h.mention_declared hk hl
  | none => exact h.mention_undeclared hk hl

theorem inner (h : x.Accounts) (hxy : InnerTurn x y) : y.Accounts := by
  have hturn : Turn x y := .inner hxy
  cases hxy with
  | move c hc => exact h.silent hturn rfl rfl rfl
  | report ds => exact h.silent hturn rfl rfl rfl
  | intern hi => exact h.silent hturn rfl rfl rfl
  | adjust symbol hf => exact h.silent hturn rfl rfl rfl
  | hold hk => exact h.hold hk
  | mention hk => exact h.mention hk
  | declare hk declared => exact h.declare hk declared

/-- A header that names a procedure enters its number for it. -/
theorem merge (h : x.Accounts) {header : Header} {number : Nat} (hx : x.scope = none)
    (held : x.Holds number header.name header.pos) : (x.merge header number).Accounts := by
  have hturn : Turn x _ := .merge x header hx held
  cases hnamed : (x.table.declare header).verdict.named? with
  | none =>
      refine h.silent hturn merge_names ?_ ?_
      all_goals simp only [merge_state, hnamed]
  | some index =>
      obtain ⟨r, hr, hname, hpos, hmention⟩ := held.read
      have hbinds := SymbolTable.binds_of_declare hnamed
      have hentry := Ledger.entries_recordAt x.state.ledger number (.proc index) header.pos
        .declaration nofun
      refine h.entry hturn (e := ⟨number, .proc index, header.pos.site, .declaration⟩)
        ?_ ?_ ?_ ?_
      · refine ⟨⟨r, ?_, by rw [hpos], by simp [hmention], ?_⟩, nofun⟩
        · rwa [merge_names]
        · rw [hname]
          simpa only [Journal.table, merge_state] using hbinds
      · simp only [merge_state, hnamed]
        exact hentry
      · simp only [merge_state]
      · intro number' r' m hr' _
        rwa [merge_names] at hr'

/-- A parameter that is found enters its number. -/
theorem param (h : x.Accounts) {scope : ScopeId} {number : Nat} {name : String} {pos : Position}
    {symbol : Symbol} (hx : x.scope = some scope) (held : x.Holds number name pos)
    (found : x.table.lookupLocal scope name = some symbol) :
    (x.record number symbol pos).Accounts := by
  obtain ⟨r, hr, hname, hpos, hmention⟩ := held.read
  obtain ⟨hbinds, i, rfl⟩ := SymbolTable.binds_of_lookupLocal found
  have hentry := Ledger.entries_recordAt x.state.ledger number (.inner scope i) pos
    .declaration hbinds.ne_builtin
  refine h.entry (.param x hx held found) ?_ hentry rfl fun _ _ _ hr' _ => hr'
  refine ⟨⟨r, hr, by rw [hpos], by simp [hmention], by rw [hname]; exact hbinds⟩, ?_⟩
  exact settled_of_binds (x := x.record number (.inner scope i) pos) hbinds hx

theorem turn (h : x.Accounts) (hxy : Turn x y) : y.Accounts := by
  have hturn := hxy
  cases hxy with
  | inner hxy => exact h.inner hxy
  | merge header hx held => exact h.merge hx held
  | param hx held found => exact h.param hx held found
  | discard header hx declared => exact h.silent hturn rfl rfl rfl
  | attach code first last hx => exact h.silent hturn rfl rfl rfl

theorem turns (h : x.Accounts) (hs : Turns x y) : y.Accounts := by
  induction hs with
  | refl => exact h
  | tail _ hstep ih => exact ih.turn hstep

end Accounts

end Journal

end SslFrontend
