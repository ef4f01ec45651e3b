import SslFrontend.Proofs.Journal.Accounts
import SslFrontend.Proofs.Journal.Pass
import SslFrontend.Proofs.Symbol.Places

/-! # Declarations that are entered

A variable of the unit and a local of a body are entered once, where they are
declared, and a procedure once for every header that is one of it.  A parameter
is entered with the definition of its procedure, as often as it is written at its
place.  Before that nothing is entered in the scope of a procedure.
-/

namespace SslFrontend

namespace Ledger

/-- Where a symbol is declared, as often as that is entered. -/
def declarationsIn (entries : List Entry) (symbol : Symbol) : List Site :=
  (entries.filter fun e => e.symbol == symbol && e.mention == .declaration).map Entry.site

theorem declarationsIn_append (entries more : List Entry) (symbol : Symbol) :
    declarationsIn (entries ++ more) symbol =
      declarationsIn entries symbol ++ declarationsIn more symbol := by
  simp [declarationsIn]

theorem declarationsIn_perm {entries other : List Entry} (h : entries.Perm other)
    (symbol : Symbol) : (declarationsIn entries symbol).Perm (declarationsIn other symbol) :=
  (h.filter _).map _

theorem declarationsIn_subset (entries : List Entry) (symbol : Symbol) :
    declarationsIn entries symbol ⊆ referencesIn entries symbol := by
  intro site hsite
  obtain ⟨e, he, rfl⟩ := List.mem_map.mp hsite
  obtain ⟨hmem, htest⟩ := List.mem_filter.mp he
  exact List.mem_map_of_mem (List.mem_filter.mpr ⟨hmem, (Bool.and_eq_true_iff.mp htest).1⟩)

/-- A reference is a use or a declaration. -/
theorem length_referencesIn (entries : List Entry) (symbol : Symbol) :
    (referencesIn entries symbol).length =
      usesIn entries symbol + (declarationsIn entries symbol).length := by
  induction entries with
  | nil => rfl
  | cons e rest ih =>
      obtain ⟨number, own, site, mention⟩ := e
      simp only [referencesIn, usesIn, declarationsIn, List.length_map] at ih ⊢
      by_cases h : own = symbol
      · cases mention <;> simp [h, ih] <;> omega
      · simp [h, ih]

/-- What is recorded as declared, one site more. -/
theorem declarationsIn_recordAt (ledger : Ledger) (number : Nat) {symbol : Symbol}
    (hs : ∀ i, symbol ≠ .builtin i) (pos : Position) (other : Symbol) :
    declarationsIn (ledger.recordAt number symbol pos .declaration).entries other =
      declarationsIn ledger.entries other ++ if other = symbol then [pos.site] else [] := by
  rw [entries_recordAt _ _ _ _ _ hs, declarationsIn_append]
  by_cases h : other = symbol
  · simp [declarationsIn, h]
  · simp [declarationsIn, h, Ne.symm h]

end Ledger

variable {stream : TokenStream} {x y : Journal stream}

/-- A scope that has its body keeps it. -/
theorem Turns.settled (h : Turns x y) {scope : ScopeId} (hs : x.config.Settled scope) :
    y.config.Settled scope := by
  induction h with
  | refl => exact hs
  | tail _ hstep ih => exact hstep.settled ih

namespace Journal

/-- Where a symbol was declared so far, as often as that was entered. -/
def declarations (x : Journal stream) (symbol : Symbol) : List Site :=
  Ledger.declarationsIn x.state.ledger.entries symbol

/-- The parameters with which a procedure is defined. -/
def paramsOf (x : Journal stream) (index : Nat) : List Param :=
  x.headers.flatMap fun m => if m.verdict = .define index then m.header.params else []

theorem declarations_record {number : Nat} {symbol : Symbol} (hs : ∀ i, symbol ≠ .builtin i)
    (pos : Position) (other : Symbol) : (x.record number symbol pos).declarations other =
      x.declarations other ++ if other = symbol then [pos.site] else [] :=
  Ledger.declarationsIn_recordAt _ _ hs _ _

/-- Nothing is entered for what is not there. -/
theorem Accounts.declarations_of_new (h : x.Accounts) {symbol : Symbol}
    (hs : x.table.siteOf? symbol = none) : x.declarations symbol = [] := by
  refine List.map_eq_nil_iff.mpr (List.filter_eq_nil_iff.mpr fun e he htest => ?_)
  obtain ⟨r, _, _, _, hbinds⟩ := (h.entered e he).read
  obtain rfl : e.symbol = symbol := by simpa using (Bool.and_eq_true_iff.mp htest).1
  obtain ⟨pos, hpos⟩ := hbinds.placed
  rw [hs] at hpos
  cases hpos

/-- Nothing is entered in a scope before its body. -/
theorem Accounts.declarations_of_unsettled (h : x.Accounts) {scope : ScopeId}
    (hs : ¬x.config.Settled scope) (i : Nat) : x.declarations (.inner scope i) = [] := by
  refine List.map_eq_nil_iff.mpr (List.filter_eq_nil_iff.mpr fun e he htest => ?_)
  have hsymbol : e.symbol = .inner scope i := by simpa using (Bool.and_eq_true_iff.mp htest).1
  exact hs ((h.entered e he).scope scope i hsymbol)

/-! ## What a turn enters -/

/-- One thing is declared and entered. -/
structure Declaring (x y : Journal stream) (symbol : Symbol) (pos : Position) : Prop where
  adds : x.table.Adds y.table symbol pos
  not_proc : ∀ i, symbol ≠ .proc i
  entered : ∀ other, y.declarations other =
    x.declarations other ++ if other = symbol then [pos.site] else []

theorem declarations_mention (name : String) (symbol : Symbol) :
    (x.mention name).declarations symbol = x.declarations symbol := by
  unfold declarations
  cases hl : x.table.lookupDeclared x.scope name with
  | some found =>
      rw [(mention_early hl).1, Ledger.declarationsIn_append]
      simp [Ledger.declarationsIn]
  | none => rw [(mention_late hl).1]

end Journal

/-- A scope that has its body after a turn inside had it before. -/
theorem InnerTurn.settled_back (h : InnerTurn x y) {scope : ScopeId}
    (hs : y.config.Settled scope) : x.config.Settled scope := by
  obtain ⟨q, hq, hsettled⟩ := hs
  obtain ⟨p, hp, hcoding⟩ := h.shells.sameCode.back hq
  have hdefined : q.defined = p.defined := (Prod.mk.inj (Prod.mk.inj hcoding).2).1
  have hscope : y.config.scope = x.config.scope := h.scope_eq
  rw [hscope, hdefined] at hsettled
  exact ⟨p, hp, hsettled⟩

/-- A turn inside reads at most one name, in the scope that is open. -/
theorem InnerTurn.names_cases (h : InnerTurn x y) : y.names = x.names ∨ ∃ added,
    y.names = x.names ++ [added] ∧ ∀ m, added.mention? = some m → m.scope = x.scope := by
  cases h with
  | @hold name hk => exact .inr ⟨⟨x.cursor.position, name, x.cursor.pos, none⟩, rfl, by simp⟩
  | @declare name kind symbol table hk declared =>
      exact .inr ⟨⟨x.cursor.position, name, x.cursor.pos, none⟩, rfl, by simp⟩
  | @mention name hk =>
      refine .inr ⟨⟨x.cursor.position, name, x.cursor.pos,
        some ⟨x.scope, name, x.cursor.pos, x.table, (x.mentioned name).1⟩⟩, rfl, fun m hm => ?_⟩
      exact congrArg Mentioned.scope (Option.some.inj hm).symm
  | _ => exact .inl rfl

/-- A turn inside declares one thing, or enters no declaration. -/
theorem InnerTurn.declares (h : InnerTurn x y) :
    (∀ symbol, y.declarations symbol = x.declarations symbol ∧
      y.table.siteOf? symbol = x.table.siteOf? symbol) ∨
    ∃ symbol pos, x.Declaring y symbol pos := by
  cases h with
  | mention hk =>
      refine .inl fun symbol => ⟨Journal.declarations_mention _ _, ?_⟩
      rw [Journal.table, Journal.mention_table]
  | @declare name kind symbol table hk declared =>
      have hbinds := (SymbolTable.binds_of_declareIn declared).1
      refine .inr ⟨symbol, x.cursor.pos, SymbolTable.declareIn_adds declared, ?_, ?_⟩
      · rintro i rfl
        cases hscope : x.scope with
        | none =>
            rw [hscope] at declared
            obtain ⟨_, _, _, _, heq, _⟩ := SymbolTable.declareVar_spec declared
            cases heq
        | some scope =>
            rw [hscope] at declared
            obtain ⟨_, _, _, _, _, _, heq, _⟩ := SymbolTable.declareLocal_spec declared
            cases heq
      · exact fun other => Journal.declarations_record (x := (x.hold name).setTable table)
          hbinds.ne_builtin _ other
  | adjust symbol hf => exact .inl fun s => ⟨rfl, SymbolTable.siteOf?_modifyVariable hf symbol s⟩
  | intern hi => exact .inl fun s => ⟨rfl, by cases s with
      | inner scope i => cases scope <;> rfl
      | _ => rfl⟩
  | _ => exact .inl fun s => ⟨rfl, rfl⟩

namespace Journal

theorem declarations_merge (header : Header) (number : Nat) (symbol : Symbol) :
    (x.merge header number).declarations symbol = x.declarations symbol ++
      if (x.table.declare header).verdict.named?.map Symbol.proc = some symbol then
        [header.pos.site] else [] := by
  unfold declarations
  rw [merge_state]
  cases (x.table.declare header).verdict.named? with
  | none => simp
  | some index =>
      have hne : ∀ i, Symbol.proc index ≠ .builtin i := nofun
      rw [Ledger.declarationsIn_recordAt _ _ hne]
      simp [eq_comm]

/-- Whether a parameter is the local at an index, which is declared at a place. -/
def Names (opened : SymbolTable) (scope : ScopeId) (symbol : Symbol) (p : Param) : Prop :=
  opened.lookupLocal scope p.name = some symbol ∧ opened.siteOf? symbol = some p.pos

instance (opened : SymbolTable) (scope : ScopeId) (symbol : Symbol) (p : Param) :
    Decidable (Names opened scope symbol p) := inferInstanceAs (Decidable (_ ∧ _))

theorem declarations_recordParams (scope : ScopeId) (params : List Parse.NumberedParam)
    (symbol : Symbol) : (x.recordParams scope params).declarations symbol =
      x.declarations symbol ++
        ((params.map Parse.NumberedParam.param).filter (Names x.table scope symbol ·)).map
          (·.pos.site) := by
  induction params generalizing x with
  | nil => exact (List.append_nil _).symm
  | cons p rest ih =>
      have hfirst : (x.recordParam scope p).declarations symbol = x.declarations symbol ++
          if Names x.table scope symbol p.param then [p.param.pos.site] else [] := by
        unfold recordParam
        cases hl : x.table.lookupLocal scope p.param.name with
        | none => simp [Names, hl]
        | some found =>
            dsimp only
            have hne := (SymbolTable.binds_of_lookupLocal hl).1.ne_builtin
            by_cases hs : x.table.siteOf? found = some p.param.pos
            · rw [if_pos hs, declarations_record hne]
              by_cases heq : symbol = found
              · simp [Names, hl, heq, hs]
              · simp [Names, hl, heq, Ne.symm heq]
            · rw [if_neg hs, if_neg, List.append_nil]
              rintro ⟨hfound, hsite⟩
              rw [hl] at hfound
              cases hfound
              exact hs hsite
      have htable : (x.recordParam scope p).table = x.table :=
        (x.recordParams_eq scope [p]).2.2.2
      show ((x.recordParam scope p).recordParams scope rest).declarations symbol = _
      rw [ih, hfirst, htable, List.append_assoc, List.map_cons]
      by_cases hnames : Names x.table scope symbol p.param
      · simp [hnames]
      · simp [hnames]

/-! ## Declarations along a run -/

/-- What is entered for the locals of a procedure that is or was defined: `opened`
is the table before its body. -/
structure Opens (x : Journal stream) (index : Nat) (params : List Param)
    (opened : SymbolTable) : Prop where
  lists : opened.Lists (.proc index) params
  grows : opened.Extends (· = .proc index) x.table
  param : ∀ i pos, opened.siteOf? (.inner (.proc index) i) = some pos →
    x.declarations (.inner (.proc index) i) =
      (params.filter (Names opened (.proc index) (.inner (.proc index) i) ·)).map (·.pos.site)
  behind : ∀ i pos, opened.siteOf? (.inner (.proc index) i) = none →
    x.table.siteOf? (.inner (.proc index) i) = some pos →
    x.declarations (.inner (.proc index) i) = [pos.site]

/-- Nothing is declared in the scope. -/
theorem Opens.same {index : Nat} {params : List Param} {opened : SymbolTable}
    (h : x.Opens index params opened) (hg : x.table.Extends (· = .proc index) y.table)
    (hsame : ∀ i, y.declarations (.inner (.proc index) i) = x.declarations (.inner (.proc index) i) ∧
      y.table.siteOf? (.inner (.proc index) i) = x.table.siteOf? (.inner (.proc index) i)) :
    y.Opens index params opened where
  lists := h.lists
  grows := h.grows.trans hg
  param i pos hpos := (hsame i).1.trans (h.param i pos hpos)
  behind i pos hnew hpos := by
    rw [(hsame i).1]
    exact h.behind i pos hnew ((hsame i).2 ▸ hpos)

/-- Something is declared, maybe in the scope. -/
theorem Opens.declaring {index : Nat} {params : List Param} {opened : SymbolTable}
    (h : x.Opens index params opened) (ha : x.Accounts) (hxy : InnerTurn x y) {symbol : Symbol}
    {site : Position} (hd : x.Declaring y symbol site) : y.Opens index params opened where
  lists := h.lists
  grows := h.grows.trans (hxy.table_grows.weaken fun _ _ => trivial)
  param i pos hpos := by
    have hne : Symbol.inner (.proc index) i ≠ symbol := by
      rintro rfl
      have hthere := h.grows.siteOf?_inner rfl hpos
      rw [hd.adds.new] at hthere
      cases hthere
    rw [hd.entered, if_neg hne, List.append_nil]
    exact h.param i pos hpos
  behind i pos hnew hpos := by
    rw [hd.entered]
    by_cases hown : Symbol.inner (.proc index) i = symbol
    · rw [hown, hd.adds.there] at hpos
      rw [if_pos hown, hown, ha.declarations_of_new hd.adds.new, Option.some.inj hpos]
      rfl
    · rw [if_neg hown, List.append_nil]
      exact h.behind i pos hnew (hd.adds.kept _ hown ▸ hpos)

/-- What is known of the declarations that are entered. -/
structure Declares (x : Journal stream) : Prop where
  vars : ∀ i pos, x.table.siteOf? (.global i) = some pos →
    x.declarations (.global i) = [pos.site]
  procs : ∀ index, (x.declarations (.proc index)).length =
    x.headers.countP fun m => m.verdict.named? == some index
  there : ∀ scope, x.scope = some scope → ∃ p, x.table.scope? scope = some p
  /-- A scope in which something was mentioned has its body. -/
  mentioned : ∀ r ∈ x.names, ∀ m scope, r.mention? = some m → m.scope = some scope →
    x.config.Settled scope
  opened : ∀ index, x.config.Settled (.proc index) →
    ∃ opened, x.Opens index (x.paramsOf index) opened
  closed : ∀ index, ¬x.config.Settled (.proc index) → x.paramsOf index = []

namespace Declares

theorem start (stream : TokenStream) : (Journal.start stream).Declares where
  vars i pos hpos := by simp [Journal.start, ParserState.start, SymbolTable.empty,
    SymbolTable.siteOf?] at hpos
  procs index := rfl
  there scope hscope := by cases hscope
  mentioned r hr := absurd hr List.not_mem_nil
  opened index hs := by
    obtain ⟨p, hp, _⟩ := hs
    cases hp
  closed index _ := rfl

theorem paramsOf_of_headers (h : y.headers = x.headers) (index : Nat) :
    y.paramsOf index = x.paramsOf index := by
  unfold paramsOf
  rw [h]

/-- What was mentioned before is mentioned in a scope that stays. -/
theorem mentioned_turns (h : x.Declares) (hxy : Turns x y) (hnames : y.names = x.names) :
    ∀ r ∈ y.names, ∀ m scope, r.mention? = some m → m.scope = some scope →
      y.config.Settled scope := by
  rw [hnames]
  exact fun r hr m scope hm hscope => hxy.settled (h.mentioned r hr m scope hm hscope)

theorem inner (h : x.Declares) (ha : x.Accounts) (hxy : InnerTurn x y) : y.Declares := by
  have hturn : Turn x y := .inner hxy
  have hparams := paramsOf_of_headers hxy.headers_eq
  have hthere : ∀ scope, y.scope = some scope → ∃ p, y.table.scope? scope = some p := by
    intro scope hscope
    obtain ⟨p, hp⟩ := h.there scope (hxy.scope_eq ▸ hscope)
    obtain ⟨q, hq, _⟩ := hxy.table_grows.scopes trivial hp
    exact ⟨q, hq⟩
  have hsettled : ∀ scope, y.scope = some scope → y.config.Settled scope := by
    intro scope hscope
    obtain ⟨p, hp⟩ := hthere scope hscope
    exact ⟨p, hp, .inl hscope⟩
  have hgrows : ∀ index, x.table.Extends (· = .proc index) y.table :=
    fun index => hxy.table_grows.weaken fun _ _ => trivial
  refine ⟨?_, ?_, hthere, ?_, ?_, ?_⟩
  · intro i pos hpos
    obtain hsame | ⟨symbol, site, hd⟩ := hxy.declares
    · rw [(hsame _).1]
      exact h.vars i pos ((hsame _).2 ▸ hpos)
    · rw [hd.entered]
      by_cases hown : Symbol.global i = symbol
      · rw [hown, hd.adds.there] at hpos
        rw [if_pos hown, hown, ha.declarations_of_new hd.adds.new, Option.some.inj hpos]
        rfl
      · rw [if_neg hown, List.append_nil]
        exact h.vars i pos (hd.adds.kept _ hown ▸ hpos)
  · intro index
    rw [hxy.headers_eq, ← h.procs index]
    obtain hsame | ⟨symbol, site, hd⟩ := hxy.declares
    · rw [(hsame _).1]
    · rw [hd.entered, if_neg (hd.not_proc index).symm, List.append_nil]
  · intro r hr m scope hm hscope
    have hold : r ∈ x.names → y.config.Settled scope := fun hr =>
      hturn.settled (h.mentioned r hr m scope hm hscope)
    obtain hnames | ⟨added, hnames, hadded⟩ := hxy.names_cases
    · exact hold (hnames ▸ hr)
    · rw [hnames] at hr
      rcases List.mem_append.mp hr with hbefore | hlast
      · exact hold hbefore
      · rw [List.mem_singleton.mp hlast] at hm
        exact hsettled scope (hxy.scope_eq.trans ((hadded m hm).symm.trans hscope))
  · intro index hs
    obtain ⟨opened, hopens⟩ := h.opened index (hxy.settled_back hs)
    rw [hparams]
    obtain hsame | ⟨symbol, site, hd⟩ := hxy.declares
    · exact ⟨opened, hopens.same (hgrows index) fun i => hsame _⟩
    · exact ⟨opened, hopens.declaring ha hxy hd⟩
  · intro index hs
    rw [hparams]
    exact h.closed index fun hx => hs (hturn.settled hx)

/-! ### Headers and bodies -/

/-- A turn that declares no variable and defines nothing. -/
theorem quiet (h : x.Declares) (hxy : Turn x y) (hnames : y.names = x.names)
    (hparams : ∀ index, y.paramsOf index = x.paramsOf index)
    (hprocs : ∀ index, (y.declarations (.proc index)).length =
      y.headers.countP fun m => m.verdict.named? == some index)
    (hvars : ∀ i, y.declarations (.global i) = x.declarations (.global i) ∧
      y.table.siteOf? (.global i) = x.table.siteOf? (.global i))
    (hthere : ∀ scope, y.scope = some scope → ∃ p, y.table.scope? scope = some p)
    (hback : ∀ index, y.config.Settled (.proc index) → x.config.Settled (.proc index))
    (hgrows : ∀ index, x.config.Settled (.proc index) →
      x.table.Extends (· = .proc index) y.table)
    (hlocals : ∀ index i, x.config.Settled (.proc index) →
      y.declarations (.inner (.proc index) i) = x.declarations (.inner (.proc index) i) ∧
      y.table.siteOf? (.inner (.proc index) i) = x.table.siteOf? (.inner (.proc index) i)) :
    y.Declares where
  vars i pos hpos := by
    rw [(hvars i).1]
    exact h.vars i pos ((hvars i).2 ▸ hpos)
  procs := hprocs
  there := hthere
  mentioned := h.mentioned_turns (.single hxy) hnames
  opened index hs := by
    have hx := hback index hs
    obtain ⟨opened, hopens⟩ := h.opened index hx
    rw [hparams]
    exact ⟨opened, hopens.same (hgrows index hx) fun i => hlocals index i hx⟩
  closed index hs := by
    rw [hparams]
    exact h.closed index fun hx => hs (hxy.settled hx)

/-- A header makes no body. -/
theorem settled_back_of_coding (header : Header) {scope : ScopeId} (hscope : y.scope ≠ some scope)
    (hcoding : ∀ q, y.table.scope? scope = some q →
      (∃ p, x.table.scope? scope = some p ∧ SymbolTable.Recoded header p q) ∨
        (x.table.scope? scope = none ∧ SymbolTable.Blank header q))
    (hs : y.config.Settled scope) : x.config.Settled scope := by
  obtain ⟨q, hq, hopen | hdefined⟩ := hs
  · exact absurd hopen hscope
  · rcases hcoding q hq with ⟨p, hp, hrecoded⟩ | ⟨_, hblank⟩
    · exact ⟨p, hp, .inr (hrecoded.defined.symm.trans hdefined)⟩
    · rw [hblank.defined] at hdefined
      cases hdefined

theorem attach (h : x.Declares) {scope : ScopeId} (code : Code) (first last : Position)
    (hx : x.scope = some scope) :
    Declares ((x.setTable (x.table.modifyScope scope (·.withBody code first last))).enter none) := by
  have hlocals : ∀ sc i, (x.table.modifyScope scope (·.withBody code first last)).siteOf?
      (.inner sc i) = x.table.siteOf? (.inner sc i) := by
    intro sc i
    by_cases hsc : sc = scope
    · subst hsc
      obtain ⟨p, hp⟩ := h.there sc hx
      refine SymbolTable.siteOf?_inner_congr (q := p.withBody code first last) hp ?_ rfl i
      rw [SymbolTable.scope?_modifyScope_self, hp]
      rfl
    · exact SymbolTable.siteOf?_inner_of_scope? (SymbolTable.scope?_modifyScope_of_ne _ _ _ hsc) i
  refine h.quiet (.attach x code first last hx) rfl (fun _ => rfl) h.procs
    (fun i => ⟨rfl, SymbolTable.siteOf?_global_congr (SymbolTable.vars_modifyScope ..) i⟩)
    nofun ?_
    (fun index _ => (x.table.withBody_grows scope code first last).weaken fun _ _ => trivial)
    fun index i _ => ⟨rfl, hlocals _ _⟩
  rintro index ⟨q, hq, hopen | hdefined⟩
  · cases hopen
  · by_cases hsc : ScopeId.proc index = scope
    · obtain ⟨p, hp⟩ := h.there _ (hsc ▸ hx)
      exact ⟨p, hp, .inl (hsc ▸ hx)⟩
    · refine ⟨q, ?_, .inr hdefined⟩
      exact (SymbolTable.scope?_modifyScope_of_ne _ _ _ hsc).symm.trans hq

theorem discard (h : x.Declares) {header : Header} {scope : ScopeId} {table : SymbolTable}
    {problems : List Diagnostic} (hx : x.scope = none)
    (declared : x.table.declareDiscarded header = .ok (scope, table, problems)) :
    Declares (((x.setTable table).report problems).enter (some scope)) := by
  obtain ⟨hvars, hscopes⟩ := SymbolTable.declareDiscarded_outside declared
  have hgrows := (SymbolTable.declareDiscarded_grows declared).1
  obtain ⟨hnew, hthere⟩ := SymbolTable.declareDiscarded_exists declared
  obtain ⟨_, _, hscope, _⟩ := SymbolTable.declareDiscarded_spec declared
  refine h.quiet (.discard x header hx declared) rfl (fun _ => rfl) h.procs
    (fun i => ⟨rfl, SymbolTable.siteOf?_global_congr hvars i⟩) ?_ ?_
    (fun index _ => hgrows.weaken fun _ _ => trivial) ?_
  · rintro _ ⟨⟩
    exact hthere
  · intro index hs
    refine settled_back_of_coding header ?_
      (fun q hq => SymbolTable.declareDiscarded_coding declared hq) hs
    rw [hscope]
    exact nofun
  · rintro index i ⟨p, hp, _⟩
    exact ⟨rfl, SymbolTable.siteOf?_inner_of_scope? ((hscopes _ p hp).trans hp.symm) i⟩

section Merging

variable {header : Header} {number : Nat}

theorem merge_table : (x.merge header number).table = (x.table.declare header).table := by
  rw [Journal.table, merge_state]

theorem merge_procs (h : x.Declares) (index : Nat) :
    ((x.merge header number).declarations (.proc index)).length =
      (x.merge header number).headers.countP fun m => m.verdict.named? == some index := by
  have hheaders : (x.merge header number).headers =
      x.headers ++ [⟨header, number, (x.table.declare header).verdict⟩] := rfl
  rw [declarations_merge, hheaders, List.length_append, h.procs, List.countP_append,
    List.countP_singleton]
  cases (x.table.declare header).verdict.named? with
  | none => simp
  | some named => by_cases hn : named = index <;> simp [hn]

/-- A header that is merged enters no variable. -/
theorem declarations_merge_variable {symbol : Symbol} (hs : ∀ i, symbol ≠ .proc i) :
    (x.merge header number).declarations symbol = x.declarations symbol := by
  rw [declarations_merge, if_neg, List.append_nil]
  cases (x.table.declare header).verdict.named? with
  | none => simp
  | some named => simpa using fun heq => hs named heq.symm

theorem merge_vars (i : Nat) :
    (x.merge header number).declarations (.global i) = x.declarations (.global i) ∧
      (x.merge header number).table.siteOf? (.global i) = x.table.siteOf? (.global i) := by
  refine ⟨declarations_merge_variable nofun, ?_⟩
  rw [merge_table]
  exact SymbolTable.siteOf?_global_congr (x.table.declare_spec header).vars i

/-- A procedure that has its body is not defined again. -/
theorem not_define_of_settled (hx : x.scope = none) {index : Nat}
    (hs : x.config.Settled (.proc index)) :
    (x.table.declare header).verdict ≠ .define index := by
  intro hv
  obtain ⟨p, hp, hopen | hdefined⟩ := hs
  · rw [show x.config.scope = x.scope from rfl, hx] at hopen
    cases hopen
  · have hspec := x.table.declare_spec header
    rw [hv] at hspec
    rw [hspec.open_of_define hp] at hdefined
    cases hdefined

theorem merge_locals (hx : x.scope = none) {index : Nat} (hs : x.config.Settled (.proc index))
    (i : Nat) : (x.merge header number).declarations (.inner (.proc index) i) =
        x.declarations (.inner (.proc index) i) ∧
      (x.merge header number).table.siteOf? (.inner (.proc index) i) =
        x.table.siteOf? (.inner (.proc index) i) := by
  refine ⟨declarations_merge_variable nofun, ?_⟩
  obtain ⟨p, hp, _⟩ := id hs
  rw [merge_table]
  refine (x.table.declare_spec header).siteOf?_inner hp ?_ i
  rintro index hv ⟨⟩
  exact not_define_of_settled hx hs hv

theorem merge_grows (hx : x.scope = none) {index : Nat} (hs : x.config.Settled (.proc index)) :
    x.table.Extends (· = .proc index) (x.merge header number).table := by
  rw [merge_table]
  refine (Config.Settled.extends_declare (x := x.config) hx header).weaken ?_
  rintro _ rfl
  exact hs

/-- Whether a header defines a procedure is seen in its parameters. -/
theorem paramsOf_merge (index : Nat) : (x.merge header number).paramsOf index =
    x.paramsOf index ++
      if (x.table.declare header).verdict = .define index then header.params else [] := by
  have hheaders : (x.merge header number).headers =
      x.headers ++ [⟨header, number, (x.table.declare header).verdict⟩] := rfl
  unfold paramsOf
  rw [hheaders, List.flatMap_append, List.flatMap_singleton]

theorem merge (h : x.Declares) (hx : x.scope = none)
    (held : x.Holds number header.name header.pos)
    (hv : ∀ index, (x.table.declare header).verdict ≠ .define index) :
    (x.merge header number).Declares := by
  have hscope : (x.merge header number).scope = none := by
    cases hverdict : (x.table.declare header).verdict with
    | define index => exact absurd hverdict (hv index)
    | announce | reject => simp [Journal.merge, hverdict]
  refine h.quiet (.merge x header hx held) merge_names ?_ h.merge_procs (fun i => merge_vars i) ?_
    ?_ (fun index hs => merge_grows hx hs) fun index i hs => merge_locals hx hs i
  · intro index
    rw [paramsOf_merge, if_neg (hv index), List.append_nil]
  · rw [hscope]
    simp
  · intro index hs
    refine settled_back_of_coding header (by rw [hscope]; simp) ?_ hs
    rw [merge_table]
    exact fun q hq => (x.table.declare_spec header).coding hq

/-- A definition enters its parameters, in a scope in which nothing was entered. -/
theorem define (h : x.Declares) (ha : x.Accounts) {index : Nat}
    {params : List Parse.NumberedParam} (hx : x.scope = none)
    (held : x.Holds number header.name header.pos) (hparams : x.HoldsParams (number + 1) params)
    (hheader : header.params = params.map Parse.NumberedParam.param)
    (hv : (x.table.declare header).verdict = .define index) :
    ((x.merge header number).recordParams (.proc index) params).Declares := by
  have hturns : Turns x _ := (Pass.define x header hx held hparams hheader hv).turns
  have hspec := x.table.declare_spec header
  rw [hv] at hspec
  obtain ⟨hscope, hheaders, hnames, htable⟩ :=
    (x.merge header number).recordParams_eq (.proc index) params
  rw [merge_scope hv] at hscope
  have hentered := (x.merge header number).declarations_recordParams (.proc index) params
  rw [← hheader, merge_table] at hentered
  have hothers : ∀ symbol, (∀ i, symbol ≠ .inner (.proc index) i) →
      ((x.merge header number).recordParams (.proc index) params).declarations symbol =
        (x.merge header number).declarations symbol := by
    intro symbol hne
    rw [hentered, List.filter_eq_nil_iff.mpr, List.map_nil, List.append_nil]
    intro p _ hnamed
    obtain ⟨_, i, hi⟩ := SymbolTable.binds_of_lookupLocal (of_decide_eq_true hnamed).1
    exact hne i hi
  have hnew : ¬x.config.Settled (.proc index) := fun hs => not_define_of_settled hx hs hv
  have hback : ∀ other, other ≠ index →
      ((x.merge header number).recordParams (.proc index) params).config.Settled (.proc other) →
      x.config.Settled (.proc other) := by
    intro other hne
    refine settled_back_of_coding header (by rw [hscope]; simpa using hne.symm) ?_
    rw [htable, merge_table]
    exact fun q hq => hspec.coding hq
  have hparamsOf : ∀ other,
      ((x.merge header number).recordParams (.proc index) params).paramsOf other =
        x.paramsOf other ++ if index = other then header.params else [] := by
    intro other
    rw [paramsOf_of_headers hheaders, paramsOf_merge, hv]
    simp
  refine ⟨?_, ?_, ?_, ?_, ?_, ?_⟩
  · intro i pos hpos
    rw [hothers (.global i) nofun, (merge_vars i).1]
    rw [htable, (merge_vars i).2] at hpos
    exact h.vars i pos hpos
  · intro other
    rw [hothers (.proc other) nofun, hheaders]
    exact h.merge_procs other
  · intro scope heq
    rw [hscope] at heq
    rw [htable, merge_table, ← Option.some.inj heq]
    exact hspec.exists_of_define
  · exact h.mentioned_turns hturns (hnames.trans merge_names)
  · intro other hs
    by_cases hown : other = index
    · subst hown
      rw [hparamsOf, h.closed other hnew, if_pos rfl, List.nil_append]
      refine ⟨(x.table.declare header).table, hspec.lists_of_define, ?_, ?_, ?_⟩
      · rw [htable, merge_table]
        exact .refl _
      · intro i pos hpos
        have hvariable : ∀ j, Symbol.inner (.proc other) i ≠ .proc j := nofun
        rw [hentered, declarations_merge_variable hvariable,
          ha.declarations_of_unsettled hnew i, List.nil_append]
      · intro i pos hnone hpos
        rw [htable, merge_table, hnone] at hpos
        cases hpos
    · have hold := hback other hown hs
      obtain ⟨opened, hopens⟩ := h.opened other hold
      rw [hparamsOf, if_neg (Ne.symm hown), List.append_nil]
      refine ⟨opened, hopens.same ?_ fun i => ?_⟩
      · rw [htable]
        exact merge_grows hx hold
      · have hapart : ∀ j, Symbol.inner (.proc other) i ≠ .inner (.proc index) j := by
          rintro j ⟨⟩
          exact hown rfl
        rw [htable, hothers _ hapart]
        exact merge_locals hx hold i
  · intro other hs
    have hown : index ≠ other := by
      rintro rfl
      obtain ⟨q, hq⟩ := hspec.exists_of_define
      refine hs ⟨q, ?_, .inl hscope⟩
      rw [show (config _).table = _ from htable, merge_table]
      exact hq
    rw [hparamsOf, if_neg hown, List.append_nil]
    exact h.closed other fun hx => hs (hturns.settled hx)

end Merging

theorem pass (h : x.Declares) (ha : x.Accounts) (hxy : Pass x y) : y.Declares := by
  cases hxy with
  | inner hxy => exact h.inner ha hxy
  | merge header hx held hv => exact h.merge hx held hv
  | define header hx held hparams hheader hv => exact h.define ha hx held hparams hheader hv
  | discard header hx declared => exact h.discard hx declared
  | attach code first last hx => exact h.attach code first last hx

theorem passes (h : x.Declares) (ha : x.Accounts) (hs : Passes x y) : y.Declares := by
  induction hs with
  | refl => exact h
  | tail hfirst hstep ih => exact ih.pass (ha.turns (Passes.turns hfirst)) hstep

end Declares

end Journal

end SslFrontend
