import SslFrontend.Proofs.Conduct.Units
import SslFrontend.Proofs.Definitions
import SslFrontend.Proofs.SymbolTableInvariant
import SslFrontend.Proofs.Termination

/-! # What the pools of a unit hold

A text enters the string space when a variable or a procedure of its name is
declared, and when a string literal is read; the name of a built-in, the path of an
include and the file name of a line marker do not.  A declaration that fails leaves
no text behind, and only an error keeps a literal that was read from being there.
The namelist of a procedure holds the names of its locals.  Main statement:
`TokenStream.ofText_pools`.
-/

namespace SslFrontend

/-- The texts of the string literals among some tokens. -/
def literalsOf (tokens : List Token) : List String := tokens.filterMap (·.kind.literal?)

@[simp] theorem literalsOf_append (first second : List Token) :
    literalsOf (first ++ second) = literalsOf first ++ literalsOf second :=
  List.filterMap_append

theorem literalsOf_eq_nil {tokens : List Token} (h : ∀ token ∈ tokens, token.kind.literal? = none) :
    literalsOf tokens = [] :=
  List.filterMap_eq_nil_iff.mpr h

/-! ## Declarations -/

namespace SymbolTable

variable {t u : SymbolTable} {text : String}

/-- A declaration of a variable adds no text but its name. -/
theorem mem_strings_of_declareIn {context : Option ScopeId} {kind : VarScope} {name : String}
    {pos : Position} {symbol : Symbol} (h : t.declareIn context kind name pos = .ok (symbol, u))
    (hmem : text ∈ u.strings.texts) : text ∈ t.strings.texts ∨ u.HasGlobal text := by
  cases context with
  | none =>
      obtain ⟨hbinds, -, -⟩ := binds_of_declareIn h
      obtain ⟨_, handle, strings, hi, rfl, rfl⟩ := declareVar_spec h
      rcases (Pool.mem_of_intern hi text).mp hmem with hold | rfl
      · exact .inl hold
      · exact .inr ⟨_, hbinds, nofun⟩
  | some scope =>
      obtain ⟨_, _, _, _, _, _, _, rfl⟩ := declareLocal_spec h
      rw [strings_modifyScope] at hmem
      exact .inl hmem

/-- A header adds no text but the name of its procedure, and none if it is rejected. -/
theorem mem_strings_of_declare {header : Header}
    (hmem : text ∈ (t.declare header).table.strings.texts) :
    text ∈ t.strings.texts ∨ (t.declare header).table.HasGlobal text := by
  have hbinds : ∀ index, (t.declare header).verdict.named? = some index →
      (t.declare header).table.Binds header.name (.proc index) := fun _ => binds_of_declare
  have hspec := declare_spec t header
  generalize (t.declare header).verdict = verdict at hspec hbinds
  generalize (t.declare header).table = u at hspec hbinds hmem ⊢
  cases hspec with
  | reject named => exact .inl hmem
  | first fresh interned hverdict =>
      rw [strings_setParams] at hmem
      rcases (Pool.mem_of_intern interned text).mp hmem with hold | rfl
      · exact .inl hold
      · refine .inr ⟨.proc t.procs.length, hbinds _ ?_, nofun⟩
        rcases hverdict with rfl | rfl <;> rfl
  | announce there htrigger =>
      rw [strings_modifyScope] at hmem
      exact .inl hmem
  | define there open_ htrigger =>
      rw [strings_setParams, cleared, strings_modifyScope] at hmem
      exact .inl hmem

theorem strings_of_declareDiscarded {header : Header} {scope : ScopeId}
    {problems : List Diagnostic} (h : t.declareDiscarded header = .ok (scope, u, problems)) :
    u.strings = t.strings := by
  obtain ⟨handle, namelist, rfl, rfl⟩ := declareDiscarded_spec h
  exact strings_setParams

end SymbolTable

/-! ## A run -/

/-- What happens to the string space while some tokens are read. -/
structure ParserState.Pools (s t : ParserState) (tokens : List Token) : Prop where
  reads : s.cursor.Reads tokens t.cursor
  grows : s.table.strings.Grows t.table.strings
  named : ∀ text, s.table.HasGlobal text → t.table.HasGlobal text
  erred : s.Erred → t.Erred
  needed : ∀ text ∈ t.table.strings.texts,
    text ∈ s.table.strings.texts ∨ t.table.HasGlobal text ∨ text ∈ literalsOf tokens

/-- Every literal among the tokens is in the string space, unless there is an error. -/
def ParserState.Stores (t : ParserState) (tokens : List Token) : Prop :=
  t.Erred ∨ ∀ text ∈ literalsOf tokens, text ∈ t.table.strings.texts

namespace ParserState.Pools

variable {s t u : ParserState} {first second tokens : List Token}

theorem trans (h₁ : s.Pools t first) (h₂ : t.Pools u second) : s.Pools u (first ++ second) where
  reads := h₁.reads.trans h₂.reads
  grows := h₁.grows.trans h₂.grows
  named text h := h₂.named text (h₁.named text h)
  erred h := h₂.erred (h₁.erred h)
  needed text hmem := by
    rw [literalsOf_append, List.mem_append]
    rcases h₂.needed text hmem with hmid | hglobal | hread
    · rcases h₁.needed text hmid with hold | hglobal | hread
      · exact .inl hold
      · exact .inr (.inl (h₂.named text hglobal))
      · exact .inr (.inr (.inl hread))
    · exact .inr (.inl hglobal)
    · exact .inr (.inr (.inr hread))

theorem stores (h : t.Pools u second) (h₁ : t.Stores first) (h₂ : u.Stores second) :
    u.Stores (first ++ second) := by
  rcases h₂ with herred | hsecond
  · exact .inl herred
  · rcases h₁ with herred | hfirst
    · exact .inl (h.erred herred)
    · refine .inr fun text hmem => ?_
      rw [literalsOf_append, List.mem_append] at hmem
      exact hmem.elim (fun h' => h.grows.texts.subset (hfirst text h')) (hsecond text)

/-- Tokens are read, and the table stays as it is. -/
theorem of_reads (hr : s.cursor.Reads tokens t.cursor) (ht : t.table = s.table)
    (he : s.Erred → t.Erred) : s.Pools t tokens :=
  ⟨hr, ht ▸ .refl _, fun _ h => ht ▸ h, he, fun _ hmem => .inl (ht ▸ hmem)⟩

/-- Nothing is read, and the table grows by names. -/
theorem of_table {keep : ScopeId → Prop} {table : SymbolTable} (hg : s.table.Extends keep table)
    (hmem : ∀ text ∈ table.strings.texts, text ∈ s.table.strings.texts ∨ table.HasGlobal text) :
    s.Pools { s with table := table } [] :=
  ⟨.refl _, hg.strings, fun _ h => h.extends hg, id, fun text h =>
    (hmem text h).imp_right .inl⟩

/-- Nothing is read, and no text is added. -/
theorem of_strings {keep : ScopeId → Prop} {table : SymbolTable} (hg : s.table.Extends keep table)
    (hs : table.strings = s.table.strings) : s.Pools { s with table := table } [] :=
  .of_table hg fun _ h => .inl (hs ▸ h)

end ParserState.Pools

/-- What happens to the string space, answered or failed: a literal that was passed
is stored, unless something was reported or thrown. -/
def Conduct.pools : Conduct where
  ok s t := ∃ tokens, s.Pools t tokens ∧ t.Stores tokens
  fails s _ t := ∃ tokens, s.Pools t tokens

namespace Conduct

open ParserState (Pools)

theorem erred_push {s : ParserState} {d : Diagnostic} (h : s.Erred) :
    ({ s with problems := s.problems.push d } : ParserState).Erred := by
  obtain ⟨e, he, hsevere⟩ := h
  exact ⟨e, List.mem_append_left _ he, hsevere⟩

theorem pools_quiet {s t : ParserState} (h : s.Pools t []) : pools.ok s t :=
  ⟨[], h, .inr nofun⟩

theorem pools_inside (scope : Option ScopeId) : pools.Inside scope where
  refl s := pools_quiet (.of_reads (.refl _) rfl id)
  trans := by
    rintro s t u ⟨first, h₁, hs₁⟩ ⟨second, h₂, hs₂⟩
    exact ⟨first ++ second, h₁.trans h₂, h₂.stores hs₁ hs₂⟩
  fail := by
    rintro s e t u ⟨first, h₁, -⟩ ⟨second, h₂⟩
    exact ⟨first ++ second, h₁.trans h₂⟩
  raise s _ _ _ hf := by
    obtain ⟨tokens, hrest, heof, hposition, hlast⟩ := hf
    exact ⟨tokens, .of_reads ⟨hrest, heof, hposition, hlast⟩ rfl id⟩
  caught := by
    rintro s e t ⟨tokens, h⟩
    have hpush : t.Pools { t with problems := t.problems.push e.diagnostic } [] :=
      .of_reads (.refl _) rfl erred_push
    refine ⟨tokens ++ [], h.trans hpush, .inl ⟨e.diagnostic, by simp [Queue.push], rfl⟩⟩
  read s tokens c hr hkind := by
    refine ⟨tokens, .of_reads hr rfl id, ?_⟩
    rcases hkind with hplain | herred
    · have hnone := literalsOf_eq_nil fun token ht => TokenKind.literal?_of_isPlain (hplain token ht)
      exact .inr (by rw [hnone]; simp)
    · exact .inl herred
  report s ds _ := by
    refine pools_quiet (.of_reads (.refl _) rfl ?_)
    rintro ⟨d, hd, hsevere⟩
    exact ⟨d, List.mem_append_left _ hd, hsevere⟩
  text s text handle strings hk hi := by
    have hread : s.cursor.Reads [s.cursor.current] s.skip.cursor :=
      Cursor.reads_advance (by rw [hk]; simp)
    have hliteral : literalsOf [s.cursor.current] = [text] := by
      have hkind : s.cursor.current.kind = .str text := hk
      simp [literalsOf, hkind, TokenKind.literal?]
    have hmem := Pool.mem_of_intern hi
    refine ⟨[s.cursor.current], ⟨hread, (Pool.intern_spec hi).1, fun name hname => ?_, id, ?_⟩,
      .inr ?_⟩
    · have hg : s.table.Grows { s.table with strings := strings } :=
        SymbolTable.extends_strings (Pool.intern_spec hi).1
      exact hname.extends hg
    · intro other hother
      rw [hliteral, List.mem_singleton]
      exact ((hmem other).mp hother).imp_right .inr
    · rw [hliteral]
      exact List.forall_mem_singleton.mpr ((hmem text).mpr (.inr rfl))
  refused s text error hk hi := by
    have hread : s.cursor.Reads [s.cursor.current] s.skip.cursor :=
      Cursor.reads_advance (by rw [hk]; simp)
    exact ⟨[s.cursor.current], .of_reads hread rfl erred_push,
      .inl ⟨SymbolTable.refused s.cursor.pos error, by simp [Queue.push], rfl⟩⟩
  enter s _ _ := pools_quiet (.of_reads (.refl _) rfl id)
  adjust s symbol f hf := by
    have hg : s.table.Grows (s.table.modifyVariable symbol f) :=
      SymbolTable.extends_modifyVariable hf
    exact pools_quiet (.of_strings hg (SymbolTable.strings_modifyVariable _ _ _))
  declare s _ _ _ _ _ h :=
    pools_quiet (.of_table (SymbolTable.declareIn_grows h)
      fun _ => SymbolTable.mem_strings_of_declareIn h)
  redeclare s _ _ _ _ _ := pools_quiet (.of_reads (.refl _) rfl erred_push)

/-- The body of a procedure is attached. -/
theorem pools_attach (s : ParserState) (scope : ScopeId) (start finish : Position) (code : Code) :
    s.Pools { s with table := s.table.modifyScope scope (·.withBody code start finish) } [] := by
  have hg : s.table.Grows (s.table.modifyScope scope (·.withBody code start finish)) :=
    SymbolTable.extends_modifyScope (fun _ _ => rfl) fun _ _ _ => ⟨.refl _, List.prefix_rfl⟩
  exact .of_strings hg (SymbolTable.strings_modifyScope _ _ _)

theorem pools_throughout : Throughout fun _ => pools where
  inside := pools_inside
  begins s hk := by
    have hread : s.cursor.Reads [s.cursor.current] s.skip.cursor :=
      Cursor.reads_advance (by rw [hk]; exact nofun)
    have hnone : literalsOf [s.cursor.current] = [] :=
      literalsOf_eq_nil (List.forall_mem_singleton.mpr (congrArg TokenKind.literal? hk))
    exact ⟨_, .of_reads hread rfl id, .inr (by rw [hnone]; exact nofun)⟩
  declares s header :=
    pools_quiet (.of_table (SymbolTable.declare_spec s.table header).extends
      fun _ => SymbolTable.mem_strings_of_declare)
  disowns s _ _ _ _ h :=
    pools_quiet (.of_strings (SymbolTable.declareDiscarded_grows h).1
      (SymbolTable.strings_of_declareDiscarded h))
  attaches s scope start finish code := pools_quiet (pools_attach s scope start finish code)
  attachesFailed := by
    rintro s e t scope start finish code ⟨tokens, h⟩
    exact ⟨tokens ++ [], h.trans (pools_attach t scope start finish code)⟩
  leaves _ h := h
  leavesFailed _ h := h

end Conduct

/-! ## Names and namelists -/

/-- Every operation of a run keeps the names of its table. -/
theorem SymbolTable.Kept.throughout :
    HoldsThroughout fun s t => s.table.Kept → t.table.Kept where
  inside scope :=
    { refl := fun _ => id
      trans := fun h₁ h₂ h => h₂ (h₁ h)
      move := fun _ _ _ => id
      report := fun _ _ => id
      intern := fun _ _ _ _ hi h => h.grown (Pool.intern_spec hi).1
      adjust := fun _ _ symbol _ _ hf h => h.adjust symbol fun v => congrArg Prod.fst (hf.label v)
      mention := fun s _ _ h => by rwa [ParserState.mentioned_table]
      declare := fun _ _ _ _ _ _ _ hd h => h.declareIn hd }
  reserve _ := id
  recordAt _ _ _ _ _ := id
  declare _ header h := h.declare header
  disown _ _ _ _ _ hd h := h.declareDiscarded hd
  attach _ scope _ _ _ h := h.modifyScope (fun _ => rfl) fun _ _ hp => hp.congr rfl rfl hp.args

theorem TokenStream.draft_kept (stream : TokenStream) : stream.draft.table.Kept := by
  rw [stream.draft_table]
  exact SymbolTable.Kept.throughout.items_along _ .empty

/-- A text is the name of a variable or a procedure of the module. -/
def Module.Names (m : Module) (text : String) : Prop :=
  (∃ v ∈ m.vars, m.strings.resolve v.name = .ok text) ∨
    ∃ p ∈ m.procs, m.strings.resolve p.name = .ok text

namespace Draft

variable {draft : Draft} {files : FileTable}

/-- What has a name in the draft has it in the module. -/
theorem names_of_hasGlobal {text : String} (h : draft.table.HasGlobal text) :
    (draft.finish files).module.Names text := by
  obtain ⟨symbol, hbinds, houter⟩ := h
  have hnamed := hbinds.isNamed
  cases symbol with
  | global i =>
      obtain ⟨w, hw, hname⟩ := hnamed
      have hlt : i < (draft.finish files).module.vars.length :=
        finish_vars_length ▸ (List.getElem?_eq_some_iff.mp hw).1
      obtain ⟨w', hw', hv⟩ := finish_var (List.getElem?_eq_getElem hlt)
      obtain rfl : w = w' := Option.some.inj (hw.symm.trans hw')
      refine .inl ⟨_, List.getElem_mem hlt, ?_⟩
      rw [hv]
      exact hname
  | proc i =>
      obtain ⟨q, hq, hname⟩ := hnamed
      have hlt : i < (draft.finish files).module.procs.length :=
        finish_procs_length ▸ (List.getElem?_eq_some_iff.mp hq).1
      obtain ⟨q', hfinished⟩ := finished (List.getElem?_eq_getElem hlt)
      obtain rfl : q = q' := Option.some.inj (hq.symm.trans hfinished.there)
      refine .inr ⟨_, List.getElem_mem hlt, ?_⟩
      rw [hfinished.name]
      exact hname
  | inner scope i => exact absurd rfl (houter scope i)
  | builtin i => exact hnamed.elim

/-- The locals of a finished procedure have the names they had. -/
theorem Finished.local_names {i : Nat} {p q : Procedure} (h : draft.Finished i p q) :
    p.locals.map Variable.name = q.locals.map Variable.name := by
  rw [h.locals]
  apply List.ext_getElem?
  intro k
  rw [List.getElem?_map, List.getElem?_mapIdx, List.getElem?_map]
  cases q.locals[k]? <;> rfl

end Draft

/-! ## The module -/

/-- The pools of a module hold what it needs and nothing else. -/
structure Parsed.Stocks (parsed : Parsed) (tokens : List Token) : Prop where
  distinct : parsed.module.strings.texts.Nodup
  /-- What is only the name of a built-in, the path of an include or the file name of a
  line marker is no text of the string space. -/
  needed : ∀ text ∈ parsed.module.strings.texts,
    parsed.module.Names text ∨ text ∈ literalsOf tokens
  vars : ∀ v ∈ parsed.module.vars, ∃ text ∈ parsed.module.strings.texts,
    parsed.module.strings.resolve v.name = .ok text
  procs : ∀ p ∈ parsed.module.procs, ∃ text ∈ parsed.module.strings.texts,
    parsed.module.strings.resolve p.name = .ok text
  namelists : ∀ p ∈ parsed.module.procs, p.namelist.texts.Nodup ∧
    p.locals.map (fun v => p.namelist.resolve v.name) = p.namelist.texts.map .ok
  /-- Without an error nothing is missing. -/
  whole : (∀ d ∈ parsed.diagnostics, d.isError = false) → ∀ text,
    text ∈ parsed.module.strings.texts ↔
      parsed.module.Names text ∨ text ∈ literalsOf tokens

namespace TokenStream

variable {stream : TokenStream}

/-- The whole stream is read, so that every text that is there is a name of the unit or
a literal of the stream, and every literal is there unless there is an error. -/
theorem pools_draft (hone : ∀ token ∈ stream.tokens, token.kind ≠ .eof) :
    (∀ text ∈ stream.draft.table.strings.texts,
      stream.draft.table.HasGlobal text ∨ text ∈ literalsOf stream.tokens) ∧
    ((∃ d ∈ stream.draft.problems.items, d.isError = true) ∨
      ∀ text ∈ literalsOf stream.tokens, text ∈ stream.draft.table.strings.texts) := by
  obtain ⟨main, s, -, hs, -, hposition⟩ := (stream.reads_through hone).1.whole
  have hitems := Conduct.pools_throughout.items (s := .start stream)
  unfold Conduct.Keeps Conduct.Comes at hitems
  rw [hs] at hitems
  obtain ⟨tokens, hpools, hstores⟩ := hitems
  have hdraft : stream.draft = ⟨main, s.table, s.ledger, s.pending, s.problems⟩ := by
    unfold TokenStream.draft
    rw [hs]
  have hall : stream.tokens = tokens := by
    have hrest : stream.tokens = tokens ++ s.cursor.rest := hpools.reads.rest
    have hcount : s.cursor.position = 0 + tokens.length := hpools.reads.position
    have hnone : s.cursor.rest = [] := by
      have hlength := congrArg List.length hrest
      rw [List.length_append] at hlength
      exact List.eq_nil_of_length_eq_zero (by omega)
    rw [hrest, hnone, List.append_nil]
  rw [hdraft, hall]
  refine ⟨fun text hmem => ?_, hstores⟩
  rcases hpools.needed text hmem with hempty | hfound
  · cases hempty
  · exact hfound

/-- Whatever the text, its string space holds the names of the variables and procedures
and string literals of the tokens, and all of them if there is no error; each namelist
holds the names of the locals, in their order. -/
theorem ofText_pools (fs : FileSystem) (options : IncludeOptions) (text : String)
    (shown key : Path) : (ofText fs options text shown key).parse.Stocks
      (ofText fs options text shown key).tokens := by
  have hone : ∀ token ∈ (ofText fs options text shown key).tokens, token.kind ≠ .eof :=
    inner_ofText fs options text shown key
  generalize ofText fs options text shown key = stream at hone ⊢
  obtain ⟨hneeded, hstored⟩ := pools_draft hone
  have hkept := stream.draft_kept
  have hnamed : ∀ handle ∈ stream.draft.table.globals, ∃ text ∈ stream.parse.module.strings.texts,
      stream.parse.module.strings.resolve handle = .ok text := by
    intro handle hmem
    obtain ⟨text, htext⟩ := hkept.named hmem
    exact ⟨text, Pool.resolve_iff.mp ⟨handle, htext⟩, htext⟩
  have hnames : ∀ text ∈ stream.parse.module.strings.texts,
      stream.parse.module.Names text ∨ text ∈ literalsOf stream.tokens :=
    fun text hmem => (hneeded text hmem).imp_left Draft.names_of_hasGlobal
  refine ⟨stream.parse.module.strings.distinct, hnames, fun v hv => ?_, fun p hp => ?_,
    fun p hp => ⟨p.namelist.distinct, ?_⟩, fun hclean text => ⟨hnames text, ?_⟩⟩
  · obtain ⟨i, hi⟩ := List.getElem?_of_mem hv
    obtain ⟨w, hw, rfl⟩ := Draft.finish_var hi
    exact hnamed w.name (List.mem_append_left _ (List.mem_map_of_mem (List.mem_of_getElem? hw)))
  · obtain ⟨i, hi⟩ := List.getElem?_of_mem hp
    obtain ⟨q, hq⟩ := Draft.finished hi
    have hmem : q ∈ stream.draft.table.procs := List.mem_of_getElem? hq.there
    rw [hq.name]
    exact hnamed q.name (List.mem_append_right _ (List.mem_map_of_mem hmem))
  · obtain ⟨i, hi⟩ := List.getElem?_of_mem hp
    obtain ⟨q, hq⟩ := Draft.finished hi
    have hlocals := congrArg (List.map q.namelist.resolve) hq.local_names
    rw [List.map_map, List.map_map] at hlocals
    rw [hq.namelist]
    exact hlocals.trans (hkept.texts hq.there).2
  · rintro ((⟨v, -, hv⟩ | ⟨p, -, hp⟩) | hliteral)
    · exact Pool.resolve_iff.mp ⟨v.name, hv⟩
    · exact Pool.resolve_iff.mp ⟨p.name, hp⟩
    · rcases hstored with ⟨d, hd, hsevere⟩ | hall
      · have hreported := hclean d (Draft.mem_diagnostics.mpr (.inl hd))
        rw [hsevere] at hreported
        cases hreported
      · exact hall text hliteral

/-- Two names, a literal and a literal that is a name; the name of the built-in is not
among the texts. -/
example : (ofString .none .default
    "variable v; procedure p begin variable k := \"v\"; display_msg(\"hi\"); end"
    ⟨"a.ssl"⟩).parse.module.strings.texts = ["v", "p", "hi"] := by
  decide +kernel

end TokenStream

end SslFrontend
