import SslFrontend.Proofs.Conduct.Units
import SslFrontend.Proofs.DeclarationReferences
import SslFrontend.Proofs.Twin.Aside
import SslFrontend.Proofs.Twin.Placed
import SslFrontend.Proofs.Twin.Same

/-! # Declarations by themselves

A declaration of variables or of a procedure can be read by itself.  If nothing is
wrong with it, no header in it is rejected, and whatever is mentioned in it is
declared in it or waits for the end of the unit, at the top or in a procedure that
is there.
-/

namespace SslFrontend

/-! ## Where no header is rejected -/

namespace SymbolTable

variable {t u : SymbolTable} {i : Nat}

theorem discarded_setParams (t : SymbolTable) (i : Nat) (params : List Param) :
    (t.setParams (.proc i) params).1.discarded = t.discarded := by
  refine setParams_induct (P := fun u => u.discarded = t.discarded) rfl
    (fun u problems param hu => ?_) fun u hu => hu
  obtain heq | ⟨symbol, v, hv, heq⟩ := @addParam_cases u (.proc i) problems param
  · rw [heq, hu]
  · rw [heq]
    obtain ⟨p, handle, namelist, -, -, -, rfl, rfl⟩ := declareLocal_spec hv
    exact hu

/-- No header opens a scope of its own before it is rejected. -/
theorem discarded_declare (t : SymbolTable) (header : Header) :
    (t.declare header).table.discarded = t.discarded := by
  have hspec := declare_spec t header
  generalize (t.declare header).verdict = verdict, (t.declare header).table = u at hspec ⊢
  cases hspec with
  | reject named => rfl
  | first fresh interned hverdict => rw [discarded_setParams]; rfl
  | announce there htrigger => rfl
  | define there open_ htrigger => rw [discarded_setParams]; rfl

end SymbolTable

namespace ParserState

/-- No scope of a rejected header is added or changed. -/
def KeepsDiscarded (s t : ParserState) : Prop := t.table.discarded = s.table.discarded

/-- Nothing happens to scopes of rejected headers outside of them. -/
theorem KeepsDiscarded.inside {scope : Option ScopeId} (hscope : ∀ k, scope ≠ some (.discarded k)) :
    HoldsInside scope KeepsDiscarded where
  refl _ := rfl
  trans h₁ h₂ := h₂.trans h₁
  move _ _ _ := rfl
  report _ _ := rfl
  intern _ _ _ _ _ := rfl
  adjust _ s symbol _ hin _ := by
    cases symbol with
    | inner sc i =>
        cases sc with
        | proc j => rfl
        | discarded j =>
            cases scope with
            | none => exact hin.elim
            | some sc => exact absurd (congrArg some hin.symm) (hscope j)
    | _ => rfl
  mention s name _ := by
    unfold KeepsDiscarded
    rw [ParserState.mentioned_table]
  declare _ s name kind symbol table hk h := by
    cases scope with
    | none =>
        obtain ⟨_, _, _, _, _, rfl⟩ := SymbolTable.declareVar_spec h
        rfl
    | some sc =>
        obtain ⟨_, _, _, _, _, _, _, rfl⟩ := SymbolTable.declareLocal_spec h
        cases sc with
        | proc j => rfl
        | discarded j => exact absurd rfl (hscope j)

end ParserState

namespace Parse

open ParserState (KeepsDiscarded)

variable {s t : ParserState} {code : Code}

theorem body_keepsDiscarded (i : Nat) : Along KeepsDiscarded (body (.proc i)) := by
  have hin : HoldsInside (some (.proc i)) KeepsDiscarded :=
    KeepsDiscarded.inside fun k => by simp
  refine .bind hin hin.pos fun start => .bind hin (hin.openBlock_along ?_) fun found => ?_
  · exact hin.statement_along rfl
  · refine .bind hin hin.cursor fun c => .bind hin (fun s => rfl) fun _ => ?_
    cases found.failure with
    | none => exact .pure hin _
    | some e => exact .throw hin e

/-- A header that is not rejected opens no scope but that of its procedure. -/
theorem enter_keepsDiscarded {header : Header} {params : List NumberedParam} {number : Nat}
    {entered : Option ScopeId} (h : enter header params number s = .ok entered t)
    (hverdict : ∀ named, (s.table.declare header).verdict ≠ .reject named) :
    KeepsDiscarded s t ∧ ∀ k, entered ≠ some (.discarded k) := by
  have hlook : enter header params number s = heed header params number
      (s.table.declare header).verdict { s with
        table := (s.table.declare header).table
        problems := ⟨s.problems.items ++ (s.table.declare header).problems⟩ } := rfl
  rw [hlook] at h
  have hdeclared : (s.table.declare header).table.discarded = s.table.discarded :=
    SymbolTable.discarded_declare _ _
  cases hv : (s.table.declare header).verdict with
  | define i =>
      rw [hv] at h
      obtain ⟨_, s₁, h₁, h⟩ := of_bind_ok h
      cases h₁
      obtain ⟨_, s₂, h₂, h⟩ := of_bind_ok h
      obtain ⟨ledger, heq⟩ := Conduct.Throughout.recordParams_eq (.proc i) params _
      cases heq.symm.trans h₂
      cases h
      exact ⟨hdeclared, fun k => by simp⟩
  | announce i =>
      rw [hv] at h
      obtain ⟨_, s₁, h₁, h⟩ := of_bind_ok h
      cases h₁
      cases h
      exact ⟨hdeclared, fun k => by simp⟩
  | reject named => exact absurd hv (hverdict named)

/-- Where nothing is wrong, no header is rejected. -/
theorem procedure_keepsDiscarded {q : Qualifiers} (h : procedure q s = .ok ⟨⟩ t)
    (hsane : ∀ d ∈ t.problems.items, d.isError = false) : KeepsDiscarded s t := by
  have hon := ParserState.Onward.throughout
  rw [procedure_eq] at h
  obtain ⟨entered, u, hentry, hbody⟩ := of_bind_ok h
  obtain ⟨header, params, number, s₁, hread, henter⟩ :=
    of_entry_ok ParserState.Undeclaring.within ParserState.Undeclaring.reserve_along hentry
  have hbefore : KeepsDiscarded s s₁ := hread.discarded_eq
  have hreports : ∀ d ∈ (s₁.table.declare header).problems, d.isError = false := by
    intro d hd
    have hlater : ParserState.Onward { s₁ with
        table := (s₁.table.declare header).table
        problems := ⟨s₁.problems.items ++ (s₁.table.declare header).problems⟩ } t :=
      (Along.of_ok (hon.heed_along header params number _) henter).trans
        (Along.of_ok (hon.bodyIn_along entered) hbody)
    exact hsane d (hlater.problems.subset (List.mem_append_right _ hd))
  obtain ⟨hentered, hscope⟩ := enter_keepsDiscarded henter fun named hv => by
    obtain ⟨d, hd, herror⟩ := SymbolTable.isError_of_reject hv
    rw [hreports d hd] at herror
    cases herror
  have hbehind : KeepsDiscarded u t := by
    cases entered with
    | none =>
        cases hbody
        rfl
    | some sc =>
        cases sc with
        | proc i => exact Along.of_ok (body_keepsDiscarded i) hbody
        | discarded k => exact absurd rfl (hscope k)
  exact hbehind.trans (hentered.trans hbefore)

theorem item_keepsDiscarded (h : item s = .ok code t)
    (hsane : ∀ d ∈ t.problems.items, d.isError = false) : KeepsDiscarded s t := by
  have hin : HoldsInside none KeepsDiscarded :=
    KeepsDiscarded.inside fun k => by simp
  obtain ⟨q, s₁, hq, h⟩ := of_bind_ok h
  have hqualifiers : KeepsDiscarded s s₁ := Along.of_ok hin.qualifiers_along hq
  refine hin.trans hqualifiers ?_
  obtain ⟨kind, s₂, hkind, h⟩ := of_bind_ok h
  obtain ⟨-, rfl⟩ : s₁.cursor.kind = kind ∧ s₁ = s₂ := EStateM.Result.ok.inj hkind
  split at h
  · obtain ⟨_, s₃, hprocedure, h⟩ := of_bind_ok h
    cases h
    exact procedure_keepsDiscarded hprocedure hsane
  · exact Along.of_ok (hin.variableDeclaration_along rfl q) h
  · exact Along.of_ok (.ite (hin.statement_along rfl) (.bind hin hin.cursor fun _ => .throw hin _)) h

end Parse

/-! ## What a declaration leaves -/

/-- An item that reads tokens which start as a declaration is a round. -/
theorem Parse.itemRound_declaration {s t : ParserState} {tokens more : List Token} {code : Code}
    (hstarts : tokens.head?.any (·.kind.startsItem) = true)
    (hs : s.cursor.rest = tokens ++ more) (hitem : item s = .ok code t)
    (ht : t.cursor.rest = more) : itemRound [] s = .ok (.inl code) t := by
  have hfirst : s.cursor.atEnd = false := by
    cases tokens with
    | nil => cases hstarts
    | cons token rest =>
        have hkind : s.cursor.kind = token.kind := by
          rw [Cursor.kind, Cursor.current_of_rest hs]
        have hitem : token.kind.startsItem = true := hstarts
        unfold Cursor.atEnd
        rw [hkind]
        cases hk : token.kind <;> rw [hk] at hitem <;> first | rfl | cases hitem
  have hmoved : t.cursor.position ≠ s.cursor.position := by
    have hlength := (Parse.Along.of_ok ParserState.Onward.throughout.item_along hitem).cursor.rest_length
    rw [hs, ht, List.length_append] at hlength
    intro hsame
    obtain rfl : tokens = [] := List.eq_nil_of_length_eq_zero (by omega)
    cases hstarts
  have hround := Parse.itemRound_ok [] hfirst hitem
  rwa [if_neg hmoved, List.nil_append] at hround

/-- At the end no item is left to read. -/
theorem Parse.itemRounds_last {s : ParserState} (code : Code) (hs : s.cursor.atEnd = true) :
    repeatRounds itemRound code s = .ok code s := by
  rw [repeatRounds_eq itemRound_consumes fun code =>
    (ParserState.Onward.throughout.itemRound_along code).forward]
  exact (bind_ok (itemRound_last code hs)).trans rfl

namespace TokenStream

variable (stream : TokenStream) (tokens : List Token)

/-- A part of the stream by itself. -/
def only : TokenStream := { stream with tokens := tokens, problems := .empty }

/-- What reading a part of the stream by itself leaves. -/
def readAlone : Draft := (stream.only tokens).draft

/-- These tokens are a declaration: they start as one, and when they are read by
themselves, one item reads them all, leaves nothing to run, and has no errors. -/
structure Declares : Prop where
  starts : tokens.head?.any (·.kind.startsItem) = true
  reads : ∃ s, Parse.item (.start (stream.only tokens)) = .ok [] s ∧ s.cursor.rest = [] ∧
    ∀ d ∈ s.problems.items, d.isError = false

variable {stream tokens}

theorem Declares.head (h : stream.Declares tokens) :
    ∃ token rest, tokens = token :: rest ∧ token.kind.startsItem = true := by
  have hstarts := h.starts
  cases tokens with
  | nil => cases hstarts
  | cons token rest => exact ⟨token, rest, rfl, hstarts⟩

/-- One item is all there is. -/
theorem readAlone_of_item {s : ParserState} (hstarts : tokens.head?.any (·.kind.startsItem) = true)
    (hitem : Parse.item (.start (stream.only tokens)) = .ok [] s) (hrest : s.cursor.rest = []) :
    stream.readAlone tokens = ⟨[], s.table, s.ledger, s.pending, s.problems⟩ := by
  have hround := Parse.itemRound_declaration hstarts (List.append_nil _).symm hitem hrest
  have hlast : s.cursor.atEnd = true := by
    simp [Cursor.atEnd, Cursor.kind, Cursor.current, hrest]
  unfold readAlone
  rw [draft_of_leads (.next hround (.refl _ _)), Parse.itemRounds_last [] hlast]
  rfl

end TokenStream

namespace TokenStream.Declares

variable {stream : TokenStream} {tokens : List Token}

theorem problems (h : stream.Declares tokens) :
    ∀ d ∈ (stream.readAlone tokens).problems.items, d.isError = false := by
  obtain ⟨s, hitem, hrest, hsane⟩ := h.reads
  rw [readAlone_of_item h.starts hitem hrest]
  exact hsane

/-- No header in a declaration is rejected. -/
theorem discarded (h : stream.Declares tokens) : (stream.readAlone tokens).table.discarded = [] := by
  obtain ⟨s, hitem, hrest, hsane⟩ := h.reads
  rw [readAlone_of_item h.starts hitem hrest]
  exact Parse.item_keepsDiscarded hitem hsane

end TokenStream.Declares

/-! ## What a declaration mentions -/

/-- All names that wait, one behind the other. -/
theorem Pending.citations_eq (pending : Pending) :
    pending.citations = (pending.names.flatMap fun p =>
      p.sites.map fun s => (⟨.name p.name p.context, s.2.site, .use⟩ : Citation) : List Citation) := by
  unfold Pending.citations
  induction pending.names with
  | nil => rfl
  | cons p rest ih =>
      rw [List.map_cons, List.sum_cons, ih, List.flatMap_cons, ← Multiset.coe_add]
      rfl

/-- A symbol of a table, or a name that waits in a scope of it. -/
inductive Referent.IsOf (t : SymbolTable) : Referent → Prop
  | symbol {name : String} {symbol : Symbol} (h : t.Binds name symbol) : IsOf t (.symbol symbol)
  | name (name : String) {context : Option ScopeId}
      (h : ∀ sc, context = some sc → ∃ p, t.scope? sc = some p) : IsOf t (.name name context)

/-- What is mentioned is a symbol of the tables at the end, or waits in a scope of
theirs. -/
theorem TokenStream.isOf_of_mem_citations (stream : TokenStream) {m : Citation}
    (hm : m ∈ stream.draft.records.citations) : m.referent.IsOf stream.draft.table := by
  obtain ⟨x, hx⟩ := stream.concluded
  have hends := hx.ends
  have hm : m ∈ stream.draft.ledger.citations + stream.draft.pending.citations := hm
  rcases Multiset.mem_add.mp hm with hm | hm
  · obtain ⟨e, he, rfl⟩ := List.mem_map.mp (Multiset.mem_coe.mp hm)
    rw [hends.leaves.ledger] at he
    obtain ⟨r, -, -, -, hbinds⟩ := (hends.accounts.entered e he).read
    exact .symbol (hends.leaves.table ▸ hbinds)
  · rw [Pending.citations_eq, hends.leaves.pending] at hm
    obtain ⟨p, hp, hm⟩ := List.mem_flatMap.mp (Multiset.mem_coe.mp hm)
    obtain ⟨⟨number, pos⟩, hsite, rfl⟩ := List.mem_map.mp hm
    refine .name _ fun sc hsc => ?_
    obtain ⟨r, e, hr, he, -, -, hcontext⟩ :=
      hends.accounts.waiting p.name p.context number pos ⟨p, hp, rfl, rfl, hsite⟩
    have hdeclares := (Journal.Declares.start stream).passes (.start stream) hx.passes
    obtain ⟨q, hq, -⟩ :=
      hdeclares.mentioned r (List.mem_of_getElem? hr) e sc he (hcontext.trans hsc)
    exact ⟨q, hends.leaves.table ▸ hq⟩

/-- A node carries what it stands for, or mentions something of the tables. -/
inductive Node.IsOf (r : Records) (node : Node) : Prop
  | value (h : node.kind.isMention = false) (builtin : node.kind ≠ .builtin)
  | mention {referent : Referent} (shows : r.Shows node.pos referent node)
      (h : referent.IsOf r.table)

variable {stream : TokenStream} {x : Config stream} {context : Option ScopeId} {node : Node}

namespace Config.Ends

/-- Every node that is known mentions what is known. -/
theorem isOf (hx : x.Ends) (h : (x.vocabulary context).Admits node) :
    node.IsOf stream.draft.records := by
  have htable : stream.draft.records.table = x.table := hx.leaves.table
  have hpending : stream.draft.records.pending = x.state.pending := hx.leaves.pending
  cases h with
  | literal kind leaf =>
      refine .value ?_ ?_
      · cases hk : node.kind <;> rw [hk] at kind <;> first | rfl | cases kind
      · rintro hk
        rw [hk] at kind
        cases kind
  | operation kind count site =>
      have hk : node.kind.isLiteral = false ∧ node.kind.isMention = false ∧ node.kind ≠ .builtin := by
        simpa [NodeKind.isOperation, and_assoc] using kind
      exact .value hk.2.1 hk.2.2
  | name kind leaf =>
      obtain ⟨e, he, rfl, rfl⟩ := leaf
      have hrecorded := hx.logged e he
      cases hl : e.table.lookupDeclared e.scope e.name with
      | some symbol =>
          obtain ⟨hnode, hbinds, -⟩ := hrecorded.early symbol hl
          rw [hnode]
          exact .mention (.symbol symbol) (.symbol (htable ▸ hbinds))
      | none =>
          obtain ⟨place, p, hplace, -, hcontext, hnode⟩ := hrecorded.late hl
          rw [hnode]
          refine .mention (.name (hpending ▸ hplace)) (.name _ fun sc hsc => ?_)
          obtain ⟨q, hq, -⟩ := hrecorded.scope sc (hcontext.symm.trans hsc)
          exact ⟨q, htable ▸ hq⟩
  | own kind leaf =>
      obtain ⟨sc, i, pos, rfl, rfl, -, hsite⟩ := leaf
      obtain ⟨p, hp, hlocal⟩ := Option.bind_eq_some_iff.mp hsite
      obtain ⟨v, hv, -⟩ := Option.map_eq_some_iff.mp hlocal
      obtain ⟨text, htext⟩ := (hx.known.table.scopes hp).names v (List.mem_of_getElem? hv)
      have hbinds : x.table.Binds text (.inner sc i) := by
        refine ⟨p.namelist, v.name, v.declared, ?_, htext⟩
        simp [SymbolTable.declaration?, hp, hv, Variable.label]
      exact .mention (.symbol (.inner sc i)) (.symbol (htable ▸ hbinds))

end Config.Ends

/-- All code of a procedure mentions what is known. -/
structure Procedure.IsOf (r : Records) (p : Procedure) : Prop where
  body : ∀ node ∈ p.body, node.IsOf r
  condition : ∀ code, p.trigger = .conditional code → ∀ node ∈ code, node.IsOf r

theorem TokenStream.procedure_isOf (stream : TokenStream) {sc : ScopeId} {p : Procedure}
    (hp : stream.draft.table.scope? sc = some p) : p.IsOf stream.draft.records := by
  obtain ⟨x, hx⟩ := stream.completes
  have hcoded := hx.coded.procedure (hx.leaves.table ▸ hp)
  constructor
  · intro node hnode
    cases hd : p.defined with
    | false =>
        rw [hcoded.blank hd] at hnode
        exact absurd hnode List.not_mem_nil
    | true =>
        obtain ⟨code, last, hcode, hlast, hshape⟩ := hcoded.body hd
        rw [hcode] at hnode
        rcases List.mem_append.mp hnode with hmem | hret
        · exact hx.toEnds.isOf (hshape.admits node hmem)
        · rw [List.mem_singleton.mp hret]
          exact .value rfl (by simp)
  · intro code hc node hnode
    exact hx.toEnds.isOf ((hcoded.condition code hc).admits node hnode)

end SslFrontend
