import SslFrontend.Include.Splice
import SslFrontend.Proofs.Journal.Declarations
import SslFrontend.Proofs.References

/-! # Declarations among the references

The references of a variable are its uses and its declaration, and those of a
procedure its uses and the headers that are one of it.  The parameters of a
procedure that is never defined are not entered at all, and a parameter that is
written twice at one place is entered twice.  Main statement:
`TokenStream.parse_citesDeclarations`, for every stream and every journal that
leaves no parameter out.
-/

namespace SslFrontend

variable {stream : TokenStream} {x y : Journal stream}

namespace Journal

/-- Number of headers of a name that were accepted, or rejected as a second
definition of the procedure of that name. -/
def headersOf (x : Journal stream) (name : String) : Nat :=
  x.headers.countP fun m => m.header.name == name && m.verdict.named?.isSome

/-- How often the parameters that define a procedure have a name at one place. -/
def timesWritten (x : Journal stream) (index : Nat) (name : String) (pos : Position) : Nat :=
  (x.paramsOf index).countP fun p => p.name = name ∧ p.pos = pos

end Journal

/-- What the references of a module are beside the uses. -/
structure Module.CitesDeclarations (m : Module) (x : Journal stream) : Prop where
  vars : ∀ (i : Nat) (v : Variable), m.vars[i]? = some v →
    v.declared.site ∈ v.references ∧ v.references.length = v.uses + 1
  procs : ∀ (i : Nat) (p : Procedure), m.procs[i]? = some p →
    p.references.length = p.uses + x.headersOf (m.strings.lookup p.name)
  locals : ∀ (i : Nat) (p : Procedure) (k : Nat) (v : Variable), m.procs[i]? = some p →
    p.defined = true → p.locals[k]? = some v →
    v.declared.site ∈ v.references ∧ v.references.length =
      v.uses + max 1 (x.timesWritten i (p.namelist.lookup v.name) v.declared)
  /-- Parameters that are only announced have no references. -/
  announced : ∀ (i : Nat) (p : Procedure) (k : Nat) (v : Variable), m.procs[i]? = some p →
    p.defined = false → p.locals[k]? = some v → v.references = [] ∧ v.uses = 0

namespace Journal

/-- A header that is one of a procedure has its name. -/
def Titles (x : Journal stream) : Prop :=
  ∀ m ∈ x.headers, ∀ index, m.verdict.named? = some index →
    x.table.Binds m.header.name (.proc index)

theorem Titles.turn (h : x.Titles) (hxy : Turn x y) : y.Titles := by
  have hold : ∀ m ∈ x.headers, ∀ index, m.verdict.named? = some index →
      y.table.Binds m.header.name (.proc index) := fun m hm index hnamed =>
    ((h m hm index hnamed).grows hxy.extends.table fun _ _ => nofun).1
  cases hxy with
  | inner hxy =>
      intro m hm
      exact hold m (hxy.headers_eq ▸ hm)
  | merge header hx held =>
      intro m hm index hnamed
      rcases List.mem_append.mp hm with hbefore | hnew
      · exact hold m hbefore index hnamed
      · obtain rfl := List.mem_singleton.mp hnew
        rw [Journal.table, merge_state]
        exact SymbolTable.binds_of_declare hnamed
  | _ => exact hold

theorem Titles.turns (h : x.Titles) (hs : Turns x y) : y.Titles := by
  induction hs with
  | refl => exact h
  | tail _ hstep ih => exact ih.turn hstep

namespace Ends

/-- What is declared at the end was declared in the run. -/
theorem declarationsIn_perm (h : x.Ends) (symbol : Symbol) :
    (Ledger.declarationsIn stream.draft.entries symbol).Perm (x.declarations symbol) := by
  have huses : Ledger.declarationsIn
      (x.state.pending.names.flatMap (Pending.uses stream.draft.closed)) symbol = [] := by
    refine List.map_eq_nil_iff.mpr (List.filter_eq_nil_iff.mpr fun e he => ?_)
    obtain ⟨_, _, _, _, _, _, _, heq⟩ := Pending.mem_flatMap_uses.mp he
    rw [heq]
    simp
  have hperm := Ledger.declarationsIn_perm h.entries_perm symbol
  rwa [Ledger.declarationsIn_append, huses, List.append_nil] at hperm

theorem length_references (h : x.Ends) (symbol : Symbol) :
    (Ledger.referencesIn stream.draft.entries symbol).length =
      Ledger.usesIn stream.draft.entries symbol + (x.declarations symbol).length := by
  rw [Ledger.length_referencesIn, (h.declarationsIn_perm symbol).length_eq]

/-- A declaration that was entered is a reference. -/
theorem mem_references (h : x.Ends) (symbol : Symbol) {site : Site}
    (hsite : site ∈ x.declarations symbol) :
    site ∈ Ledger.referencesIn stream.draft.entries symbol :=
  Ledger.declarationsIn_subset _ _ ((h.declarationsIn_perm symbol).mem_iff.mpr hsite)

theorem titles (h : x.Ends) : x.Titles :=
  Titles.turns (fun _ hm => absurd hm List.not_mem_nil) h.turns

/-- The headers of a name are those that are one of the procedure of that name. -/
theorem headersOf_eq (h : x.Ends) {index : Nat} {p : Procedure}
    (hp : stream.draft.table.procs[index]? = some p) :
    x.headersOf (stream.draft.table.strings.lookup p.name) =
      x.headers.countP fun m => m.verdict.named? == some index := by
  obtain ⟨c, hc⟩ := stream.completes
  obtain ⟨text, htext⟩ := hc.sound.procs_named p (List.mem_of_getElem? hp)
  have hbinds : stream.draft.table.Binds text (.proc index) :=
    ⟨_, _, p.declared, by simp [SymbolTable.declaration?, hp, Procedure.label], htext⟩
  have hlookup := hc.sound.lookupGlobal_of_binds hbinds fun _ _ => by simp
  rw [Pool.lookup_of_find? htext]
  refine List.countP_congr fun m hm => ?_
  simp only [Bool.and_eq_true, beq_iff_eq, Option.isSome_iff_exists]
  constructor
  · rintro ⟨rfl, other, hother⟩
    have hown := h.titles m hm other hother
    rw [← h.leaves.table] at hown
    rw [hc.sound.lookupGlobal_of_binds hown fun _ _ => by simp] at hlookup
    cases hlookup
    exact hother
  · intro hnamed
    have hown := h.titles m hm index hnamed
    rw [← h.leaves.table] at hown
    exact ⟨hown.nameOf.symm.trans hbinds.nameOf, index, hnamed⟩

end Ends

/-! ## Parameters and locals -/

variable {index : Nat} {params : List Param} {opened : SymbolTable} {name : String} {k : Nat}

/-- A parameter with the name of a local is that local. -/
theorem Opens.eq_of_name (h : x.Opens index params opened) {known : Position → Prop}
    (hs : x.table.Sound known) (hk : x.table.Binds name (.inner (.proc index) k)) {p : Param}
    (hp : p ∈ params) (hname : p.name = name) :
    opened.lookupLocal (.proc index) p.name = some (.inner (.proc index) k) := by
  rcases h.lists.named p hp with hnul | ⟨i, hi⟩
  · exact absurd (hname ▸ hnul) hk.clean
  · obtain ⟨found, hfound⟩ := hi.lookupLocal
    obtain ⟨hbinds, j, rfl⟩ := SymbolTable.binds_of_lookupLocal hfound
    have hlater := (hbinds.grows h.grows fun _ _ heq => by cases heq; rfl).1
    have hlookup := hs.lookupLocal_of_binds (hname ▸ hlater)
    rw [hs.lookupLocal_of_binds hk] at hlookup
    cases hlookup
    exact hfound

/-- What is entered for a local: a parameter as often as it is written at its place,
any other local once. -/
theorem Opens.declarations (h : x.Opens index params opened) {known : Position → Prop}
    (hs : x.table.Sound known) (hk : x.table.Binds name (.inner (.proc index) k))
    {pos : Position} (hpos : x.table.siteOf? (.inner (.proc index) k) = some pos) :
    x.declarations (.inner (.proc index) k) =
      List.replicate (max 1 (params.countP fun p => p.name = name ∧ p.pos = pos)) pos.site := by
  cases hopened : opened.siteOf? (.inner (.proc index) k) with
  | none =>
      have hnone : params.countP (fun p => p.name = name ∧ p.pos = pos) = 0 := by
        refine List.countP_eq_zero.mpr fun p hp htest => ?_
        have hfound := h.eq_of_name hs hk hp (of_decide_eq_true htest).1
        obtain ⟨site, hsite⟩ := (SymbolTable.binds_of_lookupLocal hfound).1.placed
        rw [hopened] at hsite
        cases hsite
      rw [h.behind k pos hopened hpos, hnone]
      rfl
  | some site =>
      obtain rfl : site = pos := by
        have hlater := h.grows.siteOf?_inner rfl hopened
        rw [hpos] at hlater
        exact (Option.some.inj hlater).symm
      have hnames : ∀ p ∈ params, Names opened (.proc index) (.inner (.proc index) k) p ↔
          p.name = name ∧ p.pos = site := by
        intro p hp
        unfold Names
        rw [hopened]
        constructor
        · rintro ⟨hfound, hsite⟩
          have hbinds := (SymbolTable.binds_of_lookupLocal hfound).1
          have hlater := (hbinds.grows h.grows fun _ _ heq => by cases heq; rfl).1
          exact ⟨hlater.nameOf.symm.trans hk.nameOf, (Option.some.inj hsite).symm⟩
        · rintro ⟨hname, hsite⟩
          exact ⟨h.eq_of_name hs hk hp hname, congrArg some hsite.symm⟩
      have hfilter : params.filter (Names opened (.proc index) (.inner (.proc index) k) ·) =
          params.filter fun p => p.name = name ∧ p.pos = site :=
        List.filter_congr fun p hp => decide_eq_decide.mpr (hnames p hp)
      -- The parameter that was declared is one of those that are written there.
      have hpositive : 0 < params.countP fun p => p.name = name ∧ p.pos = site := by
        obtain ⟨p, hp, hbinds, hsite⟩ := h.lists.origin k site hopened
        have hlater := (hbinds.grows h.grows fun _ _ heq => by cases heq; rfl).1
        refine List.countP_pos_iff.mpr ⟨p, hp, decide_eq_true ⟨?_, hsite⟩⟩
        exact hlater.nameOf.symm.trans hk.nameOf
      rw [h.param k site hopened, hfilter, Nat.max_eq_right hpositive, List.countP_eq_length_filter]
      refine List.eq_replicate_iff.mpr ⟨List.length_map _, fun entry hentry => ?_⟩
      obtain ⟨p, hp, rfl⟩ := List.mem_map.mp hentry
      rw [(of_decide_eq_true (List.mem_filter.mp hp).2).2]

/-- Nothing is entered in a scope that never gets its body, not even at the end. -/
theorem Concludes.not_entered (h : x.Concludes) {scope : ScopeId} {p : Procedure}
    (hp : stream.draft.table.scope? scope = some p) (hd : p.defined = false) (i : Nat) :
    ∀ e ∈ stream.draft.entries, e.symbol ≠ .inner scope i := by
  intro e he hsymbol
  have hunsettled : ¬x.config.Settled scope := by
    rintro ⟨q, hq, hopen | hdefined⟩
    · rw [show x.config.scope = x.scope from rfl, h.scope] at hopen
      cases hopen
    · have hsame : stream.draft.table.scope? scope = some q := by
        rw [h.leaves.table]
        exact hq
      rw [hp] at hsame
      rw [← Option.some.inj hsame, hd] at hdefined
      cases hdefined
  rcases List.mem_append.mp (h.ends.entries_perm.mem_iff.mp he) with hledger | hpending
  · exact hunsettled ((h.ends.accounts.entered e hledger).scope scope i hsymbol)
  · obtain ⟨name, context, pos, symbol, hwaits, hl, _, heq⟩ :=
      Pending.mem_flatMap_uses.mp hpending
    obtain rfl : symbol = .inner scope i := by
      rw [heq] at hsymbol
      exact hsymbol
    obtain ⟨r, m, hr, hm, _, _, hcontext⟩ := h.ends.accounts.waiting _ _ _ _ hwaits
    have hfits : context = some scope := (SymbolTable.offers_of_lookup hl).1
    have hdeclares := (Declares.start stream).passes (.start stream) h.passes
    exact hunsettled (hdeclares.mentioned r (List.mem_of_getElem? hr) m scope hm
      (hcontext.trans hfits))

end Journal

/-- For every stream of tokens the parser's run has a journal that leaves no
parameter out, and in every such journal the references of the module that are not
uses are its declarations. -/
theorem TokenStream.parse_citesDeclarations (stream : TokenStream) :
    (∃ x : Journal stream, x.Concludes) ∧
      ∀ x : Journal stream, x.Concludes → stream.parse.module.CitesDeclarations x := by
  refine ⟨stream.concluded, fun x hx => ?_⟩
  have hends := hx.ends
  have hdeclares := (Journal.Declares.start stream).passes (.start stream) hx.passes
  have htable : x.table = stream.draft.table := hends.leaves.table.symm
  constructor
  · intro i v hv
    obtain ⟨w, hw, rfl⟩ := Draft.finish_var hv
    have hentered := hdeclares.vars i w.declared (by rw [htable]; simp [SymbolTable.siteOf?, hw])
    constructor
    · refine hends.mem_references (.global i) ?_
      rw [hentered]
      exact List.mem_singleton_self _
    · exact (hends.length_references (.global i)).trans (by rw [hentered]; rfl)
  · intro i p hp
    obtain ⟨q, hq⟩ := Draft.finished hp
    rw [hq.references, hq.uses, hends.length_references, hdeclares.procs, hq.name]
    exact congrArg _ (hends.headersOf_eq hq.there).symm
  · intro i p k v hp hd hv
    obtain ⟨q, hq⟩ := Draft.finished hp
    rw [hq.locals, List.getElem?_mapIdx] at hv
    obtain ⟨w, hw, rfl⟩ := Option.map_eq_some_iff.mp hv
    obtain ⟨c, hc⟩ := stream.completes
    have hscope : x.table.scope? (.proc i) = some q := htable ▸ hq.there
    have hsettled : x.config.Settled (.proc i) := ⟨q, hscope, .inr (hq.defined ▸ hd)⟩
    obtain ⟨opened, hopens⟩ := hdeclares.opened i hsettled
    obtain ⟨text, htext⟩ := (hc.sound.scopes hq.there).names w (List.mem_of_getElem? hw)
    have hbinds : x.table.Binds text (.inner (.proc i) k) :=
      ⟨q.namelist, w.name, w.declared, by
        simp [SymbolTable.declaration?, hscope, hw, Variable.label], htext⟩
    have hsite : x.table.siteOf? (.inner (.proc i) k) = some w.declared := by
      simp [SymbolTable.siteOf?, hscope, hw]
    have hentered := hopens.declarations (htable ▸ hc.sound) hbinds hsite
    have hname : p.namelist.lookup w.name = text := by
      rw [hq.namelist, Pool.lookup_of_find? htext]
    constructor
    · refine hends.mem_references (.inner (.proc i) k) ?_
      rw [hentered]
      exact List.mem_replicate.mpr ⟨by omega, rfl⟩
    · refine (hends.length_references (.inner (.proc i) k)).trans ?_
      rw [hentered, List.length_replicate]
      show _ = _ + max 1 (x.timesWritten i (p.namelist.lookup w.name) w.declared)
      rw [hname]
      rfl
  · intro i p k v hp hd hv
    obtain ⟨q, hq⟩ := Draft.finished hp
    rw [hq.locals, List.getElem?_mapIdx] at hv
    obtain ⟨w, hw, rfl⟩ := Option.map_eq_some_iff.mp hv
    have hnone := hx.not_entered hq.there (hq.defined ▸ hd) k
    constructor
    · refine List.map_eq_nil_iff.mpr (List.filter_eq_nil_iff.mpr fun e he => ?_)
      simpa using hnone e he
    · refine List.countP_eq_zero.mpr fun e he => ?_
      simp [hnone e he]

/-- A procedure that is announced with a parameter, and never defined. -/
def TokenStream.announcing : TokenStream :=
  .ofString .none .default "procedure p(a);" ⟨"test.ssl"⟩

/-- The parameter has no reference at all, though it is declared. -/
theorem TokenStream.announcing_uncited :
    ∃ p ∈ announcing.parse.module.procs, ∃ v ∈ p.locals,
      v.declared.site ∉ v.references ∧ v.references.length ≠ v.uses + 1 := by
  decide +kernel

theorem TokenStream.parse_citesDeclarations_announcing :
    ∃ x : Journal announcing, x.Concludes ∧ announcing.parse.module.CitesDeclarations x := by
  obtain ⟨⟨x, hx⟩, hall⟩ := announcing.parse_citesDeclarations
  exact ⟨x, hx, hall x hx⟩

end SslFrontend
