import SslFrontend.Include.Splice
import SslFrontend.Proofs.Journal.Run
import SslFrontend.Proofs.Journal.Settled
import SslFrontend.Proofs.Run.Resolution
import SslFrontend.Proofs.Symbol.Linkage

/-! # Imported procedures

As headers are merged, a procedure is imported or its linkage is blamed as soon
as a header imports it, and blamed when it gets a body.  So a procedure that has
a body and is imported got the import from a header behind the body.

A procedure that is imported has its body in another script.  That a header
imports a procedure is held against its body when the body is read: an import
that stands before the body, or in its header, is always reported.  Nothing is
reported of an import behind the body, and it is the only way for a procedure to
be imported and to have a body.  Main statement:
`TokenStream.parse_checksImports`, for every stream and every journal of its run.
-/

namespace SslFrontend

/-! ## Linkage along a journal -/

section

variable {stream : TokenStream} {x y : Journal stream}

/-- Behind the header that defines a procedure is one that imports it. -/
def ImportedLate (headers : List Merged) (index : Nat) : Prop :=
  ∃ earlier d later, headers = earlier ++ d :: later ∧ d.verdict = .define index ∧
    ∃ m ∈ later, m.verdict = .announce index ∧ m.header.modifiers.imported = true

theorem ImportedLate.concat {headers : List Merged} {index : Nat}
    (h : ImportedLate headers index) (m : Merged) : ImportedLate (headers ++ [m]) index := by
  obtain ⟨earlier, d, later, rfl, hd, late, hlate, hrest⟩ := h
  exact ⟨earlier, d, later ++ [m], by simp, hd, late, List.mem_append_left _ hlate, hrest⟩

/-- A header behind the one that defines a procedure imports it. -/
theorem ImportedLate.made {headers : List Merged} {index : Nat} {m : Merged}
    (hd : ∃ d ∈ headers, d.verdict = .define index) (hm : m.verdict = .announce index)
    (himported : m.header.modifiers.imported = true) :
    ImportedLate (headers ++ [m]) index := by
  obtain ⟨d, hmem, hdefines⟩ := hd
  obtain ⟨earlier, later, rfl⟩ := List.append_of_mem hmem
  exact ⟨earlier, d, later ++ [m], by simp, hdefines, m, by simp, hm, himported⟩

namespace Journal

/-- An error about the linkage of a procedure was reported at one of its headers. -/
def BlamesLinkage (x : Journal stream) (index : Nat) : Prop :=
  ∃ m ∈ x.headers, m.verdict.Accepts index ∧ m.header.BlamedIn x.state.problems.items

/-- A procedure whose body was read. -/
def DefinedAt (x : Journal stream) (index : Nat) : Prop :=
  ∃ l, x.table.linkage? index = some l ∧ l.defined = true

/-- What is known of the headers and the linkage of procedures. -/
structure Linked (x : Journal stream) : Prop where
  named : ∀ m ∈ x.headers, ∀ index, m.verdict.Accepts index →
    x.table.Binds m.header.name (.proc index)
  imported : ∀ m ∈ x.headers, ∀ index, m.verdict.Accepts index → m.header.imports = true →
    x.table.ImportedAt index ∨ x.BlamesLinkage index
  defined : ∀ index, x.scope = some (.proc index) ∨ x.DefinedAt index →
    ∃ d ∈ x.headers, d.verdict = .define index
  /-- An import up to the body is blamed. -/
  before : ∀ earlier d later index, x.headers = earlier ++ d :: later →
    d.verdict = .define index → ∀ m ∈ earlier ++ [d], m.verdict.Accepts index →
    m.header.imports = true → x.BlamesLinkage index
  /-- An import that stays is from a header behind the body. -/
  after : ∀ index, x.table.ImportedAt index → (∃ d ∈ x.headers, d.verdict = .define index) →
    ImportedLate x.headers index

theorem merge_headers {header : Header} {number : Nat} : (x.merge header number).headers =
    x.headers ++ [⟨header, number, (x.table.declare header).verdict⟩] := rfl

theorem BlamesLinkage.later {index : Nat} (h : x.BlamesLinkage index)
    (hheaders : x.headers ⊆ y.headers)
    (hproblems : x.state.problems.items ⊆ y.state.problems.items) : y.BlamesLinkage index := by
  obtain ⟨m, hm, haccepts, hblamed⟩ := h
  exact ⟨m, hheaders hm, haccepts, hblamed.subset hproblems⟩

namespace Linked

theorem start (stream : TokenStream) : (Journal.start stream).Linked where
  named _ hm := absurd hm List.not_mem_nil
  imported _ hm := absurd hm List.not_mem_nil
  defined index h := by
    rcases h with hscope | ⟨l, hl, _⟩
    · cases hscope
    · cases hl
  before earlier d later index hheaders := by simp [Journal.start] at hheaders
  after index himported := by
    obtain ⟨l, hl, _⟩ := himported
    cases hl

/-- A turn that merges no header. -/
theorem quiet (h : x.Linked) (hxy : Turn x y) (hheaders : y.headers = x.headers)
    (himported : ∀ index, y.table.ImportedAt index ↔ x.table.ImportedAt index)
    (hdefined : ∀ index, y.scope = some (.proc index) ∨ y.DefinedAt index →
      x.scope = some (.proc index) ∨ x.DefinedAt index) : y.Linked := by
  have hblames : ∀ {index}, x.BlamesLinkage index → y.BlamesLinkage index := fun hb =>
    hb.later (hheaders ▸ List.Subset.refl _) hxy.extends.problems.subset
  constructor
  · rw [hheaders]
    intro m hm index haccepts
    exact ((h.named m hm index haccepts).grows hxy.extends.table fun _ _ => nofun).1
  · rw [hheaders]
    intro m hm index haccepts himports
    rw [himported]
    exact (h.imported m hm index haccepts himports).imp_right hblames
  · rw [hheaders]
    exact fun index hindex => h.defined index (hdefined index hindex)
  · rw [hheaders]
    exact fun earlier d later index heq hd m hm haccepts himports =>
      hblames (h.before earlier d later index heq hd m hm haccepts himports)
  · rw [hheaders]
    exact fun index himport => h.after index ((himported index).mp himport)

/-! ### Merging a header -/

section Merging

variable {header : Header} {number : Nat}

/-- A header is one of those before or the one that is merged. -/
theorem mem_merge {m : Merged} (hm : m ∈ (x.merge header number).headers) :
    m ∈ x.headers ∨ m = ⟨header, number, (x.table.declare header).verdict⟩ := by
  rw [merge_headers] at hm
  exact (List.mem_append.mp hm).imp_right List.mem_singleton.mp

theorem blames_merged {index : Nat} (haccepts : (x.table.declare header).verdict.Accepts index)
    (hblamed : header.BlamedIn (x.table.declare header).problems) :
    (x.merge header number).BlamesLinkage index := by
  refine ⟨⟨header, number, _⟩, ?_, haccepts, hblamed.subset ?_⟩
  · rw [merge_headers]
    exact List.mem_append_right _ List.mem_cons_self
  · rw [merge_state]
    exact List.subset_append_right _ _

theorem blames_merge {index : Nat} (h : x.BlamesLinkage index) :
    (x.merge header number).BlamesLinkage index := by
  refine h.later ?_ ?_
  · rw [merge_headers]
    exact List.subset_append_left _ _
  · rw [merge_state]
    exact List.subset_append_left _ _

theorem merge_table : (x.merge header number).table = (x.table.declare header).table := by
  rw [Journal.table, merge_state]

theorem merge_named (h : x.Linked) (hxy : Turn x (x.merge header number)) {m : Merged}
    (hm : m ∈ (x.merge header number).headers) {index : Nat} (haccepts : m.verdict.Accepts index) :
    (x.merge header number).table.Binds m.header.name (.proc index) := by
  rcases mem_merge hm with hold | rfl
  · exact ((h.named m hold index haccepts).grows hxy.extends.table fun _ _ => nofun).1
  · have hnamed : (x.table.declare header).verdict.named? = some index := by
      rcases haccepts with hdefine | hannounce
      · exact congrArg Verdict.named? hdefine
      · exact congrArg Verdict.named? hannounce
    rw [merge_table]
    exact SymbolTable.binds_of_declare hnamed

theorem merge_imported (h : x.Linked) {m : Merged} (hm : m ∈ (x.merge header number).headers)
    {index : Nat} (haccepts : m.verdict.Accepts index) (himports : m.header.imports = true) :
    (x.merge header number).table.ImportedAt index ∨
      (x.merge header number).BlamesLinkage index := by
  have hlinks := x.table.declare_links header
  have hbefore : m ∈ x.headers → x.table.ImportedAt index ∨ x.BlamesLinkage index :=
    fun hold => h.imported m hold index haccepts himports
  rw [merge_table]
  by_cases ha : (x.table.declare header).verdict.Accepts index
  · obtain ⟨linkage, hjoins⟩ := hlinks.joins ha
    have hadds : header.imports = true ∨ x.table.ImportedAt index ∨ x.BlamesLinkage index := by
      rcases mem_merge hm with hold | rfl
      · exact .inr (hbefore hold)
      · exact .inl himports
    rcases or_assoc.mpr hadds with hown | hblamed
    · exact (hjoins.adds hown).imp (⟨linkage, hjoins.own, ·⟩) (blames_merged ha)
    · exact .inr (blames_merge hblamed)
  · rcases mem_merge hm with hold | rfl
    · exact (hbefore hold).imp (SymbolTable.importedAt_congr (hlinks.apart ha)).mpr blames_merge
    · exact absurd haccepts ha

theorem define_of_merge_scope {index : Nat}
    (h : (x.merge header number).scope = some (.proc index)) :
    (x.table.declare header).verdict = .define index := by
  unfold Journal.merge at h
  cases hv : (x.table.declare header).verdict with
  | define other =>
      simp only [hv] at h
      cases h
      rfl
  | announce other => simp [hv] at h
  | reject named => simp [hv] at h

theorem merge_defined (h : x.Linked) {index : Nat}
    (hindex : (x.merge header number).scope = some (.proc index) ∨
      (x.merge header number).DefinedAt index) :
    ∃ d ∈ (x.merge header number).headers, d.verdict = .define index := by
  have hlinks := x.table.declare_links header
  by_cases hd : (x.table.declare header).verdict = .define index
  · exact ⟨_, List.mem_append_right _ List.mem_cons_self, hd⟩
  · suffices hold : x.DefinedAt index by
      obtain ⟨d, hmem, hdefine⟩ := h.defined index (.inr hold)
      exact ⟨d, List.mem_append_left _ hmem, hdefine⟩
    rcases hindex with hscope | ⟨l, hl, hdefined⟩
    · exact absurd (define_of_merge_scope hscope) hd
    · rw [merge_table] at hl
      by_cases ha : (x.table.declare header).verdict.Accepts index
      · obtain ⟨linkage, hjoins⟩ := hlinks.joins ha
        rw [hjoins.own] at hl
        obtain rfl := Option.some.inj hl
        exact hjoins.kept hdefined
      · exact ⟨l, (hlinks.apart ha) ▸ hl, hdefined⟩

/-- A header behind others is one of them, or the last one. -/
theorem concat_eq_split {headers earlier later : List Merged} {m d : Merged}
    (h : headers ++ [m] = earlier ++ d :: later) :
    (∃ between, later = between ++ [m] ∧ headers = earlier ++ d :: between) ∨
      (headers = earlier ∧ d = m) := by
  rcases List.eq_nil_or_concat later with rfl | ⟨between, last, rfl⟩
  · obtain ⟨hheaders, hlast⟩ := List.append_inj' h rfl
    exact .inr ⟨hheaders, (List.cons.inj hlast).1.symm⟩
  · rw [List.concat_eq_append] at h ⊢
    rw [← List.cons_append, ← List.append_assoc] at h
    obtain ⟨hheaders, hlast⟩ := List.append_inj' h rfl
    exact .inl ⟨between, by rw [(List.cons.inj hlast).1], hheaders⟩

theorem merge_before (h : x.Linked) {earlier later : List Merged} {d m : Merged} {index : Nat}
    (hheaders : (x.merge header number).headers = earlier ++ d :: later)
    (hd : d.verdict = .define index) (hm : m ∈ earlier ++ [d])
    (haccepts : m.verdict.Accepts index) (himports : m.header.imports = true) :
    (x.merge header number).BlamesLinkage index := by
  rw [merge_headers] at hheaders
  rcases concat_eq_split hheaders with ⟨between, _, hold⟩ | ⟨rfl, rfl⟩
  · exact blames_merge (h.before earlier d between index hold hd m hm haccepts himports)
  · -- The body itself: it never leaves the procedure imported.
    obtain ⟨linkage, hjoins⟩ := (x.table.declare_links header).joins (.inl hd)
    rcases merge_imported h hm haccepts himports with ⟨l, hl, himported⟩ | hblamed
    · rw [merge_table, hjoins.own] at hl
      obtain rfl := Option.some.inj hl
      rw [hjoins.body hd] at himported
      cases himported
    · exact hblamed

theorem merge_after (h : x.Linked) {index : Nat}
    (himported : (x.merge header number).table.ImportedAt index)
    (hd : ∃ d ∈ (x.merge header number).headers, d.verdict = .define index) :
    ImportedLate (x.merge header number).headers index := by
  have hlinks := x.table.declare_links header
  obtain ⟨d, hmem, hdefine⟩ := hd
  rw [merge_table] at himported
  by_cases ha : (x.table.declare header).verdict.Accepts index
  · obtain ⟨linkage, hjoins⟩ := hlinks.joins ha
    obtain ⟨l, hl, himport⟩ := himported
    rw [hjoins.own] at hl
    obtain rfl := Option.some.inj hl
    have hbody : (x.table.declare header).verdict ≠ .define index := by
      intro hbody
      rw [hjoins.body hbody] at himport
      cases himport
    have hold : ∃ d ∈ x.headers, d.verdict = .define index := by
      rcases mem_merge hmem with hold | rfl
      · exact ⟨d, hold, hdefine⟩
      · exact absurd hdefine hbody
    rcases hjoins.only himport with hown | hbefore
    · exact .made hold (ha.resolve_left hbody) hown
    · exact (h.after index hbefore hold).concat _
  · rcases mem_merge hmem with hold | rfl
    · have hbefore := (SymbolTable.importedAt_congr (hlinks.apart ha)).mp himported
      exact (h.after index hbefore ⟨d, hold, hdefine⟩).concat _
    · exact absurd (.inl hdefine) ha

end Merging

theorem inner (h : x.Linked) (hxy : InnerTurn x y) : y.Linked := by
  have hlinkage := fun index => hxy.shells.linkage? index
  refine h.quiet (.inner hxy) hxy.headers_eq
    (fun index => SymbolTable.importedAt_congr (hlinkage index)) fun index => ?_
  rw [hxy.scope_eq, DefinedAt, hlinkage]
  exact id

theorem turn (h : x.Linked) (hxy : Turn x y) : y.Linked := by
  have hturn := hxy
  cases hxy with
  | inner hxy => exact h.inner hxy
  | merge header hx held =>
      exact ⟨fun _ hm _ => h.merge_named hturn hm, fun _ hm _ => h.merge_imported hm,
        fun _ => h.merge_defined, fun _ _ _ _ heq hd _ => h.merge_before heq hd,
        fun _ => h.merge_after⟩
  | param hx held found => exact h.quiet hturn rfl (fun _ => .rfl) fun _ => id
  | discard header hx declared =>
      have hlinkage := fun index => SymbolTable.declareDiscarded_linkage? declared index
      refine h.quiet hturn rfl (fun index => SymbolTable.importedAt_congr (hlinkage index).2) ?_
      rintro index (hscope | ⟨l, hl, hdefined⟩)
      · exact absurd (Option.some.inj hscope) (hlinkage index).1
      · exact .inr ⟨l, (hlinkage index).2 ▸ hl, hdefined⟩
  | @attach scope code first last hx =>
      have hlinkage := SymbolTable.linkage?_withBody (t := x.table) scope
        (·.withBody code first last) fun _ => rfl
      refine h.quiet hturn rfl (fun index => ?_) ?_
      · show (x.table.modifyScope scope _).ImportedAt index ↔ _
        unfold SymbolTable.ImportedAt
        rw [hlinkage]
        split
        · simp
        · exact .rfl
      · rintro index (hscope | ⟨l, hl, hdefined⟩)
        · cases hscope
        · have hl : (x.table.modifyScope scope _).linkage? index = some l := hl
          rw [hlinkage] at hl
          split at hl
          · rename_i hown
            exact .inl (hown ▸ hx)
          · exact .inr ⟨l, hl, hdefined⟩

theorem turns (h : x.Linked) (hs : Turns x y) : y.Linked := by
  induction hs with
  | refl => exact h
  | tail _ hstep ih => exact ih.turn hstep

end Linked

end Journal

end


variable {stream : TokenStream} {x : Journal stream}

/-- How imports and bodies of procedures meet in a parsed stream. -/
structure Journal.ChecksImports (x : Journal stream) (parsed : Parsed) : Prop where
  /-- Where a header that defines a procedure has an import, or stands behind a
  header of the name that has one, an error is reported at a header of the name. -/
  reported : ∀ earlier d later index, x.headers = earlier ++ d :: later →
    d.verdict = .define index → ∀ m ∈ earlier ++ [d], (∃ i, m.verdict.Accepts i) →
    m.header.name = d.header.name → m.header.imports = true →
    ∃ blamed ∈ x.headers, (∃ i, blamed.verdict.Accepts i) ∧
      blamed.header.name = d.header.name ∧ blamed.header.BlamedIn parsed.diagnostics
  /-- What is imported and defined was imported behind its body. -/
  late : ∀ index p, parsed.module.procs[index]? = some p → p.defined = true →
    p.modifiers.imported = true → ImportedLate x.headers index

namespace Journal.Ends

theorem linked (h : x.Ends) : x.Linked := (Linked.start stream).turns h.turns

/-- Accepted headers belong to the same procedure if they have the same name. -/
theorem name_eq_iff (h : x.Ends) {m d : Merged} (hm : m ∈ x.headers) (hd : d ∈ x.headers)
    {i j : Nat} (hi : m.verdict.Accepts i) (hj : d.verdict.Accepts j) :
    m.header.name = d.header.name ↔ i = j := by
  have hmb := h.linked.named m hm i hi
  have hdb := h.linked.named d hd j hj
  constructor
  · intro hname
    obtain ⟨c, hc⟩ := stream.completes
    rw [hname] at hmb
    rw [← h.leaves.table] at hmb hdb
    have hlookup := hc.sound.lookupGlobal_of_binds hmb fun _ _ => nofun
    rw [hc.sound.lookupGlobal_of_binds hdb fun _ _ => nofun] at hlookup
    cases hlookup
    rfl
  · rintro rfl
    exact hmb.nameOf.symm.trans hdb.nameOf

/-- The modifiers of a procedure that has a body are those of the draft. -/
theorem linkage?_of_defined (h : x.Ends) {index : Nat} {p : Procedure}
    (hp : stream.parse.module.procs[index]? = some p) (hd : p.defined = true) :
    x.table.linkage? index = some p.linkage := by
  obtain ⟨q, hq, rfl⟩ := Draft.finish_proc hp
  have hdefined : q.defined = true := by
    rw [SymbolTable.closeProcedure_eq] at hd
    exact hd
  have hclosed : SymbolTable.closeProcedure q = q := by
    unfold SymbolTable.closeProcedure
    rw [if_pos hdefined]
  rw [hclosed, ← h.leaves.table, SymbolTable.linkage?, hq]
  rfl

end Journal.Ends

/-- For every stream of tokens the parser's run has a journal, and in every such
journal imports up to a body are reported, and no other imports stay. -/
theorem TokenStream.parse_checksImports (stream : TokenStream) :
    (∃ x : Journal stream, x.Ends) ∧
      ∀ x : Journal stream, x.Ends → x.ChecksImports stream.parse := by
  refine ⟨stream.journaled, fun x hx => ⟨?_, ?_⟩⟩
  · intro earlier d later index hheaders hd m hm ⟨i, hi⟩ hname himports
    have hmem : m ∈ x.headers := by
      rw [hheaders]
      rcases List.mem_append.mp hm with hold | hown
      · exact List.mem_append_left _ hold
      · rw [List.mem_singleton.mp hown]
        exact List.mem_append_right _ List.mem_cons_self
    have hdmem : d ∈ x.headers := by
      rw [hheaders]
      exact List.mem_append_right _ List.mem_cons_self
    obtain rfl := (hx.name_eq_iff hmem hdmem hi (.inl hd)).mp hname
    obtain ⟨blamed, hblamed, haccepts, hreported⟩ :=
      hx.linked.before earlier d later i hheaders hd m hm hi himports
    refine ⟨blamed, hblamed, ⟨i, haccepts⟩,
      (hx.name_eq_iff hblamed hdmem haccepts (.inl hd)).mpr rfl, hreported.subset ?_⟩
    exact fun e he => Draft.mem_diagnostics.mpr (.inl (hx.leaves.problems.subset he))
  · intro index p hp hd himported
    have hlinkage := hx.linkage?_of_defined hp hd
    refine hx.linked.after index ⟨_, hlinkage, himported⟩ ?_
    exact hx.linked.defined index (.inr ⟨_, hlinkage, hd⟩)

/-- A procedure that is imported behind its body. -/
def TokenStream.importedLate : TokenStream :=
  .ofString .none .default "procedure p begin end import procedure p;" ⟨"test.ssl"⟩

/-- Its parse, computed: the procedure is there, and no list of problems holds one. -/
theorem TokenStream.importedLate_computed :
    (∃ p ∈ importedLate.parse.module.procs, p.modifiers.imported = true ∧ p.defined = true) ∧
      importedLate.draft.problems.items ++
        (importedLate.draft.table.checkDefinitions.2 ++
          importedLate.draft.pending.problems importedLate.draft.closed ++
          importedLate.draft.resolved.allUseProblems
            (importedLate.draft.main.resolved importedLate.draft.found)) = [] := by
  decide +kernel

/-- The procedure is imported and has a body, and nothing is reported. -/
theorem TokenStream.importedLate_unreported :
    (∃ p ∈ importedLate.parse.module.procs, p.modifiers.imported = true ∧ p.defined = true) ∧
      importedLate.parse.diagnostics = [] := by
  obtain ⟨hdefined, hnone⟩ := importedLate_computed
  refine ⟨hdefined, ?_⟩
  unfold parse
  rw [Draft.finish_diagnostics, hnone]
  exact Queue.sorted_of_pairwise .nil

theorem TokenStream.parse_checksImports_importedLate :
    (∃ p ∈ importedLate.parse.module.procs, p.modifiers.imported = true ∧ p.defined = true) ∧
      ∃ x : Journal importedLate, x.Ends ∧ x.ChecksImports importedLate.parse := by
  obtain ⟨⟨x, hx⟩, hall⟩ := importedLate.parse_checksImports
  exact ⟨importedLate_computed.1, x, hx, hall x hx⟩

end SslFrontend
