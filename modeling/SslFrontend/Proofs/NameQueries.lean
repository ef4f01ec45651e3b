import SslFrontend.Proofs.Closed
import SslFrontend.Proofs.PoolContents
import SslFrontend.Unit.Basic

/-! # Queries by name

A host asks for the name at an index and for the index of a name.  The names it hands
over are texts, those of the records are handles of a pool that also holds string
literals, and each procedure has a pool of its own for its locals.  Where a pool lists
the names of some records, each once, an index is found for a text just when the text
is the name there (`Pool.Lists.find_iff`); a parsed module has its names listed so, and
each mention in a file that it knows.

Main statement: `TokenStream.queries_invert`.
-/

namespace SslFrontend

/-- The record at an index has the name just when the index is found for it. -/
theorem Pool.Lists.find_iff {α : Type} {pool : Pool} {label : α → Handle} {records : List α}
    (h : pool.Lists (records.map label)) {text : String} {i : Nat} :
    ((pool.find? text).bind fun handle => records.findIdx? (label · == handle)) = some i ↔
      (records[i]?.map fun record => pool.lookup (label record)) = some text := by
  constructor
  · intro hfind
    obtain ⟨handle, hhandle, hindex⟩ := Option.bind_eq_some_iff.mp hfind
    obtain ⟨record, hrecord, rfl⟩ := SymbolTable.getElem?_of_findIdx? hindex
    rw [hrecord, Option.map_some, lookup_of_find? hhandle]
  · intro hname
    obtain ⟨record, hrecord, rfl⟩ := Option.map_eq_some_iff.mp hname
    have hmem := List.mem_map_of_mem (f := label) (List.mem_of_getElem? hrecord)
    obtain ⟨text, htext⟩ := h.found _ hmem
    rw [lookup_of_find? htext, htext]
    exact SymbolTable.findIdx?_of_nodup h.distinct hrecord

namespace Module

/-- What is told about some mentions: one entry for each, with its line and the path of
its file, which is one of the unit. -/
structure Locates (m : Module) (sites : List Site) (told : List CrossReference) : Prop where
  length : told.length = sites.length
  each : ∀ (k : Nat) (site : Site), sites[k]? = some site → ∃ path ∈ m.files.paths,
    m.files.path? site.file = some path ∧ told[k]? = some ⟨site.line, path⟩

/-- Queries by index and by name agree. -/
structure Answers (m : Module) (literals : List String) : Prop where
  proc : ∀ i, i < m.procs.length → ∃ name, m.procName? i = some name ∧ m.findProc? name = some i
  var : ∀ i, i < m.vars.length → ∃ name, m.varName? i = some name ∧ m.findVar? name = some i
  inner : ∀ (i : Nat) (p : Procedure), m.procs[i]? = some p → ∀ k, k < p.locals.length →
    ∃ name, m.localName? i k = some name ∧ p.findLocal? name = some k
  /-- No other name is found. -/
  foundProc : ∀ name i, m.findProc? name = some i → m.procName? i = some name
  foundVar : ∀ name i, m.findVar? name = some i → m.varName? i = some name
  foundInner : ∀ (i : Nat) (p : Procedure), m.procs[i]? = some p → ∀ name k,
    p.findLocal? name = some k → m.localName? i k = some name
  apart : ∀ name, m.findProc? name = none ∨ m.findVar? name = none
  /-- A text of the string space that is no name is a literal, and is not found. -/
  literal : ∀ text ∈ m.strings.texts, (∀ i, m.procName? i ≠ some text) →
    (∀ i, m.varName? i ≠ some text) →
    text ∈ literals ∧ m.findProc? text = none ∧ m.findVar? text = none
  procMentions : ∀ (i : Nat) (p : Procedure), m.procs[i]? = some p →
    ∃ told, m.procReferences? i = some told ∧ m.Locates p.references told
  varMentions : ∀ (i : Nat) (v : Variable), m.vars[i]? = some v →
    ∃ told, m.varReferences? i = some told ∧ m.Locates v.references told
  innerMentions : ∀ (i k : Nat) (v : Variable), m.local? i k = some v →
    ∃ told, m.localReferences? i k = some told ∧ m.Locates v.references told

/-- The records of a module have names, each one its own, and the files of their
mentions are known. -/
structure Labelled (m : Module) : Prop where
  globals : m.strings.Lists (m.vars.map Variable.name ++ m.procs.map Procedure.name)
  locals : ∀ p ∈ m.procs, p.namelist.Lists (p.locals.map Variable.name)
  procSites : ∀ p ∈ m.procs, ∀ site ∈ p.references, m.files.Has site.file
  varSites : ∀ v ∈ m.vars, ∀ site ∈ v.references, m.files.Has site.file
  innerSites : ∀ p ∈ m.procs, ∀ v ∈ p.locals, ∀ site ∈ v.references, m.files.Has site.file

theorem locates {m : Module} {sites : List Site} (h : ∀ site ∈ sites, m.files.Has site.file) :
    m.Locates sites (m.crossReferences sites) where
  length := List.length_map _
  each k site hsite := by
    have hhas := h site (List.mem_of_getElem? hsite)
    have hpath : m.files.path? site.file = some m.files.paths[site.file.index] :=
      List.getElem?_eq_getElem hhas
    refine ⟨m.files.paths[site.file.index], List.getElem_mem hhas, hpath, ?_⟩
    rw [crossReferences, List.getElem?_map, hsite, Option.map_some, hpath, Option.getD_some]

namespace Labelled

variable {m : Module}

theorem procs (h : m.Labelled) : m.strings.Lists (m.procs.map Procedure.name) :=
  ⟨fun name hmem => h.globals.found name (List.mem_append_right _ hmem),
    (List.nodup_append.mp h.globals.distinct).2.1⟩

theorem vars (h : m.Labelled) : m.strings.Lists (m.vars.map Variable.name) :=
  ⟨fun name hmem => h.globals.found name (List.mem_append_left _ hmem),
    (List.nodup_append.mp h.globals.distinct).1⟩

theorem findProc_iff (h : m.Labelled) {name : String} {i : Nat} :
    m.findProc? name = some i ↔ m.procName? i = some name :=
  h.procs.find_iff

theorem findVar_iff (h : m.Labelled) {name : String} {i : Nat} :
    m.findVar? name = some i ↔ m.varName? i = some name :=
  h.vars.find_iff

theorem findLocal_iff (h : m.Labelled) {i : Nat} {p : Procedure} (hp : m.procs[i]? = some p)
    {name : String} {k : Nat} : p.findLocal? name = some k ↔ m.localName? i k = some name := by
  rw [localName?, hp, Option.bind_some]
  exact (h.locals p (List.mem_of_getElem? hp)).find_iff

/-- No handle is the name of a variable and of a procedure. -/
theorem apart (h : m.Labelled) (name : String) :
    m.findProc? name = none ∨ m.findVar? name = none := by
  rw [Option.eq_none_iff_forall_ne_some, or_iff_not_imp_left]
  intro hproc
  obtain ⟨i, hi⟩ := not_forall_not.mp hproc
  obtain ⟨handle, hhandle, hindex⟩ := Option.bind_eq_some_iff.mp hi
  obtain ⟨p, hp, hname⟩ := SymbolTable.getElem?_of_findIdx? hindex
  refine Option.eq_none_iff_forall_ne_some.mpr fun j hj => ?_
  obtain ⟨other, hother, hindex⟩ := Option.bind_eq_some_iff.mp hj
  obtain ⟨v, hv, hsame⟩ := SymbolTable.getElem?_of_findIdx? hindex
  obtain rfl : handle = other := Option.some.inj (hhandle.symm.trans hother)
  have hdistinct := (List.nodup_append.mp h.globals.distinct).2.2
  exact hdistinct _ (List.mem_map_of_mem (List.mem_of_getElem? hv)) _
    (List.mem_map_of_mem (List.mem_of_getElem? hp)) (hsame.trans hname.symm)

theorem answers (h : m.Labelled) {literals : List String}
    (hneeded : ∀ text ∈ m.strings.texts, m.Names text ∨ text ∈ literals) : m.Answers literals where
  proc i hi := by
    have hname : m.procName? i = some (m.strings.lookup m.procs[i].name) := by
      rw [procName?, List.getElem?_eq_getElem hi, Option.map_some]
    exact ⟨_, hname, h.findProc_iff.mpr hname⟩
  var i hi := by
    have hname : m.varName? i = some (m.strings.lookup m.vars[i].name) := by
      rw [varName?, List.getElem?_eq_getElem hi, Option.map_some]
    exact ⟨_, hname, h.findVar_iff.mpr hname⟩
  inner i p hp k hk := by
    have hname : m.localName? i k = some (p.namelist.lookup p.locals[k].name) := by
      rw [localName?, hp, Option.bind_some, Procedure.localName?, List.getElem?_eq_getElem hk,
        Option.map_some]
    exact ⟨_, hname, (h.findLocal_iff hp).mpr hname⟩
  foundProc _ _ := h.findProc_iff.mp
  foundVar _ _ := h.findVar_iff.mp
  foundInner i p hp _ _ := (h.findLocal_iff hp).mp
  apart := h.apart
  literal text htext hproc hvar := by
    refine ⟨(hneeded text htext).resolve_left ?_, ?_, ?_⟩
    · rintro (⟨v, hv, hname⟩ | ⟨p, hp, hname⟩)
      · obtain ⟨i, hi⟩ := List.getElem?_of_mem hv
        exact hvar i (by rw [varName?, hi, Option.map_some, Pool.lookup, hname]; rfl)
      · obtain ⟨i, hi⟩ := List.getElem?_of_mem hp
        exact hproc i (by rw [procName?, hi, Option.map_some, Pool.lookup, hname]; rfl)
    · exact Option.eq_none_iff_forall_ne_some.mpr fun i hi => hproc i (h.findProc_iff.mp hi)
    · exact Option.eq_none_iff_forall_ne_some.mpr fun i hi => hvar i (h.findVar_iff.mp hi)
  procMentions i p hp :=
    ⟨m.crossReferences p.references, by rw [procReferences?, hp, Option.map_some],
      locates (h.procSites p (List.mem_of_getElem? hp))⟩
  varMentions i v hv :=
    ⟨m.crossReferences v.references, by rw [varReferences?, hv, Option.map_some],
      locates (h.varSites v (List.mem_of_getElem? hv))⟩
  innerMentions i k v hv := by
    obtain ⟨p, hp, hlocal⟩ := Option.bind_eq_some_iff.mp hv
    exact ⟨m.crossReferences v.references, by rw [localReferences?, hv, Option.map_some],
      locates (h.innerSites p (List.mem_of_getElem? hp) v (List.mem_of_getElem? hlocal))⟩

end Labelled

end Module

/-- Closing a unit changes no name. -/
theorem Draft.finish_globals {draft : Draft} {files : FileTable} :
    (draft.finish files).module.vars.map Variable.name ++
      (draft.finish files).module.procs.map Procedure.name = draft.table.globals := by
  refine congrArg₂ (· ++ ·) (List.ext_getElem? fun i => ?_) (List.ext_getElem? fun i => ?_)
  · show (List.map _ (draft.table.vars.mapIdx fun i v =>
      Ledger.settleVariable draft.entries (.global i) v))[i]? = _
    rw [List.getElem?_map, List.getElem?_mapIdx, List.getElem?_map]
    cases draft.table.vars[i]? <;> rfl
  · rw [List.getElem?_map, List.getElem?_map]
    cases hp : (draft.finish files).module.procs[i]? with
    | none =>
        have hlength := List.getElem?_eq_none_iff.mp hp
        rw [finish_procs_length] at hlength
        rw [List.getElem?_eq_none_iff.mpr hlength]
    | some p =>
        obtain ⟨q, hq⟩ := Draft.finished hp
        have hthere : draft.table.procs[i]? = some q := hq.there
        rw [hthere, Option.map_some, Option.map_some, hq.name]

namespace TokenStream

variable {stream : TokenStream}

theorem labelled (hr : stream.Registered) : stream.parse.module.Labelled := by
  have hkept := stream.draft_kept
  obtain ⟨x, hx⟩ := stream.completes
  have hsites := hx.toEnds.references hr
  refine ⟨Draft.finish_globals ▸ hkept.globals, fun p hp => ?_, fun p hp => ?_, fun v hv => ?_,
    fun p hp v hv => ?_⟩
  · obtain ⟨i, hi⟩ := List.getElem?_of_mem hp
    obtain ⟨q, hq⟩ := Draft.finished hi
    rw [hq.namelist, hq.local_names]
    exact (hkept.scopes (.proc i) q hq.there).names
  · obtain ⟨i, hi⟩ := List.getElem?_of_mem hp
    obtain ⟨q, hq⟩ := Draft.finished hi
    rw [hq.references]
    exact hsites (.proc i)
  · obtain ⟨i, hi⟩ := List.getElem?_of_mem hv
    obtain ⟨w, -, rfl⟩ := Draft.finish_var hi
    exact hsites (.global i)
  · obtain ⟨i, hi⟩ := List.getElem?_of_mem hp
    obtain ⟨q, hq⟩ := Draft.finished hi
    rw [hq.locals] at hv
    obtain ⟨k, hk, rfl⟩ := List.mem_mapIdx.mp hv
    exact hsites (.inner (.proc i) k)

/-- Whatever the text, the queries of its module by name and by index invert each other,
no name is found twice, and every mention is told with a path of the unit. -/
theorem queries_invert (fs : FileSystem) (options : IncludeOptions) (text : String)
    (shown key : Path) : (ofText fs options text shown key).parse.module.Answers
      (literalsOf (ofText fs options text shown key).tokens) :=
  (labelled (registered_ofText fs options text shown key)).answers
    (ofText_pools fs options text shown key).needed

end TokenStream

end SslFrontend
