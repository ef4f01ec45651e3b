import SslFrontend.Proofs.Symbol.Binds
import SslFrontend.Proofs.Symbol.Kept

/-! # The symbol table after any operations

A caller declares variables, locals and procedures in any order, opens scopes for
rejected bodies, marks procedures as defined, and closes the unit, also more than
once.  Whatever it does, looking a name up and reading the name of an entry stay
inverse to each other, each namelist belongs to its procedure and lists its
locals, and an operation that fails leaves no trace.
-/

namespace SslFrontend

/-- What a caller can do to a table. -/
inductive Operation where
  | declareVar (name : String) (scope : VarScope) (pos : Position)
  | declareLocal (procedure : ScopeId) (name : String) (pos : Position)
  | declareProc (header : Header)
  | declareDiscarded (header : Header)
  /-- A procedure of the unit has its body. -/
  | markDefined (index : Nat)
  | checkDefinitions

namespace SymbolTable

/-- The table after an operation.  One that fails leaves what its function does. -/
def perform (t : SymbolTable) : Operation → SymbolTable
  | .declareVar name scope pos =>
    match t.declareVar name scope pos with
    | .ok (_, u) => u
    | .error _ => t
  | .declareLocal procedure name pos =>
    match t.declareLocal procedure name pos with
    | .ok (_, u) => u
    | .error _ => t
  | .declareProc header => (t.declare header).table
  | .declareDiscarded header =>
    match t.declareDiscarded header with
    | .ok (_, u, _) => u
    | .error _ => t
  | .markDefined index => t.modifyScope (.proc index) fun p => { p with defined := true }
  | .checkDefinitions => t.checkDefinitions.1

/-- A new table after operations. -/
def run (operations : List Operation) : SymbolTable := operations.foldl perform .empty

/-- The symbol is an entry of the table, and its name resolves to the text. -/
def IsNamed (t : SymbolTable) (name : String) : Symbol → Prop
  | .global i => ∃ v, t.vars[i]? = some v ∧ t.strings.resolve v.name = .ok name
  | .proc i => ∃ p, t.procs[i]? = some p ∧ t.strings.resolve p.name = .ok name
  | .inner scope i => ∃ p v, t.scope? scope = some p ∧ p.locals[i]? = some v ∧
      p.namelist.resolve v.name = .ok name
  | .builtin _ => False

/-- The parts of a table agree with each other. -/
structure Coherent (t : SymbolTable) : Prop where
  vars_named : ∀ v ∈ t.vars, ∃ name, t.strings.resolve v.name = .ok name
  procs_named : ∀ p ∈ t.procs, ∃ name, t.strings.resolve p.name = .ok name
  lookupGlobal_iff : ∀ name symbol, t.lookupGlobal name = some symbol ↔
    (∀ scope i, symbol ≠ .inner scope i) ∧ t.IsNamed name symbol
  lookupLocal_iff : ∀ scope name symbol, t.lookupLocal scope name = some symbol ↔
    (∃ i, symbol = .inner scope i) ∧ t.IsNamed name symbol
  namelist_id : ∀ (i : Nat) (p : Procedure), t.procs[i]? = some p → p.namelist.id = .namelist i
  namelist_texts : ∀ p ∈ t.procs,
    p.locals.map (fun v => p.namelist.resolve v.name) = p.namelist.texts.map .ok
  locals_distinct : ∀ p ∈ t.procs, (p.locals.map fun v => p.namelist.resolve v.name).Nodup
  sober : ∀ p ∈ t.procs, ¬(p.modifiers.imported = true ∧ p.modifiers.exported = true)
  args : ∀ p ∈ t.procs, p.minArgs ≤ p.numArgs

/-- No two globals, variables or procedures, share a name. -/
theorem Coherent.global_unique {t : SymbolTable} (h : t.Coherent) {name : String}
    {first second : Symbol} (hfirst : t.IsNamed name first) (hsecond : t.IsNamed name second)
    (hf : ∀ scope i, first ≠ .inner scope i) (hs : ∀ scope i, second ≠ .inner scope i) :
    first = second := by
  have hlookup := (h.lookupGlobal_iff name first).mpr ⟨hf, hfirst⟩
  rw [(h.lookupGlobal_iff name second).mpr ⟨hs, hsecond⟩] at hlookup
  exact (Option.some.inj hlookup).symm

end SymbolTable

namespace Operation

/-- The operation reports that it did nothing. -/
def FailsIn (t : SymbolTable) : Operation → Prop
  | .declareVar name scope pos => ∃ problem, t.declareVar name scope pos = .error problem
  | .declareLocal procedure name pos =>
    ∃ problem, t.declareLocal procedure name pos = .error problem
  | .declareProc header => ∃ named, (t.declare header).verdict = .reject named
  | .declareDiscarded header => ∃ problem, t.declareDiscarded header = .error problem
  | .markDefined _ | .checkDefinitions => False

/-- The operation reports that the name stands for the symbol. -/
def Declares (t : SymbolTable) (name : String) (symbol : Symbol) : Operation → Prop
  | .declareVar own scope pos => own = name ∧ ∃ u, t.declareVar own scope pos = .ok (symbol, u)
  | .declareLocal procedure own pos =>
    own = name ∧ ∃ u, t.declareLocal procedure own pos = .ok (symbol, u)
  | .declareProc header => header.name = name ∧
    ∃ index, symbol = .proc index ∧ (t.declare header).verdict.Accepts index
  | .declareDiscarded _ | .markDefined _ | .checkDefinitions => False

end Operation

namespace SymbolTable

variable {t u : SymbolTable} {name : String} {symbol : Symbol}

/-! ## Entries and their names -/

theorem Binds.isNamed (h : t.Binds name symbol) : t.IsNamed name symbol := by
  obtain ⟨pool, handle, pos, hentry, hfound⟩ := h
  have hresolve := Pool.resolve_find? hfound
  cases symbol with
  | global i =>
      obtain ⟨v, hv, heq⟩ := Option.map_eq_some_iff.mp hentry
      cases heq
      exact ⟨v, hv, hresolve⟩
  | proc i =>
      obtain ⟨p, hp, heq⟩ := Option.map_eq_some_iff.mp hentry
      cases heq
      exact ⟨p, hp, hresolve⟩
  | inner scope i =>
      obtain ⟨p, hp, hlocal⟩ := Option.bind_eq_some_iff.mp hentry
      obtain ⟨v, hv, heq⟩ := Option.map_eq_some_iff.mp hlocal
      cases heq
      exact ⟨p, v, hp, hv, hresolve⟩
  | builtin i => cases hentry

namespace Kept

theorem binds_iff (h : t.Kept) : t.Binds name symbol ↔ t.IsNamed name symbol := by
  refine ⟨Binds.isNamed, fun hnamed => ?_⟩
  cases symbol with
  | global i =>
      obtain ⟨v, hv, hr⟩ := hnamed
      have hmem := List.mem_map_of_mem (f := Variable.name) (List.mem_of_getElem? hv)
      refine ⟨t.strings, v.name, v.declared, ?_,
        h.globals.find?_of_resolve (List.mem_append_left _ hmem) hr⟩
      simp [declaration?, hv, Variable.label]
  | proc i =>
      obtain ⟨p, hp, hr⟩ := hnamed
      have hmem := List.mem_map_of_mem (f := Procedure.name) (List.mem_of_getElem? hp)
      refine ⟨t.strings, p.name, p.declared, ?_,
        h.globals.find?_of_resolve (List.mem_append_right _ hmem) hr⟩
      simp [declaration?, hp, Procedure.label]
  | inner scope i =>
      obtain ⟨p, v, hp, hv, hr⟩ := hnamed
      have hmem := List.mem_map_of_mem (f := Variable.name) (List.mem_of_getElem? hv)
      refine ⟨p.namelist, v.name, v.declared, ?_,
        (h.scopes scope p hp).names.find?_of_resolve hmem hr⟩
      simp [declaration?, hp, hv, Variable.label]
  | builtin i => exact hnamed.elim

theorem named (h : t.Kept) {handle : Handle} (hmem : handle ∈ t.globals) :
    ∃ name, t.strings.resolve handle = .ok name := by
  obtain ⟨text, htext⟩ := h.globals.found handle hmem
  exact ⟨text, Pool.resolve_find? htext⟩

/-- The names of the locals are the texts of the namelist, in the same order. -/
theorem texts (h : t.Kept) {i : Nat} {p : Procedure} (hp : t.procs[i]? = some p) :
    p.namelist.id = .namelist i ∧
      p.locals.map (fun v => p.namelist.resolve v.name) = p.namelist.texts.map .ok := by
  obtain ⟨hid, htexts⟩ := (h.scopes (.proc i) p hp).own i rfl
  refine ⟨hid, ?_⟩
  -- What finds a text as a local's name resolves that name to the text.
  have hresolve := congrArg (List.map (Option.map p.namelist.resolve)) htexts
  rw [List.map_map, List.map_map, List.map_map] at hresolve
  have hfound : p.namelist.texts.map (Option.map p.namelist.resolve ∘ p.namelist.find?) =
      p.namelist.texts.map (some ∘ Except.ok) := by
    refine List.map_congr_left fun text hmem => ?_
    obtain ⟨handle, hhandle⟩ := Option.ne_none_iff_exists'.mp
      (mt Pool.find?_eq_none_iff.mp (not_not_intro hmem))
    simp [hhandle, Pool.resolve_find? hhandle]
  rw [hfound, ← List.map_map] at hresolve
  refine List.map_injective_iff.mpr (fun _ _ => Option.some.inj) (Eq.trans ?_ hresolve.symm)
  rw [List.map_map]
  rfl

theorem coherent (h : t.Kept) (hs : t.Sober) : t.Coherent := by
  constructor
  · exact fun v hv => h.named (List.mem_append_left _ (List.mem_map_of_mem hv))
  · exact fun p hp => h.named (List.mem_append_right _ (List.mem_map_of_mem hp))
  · intro name symbol
    constructor
    · intro hl
      obtain ⟨hbinds, i, hi⟩ := binds_of_lookupGlobal hl
      refine ⟨?_, hbinds.isNamed⟩
      rintro scope j rfl
      rcases hi with hi | hi <;> cases hi
    · rintro ⟨hinner, hnamed⟩
      exact lookupGlobal_of_binds h.globals.distinct (h.binds_iff.mpr hnamed) hinner
  · intro scope name symbol
    constructor
    · intro hl
      obtain ⟨hbinds, hi⟩ := binds_of_lookupLocal hl
      exact ⟨hi, hbinds.isNamed⟩
    · rintro ⟨⟨i, rfl⟩, hnamed⟩
      exact lookupLocal_of_binds (fun p hp => (h.scopes scope p hp).names.distinct)
        (h.binds_iff.mpr hnamed)
  · exact fun i p hp => (h.texts hp).1
  · intro p hp
    obtain ⟨i, hi⟩ := List.getElem?_of_mem hp
    exact (h.texts hi).2
  · intro p hp
    obtain ⟨i, hi⟩ := List.getElem?_of_mem hp
    rw [(h.texts hi).2]
    exact p.namelist.distinct.map fun _ _ => Except.ok.inj
  · intro p hp hboth
    obtain ⟨i, hi⟩ := List.getElem?_of_mem hp
    have hconflicts := hs i p.linkage (linkage?_of_scope? hi)
    rw [Modifiers.conflicts, Procedure.linkage, hboth.1, hboth.2] at hconflicts
    cases hconflicts
  · intro p hp
    obtain ⟨i, hi⟩ := List.getElem?_of_mem hp
    exact (h.scopes (.proc i) p hi).args

/-! ## Operations -/

theorem perform (h : t.Kept) (op : Operation) : (t.perform op).Kept := by
  cases op with
  | declareVar name scope pos =>
      cases hd : t.declareVar name scope pos with
      | error problem => simpa only [SymbolTable.perform, hd] using h
      | ok found => simpa only [SymbolTable.perform, hd] using h.declareVar hd
  | declareLocal procedure name pos =>
      cases hd : t.declareLocal procedure name pos with
      | error problem => simpa only [SymbolTable.perform, hd] using h
      | ok found => simpa only [SymbolTable.perform, hd] using h.declareLocal hd
  | declareProc header => exact h.declare header
  | declareDiscarded header =>
      cases hd : t.declareDiscarded header with
      | error problem => simpa only [SymbolTable.perform, hd] using h
      | ok found => simpa only [SymbolTable.perform, hd] using h.declareDiscarded hd
  | markDefined index =>
      show (t.modifyScope (.proc index) fun p => { p with defined := true }).Kept
      exact h.modifyScope (fun _ => rfl) fun _ _ hp => hp.congr rfl rfl hp.args
  | checkDefinitions => exact h.checkDefinitions

end Kept

namespace Sober

theorem empty : SymbolTable.empty.Sober := fun _ _ => nofun

theorem of_linkage? (h : t.Sober) (hl : ∀ i, u.linkage? i = t.linkage? i) : u.Sober :=
  fun i l hi => h i l (hl i ▸ hi)

theorem markDefined (h : t.Sober) (index : Nat) : (t.perform (.markDefined index)).Sober := by
  intro i l hi
  have hlinkage := linkage?_withBody (t := t) (.proc index)
    (fun p : Procedure => { p with defined := true }) (fun _ => rfl) i
  rw [SymbolTable.perform, hlinkage] at hi
  split at hi
  · obtain ⟨old, hold, rfl⟩ := Option.map_eq_some_iff.mp hi
    exact h i old hold
  · exact h i l hi

theorem checkDefinitions (h : t.Sober) : t.checkDefinitions.1.Sober := by
  intro i l hi
  have hmap : ((t.procs.map closeProcedure)[i]?).map Procedure.linkage = some l := hi
  rw [List.getElem?_map, Option.map_map] at hmap
  obtain ⟨p, hp, rfl⟩ := Option.map_eq_some_iff.mp hmap
  exact closeProcedure_sober (h i p.linkage (linkage?_of_scope? hp))

theorem perform (h : t.Sober) (op : Operation) : (t.perform op).Sober := by
  cases op with
  | declareVar name scope pos =>
      cases hd : t.declareVar name scope pos with
      | error problem => simpa only [SymbolTable.perform, hd] using h
      | ok found => simpa only [SymbolTable.perform, hd] using h.of_linkage? (SameShells.declareVar hd).linkage?
  | declareLocal procedure name pos =>
      cases hd : t.declareLocal procedure name pos with
      | error problem => simpa only [SymbolTable.perform, hd] using h
      | ok found => simpa only [SymbolTable.perform, hd] using h.of_linkage? (SameShells.declareLocal hd).linkage?
  | declareProc header => exact h.declare header
  | declareDiscarded header =>
      cases hd : t.declareDiscarded header with
      | error problem => simpa only [SymbolTable.perform, hd] using h
      | ok found => simpa only [SymbolTable.perform, hd] using h.of_linkage? fun i => (declareDiscarded_linkage? hd i).2
  | markDefined index => exact h.markDefined index
  | checkDefinitions => exact h.checkDefinitions

end Sober

theorem run_kept (operations : List Operation) :
    (run operations).Kept ∧ (run operations).Sober := by
  have hrun : ∀ (ops : List Operation) (t : SymbolTable), t.Kept ∧ t.Sober →
      (ops.foldl perform t).Kept ∧ (ops.foldl perform t).Sober := by
    intro ops
    induction ops with
    | nil => exact fun _ h => h
    | cons op rest ih => exact fun t h => ih _ ⟨h.1.perform op, h.2.perform op⟩
  exact hrun operations .empty ⟨.empty, .empty⟩

theorem perform_of_fails {op : Operation} (h : op.FailsIn t) : t.perform op = t := by
  cases op with
  | declareVar name scope pos =>
      obtain ⟨problem, h⟩ := h
      simp only [perform, h]
  | declareLocal procedure name pos =>
      obtain ⟨problem, h⟩ := h
      simp only [perform, h]
  | declareProc header =>
      obtain ⟨named, h⟩ := h
      have hspec := declare_spec t header
      rw [h] at hspec
      exact hspec.eq_of_reject
  | declareDiscarded header =>
      obtain ⟨problem, h⟩ := h
      simp only [perform, h]
  | markDefined index | checkDefinitions => exact h.elim

theorem isNamed_of_declares {op : Operation} (h : op.Declares t name symbol) :
    (t.perform op).IsNamed name symbol := by
  cases op with
  | declareVar own scope pos =>
      obtain ⟨rfl, u, hd⟩ := h
      have hin : t.declareIn none scope own pos = .ok (symbol, u) := hd
      simp only [perform, hd]
      exact (binds_of_declareIn hin).1.isNamed
  | declareLocal procedure own pos =>
      obtain ⟨rfl, u, hd⟩ := h
      have hin : t.declareIn (some procedure) .localVar own pos = .ok (symbol, u) := hd
      simp only [perform, hd]
      exact (binds_of_declareIn hin).1.isNamed
  | declareProc header =>
      obtain ⟨rfl, index, rfl, haccepts⟩ := h
      refine Binds.isNamed (binds_of_declare ?_)
      rcases haccepts with hverdict | hverdict <;> rw [hverdict] <;> rfl
  | declareDiscarded header | markDefined index | checkDefinitions => exact h.elim

/-- After any operations the parts of the table agree, an operation that fails
leaves the table as it is, and one that declares a name adds an entry with it. -/
theorem run_coherent (operations : List Operation) :
    (run operations).Coherent ∧
    (∀ op, op.FailsIn (run operations) → run (operations ++ [op]) = run operations) ∧
    ∀ op name symbol, op.Declares (run operations) name symbol →
      (run (operations ++ [op])).IsNamed name symbol := by
  have hnext : ∀ op, run (operations ++ [op]) = (run operations).perform op := by
    intro op
    rw [run, List.foldl_concat]
    rfl
  obtain ⟨hkept, hsober⟩ := run_kept operations
  refine ⟨hkept.coherent hsober, fun op h => ?_, fun op name symbol h => ?_⟩
  · rw [hnext, perform_of_fails h]
  · rw [hnext]
    exact isNamed_of_declares h

end SymbolTable

end SslFrontend
