import Mathlib.Data.List.Forall2
import Mathlib.Data.List.Nodup
import SslFrontend.Proofs.Misuse.Uses
import SslFrontend.Proofs.Reference.Numbers
import SslFrontend.Proofs.References
import SslFrontend.Proofs.Report.Early
import SslFrontend.Proofs.Symbol.Extends

/-! # Names that nothing declares

A name that waits in a context waits once, with all of its mentions in the order of
their numbers.  Each of them is settled as its name is: one that turns out to be a
symbol of the unit becomes one use of it.

A mention that is not bound when it is read waits for the end of the unit, where its
name is a symbol for its context, or nothing declares it.  What nothing declares is
reported once for a name and a context, at the first mention in the text; a mention
of anything else is one use of it.  Main statement: `TokenStream.undeclared_reported`,
for every stream and every journal of its run.
-/

namespace SslFrontend

/-! ## One pending name for a name and a context -/

/-- What a pending name is told apart by. -/
def PendingName.key (p : PendingName) : String × Option ScopeId := (p.name, p.context)

namespace Pending

/-- No two pending names have one key, and each has mentions, in the order of their
numbers, which come before `next`. -/
structure Tidy (pending : Pending) (next : Nat) : Prop where
  keys : (pending.names.map PendingName.key).Nodup
  sites : ∀ p ∈ pending.names, p.sites ≠ [] ∧ (p.sites.map Prod.fst).Pairwise (· < ·) ∧
    ∀ site ∈ p.sites, site.1 < next

theorem matchesKey_iff {name : String} {context : Option ScopeId} {p : PendingName} :
    matchesKey name context p = true ↔ p.key = (name, context) := by
  simp [matchesKey, PendingName.key]

theorem key_addSite (number : Nat) (pos : Position) (p : PendingName) :
    (addSite number pos p).key = p.key := rfl

theorem Tidy.empty (next : Nat) : Pending.empty.Tidy next := ⟨.nil, nofun⟩

theorem Tidy.mono {pending : Pending} {next later : Nat} (h : pending.Tidy next)
    (hle : next ≤ later) : pending.Tidy later where
  keys := h.keys
  sites p hp := by
    obtain ⟨hne, hordered, hlt⟩ := h.sites p hp
    exact ⟨hne, hordered, fun site hsite => Nat.lt_of_lt_of_le (hlt site hsite) hle⟩

/-- A mention under the next number stands behind the others. -/
theorem Tidy.mention {pending : Pending} {next : Nat} (h : pending.Tidy next) (name : String)
    (context : Option ScopeId) (pos : Position) :
    (pending.mention name context next pos).2.Tidy (next + 1) := by
  have hlater := h.mono (Nat.le_succ next)
  unfold Pending.mention
  cases hf : pending.names.findIdx? (matchesKey name context) with
  | none =>
      have hfresh : ∀ p ∈ pending.names, p.key ≠ (name, context) := fun p hp hkey =>
        absurd (matchesKey_iff.mpr hkey) (by simpa using List.findIdx?_eq_none_iff.mp hf p hp)
      constructor
      · rw [List.map_append]
        refine List.nodup_append.mpr ⟨h.keys, List.nodup_singleton _, ?_⟩
        intro key hkey last hlast heq
        obtain ⟨p, hp, rfl⟩ := List.mem_map.mp hkey
        exact hfresh p hp (heq.trans (List.mem_singleton.mp hlast))
      · refine List.forall_mem_append.mpr ⟨hlater.sites, List.forall_mem_singleton.mpr ?_⟩
        exact ⟨nofun, List.pairwise_singleton _ _, List.forall_mem_singleton.mpr (Nat.lt_succ_self _)⟩
  | some place =>
      constructor
      · have hkeys : (pending.names.modify place (addSite next pos)).map PendingName.key =
            pending.names.map PendingName.key :=
          SymbolTable.map_modify fun p _ => key_addSite next pos p
        rw [hkeys]
        exact h.keys
      · intro p hp
        obtain ⟨j, hj⟩ := List.getElem?_of_mem hp
        rw [List.getElem?_modify] at hj
        obtain ⟨q, hq, rfl⟩ := Option.map_eq_some_iff.mp hj
        have hmem := List.mem_of_getElem? hq
        split
        · obtain ⟨-, hordered, hlt⟩ := h.sites q hmem
          refine ⟨by simp [addSite], ?_, ?_⟩
          · simp only [addSite, List.map_append, List.map_cons, List.map_nil]
            refine List.pairwise_append.mpr ⟨hordered, List.pairwise_singleton _ _, ?_⟩
            intro number hnumber last hlast
            obtain ⟨site, hsite, rfl⟩ := List.mem_map.mp hnumber
            rw [List.mem_singleton.mp hlast]
            exact hlt site hsite
          · exact List.forall_mem_append.mpr ⟨(hlater.sites q hmem).2.2,
              List.forall_mem_singleton.mpr (Nat.lt_succ_self _)⟩
        · exact hlater.sites q hmem

variable {pending : Pending} {next : Nat}

/-- Pending names with one key are one. -/
theorem Tidy.eq_of_key (h : pending.Tidy next) {p q : PendingName} (hp : p ∈ pending.names)
    (hq : q ∈ pending.names) (heq : p.key = q.key) : p = q :=
  List.inj_on_of_nodup_map h.keys hp hq heq

/-- The first mention of a pending name has the least number. -/
theorem Tidy.first_le (h : pending.Tidy next) {p : PendingName} (hp : p ∈ pending.names)
    {first : Nat × Position} {rest : List (Nat × Position)} (hsites : p.sites = first :: rest) :
    ∀ site ∈ p.sites, first.1 ≤ site.1 := by
  obtain ⟨-, hordered, -⟩ := h.sites p hp
  rw [hsites, List.map_cons] at hordered
  obtain ⟨hfirst, -⟩ := List.pairwise_cons.mp hordered
  rw [hsites]
  refine List.forall_mem_cons.mpr ⟨Nat.le_refl _, fun site hsite => ?_⟩
  exact Nat.le_of_lt (hfirst site.1 (List.mem_map_of_mem hsite))

/-! ## At the end -/

/-- What is entered for a mention of what its name turns out to be. -/
def useOf (number : Nat) (pos : Position) : Option Symbol → List Entry
  | none | some (.builtin _) => []
  | some symbol => [⟨number, symbol, pos.site, .use⟩]

theorem mem_useOf {number : Nat} {pos : Position} {found : Option Symbol} {e : Entry} :
    e ∈ useOf number pos found ↔ ∃ symbol, found = some symbol ∧ (∀ i, symbol ≠ .builtin i) ∧
      e = ⟨number, symbol, pos.site, .use⟩ := by
  unfold useOf
  cases found with
  | none => simp
  | some symbol => cases symbol <;> simp

theorem useOf_nodup (number : Nat) (pos : Position) (found : Option Symbol) :
    (useOf number pos found).Nodup := by
  unfold useOf
  split
  · exact .nil
  · exact .nil
  · exact List.nodup_singleton _

/-- The reports at the end: one for each name that nothing declares, at its first
mention. -/
theorem problems_eq {table : SymbolTable} {names : List PendingName}
    (h : ∀ p ∈ names, p.sites ≠ []) :
    List.Forall₂
      (fun p d => ∃ number pos rest, p.sites = (number, pos) :: rest ∧ d = .undeclared pos p.name)
      (names.filter fun p => (table.lookup p.context p.name).isNone)
      (problems ⟨names⟩ table) := by
  unfold problems
  induction names with
  | nil => exact .nil
  | cons p rest ih =>
      obtain ⟨hp, hrest⟩ := List.forall_mem_cons.mp h
      obtain ⟨⟨number, pos⟩, more, hsites⟩ := List.exists_cons_of_ne_nil hp
      cases hl : table.lookup p.context p.name with
      | none =>
          have hproblem : problem? table p = some (.undeclared pos p.name) := by
            simp [problem?, hl, hsites]
          rw [List.filter_cons_of_pos (by simp [hl]), List.filterMap_cons_some hproblem]
          exact .cons ⟨number, pos, more, hsites, rfl⟩ (ih hrest)
      | some symbol =>
          have hproblem : problem? table p = none := by simp [problem?, hl]
          rw [List.filter_cons_of_neg (by simp [hl]), List.filterMap_cons_none hproblem]
          exact ih hrest

end Pending

variable {stream : TokenStream} {x y : Journal stream}

namespace Journal

/-- A mention of a name in a context that was not bound when it was read. -/
structure LeavesOpen (x : Journal stream) (name : String) (context : Option ScopeId) (number : Nat)
    (r : NameRead) : Prop where
  read : x.names[number]? = some r
  mention : ∃ m, r.mention? = some m ∧ m.name = name ∧ m.scope = context ∧
    m.table.lookupDeclared context name = none

/-- A name that is mentioned in a context and left open there, and that neither the
context nor the unit declares, nor is built in. -/
structure Misses (x : Journal stream) (name : String) (context : Option ScopeId) : Prop where
  mentioned : ∃ number r, x.LeavesOpen name context number r
  noLocal : ∀ scope, context = some scope → stream.draft.closed.lookupLocal scope name = none
  noGlobal : stream.draft.closed.lookupGlobal name = none
  noBuiltin : Builtin.find? name = none

/-- A report on a name in a context, at the mention that comes first in the text. -/
def ReportedAt (x : Journal stream) (key : String × Option ScopeId) (d : Diagnostic) : Prop :=
  ∃ number first, x.LeavesOpen key.1 key.2 number first ∧
    (∀ other r, x.LeavesOpen key.1 key.2 other r → first.token ≤ r.token) ∧
    d = .undeclared first.pos key.1

/-- The reports on names that nothing declares, beside those that came with the
stream: one for each name and context. -/
structure ReportsUndeclared (x : Journal stream) (missing : List (String × Option ScopeId))
    (reports : List Diagnostic) : Prop where
  distinct : missing.Nodup
  mem_iff : ∀ name context, (name, context) ∈ missing ↔ x.Misses name context
  placed : List.Forall₂ x.ReportedAt missing reports
  diagnostics : (stream.parse.diagnostics.filter (·.cause == .undeclared)).Perm
    (stream.problems.items.filter (·.cause == .undeclared) ++ reports)

/-- What becomes of a pending name: it is a symbol or nothing at all, and each of its
mentions is one use of the symbol, but none of a built-in. -/
structure Settles (x : Journal stream) (place : Nat) (p : PendingName) : Prop where
  found : stream.draft.found[place]? = some (stream.draft.closed.lookup p.context p.name)
  sites : ∀ number pos, (number, pos) ∈ p.sites ↔
    ∃ r, x.LeavesOpen p.name p.context number r ∧ r.pos = pos
  uses : ∀ number pos, (number, pos) ∈ p.sites →
    stream.draft.entries.filter (·.number == number) =
      Pending.useOf number pos (stream.draft.closed.lookup p.context p.name)

end Journal

/-- References and numbers of uses of a module are those of the entries. -/
structure Module.Counts (m : Module) (entries : List Entry) : Prop where
  vars : ∀ i v, m.vars[i]? = some v → v.references = Ledger.referencesIn entries (.global i) ∧
    v.uses = Ledger.usesIn entries (.global i)
  procs : ∀ i p, m.procs[i]? = some p → p.references = Ledger.referencesIn entries (.proc i) ∧
    p.uses = Ledger.usesIn entries (.proc i)
  locals : ∀ i p k v, m.procs[i]? = some p → p.locals[k]? = some v →
    v.references = Ledger.referencesIn entries (.inner (.proc i) k) ∧
      v.uses = Ledger.usesIn entries (.inner (.proc i) k)

/-- The pending names of a run and what becomes of them. -/
structure Journal.SettlesAll (x : Journal stream) : Prop where
  distinct : (stream.draft.pending.names.map PendingName.key).Nodup
  pending : ∀ name context number r, x.LeavesOpen name context number r →
    ∃ p ∈ stream.draft.pending.names, p.key = (name, context)
  settled : ∀ place p, stream.draft.pending.names[place]? = some p → x.Settles place p
  counted : stream.parse.module.Counts stream.draft.entries

/-! ## Pending names of a journal -/

namespace Journal

/-- A turn leaves the pending names as they are or adds the mention that it reads. -/
theorem tidy_turn (hxy : Turn x y) (h : x.state.pending.Tidy x.names.length) :
    y.state.pending.Tidy y.names.length := by
  have hle := hxy.names_prefix.length_le
  have hsame : y.state.pending = x.state.pending → y.state.pending.Tidy y.names.length :=
    fun heq => heq ▸ h.mono hle
  cases hxy with
  | inner hxy =>
      cases hxy with
      | @mention name hk =>
          have hlength : (x.mention name).names.length = x.names.length + 1 := by simp [mention]
          cases hl : x.table.lookupDeclared x.scope name with
          | some symbol => exact hsame (mention_early hl).2
          | none =>
              rw [(mention_late hl).2, hlength]
              exact h.mention name x.scope x.cursor.pos
      | _ => exact hsame rfl
  | merge header hx held => exact hsame (by simp only [merge_state])
  | _ => exact hsame rfl

theorem tidy_turns (hs : Turns x y) (h : x.state.pending.Tidy x.names.length) :
    y.state.pending.Tidy y.names.length := by
  induction hs with
  | refl => exact h
  | tail _ hstep ih => exact tidy_turn hstep ih

namespace Ends

theorem tidy (h : x.Ends) : stream.draft.pending.Tidy x.names.length := by
  rw [h.leaves.pending]
  exact tidy_turns h.turns (.empty _)

/-- The mentions that wait to the end are those that were left open. -/
theorem waits_iff (h : x.Ends) {name : String} {context : Option ScopeId} {number : Nat}
    {pos : Position} : stream.draft.pending.Waits name context number pos ↔
      ∃ r, x.LeavesOpen name context number r ∧ r.pos = pos := by
  rw [h.leaves.pending]
  constructor
  · intro hwaits
    obtain ⟨r, m, hr, hm, rfl, rfl, rfl⟩ := h.accounts.waiting _ _ _ _ hwaits
    obtain ⟨hname, -⟩ := (h.reads.genuine r (List.mem_of_getElem? hr)).mention m hm
    refine ⟨r, ⟨hr, m, hm, hname, rfl, ?_⟩, rfl⟩
    rw [← hname]
    -- a mention that was bound has its number in the ledger
    cases hl : m.table.lookupDeclared m.scope m.name with
    | none => rfl
    | some symbol =>
        have hentry := (h.accounts.counted number r m hr hm).early symbol hl
        obtain ⟨p, hp, -, -, hsite⟩ := hwaits
        have hpending : number ∈ x.state.pending.numbers :=
          List.mem_flatMap.mpr ⟨p, hp, List.mem_map_of_mem hsite⟩
        exact absurd rfl ((List.nodup_append.mp h.nodup).2.2 number
          (List.mem_map_of_mem hentry) number hpending)
  · rintro ⟨r, ⟨hr, m, hm, rfl, rfl, hl⟩, rfl⟩
    obtain ⟨-, hpos⟩ := (h.reads.genuine r (List.mem_of_getElem? hr)).mention m hm
    exact hpos ▸ (h.accounts.counted number r m hr hm).late hl

/-- The mentions of a pending name are those of its name in its context that were
left open. -/
theorem sites_iff (h : x.Ends) {p : PendingName} (hp : p ∈ stream.draft.pending.names)
    (number : Nat) (pos : Position) : (number, pos) ∈ p.sites ↔
      ∃ r, x.LeavesOpen p.name p.context number r ∧ r.pos = pos := by
  rw [← h.waits_iff]
  constructor
  · exact fun hsite => ⟨p, hp, rfl, rfl, hsite⟩
  · rintro ⟨q, hq, hname, hcontext, hsite⟩
    obtain rfl := h.tidy.eq_of_key hq hp (Prod.ext hname hcontext)
    exact hsite

/-- Under the number of a mention that waits, nothing is entered but what its name
turns out to be. -/
theorem entries_at (h : x.Ends) {p : PendingName} (hp : p ∈ stream.draft.pending.names)
    {number : Nat} {pos : Position} (hsite : (number, pos) ∈ p.sites) :
    stream.draft.entries.filter (·.number == number) =
      Pending.useOf number pos (stream.draft.closed.lookup p.context p.name) := by
  have hwaits : stream.draft.pending.Waits p.name p.context number pos := ⟨p, hp, rfl, rfl, hsite⟩
  obtain ⟨r, hopen, hpos⟩ := h.waits_iff.mp hwaits
  have hmem : ∀ e, e ∈ stream.draft.entries.filter (·.number == number) ↔
      e ∈ Pending.useOf number pos (stream.draft.closed.lookup p.context p.name) := by
    intro e
    rw [List.mem_filter, h.entries_perm.mem_iff, List.mem_append, Pending.mem_useOf,
      Pending.mem_flatMap_uses, beq_iff_eq]
    constructor
    · rintro ⟨hledger | ⟨name, context, pos', symbol, hother, hl, hne, he⟩, rfl⟩
      · have hpending : e.number ∈ x.state.pending.numbers := by
          rw [← h.leaves.pending]
          exact List.mem_flatMap.mpr ⟨p, hp, List.mem_map_of_mem hsite⟩
        exact absurd rfl ((List.nodup_append.mp h.nodup).2.2 e.number
          (List.mem_map_of_mem hledger) e.number hpending)
      · rw [← h.leaves.pending] at hother
        obtain ⟨r', hopen', hpos'⟩ := h.waits_iff.mp hother
        obtain rfl := Option.some.inj (hopen.read.symm.trans hopen'.read)
        obtain ⟨m, hm, hname, hscope, -⟩ := hopen.mention
        obtain ⟨m', hm', hname', hscope', -⟩ := hopen'.mention
        obtain rfl := Option.some.inj (hm.symm.trans hm')
        rw [← hname', ← hscope', hname, hscope] at hl
        rw [← hpos', hpos] at he
        exact ⟨symbol, hl, hne, he⟩
    · rintro ⟨symbol, hl, hne, rfl⟩
      exact ⟨.inr ⟨p.name, p.context, pos, symbol, h.leaves.pending ▸ hwaits, hl, hne, rfl⟩, rfl⟩
  have hnodup : stream.draft.entries.Nodup := h.ordered.imp fun hlt heq =>
    Nat.ne_of_lt hlt (congrArg Entry.number heq)
  have hperm := (List.perm_ext_iff_of_nodup (hnodup.filter _) (Pending.useOf_nodup _ _ _)).mpr hmem
  unfold Pending.useOf at hperm ⊢
  split at hperm
  · exact hperm.eq_nil
  · exact hperm.eq_nil
  · exact List.perm_singleton.mp hperm

theorem settlesAll (h : x.Ends) : x.SettlesAll where
  distinct := h.tidy.keys
  pending name context number r hopen := by
    obtain ⟨p, hp, hname, hcontext, -⟩ := h.waits_iff.mpr ⟨r, hopen, rfl⟩
    exact ⟨p, hp, Prod.ext hname hcontext⟩
  settled place p hp := by
    have hmem := List.mem_of_getElem? hp
    refine ⟨?_, h.sites_iff hmem, fun number pos => h.entries_at hmem⟩
    simp [Draft.found, Pending.resolutions, hp]
  counted := by
    refine ⟨fun i v hv => ?_, fun i p hp => ?_, fun i p k v hp hv => ?_⟩
    · obtain ⟨w, -, rfl⟩ := Draft.finish_var hv
      exact ⟨rfl, rfl⟩
    · obtain ⟨q, hq⟩ := Draft.finished hp
      exact ⟨hq.references, hq.uses⟩
    · obtain ⟨q, hq⟩ := Draft.finished hp
      rw [hq.locals, List.getElem?_mapIdx] at hv
      obtain ⟨w, -, rfl⟩ := Option.map_eq_some_iff.mp hv
      exact ⟨rfl, rfl⟩

end Ends

end Journal

/-! ## Reports -/

/-- All that is reported on names that nothing declares comes from the pending
names. -/
theorem TokenStream.filter_diagnostics (stream : TokenStream) :
    (stream.parse.diagnostics.filter (·.cause == .undeclared)).Perm
      (stream.problems.items.filter (·.cause == .undeclared) ++
        stream.draft.pending.problems stream.draft.closed) := by
  have hnone : ∀ {ds : List Diagnostic}, (∀ d ∈ ds, d.cause ≠ .undeclared) →
      ds.filter (·.cause == .undeclared) = [] := fun hds =>
    List.filter_eq_nil_iff.mpr fun d hd => by simpa using hds d hd
  obtain ⟨ds, hitems, hplain⟩ := stream.plain_draft
  have hdefinitions : ∀ d ∈ stream.draft.table.checkDefinitions.2, d.cause ≠ .undeclared := by
    intro d hd
    obtain ⟨p, -, hproblem⟩ := List.mem_filterMap.mp hd
    unfold SymbolTable.undefinedProblem? at hproblem
    repeat' split at hproblem
    all_goals cases hproblem
    all_goals exact nofun
  have huses : ∀ d ∈ stream.draft.resolved.allUseProblems
      (stream.draft.main.resolved stream.draft.found), d.cause ≠ .undeclared := by
    intro d hd hcause
    have hinvalid := SymbolTable.invalidUse_of_allUseProblems hd
    rw [hcause] at hinvalid
    cases hinvalid
  have hpending : (stream.draft.pending.problems stream.draft.closed).filter
      (·.cause == .undeclared) = stream.draft.pending.problems stream.draft.closed := by
    refine List.filter_eq_self.mpr fun d hd => ?_
    obtain ⟨p, -, hproblem⟩ := List.mem_filterMap.mp hd
    unfold Pending.problem? at hproblem
    split at hproblem <;> cases hproblem
    rfl
  have hperm := (@Draft.diagnostics_perm stream.draft stream.files).filter
    (·.cause == .undeclared)
  refine hperm.trans (.of_eq ?_)
  rw [Draft.reports, List.filter_append, List.filter_append, List.filter_append, hpending,
    hnone hdefinitions, hnone huses, hitems, List.filter_append,
    hnone fun d hd => (hplain d hd).declared]
  simp

namespace Journal.Ends

/-- A name that is pending and is nothing at the end is one that is missed. -/
theorem misses_iff (h : x.Ends) (name : String) (context : Option ScopeId) :
    x.Misses name context ↔ ∃ p ∈ stream.draft.pending.names, p.key = (name, context) ∧
      stream.draft.closed.lookup p.context p.name = none := by
  have hlookup : stream.draft.closed.lookup context name = none ↔
      (∀ scope, context = some scope → stream.draft.closed.lookupLocal scope name = none) ∧
        stream.draft.closed.lookupGlobal name = none ∧ Builtin.find? name = none := by
    cases context <;>
      simp [SymbolTable.lookup, SymbolTable.lookupDeclared, Option.or_eq_none_iff, and_assoc]
  constructor
  · rintro ⟨⟨number, r, hopen⟩, hlocal, hglobal, hbuiltin⟩
    obtain ⟨p, hp, rfl, rfl, -⟩ := h.waits_iff.mpr ⟨r, hopen, rfl⟩
    exact ⟨p, hp, rfl, hlookup.mpr ⟨hlocal, hglobal, hbuiltin⟩⟩
  · rintro ⟨p, hp, hkey, hnone⟩
    obtain ⟨rfl, rfl⟩ : p.name = name ∧ p.context = context := by
      simpa [PendingName.key] using hkey
    obtain ⟨hlocal, hglobal, hbuiltin⟩ := hlookup.mp hnone
    obtain ⟨⟨number, pos⟩, hsite⟩ := List.exists_mem_of_ne_nil _ (h.tidy.sites p hp).1
    obtain ⟨r, hopen, -⟩ := (h.sites_iff hp number pos).mp hsite
    exact ⟨⟨number, r, hopen⟩, hlocal, hglobal, hbuiltin⟩

/-- Later names are later tokens. -/
theorem token_le (h : x.Ends) {number other : Nat} {r later : NameRead}
    (hr : x.names[number]? = some r) (hlater : x.names[other]? = some later)
    (hle : number ≤ other) : r.token ≤ later.token := by
  obtain ⟨hi, rfl⟩ := List.getElem?_eq_some_iff.mp hr
  obtain ⟨hj, rfl⟩ := List.getElem?_eq_some_iff.mp hlater
  rcases Nat.eq_or_lt_of_le hle with rfl | hlt
  · exact Nat.le_refl _
  · exact Nat.le_of_lt (List.pairwise_iff_getElem.mp h.reads.ordered _ _ hi hj hlt)

theorem reportsUndeclared (h : x.Ends) :
    ∃ missing reports, x.ReportsUndeclared missing reports := by
  let names := stream.draft.pending.names.filter fun p =>
    (stream.draft.closed.lookup p.context p.name).isNone
  have hsub : names.Sublist stream.draft.pending.names := List.filter_sublist
  refine ⟨names.map PendingName.key, stream.draft.pending.problems stream.draft.closed,
    (hsub.map _).nodup h.tidy.keys, ?_, ?_, stream.filter_diagnostics⟩
  · intro name context
    rw [h.misses_iff, List.mem_map]
    simp [names, and_comm, and_left_comm]
  · rw [List.forall₂_map_left_iff]
    have hproblems := @Pending.problems_eq stream.draft.closed _
      fun p hp => (h.tidy.sites p hp).1
    have hmembers := (List.forall₂_and_left (p := (· ∈ names)) _ _).mpr ⟨fun _ => id, hproblems⟩
    refine hmembers.imp ?_
    rintro p d ⟨hp, number, pos, rest, hsites, rfl⟩
    have hmem := hsub.subset hp
    obtain ⟨r, hopen, rfl⟩ := (h.sites_iff hmem number pos).mp (hsites ▸ List.mem_cons_self)
    refine ⟨number, r, hopen, fun other later hlater => ?_, rfl⟩
    have hsite := (h.sites_iff hmem other later.pos).mpr ⟨later, hlater, rfl⟩
    exact h.token_le hopen.read hlater.read (h.tidy.first_le hmem hsites _ hsite)

end Journal.Ends

/-- For every stream of tokens the parser's run has a journal, and in every such
journal the reports on names that nothing declares are one for each name that is
missed in a context, at its first mention; every other name that waited is settled.
No such report comes with the tokens of a text. -/
theorem TokenStream.undeclared_reported :
    (∀ stream : TokenStream, (∃ x : Journal stream, x.Ends) ∧ ∀ x : Journal stream, x.Ends →
      (∃ missing reports, x.ReportsUndeclared missing reports) ∧ x.SettlesAll) ∧
    ∀ (fs : FileSystem) (options : IncludeOptions) (text : String) (shown key : Path),
      ∀ d ∈ (ofText fs options text shown key).problems.items, d.cause ≠ .undeclared :=
  ⟨fun stream => ⟨stream.journaled, fun _ h => ⟨h.reportsUndeclared, h.settlesAll⟩⟩,
    fun fs options text shown key d hd => (plain_ofText fs options text shown key d hd).declared⟩

/-- A name that nothing declares, mentioned twice in one body and once in another, and
a procedure that is mentioned before it is declared. -/
def TokenStream.haunted : TokenStream :=
  .ofString .none .default
    "procedure p begin ghost := q; ghost := 1; end procedure q begin return ghost; end" ⟨"a.ssl"⟩

/-- It is reported once for each body, where it is mentioned first. -/
theorem TokenStream.undeclared_reported_haunted :
    (haunted.draft.pending.problems haunted.draft.closed).map (fun d => d.pos.column) = [19, 72] ∧
      haunted.draft.found = [none, some (.proc 1), none] ∧
      ∃ x : Journal haunted, x.Ends ∧
        (∃ missing reports, x.ReportsUndeclared missing reports) ∧ x.SettlesAll := by
  obtain ⟨⟨x, hx⟩, hall⟩ := undeclared_reported.1 haunted
  exact ⟨by decide +kernel, by decide +kernel, x, hx, hall x hx⟩

end SslFrontend
