import Mathlib.Algebra.BigOperators.Group.List.Basic
import Mathlib.Data.Set.Function
import Mathlib.Order.Interval.Set.Defs
import SslFrontend.Proofs.Arrangement.Reports

/-! # The order of declarations

A unit is made of declarations of variables and procedures, no two of which declare
the same name, and no parameter or local has the name of a global.  If there is no
error in it, the declarations can stand in any order: there is still no error, and
the module is the same up to the numbers of its variables and procedures and the
offsets of its texts (`TokenStream.parse_rearranged`).
-/

namespace SslFrontend

/-! ## Modules that differ in the order -/

/-- The same references, in any order, and as many uses. -/
structure Variable.SameReferences (v w : Variable) : Prop where
  references : w.references.Perm v.references
  uses : w.uses = v.uses

namespace Module

/-- No parameter or local has the name of a variable or procedure of the module. -/
def Unshadowed (m : Module) : Prop :=
  ∀ p ∈ m.procs, ∀ v ∈ p.locals,
    (∀ w ∈ m.vars, m.strings.lookup w.name ≠ p.namelist.lookup v.name) ∧
      ∀ q ∈ m.procs, m.strings.lookup q.name ≠ p.namelist.lookup v.name

instance (m : Module) : Decidable m.Unshadowed :=
  inferInstanceAs (Decidable (∀ p ∈ m.procs, ∀ v ∈ p.locals,
    (∀ w ∈ m.vars, m.strings.lookup w.name ≠ p.namelist.lookup v.name) ∧
      ∀ q ∈ m.procs, m.strings.lookup q.name ≠ p.namelist.lookup v.name))

/-- One and the same node of two modules. -/
def Numbered (σ : Renumbering) (m m' : Module) : Node → Node → Prop :=
  Node.Renumbered σ m.vars.length m.procs.length (m.strings.SameValue m'.strings)

/-- The same variables and procedures, with other numbers, and with the same code and
the same references. -/
structure Rearranged (σ : Renumbering) (m m' : Module) : Prop where
  vars : Set.BijOn σ.var (Set.Iio m.vars.length) (Set.Iio m'.vars.length)
  procs : Set.BijOn σ.proc (Set.Iio m.procs.length) (Set.Iio m'.procs.length)
  var : ∀ i v, m.vars[i]? = some v → ∃ w, m'.vars[σ.var i]? = some w ∧
    v.Like (m.strings.SameText m'.strings) (m.strings.SameValue m'.strings) w ∧
    v.SameReferences w
  proc : ∀ i p, m.procs[i]? = some p → ∃ q, m'.procs[σ.proc i]? = some q ∧
    p.Like σ.pool (m.strings.SameText m'.strings) (m.strings.SameValue m'.strings)
      (Numbered σ m m') q ∧
    q.references.Perm p.references ∧ q.uses = p.uses ∧
    List.Forall₂ Variable.SameReferences p.locals q.locals
  main : List.Forall₂ (Numbered σ m m') m.main m'.main
  files : m'.files = m.files

end Module

/-- What is not shadowed in a module is not shadowed when names are looked up. -/
theorem Draft.unshadowed {draft : Draft} {files : FileTable} (hnone : draft.table.discarded = [])
    (h : (draft.finish files).module.Unshadowed) : draft.table.Unshadowed := by
  intro scope name hglobal
  cases hl : draft.table.lookupLocal scope name with
  | none => rfl
  | some a =>
      exfalso
      obtain ⟨p, handle, i, hp, hfound, hindex, -⟩ := SymbolTable.lookupLocal_eq_some.mp hl
      obtain ⟨v, hv, rfl⟩ := SymbolTable.getElem?_of_findIdx? hindex
      cases scope with
      | discarded k => cases (SymbolTable.scope?_discarded hnone k).symm.trans hp
      | proc j =>
          have hfinished : ∀ {k : Nat} {q : Procedure}, draft.table.procs[k]? = some q →
              ∃ q', (draft.finish files).module.procs[k]? = some q' ∧ draft.Finished k q' q := by
            intro k q hq
            have hthere := (draft.module_proc? files k).trans (congrArg _ hq)
            obtain ⟨q', hq'⟩ := Draft.finished hthere
            cases hq'.there.symm.trans hq
            exact ⟨_, hthere, hq'⟩
          obtain ⟨p', hthere, hp'⟩ := hfinished hp
          have hlocal : Ledger.settleVariable draft.entries (.inner (.proc j) i) v ∈ p'.locals := by
            refine List.mem_of_getElem? (i := i) ?_
            rw [hp'.locals, List.getElem?_mapIdx, hv]
            rfl
          obtain ⟨hvars, hprocs⟩ := h p' (List.mem_of_getElem? hthere) _ hlocal
          have hlabel : p'.namelist.lookup v.name = name := by
            rw [hp'.namelist]
            exact Pool.lookup_of_find? hfound
          obtain ⟨symbol, ⟨pool, handle, pos, hentry, hname⟩, houter⟩ := hglobal
          cases symbol with
          | global k =>
              obtain ⟨w, hw, heq⟩ := Option.map_eq_some_iff.mp hentry
              cases heq
              exact hvars _ (List.mem_of_getElem? ((draft.module_var? files k).trans
                (congrArg _ hw))) ((Pool.lookup_of_find? hname).trans hlabel.symm)
          | proc k =>
              obtain ⟨q, hq, heq⟩ := Option.map_eq_some_iff.mp hentry
              cases heq
              obtain ⟨q', hq', hsame⟩ := hfinished hq
              refine hprocs q' (List.mem_of_getElem? hq') (Eq.trans ?_ hlabel.symm)
              rw [hsame.name]
              exact Pool.lookup_of_find? hname
          | inner scope k => exact houter scope k rfl
          | builtin k => cases hentry

namespace TokenStream.Rearranges

variable {stream other : TokenStream} {items : List (List Token)}
  (h : Rearranges stream other items)

include h

theorem bijOn_vars : Set.BijOn h.numbers.var (Set.Iio stream.draft.table.vars.length)
    (Set.Iio other.draft.table.vars.length) := by
  have hmaps : ∀ {stream other : TokenStream} (h : Rearranges stream other items),
      Set.MapsTo h.numbers.var (Set.Iio stream.draft.table.vars.length)
        (Set.Iio other.draft.table.vars.length) := by
    intro stream other h i hi
    obtain ⟨w, hw, -⟩ := h.var (List.getElem?_eq_getElem hi)
    exact (List.getElem?_eq_some_iff.mp hw).1
  have hinverse : ∀ {stream other : TokenStream} (h : Rearranges stream other items),
      Set.LeftInvOn h.symm.numbers.var h.numbers.var
        (Set.Iio stream.draft.table.vars.length) := by
    intro stream other h i hi
    obtain ⟨name, hname⟩ := stream.draft_sound.binds_var (List.getElem?_eq_getElem hi)
    exact h.var_inverse hname
  exact Set.InvOn.bijOn ⟨hinverse h, hinverse h.symm⟩ (hmaps h) (hmaps h.symm)

theorem bijOn_procs : Set.BijOn h.numbers.proc (Set.Iio stream.draft.table.procs.length)
    (Set.Iio other.draft.table.procs.length) := by
  have hmaps : ∀ {stream other : TokenStream} (h : Rearranges stream other items),
      Set.MapsTo h.numbers.proc (Set.Iio stream.draft.table.procs.length)
        (Set.Iio other.draft.table.procs.length) := by
    intro stream other h i hi
    obtain ⟨_, _, _, _, _, q, hq, -⟩ := h.procedure (List.getElem?_eq_getElem hi)
    exact (List.getElem?_eq_some_iff.mp hq).1
  have hinverse : ∀ {stream other : TokenStream} (h : Rearranges stream other items),
      Set.LeftInvOn h.symm.numbers.proc h.numbers.proc
        (Set.Iio stream.draft.table.procs.length) := by
    intro stream other h i hi
    have hname := stream.draft_sound.binds_proc (List.getElem?_eq_getElem hi)
    exact h.proc_inverse hname
  exact Set.InvOn.bijOn ⟨hinverse h, hinverse h.symm⟩ (hmaps h) (hmaps h.symm)

/-- A local has the same references in both modules. -/
theorem sameReferences (hleft : stream.draft.table.Unshadowed) {name : String} {a : Symbol}
    (hb : stream.draft.table.Binds name a) (v w : Variable) :
    (Ledger.settleVariable stream.draft.entries a v).SameReferences
      (Ledger.settleVariable other.draft.entries (h.numbers.symbol a) w) :=
  ⟨(h.references hleft hb).1, (h.references hleft hb).2⟩

/-- So have the parameters and locals of a procedure. -/
theorem sameLocals (hleft : stream.draft.table.Unshadowed) (i : Nat) {locals locals' : List Variable}
    (hnamed : ∀ k v, locals[k]? = some v →
      ∃ name, stream.draft.table.Binds name (.inner (.proc i) k))
    (hlength : locals.length = locals'.length) :
    List.Forall₂ Variable.SameReferences
      (locals.mapIdx fun k v =>
        Ledger.settleVariable stream.draft.entries (.inner (.proc i) k) v)
      (locals'.mapIdx fun k v =>
        Ledger.settleVariable other.draft.entries (.inner (.proc (h.numbers.proc i)) k) v) := by
  refine List.forall₂_iff_get.mpr ⟨by simp [hlength], fun k hk hk' => ?_⟩
  rw [List.get_eq_getElem, List.get_eq_getElem, List.getElem_mapIdx, List.getElem_mapIdx]
  rw [List.length_mapIdx] at hk
  obtain ⟨name, hname⟩ := hnamed k _ (List.getElem?_eq_getElem hk)
  exact h.sameReferences hleft hname _ _

/-- The modules are the same, but for the order of what is declared. -/
theorem rearranged (hleft : Plain stream.draft) (hmain : stream.draft.main = [])
    (hmain' : other.draft.main = []) (files : FileTable) :
    (stream.draft.finish files).module.Rearranged h.numbers (other.draft.finish files).module where
  vars := by
    rw [Draft.finish_vars_length, Draft.finish_vars_length]
    exact h.bijOn_vars
  procs := by
    rw [Draft.finish_procs_length, Draft.finish_procs_length]
    exact h.bijOn_procs
  var i v hv := by
    rw [stream.draft.module_var?] at hv
    obtain ⟨u, hu, rfl⟩ := Option.map_eq_some_iff.mp hv
    obtain ⟨w, hw, hlike⟩ := h.var hu
    obtain ⟨name, hname⟩ := stream.draft_sound.binds_var hu
    refine ⟨_, (other.draft.module_var? files _).trans (congrArg _ hw), hlike.settle ..,
      h.sameReferences hleft.unshadowed hname u w⟩
  proc i p hp := by
    rw [stream.draft.module_proc?] at hp
    obtain ⟨u, hu, rfl⟩ := Option.map_eq_some_iff.mp hp
    obtain ⟨q, hq, hlike⟩ := h.finished hleft hu
    have hname := stream.draft_sound.binds_proc hu
    obtain ⟨hreferences, huses⟩ := h.references hleft.unshadowed hname
    refine ⟨_, (other.draft.module_proc? files _).trans (congrArg _ hq), ?_, hreferences, huses,
      ?_⟩
    · unfold Module.Numbered
      rw [Draft.finish_vars_length, Draft.finish_procs_length]
      exact hlike.settle ..
    · refine h.sameLocals hleft.unshadowed i (fun k v hv => ?_) hlike.scope.locals.length_eq
      rw [SymbolTable.closeProcedure_eq] at hv
      obtain ⟨text, htext⟩ := (stream.draft_sound.scopes
        (show stream.draft.table.scope? (.proc i) = some u from hu)).names v
          (List.mem_of_getElem? hv)
      refine ⟨text, u.namelist, v.name, v.declared, ?_, htext⟩
      have hthere : stream.draft.table.scope? (.proc i) = some u := hu
      have hv : u.locals[k]? = some v := hv
      simp [SymbolTable.declaration?, hthere, hv, Variable.label]
  main := by
    show List.Forall₂ _ (stream.draft.main.resolved _) (other.draft.main.resolved _)
    rw [hmain, hmain']
    exact .nil
  files := rfl

end TokenStream.Rearranges

/-! ## Streams of declarations -/

namespace TokenStream

variable {stream : TokenStream} {tokens : List Token} {items items' : List (List Token)}

/-- The stream with these items, one behind the other. -/
def arranged (stream : TokenStream) (items : List (List Token)) : TokenStream :=
  { stream with tokens := items.flatten }

theorem declares_iff : stream.Declares tokens ↔ tokens.head?.any (·.kind.startsItem) = true ∧
    Parse.item.answers (.start (stream.only tokens)) (fun code s =>
      code.isEmpty && s.cursor.rest.isEmpty && s.problems.items.all (!·.isError)) = true := by
  constructor
  · rintro ⟨hstarts, s, hitem, hrest, hsane⟩
    refine ⟨hstarts, Parse.answers_iff.mpr ⟨[], s, hitem, ?_⟩⟩
    rw [hrest, Bool.and_eq_true]
    exact ⟨rfl, List.all_eq_true.mpr fun d hd => by rw [hsane d hd]; rfl⟩
  · rintro ⟨hstarts, hanswers⟩
    obtain ⟨code, s, hitem, haccept⟩ := Parse.answers_iff.mp hanswers
    rw [Bool.and_eq_true, Bool.and_eq_true, List.isEmpty_iff, List.isEmpty_iff] at haccept
    obtain ⟨⟨rfl, hrest⟩, hsane⟩ := haccept
    refine ⟨hstarts, s, hitem, hrest, fun d hd => ?_⟩
    simpa using List.all_eq_true.mp hsane d hd

instance (stream : TokenStream) (tokens : List Token) : Decidable (stream.Declares tokens) :=
  decidable_of_iff _ declares_iff.symm

theorem arranges_iff : stream.Arranges items ↔ stream.tokens = items.flatten ∧
    (∀ tokens ∈ items, stream.Declares tokens) ∧
    items.Pairwise fun a b => ∀ name ∈ (stream.readAlone a).table.globalNames,
      name ∉ (stream.readAlone b).table.globalNames := by
  have hnames : ∀ {tokens : List Token} {name : String},
      name ∈ (stream.readAlone tokens).table.globalNames ↔
        (stream.readAlone tokens).table.HasGlobal name :=
    fun {tokens _} => (stream.only tokens).draft_sound.mem_globalNames
  simp only [hnames]
  exact ⟨fun h => ⟨h.tokens, h.declares, h.distinct⟩, fun h => ⟨h.1, h.2.1, h.2.2⟩⟩

instance (stream : TokenStream) (items : List (List Token)) : Decidable (stream.Arranges items) :=
  decidable_of_iff _ arranges_iff.symm

theorem Assembled.perm {R : Records} (h : stream.Assembled items' R) (hperm : items.Perm items') :
    stream.Assembled items R where
  parts := by
    obtain ⟨parts, hsum, hparts⟩ := h.parts
    obtain ⟨parts', hparts', hsame⟩ := List.perm_comp_forall₂ hperm hparts
    exact ⟨parts', hsum.trans hsame.sum_eq.symm, hparts'⟩
  names name hname := by
    obtain ⟨tokens, hmem, hglobal⟩ := h.names name hname
    exact ⟨tokens, hperm.mem_iff.mpr hmem, hglobal⟩
  discarded := h.discarded
  problems := h.problems

/-- The declarations of a unit can stand in any order. -/
theorem Arranges.arranged (h : stream.Arranges items) (hperm : items'.Perm items) :
    (stream.arranged items').Arranges items' where
  tokens := rfl
  declares tokens hmem :=
    @Declares.of_only stream (stream.arranged items') tokens rfl
      (h.declares tokens (hperm.mem_iff.mp hmem))
  distinct := by
    refine (hperm.pairwise_iff fun hab name hb ha => hab name ha hb).mpr ?_
    exact h.distinct

theorem Arranges.length_le (h : stream.Arranges items) (hmem : tokens ∈ items) :
    tokens.length ≤ stream.tokens.length := by
  rw [h.tokens]
  exact (List.sublist_flatten_of_mem hmem).length_le

/-- In another order the declarations leave the same. -/
theorem Arranges.rearranges (h : stream.Arranges items) (fits : stream.Fits)
    (hproblems : ∀ d ∈ stream.problems.items, d.isError = false) (hperm : items'.Perm items) :
    stream.Rearranges (stream.arranged items') items where
  only _ := rfl
  fits := fits
  fits' := by
    have hlength : (stream.arranged items').tokens.length = stream.tokens.length := by
      rw [h.tokens]
      exact hperm.flatten.length_eq
    exact Nat.le_trans (Nat.le_of_eq hlength) fits
  declares tokens hmem := ⟨h.declares tokens hmem, Nat.le_trans (h.length_le hmem) fits⟩
  left := (h.assembled hproblems).1
  right := @Assembled.of_only (stream.arranged items') stream items (fun _ => rfl) _
    (((h.arranged hperm).assembled hproblems).1.perm hperm.symm)

/-- What was found before the unit is read stays. -/
theorem problems_subset (stream : TokenStream) :
    stream.problems.items ⊆ stream.draft.problems.items := by
  obtain ⟨x, hx⟩ := stream.completes
  exact List.Subset.trans (Steps.extends_any hx.steps).problems.subset hx.leaves.problems.subset

/-- The order of the declarations does not matter. -/
theorem parse_rearranged (h : stream.Arranges items) (fits : stream.Fits)
    (hsane : ∀ d ∈ stream.parse.diagnostics, d.isError = false)
    (hunshadowed : stream.parse.module.Unshadowed) (hperm : items'.Perm items) :
    (∀ d ∈ (stream.arranged items').parse.diagnostics, d.isError = false) ∧
      ∃ σ : Renumbering, stream.parse.module.Rearranged σ (stream.arranged items').parse.module := by
  have hclean := Draft.clean hsane
  have hproblems : ∀ d ∈ stream.problems.items, d.isError = false :=
    fun d hd => hclean.problems d (stream.problems_subset hd)
  have hrearranges := h.rearranges fits hproblems hperm
  have hmain := (h.assembled hproblems).2
  have hmain' := ((h.arranged hperm).assembled hproblems).2
  have htable := Draft.unshadowed hrearranges.left.discarded hunshadowed
  exact ⟨hrearranges.sane hsane htable hmain', hrearranges.numbers,
    hrearranges.rearranged ⟨stream.resolves_of_clean hclean, htable⟩ hmain hmain' stream.files⟩

/-- Two procedures that call each other, a variable that both use, and a procedure
from outside. -/
def crossed : TokenStream :=
  .ofString .none .default
    ("variable x := 2; procedure main begin variable i := 1; call ping(i); x := 3; end " ++
      "procedure ping(variable n) when x begin call out(n); call main; end " ++
      "import procedure out(variable m);") ⟨"a.ssl"⟩

def crossedItems : List (List Token) :=
  [crossed.tokens.take 5, (crossed.tokens.drop 5).take 19, (crossed.tokens.drop 24).take 19,
    crossed.tokens.drop 43]

theorem crossed_arranges : crossed.Arranges crossedItems := by
  decide +kernel

theorem parse_rearranged_crossed :
    (∀ d ∈ (crossed.arranged crossedItems.reverse).parse.diagnostics, d.isError = false) ∧
      ∃ σ : Renumbering,
        crossed.parse.module.Rearranged σ (crossed.arranged crossedItems.reverse).parse.module :=
  parse_rearranged crossed_arranges (by decide +kernel) (by decide +kernel) (by decide +kernel)
    (List.reverse_perm _)

end TokenStream

end SslFrontend
