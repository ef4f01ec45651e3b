import SslFrontend.Proofs.Arrangement.References
import SslFrontend.Proofs.ProperUse

/-! # Reports on declarations in another order

Where no error is reported, none is in another order.  Every name is declared, each
use fits its symbol, and every exported procedure is defined, wherever the
declarations stand.
-/

namespace SslFrontend

/-! ## The unit at the end -/

namespace Draft

variable (draft : Draft)

/-- A procedure when all names are resolved. -/
theorem resolved_proc? (j : Nat) : draft.resolved.procs[j]? = draft.table.procs[j]?.map fun p =>
    (SymbolTable.closeProcedure p).resolved draft.found := by
  show ((draft.table.procs.map SymbolTable.closeProcedure).map (·.resolved draft.found))[j]? = _
  rw [List.getElem?_map, List.getElem?_map, Option.map_map]
  rfl

/-- A procedure of the module. -/
theorem module_proc? (files : FileTable) (j : Nat) :
    (draft.finish files).module.procs[j]? = draft.table.procs[j]?.map fun p =>
      Ledger.settleProcedure draft.entries j
        ((SymbolTable.closeProcedure p).resolved draft.found) := by
  rw [finish_procs, List.getElem?_mapIdx, resolved_proc?, Option.map_map]
  rfl

/-- A variable of the module. -/
theorem module_var? (files : FileTable) (j : Nat) :
    (draft.finish files).module.vars[j]? = draft.table.vars[j]?.map fun v =>
      Ledger.settleVariable draft.entries (.global j) v := by
  have hvars : (draft.finish files).module.vars =
      draft.table.vars.mapIdx fun i v => Ledger.settleVariable draft.entries (.global i) v := rfl
  rw [hvars, List.getElem?_mapIdx]

end Draft

/-! ## Names -/

namespace TokenStream

variable (stream : TokenStream)

theorem resolves_of_clean (h : stream.draft.Clean) : stream.draft.Resolves := by
  obtain ⟨x, hx⟩ := stream.completes
  intro p hp hnone
  have hsites := (hx.known.sites p (hx.leaves.pending ▸ hp)).1
  obtain ⟨symbol, hl⟩ := Pending.lookup_of_problem? (h.pending p hp) hsites
  rw [Draft.closed_lookup, hnone] at hl
  cases hl

/-- Every name is declared if all that is mentioned means something. -/
theorem resolves_iff : stream.draft.Resolves ↔
    ∀ m ∈ stream.draft.records.citations, m.referent.meaning stream.draft.table ≠ none := by
  constructor
  · intro h m hm
    have hm : m ∈ stream.draft.ledger.citations + stream.draft.pending.citations := hm
    rcases Multiset.mem_add.mp hm with hm | hm
    · obtain ⟨e, -, rfl⟩ := List.mem_map.mp (Multiset.mem_coe.mp hm)
      exact Option.some_ne_none e.symbol
    · rw [Pending.citations_eq] at hm
      obtain ⟨p, hp, hm⟩ := List.mem_flatMap.mp (Multiset.mem_coe.mp hm)
      obtain ⟨s, -, rfl⟩ := List.mem_map.mp hm
      exact h p hp
  · intro h p hp
    obtain ⟨x, hx⟩ := stream.completes
    have hsites := (hx.known.sites p (hx.leaves.pending ▸ hp)).1
    obtain ⟨s, rest, hsome⟩ := List.exists_cons_of_ne_nil hsites
    refine h ⟨.name p.name p.context, s.2.site, .use⟩ (Multiset.mem_add.mpr (.inr ?_))
    show _ ∈ stream.draft.pending.citations
    rw [Pending.citations_eq]
    refine Multiset.mem_coe.mpr (List.mem_flatMap.mpr ⟨p, hp, List.mem_map.mpr ⟨s, ?_, rfl⟩⟩)
    rw [hsome]
    exact List.mem_cons_self

end TokenStream

/-- What the parts of a sum belong to. -/
theorem rel_sum {α β : Type} {P : α → Multiset β → Prop} {l : List α} {parts : List (Multiset β)}
    (h : List.Forall₂ P l parts) :
    (∀ b ∈ parts.sum, ∃ a ∈ l, ∃ part, P a part ∧ b ∈ part) ∧
      ∀ a ∈ l, ∃ part, P a part ∧ ∀ b ∈ part, b ∈ parts.sum := by
  induction h with
  | nil =>
      exact ⟨fun b hb => absurd hb (Multiset.notMem_zero b),
        fun a ha => absurd ha List.not_mem_nil⟩
  | @cons a part l parts hpart _ ih =>
      rw [List.sum_cons]
      constructor
      · intro b hb
        rcases Multiset.mem_add.mp hb with hb | hb
        · exact ⟨a, List.mem_cons_self, part, hpart, hb⟩
        · obtain ⟨c, hc, part', hpart', hb⟩ := ih.1 b hb
          exact ⟨c, List.mem_cons_of_mem _ hc, part', hpart', hb⟩
      · intro c hc
        rcases List.mem_cons.mp hc with rfl | hc
        · exact ⟨part, hpart, fun b hb => Multiset.mem_add.mpr (.inl hb)⟩
        · obtain ⟨part', hpart', hsub⟩ := ih.2 c hc
          exact ⟨part', hpart', fun b hb => Multiset.mem_add.mpr (.inr (hsub b hb))⟩

namespace TokenStream.Rearranges

variable {stream other : TokenStream} {items : List (List Token)}

/-- What is mentioned in the one unit is mentioned in a declaration, and so in the
other unit. -/
theorem resolves (h : Rearranges stream other items) (hleft : Plain stream.draft) :
    other.draft.Resolves := by
  refine other.resolves_iff.mpr fun m' hm' => ?_
  obtain ⟨parts, hsum, hparts⟩ := h.left.parts
  obtain ⟨parts', hsum', hparts'⟩ := h.right.parts
  rw [hsum'] at hm'
  obtain ⟨tokens, hmem, part', ⟨E', hE'⟩, hm'⟩ := (rel_sum hparts').1 m' hm'
  obtain ⟨part, ⟨E, hE⟩, hsub⟩ := (rel_sum hparts).2 tokens hmem
  have hdeclares := h.declares tokens hmem
  have hpiece : Piece stream other tokens E E' :=
    ⟨hdeclares.1, hdeclares.2, hE.toStands, hE'.toStands⟩
  obtain ⟨c, hc, hcm'⟩ := Multiset.exists_mem_of_rel_of_mem (Multiset.rel_flip.mpr hE'.cited) hm'
  obtain ⟨m, hm, hcm⟩ := Multiset.exists_mem_of_rel_of_mem hE.cited hc
  have hmeans := stream.resolves_iff.mp hleft.resolves m (hsum ▸ hsub m hm)
  have hsame := hpiece.meaning h ((stream.only tokens).isOf_of_mem_citations hc)
  have hcm' : E'.SameCitation other.draft.table c m' := hcm'
  intro hnone
  refine hmeans ((hcm.referent.meaning stream.draft_sound hleft.unshadowed).trans ?_)
  refine Option.map_eq_none_iff.mp (hsame.symm.trans (Eq.trans ?_ hnone))
  exact (hcm'.referent.meaning other.draft_sound (h.unshadowed hleft.unshadowed)).symm

theorem plain (h : Rearranges stream other items) (hleft : Plain stream.draft) :
    Plain other.draft :=
  ⟨h.resolves hleft, h.unshadowed hleft.unshadowed⟩

end TokenStream.Rearranges

/-! ## Uses -/

namespace SymbolTable

variable {t : SymbolTable} {symbol : Symbol} {pos : Position} {user : Node}

/-- How many arguments a symbol takes, if it can be called. -/
def Callable (t : SymbolTable) (symbol : Symbol) (count : Nat) : Prop :=
  (∃ i, symbol = .proc i ∨ symbol = .builtin i) ∧
    ∀ arity, t.arity? symbol = some arity → arity.admits count = true

/-- A use fits its symbol. -/
structure Fits (t : SymbolTable) (symbol : Symbol) (user : Node) : Prop where
  call : user.kind = .call → t.Callable symbol (user.value.index?.getD 0)
  store : user.kind = .store ∨ user.kind = .storeIndex →
    (∃ i, symbol = .global i) ∨ ∃ scope i, symbol = .inner scope i
  address : user.kind = .procAddr → ∃ i, symbol = .proc i

theorem callProblem?_eq_none {count : Nat} (h : t.Callable symbol count) :
    t.callProblem? symbol count pos = none := by
  obtain ⟨⟨i, hi⟩, hadmits⟩ := h
  unfold callProblem?
  rcases hi with rfl | rfl
  all_goals
    simp only
    split
    · rename_i arity harity
      rw [if_pos (hadmits arity harity)]
    · rfl

/-- What fits is not reported, and nothing else. -/
theorem useProblem?_eq_none_iff : t.useProblem? symbol pos user = none ↔ t.Fits symbol user := by
  constructor
  · exact fun h => ⟨fun hk => callee_of_useProblem? hk h, fun hk => target_of_useProblem? hk h,
      fun hk => procedure_of_useProblem? hk h⟩
  · intro h
    have hstored : user.kind = .store ∨ user.kind = .storeIndex →
        (∀ i, symbol ≠ .proc i) ∧ ∀ i, symbol ≠ .builtin i := by
      intro hk
      rcases h.store hk with ⟨j, rfl⟩ | ⟨scope, j, rfl⟩
      · exact ⟨fun _ => Symbol.noConfusion, fun _ => Symbol.noConfusion⟩
      · exact ⟨fun _ => Symbol.noConfusion, fun _ => Symbol.noConfusion⟩
    unfold useProblem?
    simp only
    split
    case h_1 hk => exact callProblem?_eq_none (h.call hk)
    case h_2 i hk => exact absurd rfl ((hstored (.inl hk)).1 i)
    case h_3 i hk => exact absurd rfl ((hstored (.inl hk)).2 i)
    case h_4 i hk => exact absurd rfl ((hstored (.inr hk)).1 i)
    case h_5 i hk => exact absurd rfl ((hstored (.inr hk)).2 i)
    case h_7 hk hother =>
      obtain ⟨i, rfl⟩ := h.address hk
      exact (hother i rfl).elim
    all_goals rfl

end SymbolTable

namespace TokenStream.Rearranges

variable {stream other : TokenStream} {items : List (List Token)}
  (h : Rearranges stream other items)

include h

/-- Nodes can carry the numbers of all variables and procedures. -/
theorem numbers_le : (∀ i < stream.draft.table.vars.length,
      i ≤ Value.maxIndex ∧ h.numbers.var i ≤ Value.maxIndex) ∧
    ∀ i < stream.draft.table.procs.length,
      i ≤ Value.maxIndex ∧ h.numbers.proc i ≤ Value.maxIndex := by
  obtain ⟨x, hx⟩ := stream.completes
  obtain ⟨y, hy⟩ := other.completes
  have hleft := hx.bounded.mono h.fits
  have hright := hy.bounded.mono h.fits'
  constructor
  · intro i hi
    obtain ⟨w, hw, -⟩ := h.var (List.getElem?_eq_getElem hi)
    have hlt := (List.getElem?_eq_some_iff.mp hw).1
    exact ⟨Nat.le_of_lt (Nat.lt_of_lt_of_le hi hleft.vars),
      Nat.le_of_lt (Nat.lt_of_lt_of_le hlt hright.vars)⟩
  · intro i hi
    obtain ⟨-, -, -, -, -, q, hq, -⟩ := h.procedure (List.getElem?_eq_getElem hi)
    have hlt := (List.getElem?_eq_some_iff.mp hq).1
    exact ⟨Nat.le_of_lt (Nat.lt_of_lt_of_le hi hleft.procs),
      Nat.le_of_lt (Nat.lt_of_lt_of_le hlt hright.procs)⟩

/-- A symbol that is mentioned is one that is mentioned in the other unit. -/
theorem symbol?_of_numbered {a b : Node} (hab : h.Numbered a b) {context : Option ScopeId}
    {s : Symbol} (hb : b.symbol? (context.map h.numbers.scope) = some s) :
    ∃ r, a.symbol? context = some r ∧ s = h.numbers.symbol r ∧
      ∀ i, r = .proc i → i < stream.draft.table.procs.length := by
  cases hab with
  | @var i hi pos =>
      obtain ⟨hle, hle'⟩ := h.numbers_le.1 i hi
      refine ⟨.global i, @Symbol.symbol?_toNode context (.global i) trivial hle pos, ?_,
        fun _ h => Symbol.noConfusion h⟩
      have hfound := @Symbol.symbol?_toNode (context.map h.numbers.scope)
        (.global (h.numbers.var i)) trivial hle' pos
      exact (Option.some.inj (hfound.symm.trans hb)).symm
  | @proc i hi pos =>
      obtain ⟨hle, hle'⟩ := h.numbers_le.2 i hi
      refine ⟨.proc i, @Symbol.symbol?_toNode context (.proc i) trivial hle pos, ?_,
        fun j hj => Symbol.proc.inj hj ▸ hi⟩
      have hfound := @Symbol.symbol?_toNode (context.map h.numbers.scope)
        (.proc (h.numbers.proc i)) trivial hle' pos
      exact (Option.some.inj (hfound.symm.trans hb)).symm
  | other var proc kind pos value =>
      have hvalue : b.value.index? = a.value.index? := by
        generalize a.value = v, b.value = w at value
        cases value <;> rfl
      unfold Node.symbol? at hb ⊢
      rw [hvalue, kind] at hb
      obtain ⟨index, hindex, hb⟩ := Option.bind_eq_some_iff.mp hb
      rw [hindex]
      simp only [Option.bind_some]
      cases hk : a.kind with
      | globalVar => exact absurd hk var
      | proc => exact absurd hk proc
      | localVar =>
          rw [hk] at hb
          simp only at hb
          cases context with
          | none => cases hb
          | some scope =>
              cases hb
              exact ⟨.inner scope index, rfl, rfl, fun _ h => Symbol.noConfusion h⟩
      | builtin =>
          rw [hk] at hb
          cases hb
          exact ⟨.builtin index, rfl, rfl, fun _ h => Symbol.noConfusion h⟩
      | _ =>
          rw [hk] at hb
          cases hb

/-- Callables take as many arguments in the other unit. -/
theorem arity? {r : Symbol} (hr : ∀ i, r = .proc i → i < stream.draft.table.procs.length) :
    other.draft.resolved.arity? (h.numbers.symbol r) = stream.draft.resolved.arity? r := by
  cases r with
  | proc i =>
      obtain ⟨_, _, _, _, _, q, hq, hlike⟩ :=
        h.procedure (List.getElem?_eq_getElem (hr i rfl))
      have hresolved : ∀ {draft : Draft} {j : Nat} {p : Procedure},
          draft.table.procs[j]? = some p →
          draft.resolved.arity? (.proc j) = some ⟨p.minArgs, p.numArgs, some p.declared⟩ := by
        intro draft j p hp
        show draft.resolved.procs[j]?.map _ = _
        rw [draft.resolved_proc?, hp, Option.map_some, SymbolTable.closeProcedure_eq]
        rfl
      refine (hresolved hq).trans (Eq.trans ?_
        (hresolved (List.getElem?_eq_getElem (hr i rfl))).symm)
      rw [hlike.shell.minArgs, hlike.shell.numArgs, hlike.shell.declared]
  | _ => rfl

/-- What fits in the one unit fits in the other. -/
theorem fits_symbol {r : Symbol} (hr : ∀ i, r = .proc i → i < stream.draft.table.procs.length)
    {user user' : Node} (huser : h.Numbered user user') (hfits : stream.draft.resolved.Fits r user) :
    other.draft.resolved.Fits (h.numbers.symbol r) user' where
  call hk := by
    rw [huser.kind_eq] at hk
    obtain ⟨hcallee, hadmits⟩ := hfits.call hk
    have hvalue : user'.value.index? = user.value.index? := by
      cases huser with
      | var _ _ => cases hk
      | proc _ _ => cases hk
      | other _ _ _ _ value =>
          generalize user.value = v, user'.value = w at value
          cases value <;> rfl
    refine ⟨?_, ?_⟩
    · obtain ⟨i, rfl | rfl⟩ := hcallee
      · exact ⟨_, .inl rfl⟩
      · exact ⟨_, .inr rfl⟩
    · rw [h.arity? hr, hvalue]
      exact hadmits
  store hk := by
    rw [huser.kind_eq] at hk
    rcases hfits.store hk with ⟨i, rfl⟩ | ⟨scope, i, rfl⟩
    · exact .inl ⟨_, rfl⟩
    · exact .inr ⟨_, _, rfl⟩
  address hk := by
    rw [huser.kind_eq] at hk
    obtain ⟨i, rfl⟩ := hfits.address hk
    exact ⟨_, rfl⟩

/-- Code without a use that is reported has none in the other unit. -/
theorem useProblems {code code' : Code} (hcode : List.Forall₂ h.Numbered code code')
    {context : Option ScopeId} (hnone : stream.draft.resolved.useProblems context code = []) :
    other.draft.resolved.useProblems (context.map h.numbers.scope) code' = [] := by
  induction hcode with
  | nil => rfl
  | @cons operand operand' rest rest' hab hrest ih =>
      cases hrest with
      | nil => rfl
      | @cons user user' rest rest' huser htail =>
          unfold SymbolTable.useProblems at hnone ⊢
          obtain ⟨hfound, hothers⟩ := List.append_eq_nil_iff.mp hnone
          refine List.append_eq_nil_iff.mpr ⟨?_, ih hothers⟩
          rw [Option.toList_eq_nil_iff, Option.bind_eq_none_iff] at hfound ⊢
          intro s hs
          obtain ⟨r, hr, rfl, hproc⟩ := h.symbol?_of_numbered hab hs
          exact SymbolTable.useProblem?_eq_none_iff.mpr (h.fits_symbol hproc huser
            (SymbolTable.useProblem?_eq_none_iff.mp (hfound r hr)))

/-- At the end no use is reported in the other unit. -/
theorem allUseProblems (hleft : Plain stream.draft)
    (hnone : stream.draft.resolved.allUseProblems (stream.draft.main.resolved stream.draft.found) =
      []) (hmain : other.draft.main = []) :
    other.draft.resolved.allUseProblems (other.draft.main.resolved other.draft.found) = [] := by
  obtain ⟨-, hscopes⟩ := SymbolTable.useProblems_of_allUseProblems hnone
  have hdiscarded : other.draft.resolved.discarded = [] := by
    show other.draft.table.discarded.map _ = []
    rw [show other.draft.table.discarded = [] from h.right.discarded]
    rfl
  unfold SymbolTable.allUseProblems
  rw [hmain, hdiscarded]
  refine List.append_eq_nil_iff.mpr ⟨List.append_eq_nil_iff.mpr ⟨rfl, ?_⟩, rfl⟩
  refine List.flatten_eq_nil_iff.mpr fun found hfound => ?_
  obtain ⟨j, hj, rfl⟩ := List.mem_mapIdx.mp hfound
  have hq := List.getElem?_eq_getElem hj
  rw [Draft.resolved_proc?] at hq
  obtain ⟨q, hq, hq'⟩ := Option.map_eq_some_iff.mp hq
  obtain ⟨_, _, _, _, _, p, hp, -⟩ := h.symm.procedure hq
  have hlabel := other.draft_sound.binds_proc hq
  have hback : h.numbers.proc (h.symm.numbers.proc j) = j := h.symm.proc_inverse hlabel
  obtain ⟨q₂, hq₂, hlike⟩ := h.finished hleft hp
  rw [hback] at hq₂
  cases hq.symm.trans hq₂
  obtain ⟨hbody, hcondition⟩ := hscopes (.proc (h.symm.numbers.proc j)) _
    ((stream.draft.resolved_proc? _).trans (congrArg _ hp))
  rw [← hq']
  refine List.append_eq_nil_iff.mpr ⟨?_, ?_⟩
  · have hgood := h.useProblems hlike.shell.body hbody
    have hscope : Option.map h.numbers.scope (some (.proc (h.symm.numbers.proc j))) =
        some (.proc j) := congrArg (fun i => some (ScopeId.proc i)) hback
    rwa [hscope] at hgood
  · have htrigger := hlike.shell.trigger
    generalize ((SymbolTable.closeProcedure p).resolved stream.draft.found).trigger = a,
      ((SymbolTable.closeProcedure q).resolved other.draft.found).trigger = b
      at hcondition htrigger ⊢
    cases htrigger with
    | none => rfl
    | timed time => rfl
    | conditional hcode => exact h.useProblems hcode hcondition

/-- Whether a procedure lacks a body that it needs does not depend on the order. -/
theorem checkDefinitions
    (hnone : ∀ d ∈ stream.draft.table.checkDefinitions.2, d.isError = false) :
    ∀ d ∈ other.draft.table.checkDefinitions.2, d.isError = false := by
  intro d hd
  obtain ⟨q, hq, hproblem⟩ := List.mem_filterMap.mp hd
  obtain ⟨j, hj⟩ := List.getElem?_of_mem hq
  obtain ⟨_, _, _, _, _, p, hp, hlike⟩ := h.symm.procedure hj
  unfold SymbolTable.undefinedProblem? at hproblem
  split at hproblem
  · cases hproblem
  · rename_i hdefined
    split at hproblem
    · rename_i hexported
      have hreported := hnone _ (List.mem_filterMap.mpr ⟨p, List.mem_of_getElem? hp, by
        unfold SymbolTable.undefinedProblem?
        rw [hlike.shell.defined, hlike.shell.modifiers, if_neg hdefined, if_pos hexported]⟩)
      cases hreported
    · split at hproblem
      · cases hproblem
      · cases hproblem
        rfl

/-- If there is no error in the one unit, there is none in the other. -/
theorem sane {files files' : FileTable}
    (hsane : ∀ d ∈ (stream.draft.finish files).diagnostics, d.isError = false)
    (hunshadowed : stream.draft.table.Unshadowed) (hmain : other.draft.main = []) :
    ∀ d ∈ (other.draft.finish files').diagnostics, d.isError = false := by
  have hclean := Draft.clean hsane
  have hleft : Plain stream.draft := ⟨stream.resolves_of_clean hclean, hunshadowed⟩
  intro d hd
  rcases Draft.mem_diagnostics.mp hd with hearly | hdefinition | hpending | huse
  · exact h.right.problems d hearly
  · exact h.checkDefinitions (fun d hd => hsane d (Draft.mem_diagnostics.mpr (.inr (.inl hd)))) d
      hdefinition
  · obtain ⟨p, hp, hproblem⟩ := List.mem_filterMap.mp hpending
    have hdeclared := h.resolves hleft p hp
    unfold Pending.problem? at hproblem
    rw [Draft.closed_lookup] at hproblem
    obtain ⟨symbol, hl⟩ := Option.ne_none_iff_exists'.mp hdeclared
    rw [hl] at hproblem
    cases hproblem
  · rw [h.allUseProblems hleft hclean.uses hmain] at huse
    exact absurd huse List.not_mem_nil

end TokenStream.Rearranges

end SslFrontend
