import SslFrontend.Proofs.Symbol.Binds

/-! # Where symbols are declared

What is declared is new, and nothing else moves.  The locals of a procedure whose
parameters were just set are those of its parameters that were declared, each at
the place of the parameter; any other parameter has the name of one of them, or a
name that no pool takes.
-/

namespace SslFrontend

namespace Pool

/-- Only a text with a NUL is refused. -/
theorem nul_of_intern_error {pool : Pool} {text : String} {error : PoolError}
    (h : pool.intern text = .error error) : '\x00' ∈ text.toList := by
  unfold intern at h
  split at h
  · cases h
  · split at h
    · assumption
    · cases h

theorem clean_of_find? {pool : Pool} {text : String} {handle : Handle}
    (h : pool.find? text = some handle) : '\x00' ∉ text.toList := by
  obtain ⟨offset, hoffset, _⟩ := Option.map_eq_some_iff.mp h
  refine pool.noNul text (Classical.not_not.mp fun hmem => ?_)
  rw [offsetOf?_eq_none_iff.mpr hmem] at hoffset
  cases hoffset

end Pool

namespace SymbolTable

variable {t u : SymbolTable} {name : String} {symbol : Symbol}

theorem Binds.clean (h : t.Binds name symbol) : '\x00' ∉ name.toList := by
  obtain ⟨_, _, _, _, hfound⟩ := h
  exact Pool.clean_of_find? hfound

/-- What is bound is somewhere. -/
theorem Binds.placed (h : t.Binds name symbol) : ∃ pos, t.siteOf? symbol = some pos := by
  obtain ⟨_, _, pos, hentry, _⟩ := h
  exact ⟨pos, siteOf?_of_declaration? hentry⟩

/-- A name that a local has is found. -/
theorem Binds.lookupLocal {scope : ScopeId} {i : Nat} (h : t.Binds name (.inner scope i)) :
    ∃ found, t.lookupLocal scope name = some found := by
  obtain ⟨pool, handle, pos, hentry, hfound⟩ := h
  obtain ⟨p, hp, hlocal⟩ := Option.bind_eq_some_iff.mp hentry
  obtain ⟨v, hv, heq⟩ := Option.map_eq_some_iff.mp hlocal
  cases heq
  cases hindex : p.locals.findIdx? (·.name == v.name) with
  | some j => exact ⟨_, lookupLocal_eq_some.mpr ⟨p, v.name, j, hp, hfound, hindex, rfl⟩⟩
  | none =>
      have hnot := List.findIdx?_eq_none_iff.mp hindex v (List.mem_of_getElem? hv)
      simp at hnot

/-! ## Frames -/

theorem siteOf?_inner_congr {scope : ScopeId} {p q : Procedure} (hp : t.scope? scope = some p)
    (hq : u.scope? scope = some q)
    (hlocals : q.locals.map Variable.label = p.locals.map Variable.label) (i : Nat) :
    u.siteOf? (.inner scope i) = t.siteOf? (.inner scope i) := by
  have hplaces : q.locals.map Variable.declared = p.locals.map Variable.declared := by
    have hsnd := congrArg (List.map Prod.snd) hlocals
    rwa [List.map_map, List.map_map] at hsnd
  simp only [siteOf?, hp, hq, Option.bind_some]
  rw [← List.getElem?_map, ← List.getElem?_map, hplaces]

theorem siteOf?_proc_modifyScope {scope : ScopeId} {f : Procedure → Procedure}
    (hf : ∀ p, (f p).declared = p.declared) (i : Nat) :
    (t.modifyScope scope f).siteOf? (.proc i) = t.siteOf? (.proc i) := by
  cases scope with
  | discarded k => rfl
  | proc k =>
      have hplaces : (t.procs.modify k f).map Procedure.declared =
          t.procs.map Procedure.declared := map_modify fun p _ => hf p
      show (t.procs.modify k f)[i]?.map Procedure.declared = t.procs[i]?.map Procedure.declared
      rw [← List.getElem?_map, ← List.getElem?_map, hplaces]

theorem siteOf?_modifyVariable {f : Variable → Variable} (hf : ∀ v, (f v).label = v.label)
    (changed symbol : Symbol) : (t.modifyVariable changed f).siteOf? symbol = t.siteOf? symbol := by
  have hplace : ∀ v, (f v).declared = v.declared := fun v => congrArg Prod.snd (hf v)
  cases changed with
  | proc | builtin => rfl
  | global i =>
      cases symbol with
      | global j =>
          show (t.vars.modify i f)[j]?.map Variable.declared = t.vars[j]?.map Variable.declared
          rw [← List.getElem?_map, ← List.getElem?_map, map_modify fun v _ => hplace v]
      | inner scope j => cases scope <;> rfl
      | _ => rfl
  | inner scope i =>
      cases symbol with
      | inner sc j =>
          by_cases hsc : sc = scope
          · subst hsc
            cases hp : t.scope? sc with
            | none => simp [siteOf?, modifyVariable, scope?_modifyScope_self, hp]
            | some p =>
                have hq : (t.modifyVariable (.inner sc i) f).scope? sc =
                    some { p with locals := p.locals.modify i f } := by
                  rw [modifyVariable, scope?_modifyScope_self, hp]
                  rfl
                exact siteOf?_inner_congr hp hq (map_modify fun v _ => hf v) j
          · simp [siteOf?, modifyVariable, scope?_modifyScope_of_ne _ _ _ hsc]
      | global j => simp [siteOf?, modifyVariable]
      | proc j => exact siteOf?_proc_modifyScope (fun _ => by rfl) j
      | builtin j => rfl

/-- What is declared is new, and nothing else moves. -/
structure Adds (t u : SymbolTable) (symbol : Symbol) (pos : Position) : Prop where
  new : t.siteOf? symbol = none
  there : u.siteOf? symbol = some pos
  kept : ∀ other, other ≠ symbol → u.siteOf? other = t.siteOf? other

theorem declareVar_adds {kind : VarScope} {pos : Position}
    (h : t.declareVar name kind pos = .ok (symbol, u)) : t.Adds u symbol pos := by
  obtain ⟨_, handle, strings, _, rfl, rfl⟩ := declareVar_spec h
  refine ⟨by simp [siteOf?], by simp [siteOf?, Variable.fresh], fun other hne => ?_⟩
  cases other with
  | global i =>
      have hi : i ≠ t.vars.length := fun heq => hne (heq ▸ rfl)
      rcases Nat.lt_or_gt_of_ne hi with hlt | hgt
      · simp only [siteOf?]
        rw [List.getElem?_append_left hlt]
      · simp only [siteOf?]
        rw [List.getElem?_eq_none (by simp; omega), List.getElem?_eq_none (by omega)]
  | inner scope i => cases scope <;> rfl
  | _ => rfl

theorem declareLocal_adds {scope : ScopeId} {pos : Position}
    (h : t.declareLocal scope name pos = .ok (symbol, u)) : t.Adds u symbol pos := by
  obtain ⟨p, handle, namelist, hp, _, _, rfl, rfl⟩ := declareLocal_spec h
  refine ⟨by simp [siteOf?, hp], ?_, fun other hne => ?_⟩
  · simp [siteOf?, scope?_modifyScope_self, hp, Variable.fresh]
  · cases other with
    | inner sc i =>
        by_cases hsc : sc = scope
        · subst hsc
          have hi : i ≠ p.locals.length := fun heq => hne (heq ▸ rfl)
          simp only [siteOf?, scope?_modifyScope_self, hp, Option.map_some, Option.bind_some]
          rcases Nat.lt_or_gt_of_ne hi with hlt | hgt
          · rw [List.getElem?_append_left hlt]
          · rw [List.getElem?_eq_none (by simp; omega), List.getElem?_eq_none (by omega)]
        · simp [siteOf?, scope?_modifyScope_of_ne _ _ _ hsc]
    | proc j => exact siteOf?_proc_modifyScope (fun _ => by rfl) j
    | global i => simp [siteOf?]
    | builtin i => rfl

theorem declareIn_adds {context : Option ScopeId} {kind : VarScope} {pos : Position}
    (h : t.declareIn context kind name pos = .ok (symbol, u)) : t.Adds u symbol pos := by
  cases context with
  | none => exact declareVar_adds h
  | some scope => exact declareLocal_adds h

/-! ## Parameters -/

section Parameters

variable {scope : ScopeId} {params : List Param}

/-- What holds of the parameters so far across each parameter, and across the
count, holds of them all. -/
theorem setParams_induct_concat {P : List Param → SymbolTable → Prop} (ht : P [] t)
    (hparam : ∀ done u problems param, P done u →
      P (done ++ [param]) (addParam scope (u, problems) param).1)
    (hcount : ∀ u most least, P params u →
      P params (u.modifyScope scope fun p => { p with numArgs := most, minArgs := least })) :
    P params (t.setParams scope params).1 := by
  have hfold : ∀ (rest done : List Param) (problems : List Diagnostic) (u : SymbolTable),
      P done u → P (done ++ rest) (rest.foldl (addParam scope) (u, problems)).1 := by
    intro rest
    induction rest with
    | nil => exact fun done _ _ hu => (List.append_nil done).symm ▸ hu
    | cons param rest ih =>
        intro done problems u hu
        have hrest := ih (done ++ [param]) (addParam scope (u, problems) param).2 _
          (hparam done u problems param hu)
        rwa [List.append_assoc] at hrest
  exact hcount _ _ _ (hfold params [] [] t ht)

/-- The locals of a scope are those of parameters. -/
structure Lists (t : SymbolTable) (scope : ScopeId) (params : List Param) : Prop where
  there : ∃ p, t.scope? scope = some p
  named : ∀ p ∈ params, '\x00' ∈ p.name.toList ∨ ∃ i, t.Binds p.name (.inner scope i)
  origin : ∀ i pos, t.siteOf? (.inner scope i) = some pos →
    ∃ p ∈ params, t.Binds p.name (.inner scope i) ∧ p.pos = pos

theorem Lists.addParam {done : List Param} (h : t.Lists scope done) (problems : List Diagnostic)
    (param : Param) :
    (SymbolTable.addParam scope (t, problems) param).1.Lists scope (done ++ [param]) := by
  cases hd : t.declareLocal scope param.name param.pos with
  | error problem =>
      have heq : (SymbolTable.addParam scope (t, problems) param).1 = t := by
        simp [SymbolTable.addParam, hd]
      rw [heq]
      refine ⟨h.there, ?_, fun i pos hpos => ?_⟩
      · refine List.forall_mem_append.mpr ⟨h.named, List.forall_mem_singleton.mpr ?_⟩
        obtain ⟨p, hp⟩ := h.there
        unfold declareLocal at hd
        simp only [hp] at hd
        cases hl : t.lookupLocal scope param.name with
        | some existing =>
            obtain ⟨hbinds, i, rfl⟩ := binds_of_lookupLocal hl
            exact .inr ⟨i, hbinds⟩
        | none =>
            simp only [hl] at hd
            cases hi : p.namelist.intern param.name with
            | error e => exact .inl (Pool.nul_of_intern_error hi)
            | ok found =>
                simp only [hi] at hd
                cases hd
      · obtain ⟨p, hp, hrest⟩ := h.origin i pos hpos
        exact ⟨p, List.mem_append_left _ hp, hrest⟩
  | ok found =>
      obtain ⟨symbol, u⟩ := found
      have heq : (SymbolTable.addParam scope (t, problems) param).1 =
          u.modifyVariable symbol (·.withValue param.default) := by
        simp [SymbolTable.addParam, hd]
      rw [heq]
      have hadds := declareLocal_adds hd
      have hinner : t.declareIn (some scope) .localVar param.name param.pos = .ok (symbol, u) := hd
      have hdeclared : u.Binds param.name symbol ∧ _ := binds_of_declareIn hinner
      have hlabel : ∀ v : Variable, (v.withValue param.default).label = v.label :=
        fun v => v.withValue_label _
      have hvalue : u.Grows (u.modifyVariable symbol (·.withValue param.default)) :=
        extends_modifyVariable hlabel
      have hgrows : t.Grows (u.modifyVariable symbol (·.withValue param.default)) :=
        (declareLocal_grows hd).trans hvalue
      obtain ⟨p, handle, namelist, hp, _, _, rfl, _⟩ := declareLocal_spec hd
      refine ⟨?_, ?_, fun i pos hpos => ?_⟩
      · obtain ⟨q, hq, _⟩ := hgrows.scopes trivial hp
        exact ⟨q, hq⟩
      · refine List.forall_mem_append.mpr ⟨fun q hq => ?_, List.forall_mem_singleton.mpr ?_⟩
        · refine (h.named q hq).imp_right fun ⟨i, hi⟩ => ⟨i, ?_⟩
          exact (hi.grows hgrows fun _ _ _ => trivial).1
        · exact .inr ⟨_, (hdeclared.1.grows hvalue fun _ _ _ => trivial).1⟩
      · rw [siteOf?_modifyVariable hlabel] at hpos
        by_cases hi : Symbol.inner scope i = .inner scope p.locals.length
        · rw [hi, hadds.there] at hpos
          rw [hi]
          exact ⟨param, List.mem_append_right _ (List.mem_singleton_self _),
            (hdeclared.1.grows hvalue fun _ _ _ => trivial).1, Option.some.inj hpos⟩
        · rw [hadds.kept _ hi] at hpos
          obtain ⟨q, hq, hbinds, hplace⟩ := h.origin i pos hpos
          exact ⟨q, List.mem_append_left _ hq,
            (hbinds.grows hgrows fun _ _ _ => trivial).1, hplace⟩

/-- Where a scope has no locals, its parameters become its locals. -/
theorem setParams_lists {p : Procedure} (hp : t.scope? scope = some p) (hempty : p.locals = []) :
    (t.setParams scope params).1.Lists scope params := by
  refine setParams_induct_concat (P := fun done u => u.Lists scope done) ?_
    (fun done u problems param hu => hu.addParam problems param) ?_
  · exact ⟨⟨p, hp⟩, by simp, by simp [siteOf?, hp, hempty]⟩
  · intro u most least hu
    have hgrows : u.Grows (u.modifyScope scope fun p =>
        { p with numArgs := most, minArgs := least }) :=
      extends_modifyScope (fun _ _ => rfl) fun _ _ _ => ⟨.refl _, List.prefix_rfl⟩
    obtain ⟨q, hq⟩ := hu.there
    refine ⟨?_, fun r hr => ?_, fun i pos hpos => ?_⟩
    · obtain ⟨q', hq', _⟩ := hgrows.scopes trivial hq
      exact ⟨q', hq'⟩
    · refine (hu.named r hr).imp_right (Exists.imp fun i hi => ?_)
      exact (hi.grows hgrows fun _ _ _ => trivial).1
    · have hcounted : (u.modifyScope scope fun p =>
          { p with numArgs := most, minArgs := least }).scope? scope =
          some { q with numArgs := most, minArgs := least } := by
        rw [scope?_modifyScope_self, hq]
        rfl
      rw [siteOf?_inner_congr hq hcounted rfl] at hpos
      obtain ⟨r, hr, hbinds, hplace⟩ := hu.origin i pos hpos
      exact ⟨r, hr, (hbinds.grows hgrows fun _ _ _ => trivial).1, hplace⟩

/-- Nothing outside the scope is touched by its parameters. -/
theorem setParams_outside : (t.setParams scope params).1.vars = t.vars ∧
    ∀ sc, sc ≠ scope → (t.setParams scope params).1.scope? sc = t.scope? sc := by
  refine setParams_induct (P := fun u => u.vars = t.vars ∧
    ∀ sc, sc ≠ scope → u.scope? sc = t.scope? sc) ⟨rfl, fun _ _ => rfl⟩ ?_ ?_
  · intro u problems param ⟨hvars, hscopes⟩
    obtain heq | ⟨symbol, v, hv, heq⟩ := @addParam_cases u scope problems param
    · rw [heq]
      exact ⟨hvars, hscopes⟩
    · rw [heq]
      obtain ⟨p, handle, namelist, _, _, _, rfl, rfl⟩ := declareLocal_spec hv
      refine ⟨by simp [modifyVariable, hvars], fun sc hsc => ?_⟩
      rw [modifyVariable, scope?_modifyScope_of_ne _ _ _ hsc, scope?_modifyScope_of_ne _ _ _ hsc]
      exact hscopes sc hsc
  · intro u ⟨hvars, hscopes⟩
    refine ⟨by simp [hvars], fun sc hsc => ?_⟩
    rw [scope?_modifyScope_of_ne _ _ _ hsc]
    exact hscopes sc hsc

end Parameters

/-! ## Headers -/

section Headers

variable {header : Header} {verdict : Verdict}

theorem siteOf?_global_congr (h : u.vars = t.vars) (i : Nat) :
    u.siteOf? (.global i) = t.siteOf? (.global i) := by
  simp [siteOf?, h]

theorem siteOf?_inner_of_scope? {scope : ScopeId} (h : u.scope? scope = t.scope? scope) (i : Nat) :
    u.siteOf? (.inner scope i) = t.siteOf? (.inner scope i) := by
  simp [siteOf?, h]

/-- A header declares no variable. -/
theorem Declares.vars (h : Declares t header verdict u) : u.vars = t.vars := by
  cases h with
  | reject named => rfl
  | first fresh interned hverdict => exact setParams_outside.1
  | announce there htrigger => simp
  | define there open_ htrigger => exact setParams_outside.1.trans (by simp [cleared])

/-- A header moves no local, unless it is that of a definition. -/
theorem Declares.siteOf?_inner (h : Declares t header verdict u) {scope : ScopeId} {p : Procedure}
    (hp : t.scope? scope = some p) (hv : ∀ index, verdict = .define index → scope ≠ .proc index)
    (i : Nat) : u.siteOf? (.inner scope i) = t.siteOf? (.inner scope i) := by
  cases h with
  | reject named => rfl
  | @first handle strings modifiers verdict fresh interned hverdict =>
      have hne : scope ≠ .proc t.procs.length := by
        rintro rfl
        have hlt : t.procs[t.procs.length]? = some p := hp
        simp at hlt
      refine siteOf?_inner_of_scope? ?_ i
      rw [setParams_outside.2 scope hne, scope?_opened hp, hp]
  | @announce index trigger modifiers q there htrigger =>
      by_cases hsc : scope = .proc index
      · subst hsc
        exact siteOf?_inner_congr (q := { p with trigger := trigger, modifiers := modifiers }) hp
          (by rw [scope?_modifyScope_self, hp]; rfl) rfl i
      · exact siteOf?_inner_of_scope? (scope?_modifyScope_of_ne _ _ _ hsc) i
  | @define index trigger modifiers q there open_ htrigger =>
      have hne := hv index rfl
      refine siteOf?_inner_of_scope? ?_ i
      rw [setParams_outside.2 scope hne, cleared, scope?_modifyScope_of_ne _ _ _ hne]

/-- The locals of what is defined are its parameters, until its body is read. -/
theorem Declares.lists_of_define {index : Nat} (h : Declares t header (.define index) u) :
    u.Lists (.proc index) header.params := by
  cases h with
  | @first handle strings modifiers verdict fresh interned hverdict =>
      rcases hverdict with heq | heq <;> cases heq
      have hlast : (t.opened header handle strings modifiers).scope? (.proc t.procs.length) =
          some _ := List.getElem?_concat_length
      exact setParams_lists hlast rfl
  | @define index trigger modifiers p there open_ htrigger =>
      have hcleared : (t.cleared index trigger modifiers).scope? (.proc index) =
          some { p with
            trigger := trigger
            modifiers := modifiers
            locals := []
            namelist := .empty (.namelist index) } := by
        rw [cleared, scope?_modifyScope_self, there]
        rfl
      exact setParams_lists hcleared rfl

theorem declareDiscarded_outside {scope : ScopeId} {problems : List Diagnostic}
    (h : t.declareDiscarded header = .ok (scope, u, problems)) : u.vars = t.vars ∧
      ∀ sc p, t.scope? sc = some p → u.scope? sc = some p := by
  obtain ⟨handle, namelist, rfl, rfl⟩ := declareDiscarded_spec h
  refine ⟨setParams_outside.1, fun sc p hp => ?_⟩
  have hne : sc ≠ .discarded t.discarded.length := by
    rintro rfl
    have hlt : t.discarded[t.discarded.length]? = some p := hp
    simp at hlt
  rw [setParams_outside.2 sc hne, scope?_disowned hp]

end Headers

end SymbolTable

end SslFrontend
