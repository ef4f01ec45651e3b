import SslFrontend.Proofs.Symbol.Lawful

/-! # Tables that keep their names

What a table needs so that its look-ups can be trusted is about names alone:
each one is a text of the pool it belongs to, no two entries share one, and the
namelist of a procedure holds the names of its locals and nothing else.  Values
and places do not matter.  Every operation of the table keeps this, whatever it
is given.
-/

namespace SslFrontend

namespace Pool

/-- Names that are texts of the pool, each one once. -/
structure Lists (pool : Pool) (names : List Handle) : Prop where
  found : ∀ name ∈ names, ∃ text, pool.find? text = some name
  distinct : names.Nodup

namespace Lists

variable {pool grown : Pool} {names names' : List Handle}

theorem nil (pool : Pool) : pool.Lists [] := ⟨nofun, .nil⟩

theorem grows (h : pool.Lists names) (hg : pool.Grows grown) : grown.Lists names :=
  ⟨fun name hmem => (h.found name hmem).imp fun _ => hg.find?, h.distinct⟩

theorem perm (h : pool.Lists names) (hp : names.Perm names') : pool.Lists names' :=
  ⟨fun name hmem => h.found name (hp.mem_iff.mpr hmem), hp.nodup_iff.mp h.distinct⟩

/-- The name of a text that none of the names stands for. -/
theorem intern (h : pool.Lists names) {text : String} {handle : Handle}
    (hi : pool.intern text = .ok (handle, grown))
    (hnew : ∀ old, pool.find? text = some old → old ∉ names) :
    grown.Lists (handle :: names) := by
  obtain ⟨hgrows, hfound⟩ := intern_spec hi
  refine ⟨List.forall_mem_cons.mpr ⟨⟨text, hfound⟩, (h.grows hgrows).found⟩, ?_⟩
  exact List.nodup_cons.mpr ⟨fresh_of_intern h.found hi hnew, h.distinct⟩

/-- A name that is listed finds the text that it resolves to. -/
theorem find?_of_resolve (h : pool.Lists names) {name : Handle} {text : String}
    (hmem : name ∈ names) (hr : pool.resolve name = .ok text) : pool.find? text = some name := by
  obtain ⟨other, hother⟩ := h.found name hmem
  rw [resolve_find? hother] at hr
  cases hr
  exact hother

end Lists

end Pool

namespace Procedure

/-- The locals of a procedure have names of their own in its namelist, which
holds no other text if the procedure is one of the unit. -/
structure Kept (p : Procedure) (sc : ScopeId) : Prop where
  names : p.namelist.Lists (p.locals.map Variable.name)
  own : ∀ i, sc = .proc i → p.namelist.id = .namelist i ∧
    p.namelist.texts.map p.namelist.find? = (p.locals.map Variable.name).map some
  args : p.minArgs ≤ p.numArgs

namespace Kept

variable {p q : Procedure} {sc : ScopeId}

/-- Only locals, their names and the count of parameters matter. -/
theorem congr (h : p.Kept sc) (hnamelist : q.namelist = p.namelist)
    (hlocals : q.locals.map Variable.name = p.locals.map Variable.name)
    (hargs : q.minArgs ≤ q.numArgs) : q.Kept sc := by
  refine ⟨?_, fun i hi => ?_, hargs⟩
  · rw [hnamelist, hlocals]
    exact h.names
  · rw [hnamelist, hlocals]
    exact h.own i hi

/-- A procedure without locals.  If it is one of the unit, nothing is in its
namelist. -/
theorem of_nil (hlocals : p.locals = [])
    (hown : ∀ i, sc = .proc i → p.namelist = .empty (.namelist i))
    (hargs : p.minArgs ≤ p.numArgs) : p.Kept sc := by
  refine ⟨?_, fun i hi => ?_, hargs⟩
  · rw [hlocals]
    exact .nil _
  · rw [hown i hi, hlocals]
    exact ⟨rfl, rfl⟩

/-- A name that no local has becomes the name of the next one. -/
theorem declare (h : p.Kept sc) {name : String} {handle : Handle} {namelist : Pool}
    (hl : p.findLocal? name = none) (hi : p.namelist.intern name = .ok (handle, namelist))
    (pos : Position) :
    ({ p with namelist := namelist, locals := p.locals ++ [.fresh handle .localVar pos] } :
      Procedure).Kept sc := by
  have hnew : ∀ old, p.namelist.find? name = some old → old ∉ p.locals.map Variable.name :=
    fun old => SymbolTable.not_mem_locals_of_findLocal? hl
  obtain ⟨hgrows, hfound⟩ := Pool.intern_spec hi
  refine ⟨?_, fun i hsc => ?_, h.args⟩
  · refine (h.names.intern hi hnew).perm ?_
    rw [List.map_append]
    exact (List.perm_append_singleton handle _).symm
  · obtain ⟨hid, htexts⟩ := h.own i hsc
    -- The namelist holds names of locals only, so this text is new to it as well.
    have hmissing : name ∉ p.namelist.texts := by
      intro hmem
      have hname := List.mem_map_of_mem (f := p.namelist.find?) hmem
      rw [htexts] at hname
      obtain ⟨old, hold, heq⟩ := List.mem_map.mp hname
      exact hnew old heq.symm hold
    have hkept : p.namelist.texts.map namelist.find? = p.namelist.texts.map p.namelist.find? := by
      refine List.map_congr_left fun text hmem => ?_
      obtain ⟨old, hold⟩ := Option.ne_none_iff_exists'.mp
        (mt Pool.find?_eq_none_iff.mp (not_not_intro hmem))
      rw [hold, hgrows.find? hold]
    refine ⟨hgrows.id.trans hid, ?_⟩
    rw [Pool.texts_of_intern hi hmissing, List.map_append, hkept, htexts, List.map_append,
      List.map_append]
    simp [hfound, Variable.fresh]

end Kept

end Procedure

namespace SymbolTable

structure Kept (t : SymbolTable) : Prop where
  globals : t.strings.Lists t.globals
  scopes : ∀ sc p, t.scope? sc = some p → p.Kept sc

namespace Kept

variable {t u : SymbolTable}

theorem empty : SymbolTable.empty.Kept := by
  refine ⟨.nil _, fun sc p h => ?_⟩
  cases sc <;> cases h

theorem modifyScope (h : t.Kept) {id : ScopeId} {f : Procedure → Procedure}
    (hname : ∀ p, (f p).name = p.name)
    (hf : ∀ p, t.scope? id = some p → p.Kept id → (f p).Kept id) : (t.modifyScope id f).Kept := by
  constructor
  · have hglobals : (t.modifyScope id f).globals = t.globals := by
      cases id with
      | proc i =>
          show t.vars.map Variable.name ++ (t.procs.modify i f).map Procedure.name = _
          rw [map_modify fun p _ => hname p]
          rfl
      | discarded i => rfl
    rw [hglobals, strings_modifyScope]
    exact h.globals
  · intro sc q hq
    by_cases hsc : sc = id
    · subst hsc
      rw [scope?_modifyScope_self] at hq
      obtain ⟨p, hp, rfl⟩ := Option.map_eq_some_iff.mp hq
      exact hf p hp (h.scopes sc p hp)
    · rw [scope?_modifyScope_of_ne _ _ _ hsc] at hq
      exact h.scopes sc q hq

theorem modifyLocal (h : t.Kept) (scope : ScopeId) (i : Nat) {f : Variable → Variable}
    (hf : ∀ v, (f v).name = v.name) : (t.modifyVariable (.inner scope i) f).Kept :=
  h.modifyScope (fun _ => rfl) fun _ _ hp => hp.congr rfl (map_modify fun v _ => hf v) hp.args

/-- Texts may be added to the string space. -/
theorem grown (h : t.Kept) {strings : Pool} (hg : t.strings.Grows strings) :
    { t with strings := strings : SymbolTable }.Kept := by
  refine ⟨h.globals.grows hg, fun sc p hp => h.scopes sc p ?_⟩
  cases sc <;> exact hp

theorem adjust (h : t.Kept) (symbol : Symbol) {f : Variable → Variable}
    (hf : ∀ v, (f v).name = v.name) : (t.modifyVariable symbol f).Kept := by
  cases symbol with
  | inner scope i => exact h.modifyLocal scope i hf
  | proc i | builtin i => exact h
  | global i =>
      have hnames : (t.modifyVariable (.global i) f).globals = t.globals := by
        show (t.vars.modify i f).map Variable.name ++ _ = _
        rw [map_modify fun v _ => hf v]
        rfl
      refine ⟨?_, fun sc p hp => h.scopes sc p ?_⟩
      · rw [hnames, strings_modifyVariable]
        exact h.globals
      · cases sc <;> exact hp

/-! ## Variables -/

theorem declareVar (h : t.Kept) {name : String} {scope : VarScope} {pos : Position}
    {symbol : Symbol} (hd : t.declareVar name scope pos = .ok (symbol, u)) : u.Kept := by
  obtain ⟨hl, handle, strings, hi, _, rfl⟩ := declareVar_spec hd
  constructor
  · refine (h.globals.intern hi fun _ => not_mem_globals_of_lookupGlobal hl).perm ?_
    show (handle :: t.globals).Perm ((t.vars ++ [_]).map Variable.name ++ _)
    rw [List.map_append, List.append_assoc]
    exact List.perm_middle.symm
  · intro sc p hp
    have hold : t.scope? sc = some p := by cases sc <;> exact hp
    exact h.scopes sc p hold

theorem declareLocal (h : t.Kept) {scope : ScopeId} {name : String} {pos : Position}
    {symbol : Symbol} (hd : t.declareLocal scope name pos = .ok (symbol, u)) : u.Kept := by
  obtain ⟨p, handle, namelist, hp, hl, hi, _, rfl⟩ := declareLocal_spec hd
  refine h.modifyScope (fun _ => rfl) fun q hq hkept => ?_
  rw [hp] at hq
  obtain rfl := Option.some.inj hq
  exact hkept.declare (findLocal?_of_lookupLocal hp hl) hi pos

theorem declareIn (h : t.Kept) {context : Option ScopeId} {kind : VarScope} {name : String}
    {pos : Position} {symbol : Symbol}
    (hd : t.declareIn context kind name pos = .ok (symbol, u)) : u.Kept := by
  cases context with
  | none => exact h.declareVar hd
  | some scope => exact h.declareLocal hd

/-! ## Headers -/

theorem setParams (h : t.Kept) (scope : ScopeId) (params : List Param) :
    (t.setParams scope params).1.Kept := by
  refine setParams_induct h (fun u problems param hu => ?_) fun u hu => ?_
  · obtain heq | ⟨symbol, v, hv, heq⟩ := @addParam_cases u scope problems param
    · rwa [heq]
    · rw [heq]
      have hkept := hu.declareLocal hv
      obtain ⟨_, _, _, _, _, _, rfl, _⟩ := declareLocal_spec hv
      exact hkept.modifyLocal _ _ fun v => congrArg Prod.fst (v.withValue_label _)
  · exact hu.modifyScope (fun _ => rfl) fun _ _ hp => hp.congr rfl rfl (Param.required_le params)

theorem opened (h : t.Kept) {header : Header} {handle : Handle} {strings : Pool}
    {modifiers : Modifiers} (fresh : t.lookupGlobal header.name = none)
    (hi : t.strings.intern header.name = .ok (handle, strings)) :
    (t.opened header handle strings modifiers).Kept := by
  constructor
  · refine (h.globals.intern hi fun _ => not_mem_globals_of_lookupGlobal fresh).perm ?_
    show (handle :: t.globals).Perm (t.vars.map _ ++ (t.procs ++ [_]).map Procedure.name)
    rw [List.map_append, ← List.append_assoc]
    exact (List.perm_append_singleton handle t.globals).symm
  · intro sc p hp
    rcases scope?_opened_cases hp with hold | ⟨hnone, rfl⟩
    · exact h.scopes sc p hold
    · refine .of_nil rfl (fun i hi => ?_) (Nat.le_refl _)
      subst hi
      have hlt := (List.getElem?_eq_some_iff.mp
        (show (t.opened header handle strings modifiers).procs[i]? = some _ from hp)).1
      have hle : t.procs.length ≤ i := List.getElem?_eq_none_iff.mp hnone
      simp only [SymbolTable.opened, List.length_append, List.length_singleton] at hlt
      obtain rfl : i = t.procs.length := by omega
      rfl

theorem cleared (h : t.Kept) (index : Nat) (trigger : Trigger) (modifiers : Modifiers) :
    (t.cleared index trigger modifiers).Kept := by
  refine h.modifyScope (fun _ => rfl) fun p _ hp => .of_nil rfl ?_ hp.args
  rintro i ⟨⟩
  rfl

theorem declare (h : t.Kept) (header : Header) : (t.declare header).table.Kept := by
  have hspec := declare_spec t header
  generalize (t.declare header).verdict = verdict at hspec
  generalize (t.declare header).table = u at hspec ⊢
  cases hspec with
  | reject named => exact h
  | first fresh interned _ => exact (h.opened fresh interned).setParams _ _
  | announce _ _ =>
      exact h.modifyScope (fun _ => rfl) fun _ _ hp => hp.congr rfl rfl hp.args
  | define _ _ _ => exact (h.cleared _ _ _).setParams _ _

theorem declareDiscarded (h : t.Kept) {header : Header} {scope : ScopeId}
    {problems : List Diagnostic} (hd : t.declareDiscarded header = .ok (scope, u, problems)) :
    u.Kept := by
  obtain ⟨handle, namelist, rfl, rfl⟩ := declareDiscarded_spec hd
  refine setParams (t := t.disowned header handle namelist) ⟨h.globals, fun sc p hp => ?_⟩ _ _
  rcases scope?_disowned_cases hp with hold | ⟨hnone, rfl⟩
  · exact h.scopes sc p hold
  · refine .of_nil rfl (fun i hi => ?_) (Nat.le_refl _)
    -- A procedure of the unit was there before.
    subst hi
    exact absurd (hnone.symm.trans (show t.scope? (.proc i) = some _ from hp)) nofun

theorem checkDefinitions (h : t.Kept) : t.checkDefinitions.1.Kept := by
  constructor
  · have hglobals : t.checkDefinitions.1.globals = t.globals := by
      show t.vars.map _ ++ (t.procs.map closeProcedure).map Procedure.name = _
      rw [List.map_map]
      have hname : Procedure.name ∘ closeProcedure = Procedure.name := by
        funext p
        rw [Function.comp_apply, closeProcedure_eq]
      rw [hname]
      rfl
    rw [hglobals]
    exact h.globals
  · intro sc q hq
    cases sc with
    | discarded i => exact h.scopes (.discarded i) q hq
    | proc i =>
        have hmap : (t.procs.map closeProcedure)[i]? = some q := hq
        rw [List.getElem?_map] at hmap
        obtain ⟨p, hp, rfl⟩ := Option.map_eq_some_iff.mp hmap
        have hkept := h.scopes (.proc i) p hp
        rw [closeProcedure_eq]
        exact hkept.congr rfl rfl hkept.args

end Kept

end SymbolTable

end SslFrontend
