import Mathlib.Data.List.Nodup
import SslFrontend.Proofs.Symbol.Declares

/-! # Sound tables

In a sound table every name is a text of the pool it belongs to, no two globals
and no two locals of a scope have the same name, and every place and every
value is one that is known.  Declarations keep tables sound, and so do headers.
-/

namespace SslFrontend

/-- Variables that can be told apart by names of a pool, at known places and
with known values. -/
structure SoundVariables (known : Position → Prop) (names strings : Pool)
    (vs : List Variable) : Prop where
  names : ∀ v ∈ vs, ∃ text, names.find? text = some v.name
  distinct : (vs.map Variable.name).Nodup
  placed : ∀ v ∈ vs, known v.declared
  values : ∀ v ∈ vs, v.value.ResolvesIn strings

namespace SoundVariables

variable {known : Position → Prop} {names strings : Pool} {vs : List Variable}

theorem nil (known : Position → Prop) (names strings : Pool) :
    SoundVariables known names strings [] := by
  constructor <;> simp

theorem grows (h : SoundVariables known names strings vs) {names' strings' : Pool}
    (hn : names.Grows names') (hs : strings.Grows strings') :
    SoundVariables known names' strings' vs where
  names v hv := by
    obtain ⟨text, ht⟩ := h.names v hv
    exact ⟨text, hn.find? ht⟩
  distinct := h.distinct
  placed := h.placed
  values v hv := (h.values v hv).grows hs

/-- One more variable under a name that no other one has. -/
theorem declare (h : SoundVariables known names strings vs) {handle : Handle} {text : String}
    {scope : VarScope} {pos : Position} (hfound : names.find? text = some handle)
    (fresh : ∀ v ∈ vs, v.name ≠ handle) (site : known pos) :
    SoundVariables known names strings (vs ++ [.fresh handle scope pos]) := by
  constructor
  · simpa [or_imp, forall_and, Variable.fresh] using ⟨h.names, text, hfound⟩
  · rw [List.map_append, List.nodup_append]
    refine ⟨h.distinct, by simp, ?_⟩
    intro a ha b hb
    obtain ⟨v, hv, rfl⟩ := List.mem_map.mp ha
    obtain rfl : b = handle := by simpa [Variable.fresh] using hb
    exact fresh v hv
  · simpa [or_imp, forall_and, Variable.fresh] using ⟨h.placed, site⟩
  · simpa [or_imp, forall_and, Variable.fresh] using ⟨h.values, Value.ResolvesIn.int 0 strings⟩

theorem adjust (h : SoundVariables known names strings vs) {f : Variable → Variable}
    (hf : Adjusts strings f) (i : Nat) :
    SoundVariables known names strings (vs.modify i f) := by
  have hmem : ∀ w ∈ vs.modify i f, ∃ v ∈ vs, w = v ∨ w = f v := by
    intro w hw
    obtain ⟨j, hj⟩ := List.getElem?_of_mem hw
    obtain ⟨v, hv, hcases⟩ := SymbolTable.getElem?_modify_cases hj
    exact ⟨v, List.mem_of_getElem? hv, hcases.imp_right And.right⟩
  constructor
  · intro w hw
    obtain ⟨v, hv, rfl | rfl⟩ := hmem w hw
    · exact h.names w hv
    · rw [hf.name]
      exact h.names v hv
  · rw [SymbolTable.map_modify fun v _ => hf.name v]
    exact h.distinct
  · intro w hw
    obtain ⟨v, hv, rfl | rfl⟩ := hmem w hw
    · exact h.placed w hv
    · rw [hf.declared]
      exact h.placed v hv
  · intro w hw
    obtain ⟨v, hv, rfl | rfl⟩ := hmem w hw
    · exact h.values w hv
    · rcases hf.value v with hsame | hresolves
      · rw [hsame]
        exact h.values v hv
      · exact hresolves

end SoundVariables

namespace SymbolTable

/-- Names of all globals. -/
def globals (t : SymbolTable) : List Handle :=
  t.vars.map Variable.name ++ t.procs.map Procedure.name

structure Sound (known : Position → Prop) (t : SymbolTable) : Prop where
  space : t.strings.id = .space
  vars : SoundVariables known t.strings t.strings t.vars
  distinct : t.globals.Nodup
  procs_named : ∀ p ∈ t.procs, ∃ text, t.strings.find? text = some p.name
  procs_placed : ∀ p ∈ t.procs, known p.declared
  namelists : ∀ {i : Nat} {p : Procedure}, t.procs[i]? = some p → p.namelist.id = .namelist i
  scopes : ∀ {sc : ScopeId} {p : Procedure}, t.scope? sc = some p →
    SoundVariables known p.namelist t.strings p.locals

variable {known : Position → Prop} {t u : SymbolTable}

theorem Sound.empty (known : Position → Prop) : SymbolTable.empty.Sound known := by
  constructor
  · rfl
  · exact .nil known _ _
  · exact List.nodup_nil
  · exact fun p hp => absurd hp List.not_mem_nil
  · exact fun p hp => absurd hp List.not_mem_nil
  · exact fun h => nomatch h
  · intro sc p h
    cases sc <;> cases h

theorem Sound.names (h : t.Sound known) :
    ∀ handle ∈ t.globals, ∃ text, t.strings.find? text = some handle := by
  intro handle hmem
  rcases List.mem_append.mp hmem with hmem | hmem
  · obtain ⟨v, hv, rfl⟩ := List.mem_map.mp hmem
    exact h.vars.names v hv
  · obtain ⟨p, hp, rfl⟩ := List.mem_map.mp hmem
    exact h.procs_named p hp

theorem not_mem_globals_of_lookupGlobal {name : String} {handle : Handle}
    (hl : t.lookupGlobal name = none) (hf : t.strings.find? name = some handle) :
    handle ∉ t.globals := by
  unfold lookupGlobal at hl
  simp only [hf, Option.bind_eq_bind, Option.bind_some] at hl
  cases hv : t.vars.findIdx? (·.name == handle) with
  | some i =>
      simp only [hv] at hl
      cases hl
  | none =>
      simp only [hv] at hl
      have hp := Option.map_eq_none_iff.mp hl
      rw [List.findIdx?_eq_none_iff] at hv hp
      intro hmem
      rcases List.mem_append.mp hmem with hmem | hmem
      · obtain ⟨v, hvar, rfl⟩ := List.mem_map.mp hmem
        exact absurd (hv v hvar) (by simp)
      · obtain ⟨p, hproc, rfl⟩ := List.mem_map.mp hmem
        exact absurd (hp p hproc) (by simp)

/-- The handle of a text that no global has is new. -/
theorem Sound.fresh_of_lookupGlobal (h : t.Sound known) {name : String} {handle : Handle}
    {strings : Pool} (hl : t.lookupGlobal name = none)
    (hi : t.strings.intern name = .ok (handle, strings)) : handle ∉ t.globals :=
  Pool.fresh_of_intern h.names hi fun _ => not_mem_globals_of_lookupGlobal hl

/-- A text that finds no local is the name of none. -/
theorem not_mem_locals_of_findLocal? {p : Procedure} {name : String} {handle : Handle}
    (hl : p.findLocal? name = none) (hf : p.namelist.find? name = some handle) :
    handle ∉ p.locals.map Variable.name := by
  unfold Procedure.findLocal? at hl
  rw [hf] at hl
  intro hmem
  obtain ⟨v, hv, rfl⟩ := List.mem_map.mp hmem
  have hall := List.findIdx?_eq_none_iff.mp hl v hv
  simp at hall

theorem findLocal?_of_lookupLocal {sc : ScopeId} {p : Procedure} {name : String}
    (hp : t.scope? sc = some p) (hl : t.lookupLocal sc name = none) :
    p.findLocal? name = none := by
  have hnone : (p.findLocal? name).map (Symbol.inner sc) = none := by
    unfold lookupLocal at hl
    rwa [hp] at hl
  exact Option.map_eq_none_iff.mp hnone

/-- The handle of a text that no local of a scope has is new to them. -/
theorem Sound.fresh_of_lookupLocal (h : t.Sound known) {sc : ScopeId} {p : Procedure}
    {name : String} {handle : Handle} {namelist : Pool} (hp : t.scope? sc = some p)
    (hl : t.lookupLocal sc name = none) (hi : p.namelist.intern name = .ok (handle, namelist)) :
    ∀ v ∈ p.locals, v.name ≠ handle := by
  have hnames : ∀ name ∈ p.locals.map Variable.name, ∃ text, p.namelist.find? text = some name :=
    List.forall_mem_map.mpr (h.scopes hp).names
  have hfresh := Pool.fresh_of_intern hnames hi fun _ =>
    not_mem_locals_of_findLocal? (findLocal?_of_lookupLocal hp hl)
  rintro v hv rfl
  exact hfresh (List.mem_map_of_mem hv)

/-! ## Changes of a part -/

theorem Sound.strings (h : t.Sound known) {strings : Pool} (hg : t.strings.Grows strings) :
    ({ t with strings := strings } : SymbolTable).Sound known where
  space := hg.id.trans h.space
  vars := h.vars.grows hg hg
  distinct := h.distinct
  procs_named p hp := by
    obtain ⟨text, ht⟩ := h.procs_named p hp
    exact ⟨text, hg.find? ht⟩
  procs_placed := h.procs_placed
  namelists := h.namelists
  scopes := by
    intro sc p hp
    have hold : t.scope? sc = some p := by cases sc <;> exact hp
    exact (h.scopes hold).grows (.refl _) hg

theorem Sound.modifyScope (h : t.Sound known) {id : ScopeId} {f : Procedure → Procedure}
    (hlabel : ∀ p, (f p).label = p.label)
    (hid : ∀ i p, id = .proc i → t.scope? id = some p → (f p).namelist.id = .namelist i)
    (hf : ∀ p, t.scope? id = some p →
      SoundVariables known (f p).namelist t.strings (f p).locals) :
    (t.modifyScope id f).Sound known := by
  have hname : ∀ p, (f p).name = p.name := fun p => congrArg Prod.fst (hlabel p)
  have hplace : ∀ p, (f p).declared = p.declared := fun p => congrArg Prod.snd (hlabel p)
  have hscopes : ∀ {sc : ScopeId} {q : Procedure}, (t.modifyScope id f).scope? sc = some q →
      SoundVariables known q.namelist t.strings q.locals := by
    intro sc q hq
    by_cases hsc : sc = id
    · subst hsc
      rw [scope?_modifyScope_self] at hq
      obtain ⟨p, hp, rfl⟩ := Option.map_eq_some_iff.mp hq
      exact hf p hp
    · rw [scope?_modifyScope_of_ne _ _ _ hsc] at hq
      exact h.scopes hq
  cases id with
  | discarded k =>
      exact ⟨h.space, h.vars, h.distinct, h.procs_named, h.procs_placed, h.namelists, hscopes⟩
  | proc i =>
      refine ⟨h.space, h.vars, ?_, ?_, ?_, ?_, hscopes⟩
      · show (t.vars.map Variable.name ++ (t.procs.modify i f).map Procedure.name).Nodup
        rw [map_modify fun p _ => hname p]
        exact h.distinct
      · intro q hq
        obtain ⟨j, hj⟩ := List.getElem?_of_mem hq
        obtain ⟨p, hp, rfl | ⟨_, rfl⟩⟩ := getElem?_modify_cases hj
        · exact h.procs_named q (List.mem_of_getElem? hp)
        · exact hname p ▸ h.procs_named p (List.mem_of_getElem? hp)
      · intro q hq
        obtain ⟨j, hj⟩ := List.getElem?_of_mem hq
        obtain ⟨p, hp, rfl | ⟨_, rfl⟩⟩ := getElem?_modify_cases hj
        · exact h.procs_placed q (List.mem_of_getElem? hp)
        · exact hplace p ▸ h.procs_placed p (List.mem_of_getElem? hp)
      · intro j q hq
        obtain ⟨p, hp, rfl | ⟨rfl, rfl⟩⟩ := getElem?_modify_cases hq
        · exact h.namelists hp
        · exact hid i p rfl hp

theorem Sound.modifyScope_of_locals (h : t.Sound known) {id : ScopeId}
    {f : Procedure → Procedure} (hlabel : ∀ p, (f p).label = p.label)
    (hnames : ∀ p, (f p).namelist = p.namelist) (hlocals : ∀ p, (f p).locals = p.locals) :
    (t.modifyScope id f).Sound known := by
  refine h.modifyScope hlabel ?_ fun p hp => ?_
  · rintro i p rfl hp
    rw [hnames]
    exact h.namelists hp
  · rw [hnames, hlocals]
    exact h.scopes hp

/-! ## Edits -/

theorem Sound.declareVar (h : t.Sound known) {name : String} {scope : VarScope}
    {pos : Position} {symbol : Symbol} (site : known pos)
    (hd : t.declareVar name scope pos = .ok (symbol, u)) : u.Sound known := by
  obtain ⟨hl, handle, strings, hi, _, rfl⟩ := declareVar_spec hd
  have hfresh := h.fresh_of_lookupGlobal hl hi
  obtain ⟨hgrows, hfound⟩ := Pool.intern_spec hi
  have hstrings := h.strings hgrows
  constructor
  · exact hstrings.space
  · refine hstrings.vars.declare hfound ?_ site
    rintro v hv rfl
    exact hfresh (List.mem_append_left _ (List.mem_map_of_mem hv))
  · show ((t.vars ++ [_]).map Variable.name ++ t.procs.map Procedure.name).Nodup
    rw [List.map_append, List.append_assoc]
    exact List.nodup_middle.mpr (List.nodup_cons.mpr ⟨hfresh, h.distinct⟩)
  · exact hstrings.procs_named
  · exact hstrings.procs_placed
  · exact hstrings.namelists
  · intro sc p hp
    have hold : ({ t with strings := strings } : SymbolTable).scope? sc = some p := by
      cases sc <;> exact hp
    exact hstrings.scopes hold

theorem Sound.declareLocal (h : t.Sound known) {scope : ScopeId} {name : String}
    {pos : Position} {symbol : Symbol} (site : known pos)
    (hd : t.declareLocal scope name pos = .ok (symbol, u)) : u.Sound known := by
  obtain ⟨p, handle, namelist, hp, hl, hi, _, rfl⟩ := declareLocal_spec hd
  have hfresh := h.fresh_of_lookupLocal hp hl hi
  obtain ⟨hgrows, hfound⟩ := Pool.intern_spec hi
  refine h.modifyScope (fun _ => rfl) ?_ fun q hq => ?_
  · rintro i q rfl hq
    rw [hp] at hq
    exact hgrows.id.trans (h.namelists hp)
  · rw [hp] at hq
    obtain rfl := Option.some.inj hq
    exact ((h.scopes hp).grows hgrows (.refl _)).declare hfound hfresh site

theorem Sound.modifyVariable (h : t.Sound known) (symbol : Symbol) {f : Variable → Variable}
    (hf : Adjusts t.strings f) : (t.modifyVariable symbol f).Sound known := by
  cases symbol with
  | global i =>
      constructor
      · exact h.space
      · exact h.vars.adjust hf i
      · show ((t.vars.modify i f).map Variable.name ++ t.procs.map Procedure.name).Nodup
        rw [map_modify fun v _ => hf.name v]
        exact h.distinct
      · exact h.procs_named
      · exact h.procs_placed
      · exact h.namelists
      · intro sc p hp
        have hold : t.scope? sc = some p := by cases sc <;> exact hp
        exact h.scopes hold
  | inner scope i =>
      refine h.modifyScope (fun _ => rfl) ?_ fun p hp => (h.scopes hp).adjust hf i
      rintro k p rfl hp
      have hnamelist : p.namelist.id = .namelist k := h.namelists hp
      exact hnamelist
  | proc i => exact h
  | builtin i => exact h

theorem Edit.sound (h : Edit known t u) (ht : t.Sound known) : u.Sound known := by
  cases h with
  | intern h => exact ht.strings (Pool.intern_spec h).1
  | declareVar site h => exact ht.declareVar site h
  | declareLocal site h => exact ht.declareLocal site h
  | adjust symbol h => exact ht.modifyVariable symbol h
  | count scope most least =>
      exact ht.modifyScope_of_locals (fun _ => rfl) (fun _ => rfl) fun _ => rfl

theorem Edits.sound (h : Edits known t u) (ht : t.Sound known) : u.Sound known := by
  induction h with
  | refl => exact ht
  | tail _ h ih => exact h.sound ih

/-! ## Headers -/

theorem Sound.opened (h : t.Sound known) {header : Header} {handle : Handle} {strings : Pool}
    {modifiers : Modifiers} (fresh : t.lookupGlobal header.name = none)
    (hi : t.strings.intern header.name = .ok (handle, strings)) (site : known header.pos) :
    (t.opened header handle strings modifiers).Sound known := by
  have hfresh := h.fresh_of_lookupGlobal fresh hi
  obtain ⟨hgrows, hfound⟩ := Pool.intern_spec hi
  have hstrings := h.strings hgrows
  constructor
  · exact hstrings.space
  · exact hstrings.vars
  · show (t.vars.map Variable.name ++ (t.procs ++ [_]).map Procedure.name).Nodup
    rw [List.map_append, ← List.append_assoc, List.nodup_append_comm]
    exact List.nodup_cons.mpr ⟨hfresh, h.distinct⟩
  · simpa [SymbolTable.opened, or_imp, forall_and, Procedure.fresh] using
      ⟨hstrings.procs_named, header.name, hfound⟩
  · simpa [SymbolTable.opened, or_imp, forall_and, Procedure.fresh] using
      ⟨hstrings.procs_placed, site⟩
  · intro i p hp
    have hscope : (t.opened header handle strings modifiers).scope? (.proc i) = some p := hp
    rcases scope?_opened_cases hscope with hold | ⟨hnone, rfl⟩
    · exact h.namelists hold
    · have hlt := (List.getElem?_eq_some_iff.mp hp).1
      have hle : t.procs.length ≤ i := List.getElem?_eq_none_iff.mp hnone
      simp only [SymbolTable.opened, List.length_append, List.length_singleton] at hlt
      obtain rfl : i = t.procs.length := by omega
      rfl
  · intro sc p hp
    rcases scope?_opened_cases hp with hold | ⟨_, rfl⟩
    · exact (h.scopes hold).grows (.refl _) hgrows
    · exact .nil _ _ _

theorem Sound.cleared (h : t.Sound known) (index : Nat) (trigger : Trigger)
    (modifiers : Modifiers) : (t.cleared index trigger modifiers).Sound known := by
  refine h.modifyScope (fun _ => rfl) ?_ fun p hp => .nil _ _ _
  rintro i p ⟨⟩ _
  rfl

theorem Declares.sound {header : Header} {verdict : Verdict} (h : Declares t header verdict u)
    (hp : ParamsKnown known t.strings header.params) (site : known header.pos)
    (ht : t.Sound known) : u.Sound known := by
  cases h with
  | reject named => exact ht
  | first fresh interned _ =>
      exact (setParams_edits (opened_known interned hp)).sound (ht.opened fresh interned site)
  | announce _ _ => exact ht.modifyScope_of_locals (fun _ => rfl) (fun _ => rfl) fun _ => rfl
  | define _ _ _ => exact (setParams_edits (cleared_known hp)).sound (ht.cleared _ _ _)

theorem Sound.declareDiscarded (h : t.Sound known) {header : Header} {scope : ScopeId}
    {problems : List Diagnostic} (hp : ParamsKnown known t.strings header.params)
    (hd : t.declareDiscarded header = .ok (scope, u, problems)) : u.Sound known := by
  obtain ⟨handle, namelist, rfl, rfl⟩ := declareDiscarded_spec hd
  have hparams : ParamsKnown known (t.disowned header handle namelist).strings header.params := hp
  refine (setParams_edits hparams).sound
    ⟨h.space, h.vars, h.distinct, h.procs_named, h.procs_placed, h.namelists, ?_⟩
  intro sc p hsc
  rcases scope?_disowned_cases hsc with hold | ⟨_, rfl⟩
  · exact h.scopes hold
  · exact .nil _ _ _

end SymbolTable

end SslFrontend
