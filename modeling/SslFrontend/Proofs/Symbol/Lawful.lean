import SslFrontend.Proofs.Symbol.Linkage
import SslFrontend.Proofs.Symbol.Places

/-! # Laws of modifiers, bodies and imported variables

Import and export never meet in one procedure, a procedure has a span as soon as
it is defined, and no variable that is imported has a value of its own.
Whatever declares, changes or merges, in any order, keeps these laws.
-/

namespace SslFrontend

/-- A variable that another script gives its value. -/
def Variable.Bare (v : Variable) : Prop := v.initialized = false ∧ v.value = .int 0

/-- A variable of the unit, or a parameter or local of the scope. -/
def Symbol.IsIn : Symbol → Option ScopeId → Prop
  | .global _, none => True
  | .inner sc _, some scope => sc = scope
  | _, _ => False

structure Procedure.Lawful (p : Procedure) : Prop where
  sober : p.modifiers.conflicts = false
  span : p.span.isSome = p.defined

namespace SymbolTable

variable {t u : SymbolTable}

/-- Variables of the unit keep the scopes they are declared with. -/
def KeepsScopes (t u : SymbolTable) : Prop :=
  t.vars.map Variable.scope <+: u.vars.map Variable.scope

/-- A change of a variable's length or value.  An imported variable keeps its
value. -/
structure Amends (t : SymbolTable) (symbol : Symbol) (f : Variable → Variable) : Prop where
  label : ∀ v, (f v).label = v.label
  scope : ∀ v, (f v).scope = v.scope
  imported : ∀ i v, symbol = .global i → t.vars[i]? = some v → v.scope = .importVar →
    (f v).value = v.value ∧ (f v).initialized = v.initialized

theorem Amends.arrayLength (t : SymbolTable) (symbol : Symbol) (length : Nat) :
    t.Amends symbol fun v => { v with arrayLength := length } :=
  ⟨fun _ => rfl, fun _ => rfl, fun _ _ _ _ _ => ⟨rfl, rfl⟩⟩

theorem KeepsScopes.refl (t : SymbolTable) : t.KeepsScopes t := List.prefix_rfl

theorem KeepsScopes.trans {w : SymbolTable} (h₁ : t.KeepsScopes u) (h₂ : u.KeepsScopes w) :
    t.KeepsScopes w :=
  List.IsPrefix.trans h₁ h₂

theorem KeepsScopes.exists (h : t.KeepsScopes u) {i : Nat} {v : Variable}
    (hv : t.vars[i]? = some v) : ∃ w, u.vars[i]? = some w ∧ w.scope = v.scope := by
  obtain ⟨more, hmore⟩ := h
  have hi : (u.vars.map Variable.scope)[i]? = some v.scope := by
    have hlt : i < (t.vars.map Variable.scope).length := by
      simpa using (List.getElem?_eq_some_iff.mp hv).1
    rw [← hmore, List.getElem?_append_left hlt, List.getElem?_map, hv]
    rfl
  rw [List.getElem?_map] at hi
  exact Option.map_eq_some_iff.mp hi

theorem keepsScopes_modifyVariable (symbol : Symbol) {f : Variable → Variable}
    (hf : ∀ v, (f v).scope = v.scope) : t.KeepsScopes (t.modifyVariable symbol f) := by
  cases symbol with
  | global i =>
      have hscope : (t.vars.modify i f).map Variable.scope = t.vars.map Variable.scope :=
        map_modify fun v _ => hf v
      exact (congrArg (t.vars.map Variable.scope <+: ·) hscope).mpr List.prefix_rfl
  | inner scope i => simp [KeepsScopes, modifyVariable]
  | proc i | builtin i => exact .refl t

theorem keepsScopes_declareIn {context : Option ScopeId} {kind : VarScope} {name : String}
    {pos : Position} {symbol : Symbol}
    (h : t.declareIn context kind name pos = .ok (symbol, u)) : t.KeepsScopes u := by
  cases context with
  | none =>
      obtain ⟨_, handle, strings, _, _, rfl⟩ := declareVar_spec h
      simp [KeepsScopes]
  | some scope =>
      obtain ⟨p, handle, namelist, _, _, _, _, rfl⟩ := declareLocal_spec h
      simp [KeepsScopes]

/-- What is declared as a variable of the unit is there, in the scope that was
given. -/
theorem scope_of_declareIn {context : Option ScopeId} {kind : VarScope} {name : String}
    {pos : Position} {i : Nat} (h : t.declareIn context kind name pos = .ok (.global i, u)) :
    ∃ v, u.vars[i]? = some v ∧ v.scope = kind := by
  cases context with
  | none =>
      obtain ⟨_, handle, strings, _, hi, rfl⟩ := declareVar_spec h
      cases hi
      exact ⟨_, List.getElem?_concat_length, rfl⟩
  | some scope =>
      obtain ⟨p, handle, namelist, _, _, _, hi, _⟩ := declareLocal_spec h
      cases hi

/-- What is declared belongs to where it is declared. -/
theorem isIn_of_declareIn {context : Option ScopeId} {kind : VarScope} {name : String}
    {pos : Position} {symbol : Symbol} (h : t.declareIn context kind name pos = .ok (symbol, u)) :
    symbol.IsIn context := by
  cases context with
  | none =>
      obtain ⟨_, handle, strings, _, rfl, _⟩ := declareVar_spec h
      trivial
  | some scope =>
      obtain ⟨p, handle, namelist, _, _, _, rfl, _⟩ := declareLocal_spec h
      rfl

/-! ## The laws -/

/-- Import and export meet in no procedure. -/
def Sober (t : SymbolTable) : Prop :=
  ∀ i l, t.linkage? i = some l → l.modifiers.conflicts = false

theorem Sober.declare (h : t.Sober) (header : Header) : (t.declare header).table.Sober := by
  intro i l hl
  rcases t.declare_links header with ⟨_, _, htable⟩ | ⟨index, linkage, hjoins⟩
  · rw [htable] at hl
    exact h i l hl
  · rw [hjoins.there] at hl
    split at hl
    · subst i
      cases hl
      exact hjoins.sober (h index)
    · exact h i l hl

theorem closeProcedure_sober {p : Procedure} (h : p.modifiers.conflicts = false) :
    (closeProcedure p).modifiers.conflicts = false := by
  unfold closeProcedure
  split
  · exact h
  · exact Bool.and_false _

structure Lawful (t : SymbolTable) : Prop where
  procs : ∀ i p, t.scope? (.proc i) = some p → p.Lawful
  imported : ∀ v ∈ t.vars, v.scope = .importVar → v.Bare

namespace Lawful

theorem empty : SymbolTable.empty.Lawful :=
  ⟨fun _ _ h => absurd h (by simp [scope?, SymbolTable.empty]), fun _ => nofun⟩

/-- Procedures that keep their shells keep the laws. -/
theorem shells (h : t.Lawful) (hs : t.SameShells u)
    (hvars : ∀ v ∈ u.vars, v.scope = .importVar → v.Bare) : u.Lawful := by
  refine ⟨fun i q hq => ?_, hvars⟩
  have hsc := hs (.proc i)
  rw [hq] at hsc
  obtain ⟨p, hp, hshell⟩ := Option.map_eq_some_iff.mp hsc.symm
  have hold := h.procs i p hp
  have hmodifiers : p.modifiers = q.modifiers := congrArg (·.modifiers) hshell
  have hspan : p.span = q.span := congrArg (·.span) hshell
  have hdefined : p.defined = q.defined := congrArg (·.defined) hshell
  exact ⟨hmodifiers ▸ hold.sober, hspan ▸ hdefined ▸ hold.span⟩

theorem strings (h : t.Lawful) (strings : Pool) : ({ t with strings := strings }).Lawful :=
  ⟨h.procs, h.imported⟩

theorem declareIn (h : t.Lawful) {context : Option ScopeId} {kind : VarScope} {name : String}
    {pos : Position} {symbol : Symbol}
    (hd : t.declareIn context kind name pos = .ok (symbol, u)) : u.Lawful := by
  refine h.shells (.declareIn hd) fun v hv => ?_
  cases context with
  | none =>
      obtain ⟨_, handle, strings, _, _, rfl⟩ := declareVar_spec hd
      rcases List.mem_append.mp hv with hold | hnew
      · exact h.imported v hold
      · rw [List.mem_singleton.mp hnew]
        exact fun _ => ⟨rfl, rfl⟩
  | some scope =>
      obtain ⟨p, handle, namelist, _, _, _, _, rfl⟩ := declareLocal_spec hd
      rw [vars_modifyScope] at hv
      exact h.imported v hv

theorem amend (h : t.Lawful) {symbol : Symbol} {f : Variable → Variable}
    (hf : t.Amends symbol f) : (t.modifyVariable symbol f).Lawful := by
  refine h.shells (.modifyVariable _ _) fun v hv himported => ?_
  cases symbol with
  | global i =>
      obtain ⟨j, hj⟩ := List.mem_iff_getElem?.mp hv
      obtain ⟨w, hw, rfl | ⟨rfl, rfl⟩⟩ := getElem?_modify_cases hj
      · exact h.imported _ (List.mem_of_getElem? hw) himported
      · have hscope : w.scope = .importVar := (hf.scope w).symm.trans himported
        have hbare := h.imported w (List.mem_of_getElem? hw) hscope
        obtain ⟨hvalue, hinit⟩ := hf.imported i w rfl hw hscope
        exact ⟨hinit.trans hbare.1, hvalue.trans hbare.2⟩
  | inner scope i =>
      have hvars : (t.modifyVariable (.inner scope i) f).vars = t.vars := by simp [modifyVariable]
      rw [hvars] at hv
      exact h.imported v hv himported
  | proc i | builtin i => exact h.imported v hv himported

/-! ### Headers and bodies -/

theorem sober (h : t.Lawful) : t.Sober := by
  intro i l hl
  obtain ⟨p, hp, rfl⟩ := Option.map_eq_some_iff.mp hl
  exact (h.procs i p hp).sober

theorem declare (h : t.Lawful) (header : Header) : (t.declare header).table.Lawful := by
  have hspec := declare_spec t header
  refine ⟨fun i q hq => ⟨?_, ?_⟩, fun v hv => h.imported v (hspec.vars ▸ hv)⟩
  · exact h.sober.declare header i q.linkage (linkage?_of_scope? hq)
  · rcases hspec.coding hq with ⟨p, hp, hrecoded⟩ | ⟨_, hblank⟩
    · rw [hrecoded.span, hrecoded.defined]
      exact (h.procs i p hp).span
    · rw [hblank.span, hblank.defined]
      rfl

theorem declareDiscarded (h : t.Lawful) {header : Header} {scope : ScopeId}
    {problems : List Diagnostic} (hd : t.declareDiscarded header = .ok (scope, u, problems)) :
    u.Lawful := by
  obtain ⟨handle, namelist, rfl, rfl⟩ := declareDiscarded_spec hd
  have hopened : (t.disowned header handle namelist).Lawful := ⟨h.procs, h.imported⟩
  refine hopened.shells setParams_shells fun v hv => ?_
  rw [setParams_outside.1] at hv
  exact h.imported v hv

theorem attach (h : t.Lawful) (scope : ScopeId) {f : Procedure → Procedure}
    (hmodifiers : ∀ p, (f p).modifiers = p.modifiers)
    (hspan : ∀ p, (f p).span.isSome = (f p).defined) : (t.modifyScope scope f).Lawful := by
  refine ⟨fun i q hq => ?_, fun v hv => h.imported v (vars_modifyScope t scope f ▸ hv)⟩
  by_cases hsc : ScopeId.proc i = scope
  · subst hsc
    rw [scope?_modifyScope_self] at hq
    obtain ⟨p, hp, rfl⟩ := Option.map_eq_some_iff.mp hq
    exact ⟨(hmodifiers p).symm ▸ (h.procs i p hp).sober, hspan p⟩
  · rw [scope?_modifyScope_of_ne _ _ _ hsc] at hq
    exact h.procs i q hq

end Lawful

end SymbolTable

end SslFrontend
