import SslFrontend.Proofs.Symbol.Pool
import SslFrontend.Symbol.Header

/-! # Growing tables

Declarations are only ever added behind those that are there, under the index
that is next.  The one exception is a definition behind an announcement: it
makes the parameters of its own header the only locals of the procedure.
`SymbolTable.Extends` says of two tables that the second one is the first one
grown, with the locals of all scopes but those excepted.
-/

namespace SslFrontend

/-- What a declaration settles for good: the name and the place. -/
def Variable.label (v : Variable) : Handle × Position := (v.name, v.declared)

/-- What a first header settles for good. -/
def Procedure.label (p : Procedure) : Handle × Position := (p.name, p.declared)

/-- The locals of the second procedure are those of the first one and more. -/
structure Procedure.Extends (p q : Procedure) : Prop where
  namelist : p.namelist.Grows q.namelist
  locals : p.locals.map Variable.label <+: q.locals.map Variable.label

namespace Procedure.Extends

theorem refl (p : Procedure) : p.Extends p := ⟨.refl _, List.prefix_rfl⟩

theorem trans {p q r : Procedure} (h₁ : p.Extends q) (h₂ : q.Extends r) : p.Extends r :=
  ⟨h₁.namelist.trans h₂.namelist, h₁.locals.trans h₂.locals⟩

end Procedure.Extends

namespace SymbolTable

/-! ## Parts of a table -/

section Parts

variable (table : SymbolTable) (id : ScopeId) (f : Procedure → Procedure)

@[simp] theorem strings_modifyScope : (table.modifyScope id f).strings = table.strings := by
  cases id <;> rfl

@[simp] theorem vars_modifyScope : (table.modifyScope id f).vars = table.vars := by
  cases id <;> rfl

@[simp] theorem procs_length_modifyScope :
    (table.modifyScope id f).procs.length = table.procs.length := by
  cases id <;> simp [modifyScope]

theorem scope?_modifyScope_self :
    (table.modifyScope id f).scope? id = (table.scope? id).map f := by
  cases id <;> simp [modifyScope, scope?]

theorem scope?_modifyScope_of_ne {sc : ScopeId} (h : sc ≠ id) :
    (table.modifyScope id f).scope? sc = table.scope? sc := by
  cases id <;> cases sc <;> simp_all [modifyScope, scope?, Ne.symm]

variable (symbol : Symbol) (g : Variable → Variable)

@[simp] theorem strings_modifyVariable :
    (table.modifyVariable symbol g).strings = table.strings := by
  cases symbol <;> simp [modifyVariable]

@[simp] theorem procs_length_modifyVariable :
    (table.modifyVariable symbol g).procs.length = table.procs.length := by
  cases symbol <;> simp [modifyVariable]

end Parts

/-! ## Growth -/

/-- The second table is the first one grown; locals of a scope are kept where
`keep` says so. -/
structure Extends (keep : ScopeId → Prop) (t u : SymbolTable) : Prop where
  strings : t.strings.Grows u.strings
  vars : t.vars.map Variable.label <+: u.vars.map Variable.label
  procs : t.procs.map Procedure.label <+: u.procs.map Procedure.label
  scopes : ∀ {sc p}, keep sc → t.scope? sc = some p → ∃ q, u.scope? sc = some q ∧ p.Extends q

/-- All scopes keep their locals. -/
abbrev Grows (t u : SymbolTable) : Prop := t.Extends (fun _ => True) u

namespace Extends

variable {keep : ScopeId → Prop} {t u w : SymbolTable}

theorem keeps_scope (h : t.Extends keep u) {sc : ScopeId} (hk : keep sc)
    (there : t.scope? sc ≠ none) : u.scope? sc ≠ none := by
  obtain ⟨p, hp⟩ := Option.ne_none_iff_exists'.mp there
  obtain ⟨q, hq, -⟩ := h.scopes hk hp
  rw [hq]
  nofun

theorem refl (t : SymbolTable) : t.Extends keep t :=
  ⟨.refl _, List.prefix_rfl, List.prefix_rfl, fun _ hp => ⟨_, hp, .refl _⟩⟩

theorem trans (h₁ : t.Extends keep u) (h₂ : u.Extends keep w) : t.Extends keep w := by
  refine ⟨h₁.strings.trans h₂.strings, h₁.vars.trans h₂.vars, h₁.procs.trans h₂.procs, ?_⟩
  intro sc p hk hp
  obtain ⟨q, hq, hpq⟩ := h₁.scopes hk hp
  obtain ⟨r, hr, hqr⟩ := h₂.scopes hk hq
  exact ⟨r, hr, hpq.trans hqr⟩

theorem weaken {keep' : ScopeId → Prop} (h : t.Extends keep u)
    (hk : ∀ sc, keep' sc → keep sc) : t.Extends keep' u :=
  ⟨h.strings, h.vars, h.procs, fun hsc => h.scopes (hk _ hsc)⟩

/-- A local that is kept stays where it was declared. -/
theorem siteOf?_inner (h : t.Extends keep u) {sc : ScopeId} (hk : keep sc) {i : Nat}
    {pos : Position} (ht : t.siteOf? (.inner sc i) = some pos) :
    u.siteOf? (.inner sc i) = some pos := by
  obtain ⟨p, hp, hlocal⟩ := Option.bind_eq_some_iff.mp ht
  obtain ⟨v, hv, rfl⟩ := Option.map_eq_some_iff.mp hlocal
  obtain ⟨q, hq, hpq⟩ := h.scopes hk hp
  obtain ⟨more, hmore⟩ := hpq.locals
  have hlabel : (q.locals.map Variable.label)[i]? = some v.label := by
    have hlt : i < (p.locals.map Variable.label).length := by
      simpa using (List.getElem?_eq_some_iff.mp hv).1
    rw [← hmore, List.getElem?_append_left hlt, List.getElem?_map, hv]
    rfl
  rw [List.getElem?_map] at hlabel
  obtain ⟨w, hw, hsame⟩ := Option.map_eq_some_iff.mp hlabel
  have hplace : w.declared = v.declared := congrArg Prod.snd hsame
  simp [siteOf?, hq, hw, hplace]

end Extends

/-! ## Changes at one place -/

/-- What a change at one place leaves alone, it leaves alone in the whole list. -/
theorem map_modify {α β : Type} {label : α → β} {f : α → α} {l : List α} {i : Nat}
    (hf : ∀ a, l[i]? = some a → label (f a) = label a) :
    (l.modify i f).map label = l.map label := by
  apply List.ext_getElem?
  intro j
  simp only [List.getElem?_map, List.getElem?_modify]
  cases hj : l[j]? with
  | none => rfl
  | some a =>
      by_cases hij : i = j
      · subst hij
        simp [hf a hj]
      · simp [hij]

theorem getElem?_modify_cases {α : Type} {f : α → α} {l : List α} {i j : Nat} {b : α}
    (h : (l.modify i f)[j]? = some b) : ∃ a, l[j]? = some a ∧ (b = a ∨ (i = j ∧ b = f a)) := by
  rw [List.getElem?_modify] at h
  obtain ⟨a, ha, rfl⟩ := Option.map_eq_some_iff.mp h
  refine ⟨a, ha, ?_⟩
  by_cases hij : i = j
  · exact .inr ⟨hij, by simp [hij]⟩
  · exact .inl (by simp [hij])

variable {t u : SymbolTable}

theorem extends_strings {keep : ScopeId → Prop} {strings : Pool} (h : t.strings.Grows strings) :
    t.Extends keep { t with strings := strings } :=
  ⟨h, List.prefix_rfl, List.prefix_rfl, fun _ hp => by
    rename_i sc p _
    exact ⟨p, by cases sc <;> exact hp, .refl _⟩⟩

/-- A procedure of the table is changed, and its locals with it unless it is
excepted. -/
theorem extends_modifyScope {keep : ScopeId → Prop} {id : ScopeId} {f : Procedure → Procedure}
    (hlabel : ∀ p, t.scope? id = some p → (f p).label = p.label)
    (hf : keep id → ∀ p, t.scope? id = some p → p.Extends (f p)) :
    t.Extends keep (t.modifyScope id f) := by
  refine ⟨by simp [Pool.Grows.refl], by simp, ?_, ?_⟩
  · cases id with
    | discarded k => exact List.prefix_rfl
    | proc i =>
        have hsame : (t.procs.modify i f).map Procedure.label = t.procs.map Procedure.label :=
          map_modify hlabel
        exact hsame ▸ List.prefix_rfl
  · intro sc p hk hp
    by_cases hsc : sc = id
    · subst hsc
      refine ⟨f p, ?_, hf hk p hp⟩
      rw [scope?_modifyScope_self, hp]
      rfl
    · exact ⟨p, by rw [scope?_modifyScope_of_ne _ _ _ hsc, hp], .refl p⟩

theorem extends_modifyVariable {keep : ScopeId → Prop} {symbol : Symbol}
    {f : Variable → Variable} (hf : ∀ v, (f v).label = v.label) :
    t.Extends keep (t.modifyVariable symbol f) := by
  cases symbol with
  | global i =>
      refine ⟨.refl _, ?_, List.prefix_rfl, ?_⟩
      · have hsame : (t.vars.modify i f).map Variable.label = t.vars.map Variable.label :=
          map_modify fun v _ => hf v
        exact hsame ▸ List.prefix_rfl
      · intro sc p _ hp
        exact ⟨p, by cases sc <;> exact hp, .refl p⟩
  | inner scope i =>
      refine extends_modifyScope (fun _ _ => rfl) fun _ p _ => ⟨.refl _, ?_⟩
      have hsame : (p.locals.modify i f).map Variable.label = p.locals.map Variable.label :=
        map_modify fun v _ => hf v
      exact hsame ▸ List.prefix_rfl
  | proc i => exact .refl t
  | builtin i => exact .refl t

/-! ## Declarations -/

theorem declareVar_spec {name : String} {scope : VarScope} {pos : Position} {symbol : Symbol}
    (h : t.declareVar name scope pos = .ok (symbol, u)) :
    t.lookupGlobal name = none ∧ ∃ handle strings, t.strings.intern name = .ok (handle, strings) ∧
      symbol = .global t.vars.length ∧
      u = { t with strings := strings, vars := t.vars ++ [.fresh handle scope pos] } := by
  unfold declareVar at h
  cases hl : t.lookupGlobal name with
  | some existing => rw [hl] at h; cases h
  | none =>
      rw [hl] at h
      cases hi : t.strings.intern name with
      | error e => simp only [hi] at h; cases h
      | ok found =>
          obtain ⟨handle, strings⟩ := found
          simp only [hi] at h
          cases h
          exact ⟨rfl, handle, strings, rfl, rfl, rfl⟩

theorem declareVar_grows {name : String} {scope : VarScope} {pos : Position} {symbol : Symbol}
    (h : t.declareVar name scope pos = .ok (symbol, u)) : t.Grows u := by
  obtain ⟨_, handle, strings, hi, _, rfl⟩ := declareVar_spec h
  refine ⟨(Pool.intern_spec hi).1, by simp, List.prefix_rfl, ?_⟩
  intro sc p _ hp
  exact ⟨p, by cases sc <;> exact hp, .refl p⟩

theorem declareLocal_spec {scope : ScopeId} {name : String} {pos : Position} {symbol : Symbol}
    (h : t.declareLocal scope name pos = .ok (symbol, u)) :
    ∃ p handle namelist, t.scope? scope = some p ∧ t.lookupLocal scope name = none ∧
      p.namelist.intern name = .ok (handle, namelist) ∧
      symbol = .inner scope p.locals.length ∧
      u = t.modifyScope scope fun p =>
        { p with namelist := namelist, locals := p.locals ++ [.fresh handle .localVar pos] } := by
  unfold declareLocal at h
  cases hp : t.scope? scope with
  | none => rw [hp] at h; cases h
  | some p =>
      simp only [hp] at h
      cases hl : t.lookupLocal scope name with
      | some existing => simp only [hl] at h; cases h
      | none =>
          simp only [hl] at h
          cases hi : p.namelist.intern name with
          | error e => simp only [hi] at h; cases h
          | ok found =>
              obtain ⟨handle, namelist⟩ := found
              simp only [hi] at h
              cases h
              exact ⟨p, handle, namelist, rfl, rfl, hi, rfl, rfl⟩

theorem declareLocal_grows {scope : ScopeId} {name : String} {pos : Position} {symbol : Symbol}
    (h : t.declareLocal scope name pos = .ok (symbol, u)) : t.Grows u := by
  obtain ⟨p, handle, namelist, hp, _, hi, _, rfl⟩ := declareLocal_spec h
  refine extends_modifyScope (fun _ _ => rfl) fun _ q hq => ?_
  obtain rfl : p = q := by rw [hp] at hq; exact Option.some.inj hq
  exact ⟨(Pool.intern_spec hi).1, by simp⟩

theorem declareIn_grows {context : Option ScopeId} {scope : VarScope} {name : String}
    {pos : Position} {symbol : Symbol}
    (h : t.declareIn context scope name pos = .ok (symbol, u)) : t.Grows u := by
  cases context with
  | none => exact declareVar_grows h
  | some procedure => exact declareLocal_grows h

end SymbolTable

end SslFrontend
