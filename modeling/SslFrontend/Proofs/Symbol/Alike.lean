import Mathlib.Data.List.Forall2
import SslFrontend.Proofs.Symbol.Extends

/-! # Tables that declare the same

Two tables that declare the same symbols need not number texts alike: what else
was written into their string spaces shifts the handles.  `SymbolTable.Alike`
compares the names of globals by their texts and everything else as it is.  Alike
tables answer every look-up with the same symbol and stay alike when the same is
declared in both.
-/

namespace SslFrontend

namespace Pool

/-- Handles of one text in two pools. -/
def SameText (P P' : Pool) (a b : Handle) : Prop :=
  ∃ text, P.find? text = some a ∧ P'.find? text = some b

variable {P P' Q Q' : Pool} {a b : Handle}

theorem SameText.grows (h : P.SameText P' a b) (hg : P.Grows Q) (hg' : P'.Grows Q') :
    Q.SameText Q' a b := by
  obtain ⟨text, ha, hb⟩ := h
  exact ⟨text, hg.find? ha, hg'.find? hb⟩

/-- Both pools find a name at these handles, or neither does. -/
theorem SameText.find?_iff (h : P.SameText P' a b) (name : String) :
    P.find? name = some a ↔ P'.find? name = some b := by
  obtain ⟨text, ha, hb⟩ := h
  constructor
  · intro hname
    rw [find?_inj hname ha, hb]
  · intro hname
    rw [find?_inj hname hb, ha]

/-- Whether a pool takes a text does not depend on the texts that it has. -/
theorem intern_alike (P P' : Pool) (text : String) :
    (∃ e, P.intern text = .error e ∧ P'.intern text = .error e) ∨
      ∃ a Q b Q', P.intern text = .ok (a, Q) ∧ P'.intern text = .ok (b, Q') := by
  have hclean : ∀ P : Pool, '\x00' ∉ text.toList → ∃ a Q, P.intern text = .ok (a, Q) := by
    intro P hclean
    unfold intern
    split
    · exact ⟨_, _, rfl⟩
    · rw [dif_neg hclean]
      exact ⟨_, _, rfl⟩
  have hnul : ∀ P : Pool, '\x00' ∈ text.toList → P.intern text = .error .embeddedNul := by
    intro P hnul
    unfold intern
    split
    · rename_i offset hoffset
      have hmem : text ∈ P.texts := Decidable.byContradiction fun hmem => by
        rw [offsetOf?_eq_none_iff.mpr hmem] at hoffset
        cases hoffset
      exact absurd hnul (P.noNul text hmem)
    · rw [dif_pos hnul]
  by_cases h : '\x00' ∈ text.toList
  · exact .inl ⟨.embeddedNul, hnul P h, hnul P' h⟩
  · obtain ⟨a, Q, hQ⟩ := hclean P h
    obtain ⟨b, Q', hQ'⟩ := hclean P' h
    exact .inr ⟨a, Q, b, Q', hQ, hQ'⟩

/-- One and the same name, declared at one place. -/
def SameLabel (P P' : Pool) (a b : Handle × Position) : Prop := P.SameText P' a.1 b.1 ∧ b.2 = a.2

/-- Where a name stands among labels. -/
def labelOf? (P : Pool) (labels : List (Handle × Position)) (name : String) : Option Nat :=
  (P.find? name).bind fun handle => labels.findIdx? (·.1 == handle)

variable {labels labels' : List (Handle × Position)}

theorem labelOf?_alike (h : List.Forall₂ (P.SameLabel P') labels labels') (name : String) :
    P'.labelOf? labels' name = P.labelOf? labels name := by
  have hnone : ∀ {P P' : Pool} {labels labels' : List (Handle × Position)} {handle : Handle},
      (∀ a b, P.SameText P' a b → (b = handle) = False) →
      List.Forall₂ (P.SameLabel P') labels labels' →
      labels'.findIdx? (·.1 == handle) = none := by
    intro P P' labels labels' handle hne h
    induction h with
    | nil => rfl
    | @cons a b _ _ hab _ ih => simp [List.findIdx?_cons, hne _ _ hab.1, ih]
  unfold labelOf?
  cases hP : P.find? name with
  | none =>
      cases hP' : P'.find? name with
      | none => rfl
      | some handle =>
          refine hnone (fun a b hab => eq_false ?_) h
          rintro rfl
          rw [(hab.find?_iff name).mpr hP'] at hP
          cases hP
  | some handle =>
      cases hP' : P'.find? name with
      | none =>
          have hflip : List.Forall₂ (P'.SameLabel P) labels' labels :=
            .flip (h.imp fun _ _ hab => ⟨hab.1.imp fun _ => And.symm, hab.2.symm⟩)
          refine (hnone (fun a b hab => eq_false ?_) hflip).symm
          rintro rfl
          obtain ⟨text, ha, hb⟩ := hab
          rw [find?_inj hP hb, ha] at hP'
          cases hP'
      | some handle' =>
          show labels'.findIdx? (·.1 == handle') = labels.findIdx? (·.1 == handle)
          induction h with
          | nil => rfl
          | @cons a b _ _ hab _ ih =>
              have hiff := hab.1.find?_iff name
              rw [hP, hP', Option.some_inj, Option.some_inj] at hiff
              have hsame : (b.1 == handle') = (a.1 == handle) := by
                rw [Bool.eq_iff_iff, beq_iff_eq, beq_iff_eq]
                exact ⟨fun hb => (hiff.mpr hb.symm).symm, fun ha => (hiff.mp ha.symm).symm⟩
              rw [List.findIdx?_cons, List.findIdx?_cons, hsame, ih]

end Pool

/-- What a name is looked up in, in a procedure. -/
def Procedure.names (p : Procedure) : Pool × List (Handle × Position) :=
  (p.namelist, p.locals.map Variable.label)

theorem Procedure.findLocal?_eq (p : Procedure) (name : String) :
    p.findLocal? name = p.names.1.labelOf? p.names.2 name := by
  unfold findLocal? Pool.labelOf? names
  cases p.namelist.find? name with
  | none => rfl
  | some handle =>
      show p.locals.findIdx? _ = (p.locals.map Variable.label).findIdx? _
      rw [List.findIdx?_map]
      rfl

namespace SymbolTable

/-- The tables declare the same, whatever the numbers of their texts. -/
structure Alike (t t' : SymbolTable) : Prop where
  vars : List.Forall₂ (t.strings.SameLabel t'.strings) (t.vars.map Variable.label)
    (t'.vars.map Variable.label)
  procs : List.Forall₂ (t.strings.SameLabel t'.strings) (t.procs.map Procedure.label)
    (t'.procs.map Procedure.label)
  scopes : ∀ scope, (t'.scope? scope).map Procedure.names = (t.scope? scope).map Procedure.names

theorem lookupGlobal_eq (t : SymbolTable) (name : String) :
    t.lookupGlobal name = ((t.strings.labelOf? (t.vars.map Variable.label) name).map .global).or
      ((t.strings.labelOf? (t.procs.map Procedure.label) name).map .proc) := by
  unfold lookupGlobal Pool.labelOf?
  cases t.strings.find? name with
  | none => rfl
  | some handle =>
      simp only [Option.bind_some, List.findIdx?_map]
      have hvars : ((fun label : Handle × Position => label.1 == handle) ∘ Variable.label) =
          fun v => v.name == handle := rfl
      have hprocs : ((fun label : Handle × Position => label.1 == handle) ∘ Procedure.label) =
          fun p => p.name == handle := rfl
      rw [hvars, hprocs, Option.bind_eq_bind, Option.bind_some]
      cases t.vars.findIdx? fun v => v.name == handle <;> rfl

namespace Alike

variable {t t' : SymbolTable}

theorem lookupGlobal (h : t.Alike t') (name : String) :
    t'.lookupGlobal name = t.lookupGlobal name := by
  rw [lookupGlobal_eq, lookupGlobal_eq, Pool.labelOf?_alike h.vars, Pool.labelOf?_alike h.procs]

theorem lookupLocal (h : t.Alike t') (scope : ScopeId) (name : String) :
    t'.lookupLocal scope name = t.lookupLocal scope name := by
  have hlook : ∀ t : SymbolTable, t.lookupLocal scope name =
      ((t.scope? scope).map Procedure.names).bind fun names =>
        (names.1.labelOf? names.2 name).map (.inner scope) := by
    intro t
    unfold SymbolTable.lookupLocal
    cases t.scope? scope with
    | none => rfl
    | some p =>
        show (p.findLocal? name).map _ = _
        rw [p.findLocal?_eq]
        rfl
  rw [hlook, hlook, h.scopes]

theorem lookupDeclared (h : t.Alike t') (context : Option ScopeId) (name : String) :
    t'.lookupDeclared context name = t.lookupDeclared context name := by
  unfold SymbolTable.lookupDeclared
  rw [h.lookupGlobal]
  cases context with
  | none => rfl
  | some scope => rw [Option.bind_some, Option.bind_some, h.lookupLocal]

theorem siteOf? (h : t.Alike t') (symbol : Symbol) : t'.siteOf? symbol = t.siteOf? symbol := by
  have hplaces : ∀ {P P' : Pool} {labels labels' : List (Handle × Position)},
      List.Forall₂ (P.SameLabel P') labels labels' →
      labels'.map Prod.snd = labels.map Prod.snd := by
    intro P P' labels labels' h
    induction h with
    | nil => rfl
    | cons hab _ ih => rw [List.map_cons, List.map_cons, hab.2, ih]
  cases symbol with
  | global i =>
      have hsites := congrArg (·[i]?) (hplaces h.vars)
      simp only [List.map_map, List.getElem?_map] at hsites
      exact hsites
  | proc i =>
      have hsites := congrArg (·[i]?) (hplaces h.procs)
      simp only [List.map_map, List.getElem?_map] at hsites
      exact hsites
  | builtin i => rfl
  | inner scope i =>
      have hlook : ∀ t : SymbolTable, t.siteOf? (.inner scope i) =
          ((t.scope? scope).map Procedure.names).bind fun names => (names.2[i]?).map Prod.snd := by
        intro t
        show ((t.scope? scope).bind _) = _
        cases t.scope? scope with
        | none => rfl
        | some p =>
            simp only [Option.bind_some, Option.map_some, Procedure.names, List.getElem?_map,
              Option.map_map]
            rfl
      rw [hlook, hlook, h.scopes]

theorem strings (h : t.Alike t') {P P' : Pool} (hg : t.strings.Grows P) (hg' : t'.strings.Grows P') :
    Alike { t with strings := P } { t' with strings := P' } where
  vars := h.vars.imp fun _ _ hab => ⟨hab.1.grows hg hg', hab.2⟩
  procs := h.procs.imp fun _ _ hab => ⟨hab.1.grows hg hg', hab.2⟩
  scopes scope := by
    have hsame := h.scopes scope
    cases scope <;> exact hsame

/-- A change of a scope that keeps its name, and does the same to what is looked
up in it. -/
theorem modifyScope (h : t.Alike t') (id : ScopeId) {f g : Procedure → Procedure}
    (hf : ∀ p, (f p).label = p.label) (hg : ∀ p, (g p).label = p.label)
    (hfg : ∀ p p' : Procedure, p'.names = p.names → (g p').names = (f p).names) :
    (t.modifyScope id f).Alike (t'.modifyScope id g) where
  vars := by simpa only [vars_modifyScope, strings_modifyScope] using h.vars
  procs := by
    have hlabels : ∀ (t : SymbolTable) {f : Procedure → Procedure},
        (∀ p, (f p).label = p.label) →
        (t.modifyScope id f).procs.map Procedure.label = t.procs.map Procedure.label := by
      intro t f hf
      cases id with
      | proc i => exact map_modify fun p _ => hf p
      | discarded i => rfl
    rw [hlabels t hf, hlabels t' hg, strings_modifyScope, strings_modifyScope]
    exact h.procs
  scopes scope := by
    by_cases hscope : scope = id
    · subst hscope
      have hsame := h.scopes scope
      rw [scope?_modifyScope_self, scope?_modifyScope_self]
      cases hp : t.scope? scope with
      | none =>
          rw [hp] at hsame
          rw [Option.map_eq_none_iff.mp hsame]
          rfl
      | some p =>
          rw [hp] at hsame
          obtain ⟨p', hp', hnames⟩ := Option.map_eq_some_iff.mp hsame
          rw [hp']
          exact congrArg some (hfg p p' hnames)
    · rw [scope?_modifyScope_of_ne _ _ _ hscope, scope?_modifyScope_of_ne _ _ _ hscope]
      exact h.scopes scope

/-- A change of a variable that keeps its name and its place. -/
theorem modifyVariable (h : t.Alike t') (symbol : Symbol) {f g : Variable → Variable}
    (hf : ∀ v, (f v).label = v.label) (hg : ∀ v, (g v).label = v.label) :
    (t.modifyVariable symbol f).Alike (t'.modifyVariable symbol g) := by
  have hlabels : ∀ {f : Variable → Variable}, (∀ v, (f v).label = v.label) →
      ∀ (vs : List Variable) (i : Nat),
        (vs.modify i f).map Variable.label = vs.map Variable.label :=
    fun hf vs i => map_modify fun v _ => hf v
  cases symbol with
  | global i =>
      refine ⟨?_, h.procs, fun scope => ?_⟩
      · show List.Forall₂ _ ((t.vars.modify i f).map _) ((t'.vars.modify i g).map _)
        rw [hlabels hf, hlabels hg]
        exact h.vars
      · have hsame := h.scopes scope
        cases scope <;> exact hsame
  | inner scope i =>
      refine h.modifyScope scope (fun _ => rfl) (fun _ => rfl) fun p p' hnames => ?_
      unfold Procedure.names at hnames ⊢
      dsimp only
      rw [hlabels hf, hlabels hg, hnames]
  | proc i => exact h
  | builtin i => exact h

theorem vars_length (h : t.Alike t') : t'.vars.length = t.vars.length := by
  have hlength := h.vars.length_eq
  rw [List.length_map, List.length_map] at hlength
  exact hlength.symm

theorem declareVar (h : t.Alike t') (name : String) (kind : VarScope) (pos : Position) :
    (∃ d, t.declareVar name kind pos = .error d ∧ t'.declareVar name kind pos = .error d) ∨
      ∃ symbol u u', t.declareVar name kind pos = .ok (symbol, u) ∧
        t'.declareVar name kind pos = .ok (symbol, u') ∧ u.Alike u' ∧
        t.strings.Grows u.strings ∧ t'.strings.Grows u'.strings := by
  unfold SymbolTable.declareVar
  rw [h.lookupGlobal]
  cases t.lookupGlobal name with
  | some existing =>
      dsimp only
      exact .inl ⟨_, rfl, by rw [h.siteOf?]⟩
  | none =>
      dsimp only
      obtain ⟨e, he, he'⟩ | ⟨a, Q, b, Q', ha, hb⟩ := t.strings.intern_alike t'.strings name
      · exact .inl ⟨_, by rw [he], by rw [he']⟩
      · obtain ⟨hg, hfound⟩ := Pool.intern_spec ha
        obtain ⟨hg', hfound'⟩ := Pool.intern_spec hb
        refine .inr ⟨_, _, _, by rw [ha], by rw [hb, h.vars_length], ?_, hg, hg'⟩
        have hgrown := h.strings hg hg'
        refine ⟨?_, hgrown.procs, fun scope => ?_⟩
        · rw [List.map_append, List.map_append]
          exact List.rel_append hgrown.vars (.cons ⟨⟨name, hfound, hfound'⟩, rfl⟩ .nil)
        · have hsame := h.scopes scope
          cases scope <;> exact hsame

theorem declareLocal (h : t.Alike t') (scope : ScopeId) (name : String) (pos : Position) :
    (∃ d, t.declareLocal scope name pos = .error d ∧ t'.declareLocal scope name pos = .error d) ∨
      ∃ symbol u u', t.declareLocal scope name pos = .ok (symbol, u) ∧
        t'.declareLocal scope name pos = .ok (symbol, u') ∧ u.Alike u' ∧
        t.strings.Grows u.strings ∧ t'.strings.Grows u'.strings := by
  have hnames := h.scopes scope
  unfold SymbolTable.declareLocal
  rw [h.lookupLocal]
  cases hp : t.scope? scope with
  | none =>
      rw [hp] at hnames
      rw [Option.map_eq_none_iff.mp hnames]
      exact .inl ⟨_, rfl, rfl⟩
  | some p =>
      rw [hp] at hnames
      obtain ⟨p', hp', hsame⟩ := Option.map_eq_some_iff.mp hnames
      have hlist : p'.namelist = p.namelist := congrArg Prod.fst hsame
      have hlabels : p'.locals.map Variable.label = p.locals.map Variable.label :=
        congrArg Prod.snd hsame
      have hlength : p'.locals.length = p.locals.length := by
        have := congrArg List.length hlabels
        rwa [List.length_map, List.length_map] at this
      rw [hp']
      dsimp only
      cases t.lookupLocal scope name with
      | some existing =>
          dsimp only
          exact .inl ⟨_, rfl, by rw [h.siteOf?]⟩
      | none =>
          rw [hlist]
          cases p.namelist.intern name with
          | error e => exact .inl ⟨_, rfl, rfl⟩
          | ok found =>
              obtain ⟨handle, namelist⟩ := found
              refine .inr ⟨_, _, _, rfl, by rw [hlength], ?_, ?_, ?_⟩
              · refine h.modifyScope scope (fun _ => rfl) (fun _ => rfl) fun q q' hq => ?_
                unfold Procedure.names at hq ⊢
                dsimp only
                rw [List.map_append, List.map_append, (Prod.mk.inj hq).2]
              · rw [strings_modifyScope]
                exact .refl _
              · rw [strings_modifyScope]
                exact .refl _

/-- The same is declared in both tables, or refused in both. -/
theorem declareIn (h : t.Alike t') (context : Option ScopeId) (kind : VarScope) (name : String)
    (pos : Position) :
    (∃ d, t.declareIn context kind name pos = .error d ∧
      t'.declareIn context kind name pos = .error d) ∨
      ∃ symbol u u', t.declareIn context kind name pos = .ok (symbol, u) ∧
        t'.declareIn context kind name pos = .ok (symbol, u') ∧ u.Alike u' ∧
        t.strings.Grows u.strings ∧ t'.strings.Grows u'.strings := by
  cases context with
  | none => exact h.declareVar name kind pos
  | some scope => exact h.declareLocal scope name pos

end Alike

end SymbolTable

end SslFrontend
