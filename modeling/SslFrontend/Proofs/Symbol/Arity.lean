import SslFrontend.Proofs.Symbol.Early
import SslFrontend.Proofs.Symbol.Places

/-! # Arity

The parameters of a header become the first locals of its procedure, one after the
other: each parameter that is declared without an error gives one local, with its
name, its place and its default.  A header that is merged without an error is the
first of its name or the one of the definition, and then its parameters are taken, or
it changes nothing about them.
-/

namespace SslFrontend

/-- The local that a parameter stands for. -/
structure Param.Gives (namelist : Pool) (param : Param) (v : Variable) : Prop where
  name : namelist.resolve v.name = .ok param.name
  declared : v.declared = param.pos
  initialized : v.initialized = param.default.isSome
  value : ∀ value, param.default = some value → v.value = value

theorem Param.Gives.grows {namelist grown : Pool} {param : Param} {v : Variable}
    (h : param.Gives namelist v) (hg : namelist.Grows grown) : param.Gives grown v :=
  ⟨hg.resolve h.name, h.declared, h.initialized, h.value⟩

/-- The parameters are the first locals of the procedure, and its arity is theirs. -/
structure Procedure.Takes (p : Procedure) (params : List Param) : Prop where
  numArgs : p.numArgs = params.length
  minArgs : p.minArgs = Param.required params
  given : List.Forall₂ (Param.Gives p.namelist) params (p.locals.take params.length)

namespace Procedure.Takes

variable {p q : Procedure} {params : List Param}

theorem le_length (h : p.Takes params) : params.length ≤ p.locals.length := by
  have hlength := h.given.length_eq
  rw [List.length_take] at hlength
  omega

/-- Locals behind the parameters leave the arity as it is. -/
theorem extend (h : p.Takes params) (hmost : q.numArgs = p.numArgs) (hleast : q.minArgs = p.minArgs)
    (hnames : p.namelist.Grows q.namelist) (hlocals : p.locals <+: q.locals) : q.Takes params where
  numArgs := hmost.trans h.numArgs
  minArgs := hleast.trans h.minArgs
  given := by
    obtain ⟨more, hmore⟩ := hlocals
    rw [← hmore, List.take_append_of_le_length h.le_length]
    exact h.given.imp fun _ _ hgives => hgives.grows hnames

theorem exists_local (h : p.Takes params) {k : Nat} {param : Param} (hk : params[k]? = some param) :
    ∃ v, p.locals[k]? = some v ∧ param.Gives p.namelist v := by
  obtain ⟨hlt, rfl⟩ := List.getElem?_eq_some_iff.mp hk
  have hlocals := h.le_length
  have hget := h.given.get hlt (by rw [List.length_take]; omega)
  refine ⟨p.locals[k], List.getElem?_eq_getElem _, ?_⟩
  simpa using hget

end Procedure.Takes

namespace SymbolTable

variable {t u : SymbolTable} {scope : ScopeId} {header : Header} {verdict : Verdict}

/-! ## Parameters that are declared -/

/-- None of the diagnostics is an error. -/
def Quiet (problems : List Diagnostic) : Prop := ∀ d ∈ problems, d.isError = false

theorem Quiet.append {first second : List Diagnostic} (h : Quiet (first ++ second)) :
    Quiet first ∧ Quiet second :=
  List.forall_mem_append.mp h

theorem modify_concat {α : Type} (l : List α) (a : α) (f : α → α) :
    (l ++ [a]).modify l.length f = l ++ [f a] := by
  induction l with
  | nil => rfl
  | cons b l ih => exact congrArg (b :: ·) ih

/-- A parameter without an error gives the scope a local. -/
theorem addParam_gives {p : Procedure} {problems : List Diagnostic} {param : Param}
    {before : List Param} (there : t.scope? scope = some p)
    (given : List.Forall₂ (Param.Gives p.namelist) before p.locals)
    (quiet : Quiet (addParam scope (t, problems) param).2) :
    ∃ q, (addParam scope (t, problems) param).1.scope? scope = some q ∧
      List.Forall₂ (Param.Gives q.namelist) (before ++ [param]) q.locals := by
  unfold addParam at quiet ⊢
  cases hd : t.declareLocal scope param.name param.pos with
  | error problem =>
      have hrefused : t.declareIn (some scope) .localVar param.name param.pos = .error problem := hd
      have herror : problem.isError = true := isError_of_declareIn hrefused
      simp only [hd] at quiet
      have hquiet := quiet.append.2 problem (List.mem_singleton_self _)
      rw [herror] at hquiet
      cases hquiet
  | ok found =>
      obtain ⟨symbol, u⟩ := found
      obtain ⟨p', handle, namelist, hp, -, hi, rfl, rfl⟩ := declareLocal_spec hd
      obtain rfl : p = p' := Option.some.inj (there.symm.trans hp)
      obtain ⟨hgrows, hfound⟩ := Pool.intern_spec hi
      simp only [hd]
      refine ⟨_, by
        rw [modifyVariable, scope?_modifyScope_self, scope?_modifyScope_self, there]
        rfl, ?_⟩
      dsimp only
      rw [modify_concat]
      refine List.rel_append (given.imp fun _ _ hgives => hgives.grows hgrows) (.cons ?_ .nil)
      cases hdefault : param.default with
      | none =>
          refine ⟨Pool.resolve_find? hfound, rfl, by rw [hdefault]; rfl, ?_⟩
          rw [hdefault]
          simp
      | some value =>
          refine ⟨Pool.resolve_find? hfound, rfl, by rw [hdefault]; rfl, ?_⟩
          rw [hdefault]
          rintro _ ⟨⟩
          rfl

theorem addParam_problems (state : SymbolTable × List Diagnostic) (param : Param) :
    state.2 <+: (addParam scope state param).2 := by
  obtain ⟨u, problems⟩ := state
  unfold addParam
  cases hd : u.declareLocal scope param.name param.pos with
  | ok found => simp only [hd, List.prefix_rfl]
  | error problem => simp only [hd, List.prefix_append]

/-- Where a scope has no locals, its parameters without an error are the locals. -/
theorem setParams_takes {p : Procedure} {params : List Param} (there : t.scope? scope = some p)
    (hempty : p.locals = []) (quiet : Quiet (t.setParams scope params).2) :
    ∃ q, (t.setParams scope params).1.scope? scope = some q ∧ q.Takes params ∧
      q.locals.length = params.length := by
  have hfold : ∀ (more before : List Param) (u : SymbolTable) (problems : List Diagnostic)
      (p : Procedure), u.scope? scope = some p →
      List.Forall₂ (Param.Gives p.namelist) before p.locals →
      Quiet (more.foldl (addParam scope) (u, problems)).2 →
      ∃ q, (more.foldl (addParam scope) (u, problems)).1.scope? scope = some q ∧
        List.Forall₂ (Param.Gives q.namelist) (before ++ more) q.locals := by
    intro more
    induction more with
    | nil =>
        intro before u problems p hp given _
        exact ⟨p, hp, by rwa [List.append_nil]⟩
    | cons param rest ih =>
        intro before u problems p hp given hquiet
        have hkeeps : ∀ (rest : List Param) (state : SymbolTable × List Diagnostic),
            state.2 <+: (rest.foldl (addParam scope) state).2 := by
          intro rest
          induction rest with
          | nil => exact fun _ => List.prefix_rfl
          | cons param rest ih => exact fun state => (addParam_problems state param).trans (ih _)
        obtain ⟨q, hq, hgiven⟩ := addParam_gives hp given fun d hd =>
          hquiet d ((hkeeps rest _).subset hd)
        obtain ⟨r, hr, hall⟩ := ih (before ++ [param]) _ _ q hq hgiven hquiet
        exact ⟨r, hr, by simpa using hall⟩
  obtain ⟨q, hq, given⟩ := hfold params [] t [] p there (by rw [hempty]; exact .nil) quiet
  rw [List.nil_append] at given
  have hlength := given.length_eq
  refine ⟨{ q with numArgs := params.length, minArgs := Param.required params }, ?_,
    ⟨rfl, rfl, ?_⟩, hlength.symm⟩
  · unfold setParams
    simp only [scope?_modifyScope_self]
    rw [hq]
    rfl
  · show List.Forall₂ _ params (q.locals.take params.length)
    rw [List.take_of_length_le (Nat.le_of_eq hlength.symm)]
    exact given

/-! ## Headers that are merged -/

/-- What a header does without an error. -/
inductive Accepts (t : SymbolTable) (header : Header) : Verdict → SymbolTable → Prop where
  /-- The first header of a name. -/
  | first {handle : Handle} {strings : Pool} {modifiers : Modifiers} {verdict : Verdict}
      (fresh : t.lookupGlobal header.name = none)
      (interned : t.strings.intern header.name = .ok (handle, strings))
      (hverdict : verdict =
        if header.hasBody then .define t.procs.length else .announce t.procs.length)
      (quiet : Quiet ((t.opened header handle strings modifiers).setParams
        (.proc t.procs.length) header.params).2) :
      Accepts t header verdict ((t.opened header handle strings modifiers).setParams
        (.proc t.procs.length) header.params).1
  /-- Another header without a body. -/
  | announce {index : Nat} {trigger : Trigger} {modifiers : Modifiers} {p : Procedure}
      (named : t.lookupGlobal header.name = some (.proc index))
      (there : t.scope? (.proc index) = some p) (hbody : header.hasBody = false) :
      Accepts t header (.announce index) (t.modifyScope (.proc index) fun p =>
        { p with trigger := trigger, modifiers := modifiers })
  /-- The header of a body behind headers without one. -/
  | define {index : Nat} {trigger : Trigger} {modifiers : Modifiers} {p : Procedure}
      (named : t.lookupGlobal header.name = some (.proc index))
      (there : t.scope? (.proc index) = some p) (hbody : header.hasBody = true)
      (open_ : p.defined = false)
      (quiet : Quiet ((t.cleared index trigger modifiers).setParams (.proc index)
        header.params).2) :
      Accepts t header (.define index)
        ((t.cleared index trigger modifiers).setParams (.proc index) header.params).1

theorem declareAgain_accepts {index : Nat} {p : Procedure}
    (named : t.lookupGlobal header.name = some (.proc index)) (hp : t.procs[index]? = some p)
    (quiet : Quiet (t.declareAgain index p header).problems) :
    Accepts t header (t.declareAgain index p header).verdict
      (t.declareAgain index p header).table := by
  have there : t.scope? (.proc index) = some p := hp
  unfold declareAgain at quiet ⊢
  by_cases hdefined : (header.hasBody && p.defined) = true
  · rw [if_pos hdefined] at quiet
    cases quiet _ (List.mem_singleton_self _)
  · rw [if_neg hdefined] at quiet ⊢
    cases hbody : header.hasBody with
    | true =>
        rw [hbody] at hdefined
        simp only [hbody, if_true] at quiet
        exact .define named there hbody (by simpa using hdefined) quiet.append.2
    | false => exact .announce named there hbody

theorem declareSettled_accepts (quiet : Quiet (t.declareSettled header).problems) :
    Accepts t header (t.declareSettled header).verdict (t.declareSettled header).table := by
  unfold declareSettled at quiet ⊢
  cases hl : t.lookupGlobal header.name with
  | none =>
      simp only [hl, declareFirst] at quiet ⊢
      cases hi : t.strings.intern header.name with
      | error e =>
          simp only [hi] at quiet
          cases quiet _ (List.mem_singleton_self _)
      | ok found =>
          simp only [hi] at quiet
          exact .first hl hi rfl quiet
  | some existing =>
      cases existing with
      | proc index =>
          obtain ⟨handle, -, ⟨i, -, hs⟩ | ⟨-, i, hindex, hs⟩⟩ := lookupGlobal_eq_some.mp hl
          · cases hs
          · cases hs
            obtain ⟨p, hp, -⟩ := getElem?_of_findIdx? hindex
            simp only [hl, hp] at quiet ⊢
            exact declareAgain_accepts hl hp quiet
      | global i | inner scope i | builtin i =>
          simp only [hl] at quiet
          cases quiet _ (List.mem_singleton_self _)

theorem Accepts.of_modifiers {modifiers : Modifiers}
    (h : Accepts t { header with modifiers := modifiers } verdict u) :
    Accepts t header verdict u := by
  cases h with
  | first fresh interned hverdict quiet => exact .first fresh interned hverdict quiet
  | announce named there hbody => exact .announce named there hbody
  | define named there hbody open_ quiet => exact .define named there hbody open_ quiet

theorem declare_accepts (quiet : Quiet (t.declare header).problems) :
    Accepts t header (t.declare header).verdict (t.declare header).table := by
  obtain ⟨modifiers, hm⟩ := settle_spec header
  have hquiet : Quiet (t.declareSettled header.settle.1).problems := quiet.append.2
  have hsettled := declareSettled_accepts hquiet
  rw [hm] at hsettled
  have haccepts := hsettled.of_modifiers
  rw [← hm] at haccepts
  exact haccepts

theorem Accepts.strings (h : Accepts t header verdict u) : t.strings.Grows u.strings := by
  cases h with
  | first fresh interned hverdict quiet =>
      rw [strings_setParams]
      exact (Pool.intern_spec interned).1
  | announce named there hbody =>
      rw [strings_modifyScope]
      exact .refl _
  | define named there hbody open_ quiet =>
      rw [strings_setParams, cleared, strings_modifyScope]
      exact .refl _

/-- A name that a procedure has is found. -/
theorem lookupGlobal_ne_none {p : Procedure} {name : String} (hp : p ∈ t.procs)
    (hname : t.strings.resolve p.name = .ok name) : t.lookupGlobal name ≠ none := by
  unfold lookupGlobal
  rw [Pool.find?_of_resolve hname]
  intro hnone
  dsimp only [bind, Option.bind] at hnone
  split at hnone
  · cases hnone
  · rw [Option.map_eq_none_iff, List.findIdx?_eq_none_iff] at hnone
    simpa using hnone p hp

/-- What is found as a procedure has the name. -/
theorem resolve_of_lookupGlobal {name : String} {index : Nat} {p : Procedure}
    (named : t.lookupGlobal name = some (.proc index)) (there : t.procs[index]? = some p) :
    t.strings.resolve p.name = .ok name := by
  obtain ⟨handle, hfound, ⟨i, -, hs⟩ | ⟨-, i, hindex, hs⟩⟩ := lookupGlobal_eq_some.mp named
  · cases hs
  · cases hs
    obtain ⟨p', hp', hhandle⟩ := getElem?_of_findIdx? hindex
    obtain rfl : p' = p := Option.some.inj (hp'.symm.trans there)
    rw [hhandle]
    exact Pool.resolve_find? hfound

/-- The procedure at the index has no body, and just the parameters of the header; the
others are as they were. -/
structure Gets (t : SymbolTable) (header : Header) (index : Nat) (u : SymbolTable) : Prop where
  others : ∀ j, j ≠ index → u.procs[j]? = t.procs[j]?
  here : ∃ q, u.procs[index]? = some q ∧ u.strings.resolve q.name = .ok header.name ∧
    q.defined = false ∧ q.Takes header.params ∧ q.locals.length = header.params.length

/-- A procedure without locals gets the parameters. -/
theorem gets_setParams {base : SymbolTable} {index : Nat} {p : Procedure}
    (others : ∀ j, j ≠ index → base.procs[j]? = t.procs[j]?)
    (there : base.scope? (.proc index) = some p)
    (named : base.strings.resolve p.name = .ok header.name) (open_ : p.defined = false)
    (hempty : p.locals = []) (quiet : Quiet (base.setParams (.proc index) header.params).2) :
    t.Gets header index (base.setParams (.proc index) header.params).1 := by
  refine ⟨fun j hj => ?_, ?_⟩
  · have houtside : ∀ sc, sc ≠ .proc index →
        (base.setParams (.proc index) header.params).1.scope? sc = base.scope? sc :=
      setParams_outside.2
    exact (houtside (.proc j) fun heq => hj (ScopeId.proc.inj heq)).trans (others j hj)
  · have hshells : base.SameShells (base.setParams (.proc index) header.params).1 :=
      setParams_shells
    obtain ⟨q, hq, htakes, hlength⟩ := setParams_takes there hempty quiet
    obtain ⟨r, hr, hshell⟩ := hshells.exists_of_some there
    obtain rfl : q = r := Option.some.inj (hq.symm.trans hr)
    have hname : q.name = p.name := congrArg (·.name) hshell
    have hdefined : q.defined = p.defined := congrArg (·.defined) hshell
    exact ⟨q, hq, by rw [strings_setParams, hname, named], hdefined.trans open_, htakes, hlength⟩

theorem gets_opened {handle : Handle} {strings : Pool} {modifiers : Modifiers}
    (interned : t.strings.intern header.name = .ok (handle, strings))
    (quiet : Quiet ((t.opened header handle strings modifiers).setParams
      (.proc t.procs.length) header.params).2) :
    t.Gets header t.procs.length ((t.opened header handle strings modifiers).setParams
      (.proc t.procs.length) header.params).1 := by
  refine gets_setParams (fun j hj => ?_) List.getElem?_concat_length
    (Pool.resolve_find? (Pool.intern_spec interned).2) rfl rfl quiet
  show (t.procs ++ _)[j]? = t.procs[j]?
  rcases Nat.lt_or_gt_of_ne hj with hlt | hgt
  · exact List.getElem?_append_left hlt
  · rw [List.getElem?_eq_none (by simp; omega), List.getElem?_eq_none (Nat.le_of_lt hgt)]

theorem procs_modifyScope_of_ne {i j : Nat} (f : Procedure → Procedure) (h : j ≠ i) :
    (t.modifyScope (.proc i) f).procs[j]? = t.procs[j]? :=
  scope?_modifyScope_of_ne t (.proc i) f fun heq : ScopeId.proc j = .proc i =>
    h (ScopeId.proc.inj heq)

theorem gets_cleared {index : Nat} {trigger : Trigger} {modifiers : Modifiers} {p : Procedure}
    (named : t.lookupGlobal header.name = some (.proc index))
    (there : t.scope? (.proc index) = some p) (open_ : p.defined = false)
    (quiet : Quiet ((t.cleared index trigger modifiers).setParams (.proc index) header.params).2) :
    t.Gets header index
      ((t.cleared index trigger modifiers).setParams (.proc index) header.params).1 := by
  have hothers : ∀ j, j ≠ index → (t.cleared index trigger modifiers).procs[j]? = t.procs[j]? :=
    fun j hj => procs_modifyScope_of_ne _ hj
  have hcleared : (t.cleared index trigger modifiers).scope? (.proc index) = some { p with
      trigger := trigger
      modifiers := modifiers
      locals := []
      namelist := .empty (.namelist index) } := by
    rw [cleared, scope?_modifyScope_self, there]
    rfl
  refine gets_setParams hothers hcleared ?_ open_ rfl quiet
  rw [cleared, strings_modifyScope]
  exact resolve_of_lookupGlobal (p := p) named there

/-- A definition takes the parameters of its header. -/
theorem Accepts.define_gets {index : Nat} (h : Accepts t header (.define index) u) :
    header.hasBody = true ∧ t.Gets header index u := by
  cases h with
  | first fresh interned hverdict quiet =>
      by_cases hbody : header.hasBody = true
      · rw [if_pos hbody] at hverdict
        cases hverdict
        exact ⟨hbody, gets_opened interned quiet⟩
      · rw [if_neg hbody] at hverdict
        cases hverdict
  | define named there hbody open_ quiet =>
      exact ⟨hbody, gets_cleared named there open_ quiet⟩

/-- So does an announcement, if it is the first header; a later one does not touch them. -/
theorem Accepts.announce_cases {index : Nat} (h : Accepts t header (.announce index) u) :
    header.hasBody = false ∧ ((t.lookupGlobal header.name = none ∧ t.Gets header index u) ∨
      ∃ p trigger modifiers, t.lookupGlobal header.name = some (.proc index) ∧
        t.procs[index]? = some p ∧ u = t.modifyScope (.proc index) fun p =>
          { p with trigger := trigger, modifiers := modifiers }) := by
  cases h with
  | first fresh interned hverdict quiet =>
      by_cases hbody : header.hasBody = true
      · rw [if_pos hbody] at hverdict
        cases hverdict
      · rw [if_neg hbody] at hverdict
        cases hverdict
        exact ⟨Bool.eq_false_iff.mpr hbody, .inl ⟨fresh, gets_opened interned quiet⟩⟩
  | announce named there hbody =>
      exact ⟨hbody, .inr ⟨_, _, _, named, there, rfl⟩⟩

end SymbolTable

end SslFrontend
