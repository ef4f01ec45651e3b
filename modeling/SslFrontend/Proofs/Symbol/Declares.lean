import SslFrontend.Proofs.Symbol.Edit

/-! # What a header does to the table

A header that is merged into the table is the first one of its name, announces
its procedure again, defines it, or is rejected.  `Declares` lists the four with
the table each of them leaves.  No one of them touches the body of a procedure
or the locals of one that is defined.
-/

namespace SslFrontend

/-- The procedure that a header is one of. -/
def Verdict.named? : Verdict → Option Nat
  | .define index => some index
  | .announce index => some index
  | .reject named => named

namespace SymbolTable

/-- The table with a procedure that is new to it, without its parameters. -/
def opened (t : SymbolTable) (header : Header) (handle : Handle) (strings : Pool)
    (modifiers : Modifiers) : SymbolTable :=
  { t with
    strings := strings
    procs := t.procs ++
      [{ Procedure.fresh handle (.empty (.namelist t.procs.length)) header.pos with
        modifiers := modifiers
        trigger := header.trigger }] }

/-- The table with a procedure that is about to be defined, without its
parameters. -/
def cleared (t : SymbolTable) (index : Nat) (trigger : Trigger) (modifiers : Modifiers) :
    SymbolTable :=
  t.modifyScope (.proc index) fun p =>
    { p with
      trigger := trigger
      modifiers := modifiers
      locals := []
      namelist := .empty (.namelist index) }

/-- The table with a procedure whose header was rejected, without its
parameters. -/
def disowned (t : SymbolTable) (header : Header) (handle : Handle) (namelist : Pool) :
    SymbolTable :=
  { t with discarded := t.discarded ++ [Procedure.fresh handle namelist header.pos] }

/-- What a header can do to a table. -/
inductive Declares (t : SymbolTable) (header : Header) : Verdict → SymbolTable → Prop where
  | reject (named : Option Nat) : Declares t header (.reject named) t
  /-- The first header of a name. -/
  | first {handle : Handle} {strings : Pool} {modifiers : Modifiers} {verdict : Verdict}
      (fresh : t.lookupGlobal header.name = none)
      (interned : t.strings.intern header.name = .ok (handle, strings))
      (hverdict : verdict = .define t.procs.length ∨ verdict = .announce t.procs.length) :
      Declares t header verdict
        ((t.opened header handle strings modifiers).setParams (.proc t.procs.length)
          header.params).1
  /-- Another header without a body. -/
  | announce {index : Nat} {trigger : Trigger} {modifiers : Modifiers} {p : Procedure}
      (there : t.scope? (.proc index) = some p)
      (htrigger : trigger = p.trigger ∨ trigger = header.trigger) :
      Declares t header (.announce index)
        (t.modifyScope (.proc index) fun p =>
          { p with trigger := trigger, modifiers := modifiers })
  /-- The header of a body behind headers without one. -/
  | define {index : Nat} {trigger : Trigger} {modifiers : Modifiers} {p : Procedure}
      (there : t.scope? (.proc index) = some p) (open_ : p.defined = false)
      (htrigger : trigger = p.trigger ∨ trigger = header.trigger) :
      Declares t header (.define index)
        ((t.cleared index trigger modifiers).setParams (.proc index) header.params).1

theorem mergeTrigger_spec (p : Procedure) (header : Header) :
    (mergeTrigger p header).1 = p.trigger ∨ (mergeTrigger p header).1 = header.trigger := by
  unfold mergeTrigger
  split
  · exact .inl rfl
  · unfold Trigger.replacedBy
    split
    · exact .inl rfl
    · exact .inr rfl

theorem declareAgain_named (t : SymbolTable) (index : Nat) (p : Procedure) (header : Header) :
    (t.declareAgain index p header).verdict.named? = some index := by
  unfold declareAgain
  split
  · rfl
  · by_cases hbody : header.hasBody <;> simp [hbody, Verdict.named?]

theorem declareAgain_spec {t : SymbolTable} {index : Nat} {p : Procedure} (header : Header)
    (hp : t.procs[index]? = some p) :
    Declares t header (t.declareAgain index p header).verdict
      (t.declareAgain index p header).table := by
  have there : t.scope? (.proc index) = some p := hp
  unfold declareAgain
  by_cases hdefined : (header.hasBody && p.defined) = true
  · rw [if_pos hdefined]
    exact .reject _
  · rw [if_neg hdefined]
    cases hbody : header.hasBody with
    | true =>
        rw [hbody] at hdefined
        exact .define there (by simpa using hdefined) (mergeTrigger_spec p header)
    | false => exact .announce there (mergeTrigger_spec p header)

theorem declareSettled_spec (t : SymbolTable) (header : Header) :
    Declares t header (t.declareSettled header).verdict (t.declareSettled header).table := by
  unfold declareSettled
  cases hl : t.lookupGlobal header.name with
  | none =>
      simp only [declareFirst]
      cases hi : t.strings.intern header.name with
      | error e => exact .reject _
      | ok found =>
          refine .first hl hi ?_
          by_cases hbody : header.hasBody <;> simp [hbody]
  | some existing =>
      cases existing with
      | proc index =>
          cases hp : t.procs[index]? with
          | none =>
              simp only [hp]
              exact .reject _
          | some p =>
              simp only [hp]
              exact declareAgain_spec header hp
      | global i => exact .reject _
      | inner scope i => exact .reject _
      | builtin i => exact .reject _

theorem settle_spec (header : Header) :
    ∃ modifiers, header.settle.1 = { header with modifiers := modifiers } := by
  have hscope : ∃ m, header.settleScope.1 = { header with modifiers := m } := by
    unfold Header.settleScope
    split
    · exact ⟨_, rfl⟩
    · exact ⟨header.modifiers, rfl⟩
  have himport : ∀ h : Header, ∃ m, h.settleImport.1 = { h with modifiers := m } := by
    intro h
    unfold Header.settleImport
    split
    · exact ⟨_, rfl⟩
    · exact ⟨h.modifiers, rfl⟩
  obtain ⟨m, hm⟩ := hscope
  obtain ⟨m', hm'⟩ := himport header.settleScope.1
  refine ⟨m', ?_⟩
  show header.settleScope.1.settleImport.1 = _
  rw [hm', hm]

/-- What a header does is not up to its modifiers. -/
theorem Declares.of_modifiers {t u : SymbolTable} {header : Header} {modifiers : Modifiers}
    {verdict : Verdict} (h : Declares t { header with modifiers := modifiers } verdict u) :
    Declares t header verdict u := by
  cases h with
  | reject named => exact .reject named
  | first fresh interned hverdict => exact .first fresh interned hverdict
  | announce there htrigger => exact .announce there htrigger
  | define there open_ htrigger => exact .define there open_ htrigger

theorem declare_spec (t : SymbolTable) (header : Header) :
    Declares t header (t.declare header).verdict (t.declare header).table := by
  obtain ⟨modifiers, hm⟩ := settle_spec header
  have hsettled := declareSettled_spec t header.settle.1
  rw [hm] at hsettled
  have hdeclares := hsettled.of_modifiers
  rw [← hm] at hdeclares
  exact hdeclares

theorem declareDiscarded_spec {t u : SymbolTable} {header : Header} {scope : ScopeId}
    {problems : List Diagnostic} (h : t.declareDiscarded header = .ok (scope, u, problems)) :
    ∃ handle namelist, scope = .discarded t.discarded.length ∧
      u = ((t.disowned header handle namelist).setParams scope header.params).1 := by
  unfold declareDiscarded at h
  cases hi : (Pool.empty .scratch).intern header.name with
  | error e => rw [hi] at h; cases h
  | ok found =>
      obtain ⟨handle, namelist⟩ := found
      simp only [hi] at h
      cases h
      exact ⟨handle, namelist, rfl, rfl⟩

/-! ## What a header keeps -/

variable {known : Position → Prop} {t u : SymbolTable} {header : Header} {verdict : Verdict}

theorem scope?_opened {handle : Handle} {strings : Pool} {modifiers : Modifiers} {sc : ScopeId}
    {p : Procedure} (h : t.scope? sc = some p) :
    (t.opened header handle strings modifiers).scope? sc = some p := by
  cases sc with
  | proc i =>
      have hi : t.procs[i]? = some p := h
      have hlt := (List.getElem?_eq_some_iff.mp hi).1
      show (t.procs ++ _)[i]? = some p
      rw [List.getElem?_append_left hlt, hi]
  | discarded i => exact h

theorem scope?_disowned {handle : Handle} {namelist : Pool} {sc : ScopeId} {p : Procedure}
    (h : t.scope? sc = some p) : (t.disowned header handle namelist).scope? sc = some p := by
  cases sc with
  | proc i => exact h
  | discarded i =>
      have hi : t.discarded[i]? = some p := h
      have hlt := (List.getElem?_eq_some_iff.mp hi).1
      show (t.discarded ++ _)[i]? = some p
      rw [List.getElem?_append_left hlt, hi]

/-- A procedure behind all others is the one that was put there. -/
theorem eq_of_getElem?_concat {procs : List Procedure} {p q : Procedure} {i : Nat}
    (h : (procs ++ [p])[i]? = some q) (hi : procs[i]? = none) : q = p := by
  have hle : procs.length ≤ i := List.getElem?_eq_none_iff.mp hi
  rw [List.getElem?_append_right hle] at h
  obtain ⟨_, rfl⟩ := List.getElem?_eq_some_iff.mp h
  exact List.getElem_singleton _

/-- A procedure after a first header was there before, or is the new one. -/
theorem scope?_opened_cases {handle : Handle} {strings : Pool} {modifiers : Modifiers}
    {sc : ScopeId} {q : Procedure}
    (hq : (t.opened header handle strings modifiers).scope? sc = some q) :
    t.scope? sc = some q ∨ (t.scope? sc = none ∧
      q = { Procedure.fresh handle (.empty (.namelist t.procs.length)) header.pos with
        modifiers := modifiers
        trigger := header.trigger }) := by
  cases hsc : t.scope? sc with
  | some p =>
      rw [scope?_opened hsc] at hq
      exact .inl hq
  | none =>
      cases sc with
      | discarded i =>
          have hnone : t.scope? (.discarded i) = some q := hq
          rw [hsc] at hnone
          cases hnone
      | proc i => exact .inr ⟨rfl, eq_of_getElem?_concat hq hsc⟩

theorem scope?_disowned_cases {handle : Handle} {namelist : Pool} {sc : ScopeId} {q : Procedure}
    (hq : (t.disowned header handle namelist).scope? sc = some q) :
    t.scope? sc = some q ∨
      (t.scope? sc = none ∧ q = Procedure.fresh handle namelist header.pos) := by
  cases hsc : t.scope? sc with
  | some p =>
      rw [scope?_disowned hsc] at hq
      exact .inl hq
  | none =>
      cases sc with
      | proc i =>
          have hnone : t.scope? (.proc i) = some q := hq
          rw [hsc] at hnone
          cases hnone
      | discarded i => exact .inr ⟨rfl, eq_of_getElem?_concat hq hsc⟩

theorem opened_extends {keep : ScopeId → Prop} {handle : Handle} {strings : Pool}
    {modifiers : Modifiers} (h : t.strings.intern header.name = .ok (handle, strings)) :
    t.Extends keep (t.opened header handle strings modifiers) := by
  refine ⟨(Pool.intern_spec h).1, List.prefix_rfl, ?_, fun _ hp => ⟨_, scope?_opened hp, .refl _⟩⟩
  simp only [opened, List.map_append]
  exact List.prefix_append _ _

theorem cleared_extends {index : Nat} {trigger : Trigger} {modifiers : Modifiers} :
    t.Extends (· ≠ .proc index) (t.cleared index trigger modifiers) :=
  extends_modifyScope (fun _ _ => rfl) fun h => absurd rfl h

theorem disowned_extends {keep : ScopeId → Prop} {handle : Handle} {namelist : Pool} :
    t.Extends keep (t.disowned header handle namelist) :=
  ⟨.refl _, List.prefix_rfl, List.prefix_rfl, fun _ hp => ⟨_, scope?_disowned hp, .refl _⟩⟩

theorem opened_known {handle : Handle} {strings : Pool} {modifiers : Modifiers}
    (h : t.strings.intern header.name = .ok (handle, strings))
    (hp : ParamsKnown known t.strings header.params) :
    ParamsKnown known (t.opened header handle strings modifiers).strings header.params :=
  hp.grows (Pool.intern_spec h).1

theorem cleared_known {index : Nat} {trigger : Trigger} {modifiers : Modifiers}
    (hp : ParamsKnown known t.strings header.params) :
    ParamsKnown known (t.cleared index trigger modifiers).strings header.params := by
  simpa [cleared] using hp

/-- A header makes the table grow; only a definition takes locals away, those of
the procedure that it defines. -/
theorem Declares.extends (h : Declares t header verdict u) :
    t.Extends (fun sc => ∀ index, verdict = .define index → sc ≠ .proc index) u := by
  cases h with
  | reject named => exact .refl t
  | first fresh interned hverdict =>
      exact (opened_extends interned).trans (setParams_grows.weaken fun _ _ => trivial)
  | announce there htrigger =>
      exact extends_modifyScope (fun _ _ => rfl) fun _ p _ => ⟨.refl _, List.prefix_rfl⟩
  | define there open_ htrigger =>
      exact .trans (cleared_extends.weaken fun sc hsc => hsc _ rfl)
        (setParams_grows.weaken fun _ _ => trivial)

theorem Declares.procs_length (h : Declares t header verdict u) :
    u.procs.length ≤ t.procs.length + 1 := by
  cases h with
  | reject named => exact Nat.le_succ _
  | first fresh interned hverdict =>
      rw [setParams_shells.procs_length]
      simp [opened]
  | announce there htrigger => simp
  | define there open_ htrigger =>
      rw [setParams_shells.procs_length]
      simp [cleared]

/-- The second procedure is the first one after another header. -/
structure Recoded (header : Header) (p q : Procedure) : Prop where
  body : q.body = p.body
  defined : q.defined = p.defined
  span : q.span = p.span
  trigger : q.trigger = p.trigger ∨ q.trigger = header.trigger

/-- A procedure that has no body yet. -/
structure Blank (header : Header) (q : Procedure) : Prop where
  body : q.body = []
  defined : q.defined = false
  span : q.span = none
  trigger : q.trigger = .none ∨ q.trigger = header.trigger

theorem Recoded.of_coding {p q : Procedure} (h : q.coding = p.coding) : Recoded header p q := by
  simp only [Procedure.coding, Prod.mk.injEq] at h
  exact ⟨h.1, h.2.1, h.2.2.2, .inl h.2.2.1⟩

theorem Recoded.then_coding {p q r : Procedure} (h : Recoded header p q)
    (hr : r.coding = q.coding) : Recoded header p r := by
  simp only [Procedure.coding, Prod.mk.injEq] at hr
  obtain ⟨hbody, hdefined, htrigger, hspan⟩ := hr
  exact ⟨hbody.trans h.body, hdefined.trans h.defined, hspan.trans h.span, htrigger ▸ h.trigger⟩

theorem Blank.then_coding {q r : Procedure} (h : Blank header q) (hr : r.coding = q.coding) :
    Blank header r := by
  simp only [Procedure.coding, Prod.mk.injEq] at hr
  obtain ⟨hbody, hdefined, htrigger, hspan⟩ := hr
  exact ⟨hbody.trans h.body, hdefined.trans h.defined, hspan.trans h.span, htrigger ▸ h.trigger⟩

theorem modifyScope_recoded {id sc : ScopeId} {f : Procedure → Procedure} {q : Procedure}
    (hq : (t.modifyScope id f).scope? sc = some q)
    (hf : ∀ p, t.scope? id = some p → Recoded header p (f p)) :
    ∃ p, t.scope? sc = some p ∧ Recoded header p q := by
  by_cases hsc : sc = id
  · subst hsc
    rw [scope?_modifyScope_self] at hq
    obtain ⟨p, hp, rfl⟩ := Option.map_eq_some_iff.mp hq
    exact ⟨p, hp, hf p hp⟩
  · rw [scope?_modifyScope_of_ne _ _ _ hsc] at hq
    exact ⟨q, hq, .of_coding rfl⟩

/-- A procedure that a header adds is blank; any other one keeps its code. -/
theorem Declares.coding (h : Declares t header verdict u) {sc : ScopeId} {q : Procedure}
    (hq : u.scope? sc = some q) :
    (∃ p, t.scope? sc = some p ∧ Recoded header p q) ∨ (t.scope? sc = none ∧ Blank header q) := by
  have htaken : ∀ {index : Nat} {p p' : Procedure} {trigger : Trigger},
      t.scope? (.proc index) = some p → trigger = p.trigger ∨ trigger = header.trigger →
      t.scope? (.proc index) = some p' → trigger = p'.trigger ∨ trigger = header.trigger := by
    intro index p p' trigger hp htrigger hp'
    rw [hp] at hp'
    exact Option.some.inj hp' ▸ htrigger
  cases h with
  | reject named => exact .inl ⟨q, hq, .of_coding rfl⟩
  | first fresh interned hverdict =>
      obtain ⟨r, hr, hcoding⟩ := setParams_shells.sameCode.back hq
      rcases scope?_opened_cases hr with hold | ⟨hnone, rfl⟩
      · exact .inl ⟨r, hold, .of_coding hcoding⟩
      · exact .inr ⟨hnone, Blank.then_coding ⟨rfl, rfl, rfl, .inr rfl⟩ hcoding⟩
  | announce there htrigger =>
      exact .inl (modifyScope_recoded hq fun p hp => ⟨rfl, rfl, rfl, htaken there htrigger hp⟩)
  | define there open_ htrigger =>
      obtain ⟨r, hr, hcoding⟩ := setParams_shells.sameCode.back hq
      obtain ⟨p', hp', hrecoded⟩ :=
        modifyScope_recoded hr fun p hp => ⟨rfl, rfl, rfl, htaken there htrigger hp⟩
      exact .inl ⟨p', hp', hrecoded.then_coding hcoding⟩

theorem Declares.eq_of_reject {named : Option Nat} (h : Declares t header (.reject named) u) :
    u = t := by
  cases h with
  | reject named => rfl
  | first fresh interned hverdict => exact absurd hverdict (by simp)

/-- What is defined is not there yet, or has no body. -/
theorem Declares.open_of_define {index : Nat} (h : Declares t header (.define index) u)
    {p : Procedure} (hp : t.scope? (.proc index) = some p) : p.defined = false := by
  cases h with
  | first fresh interned hverdict =>
      rcases hverdict with heq | heq <;> cases heq
      have hi : t.procs[t.procs.length]? = some p := hp
      simp at hi
  | define there open_ htrigger =>
      rw [there] at hp
      obtain rfl := Option.some.inj hp
      exact open_

theorem Declares.exists_of_define {index : Nat} (h : Declares t header (.define index) u) :
    ∃ q, u.scope? (.proc index) = some q := by
  cases h with
  | @first handle strings modifiers verdict fresh interned hverdict =>
      rcases hverdict with heq | heq <;> cases heq
      have hlast : ∃ p, (t.opened header handle strings modifiers).scope?
          (.proc t.procs.length) = some p := ⟨_, List.getElem?_concat_length⟩
      obtain ⟨p, hp⟩ := hlast
      obtain ⟨q, hq, _⟩ := setParams_shells.exists_of_some hp
      exact ⟨q, hq⟩
  | @define index trigger modifiers p there open_ htrigger =>
      have hcleared : ∃ p, (t.cleared index trigger modifiers).scope? (.proc index) = some p := by
        unfold cleared
        rw [scope?_modifyScope_self, there]
        exact ⟨_, rfl⟩
      obtain ⟨p, hp⟩ := hcleared
      obtain ⟨q, hq, _⟩ := setParams_shells.exists_of_some hp
      exact ⟨q, hq⟩

/-- Scopes are changed where they are. -/
theorem keeps_scope_modifyScope {id sc : ScopeId} {f : Procedure → Procedure}
    (there : t.scope? sc ≠ none) : (t.modifyScope id f).scope? sc ≠ none := by
  by_cases hsc : sc = id
  · subst hsc
    rw [scope?_modifyScope_self]
    simpa using there
  · rwa [scope?_modifyScope_of_ne _ _ _ hsc]

theorem keeps_scope_setParams {scope sc : ScopeId} {params : List Param}
    (there : t.scope? sc ≠ none) : (t.setParams scope params).1.scope? sc ≠ none := by
  obtain ⟨p, hp⟩ := Option.ne_none_iff_exists'.mp there
  obtain ⟨q, hq, -⟩ := setParams_shells.exists_of_some hp
  rw [hq]
  nofun

/-- No header takes a scope away. -/
theorem Declares.keeps_scope (h : Declares t header verdict u) {sc : ScopeId}
    (there : t.scope? sc ≠ none) : u.scope? sc ≠ none := by
  cases h with
  | reject named => exact there
  | first fresh interned hverdict =>
      obtain ⟨p, hp⟩ := Option.ne_none_iff_exists'.mp there
      refine keeps_scope_setParams ?_
      rw [scope?_opened hp]
      nofun
  | announce hindex htrigger => exact keeps_scope_modifyScope there
  | define hindex open_ htrigger => exact keeps_scope_setParams (keeps_scope_modifyScope there)

theorem declareDiscarded_coding {scope : ScopeId} {problems : List Diagnostic}
    (h : t.declareDiscarded header = .ok (scope, u, problems)) {sc : ScopeId} {q : Procedure}
    (hq : u.scope? sc = some q) :
    (∃ p, t.scope? sc = some p ∧ Recoded header p q) ∨ (t.scope? sc = none ∧ Blank header q) := by
  obtain ⟨handle, namelist, rfl, rfl⟩ := declareDiscarded_spec h
  obtain ⟨r, hr, hcoding⟩ := setParams_shells.sameCode.back hq
  rcases scope?_disowned_cases hr with hold | ⟨hnone, rfl⟩
  · exact .inl ⟨r, hold, .of_coding hcoding⟩
  · exact .inr ⟨hnone, Blank.then_coding ⟨rfl, rfl, rfl, .inl rfl⟩ hcoding⟩

theorem declareDiscarded_exists {scope : ScopeId} {problems : List Diagnostic}
    (h : t.declareDiscarded header = .ok (scope, u, problems)) :
    t.scope? scope = none ∧ ∃ q, u.scope? scope = some q := by
  obtain ⟨handle, namelist, rfl, rfl⟩ := declareDiscarded_spec h
  have hlast : (t.disowned header handle namelist).scope? (.discarded t.discarded.length) =
      some (Procedure.fresh handle namelist header.pos) := List.getElem?_concat_length
  obtain ⟨q, hq, _⟩ := setParams_shells.exists_of_some hlast
  exact ⟨List.getElem?_eq_none (Nat.le_refl _), q, hq⟩

theorem declareDiscarded_grows {scope : ScopeId} {problems : List Diagnostic}
    (h : t.declareDiscarded header = .ok (scope, u, problems)) :
    t.Grows u ∧ u.procs.length = t.procs.length := by
  obtain ⟨handle, namelist, rfl, rfl⟩ := declareDiscarded_spec h
  exact ⟨disowned_extends.trans setParams_grows, setParams_shells.procs_length⟩

/-- At the end of the unit, nothing changes but modifiers. -/
theorem closeProcedure_eq (p : Procedure) :
    closeProcedure p = { p with modifiers := (closeProcedure p).modifiers } := by
  unfold closeProcedure
  split <;> rfl

end SymbolTable

end SslFrontend
