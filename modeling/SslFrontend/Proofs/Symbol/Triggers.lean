import SslFrontend.Proofs.Symbol.Kept
import SslFrontend.Proofs.SymbolTableInvariant

/-! # Triggers of procedures

What a header does to the trigger that its procedure has so far.  The two may
conflict, which is reported once and leaves the trigger as it is.  Else a trigger of
the header replaces the one that is there.  No header touches the trigger of a
procedure with another name, and neither does anything else that is done to a table.
-/

namespace SslFrontend

namespace Trigger

/-- A header with the second trigger must not follow one with the first. -/
def Conflicts (old new : Trigger) : Prop := old.conflict? new ≠ Option.none

instance (old new : Trigger) : Decidable (old.Conflicts new) :=
  inferInstanceAs (Decidable (old.conflict? new ≠ Option.none))

/-- The trigger of a procedure after another header. -/
def joined (old new : Trigger) : Trigger :=
  if old.Conflicts new then old else old.replacedBy new

theorem not_conflicts_none_left (new : Trigger) : ¬Trigger.none.Conflicts new :=
  not_not_intro (by cases new <;> rfl)

theorem not_conflicts_none_right (old : Trigger) : ¬old.Conflicts .none :=
  not_not_intro (by cases old <;> rfl)

@[simp] theorem none_joined (new : Trigger) : Trigger.none.joined new = new := by
  rw [joined, if_neg (not_conflicts_none_left new)]
  cases new <;> rfl

@[simp] theorem joined_none (old : Trigger) : old.joined .none = old := by
  rw [joined, if_neg (not_conflicts_none_right old)]
  rfl

/-- A time conflicts with each condition and with each other time. -/
theorem conflicts_timed {time : Int32} {new : Trigger} : (Trigger.timed time).Conflicts new ↔
    (∃ condition, new = .conditional condition) ∨ ∃ other, new = .timed other ∧ other ≠ time := by
  cases new with
  | none => exact iff_of_false (not_conflicts_none_right _) (by simp)
  | conditional condition => simp [Conflicts, conflict?]
  | timed other => simp [Conflicts, conflict?, eq_comm]

/-- A condition conflicts with each time. -/
theorem conflicts_conditional {condition : Code} {new : Trigger} :
    (Trigger.conditional condition).Conflicts new ↔ ∃ time, new = .timed time := by
  cases new with
  | none => exact iff_of_false (not_conflicts_none_right _) (by simp)
  | conditional other => simp [Conflicts, conflict?]
  | timed time => simp [Conflicts, conflict?]

/-- Nothing takes a time away. -/
@[simp] theorem timed_joined (time : Int32) (new : Trigger) :
    (Trigger.timed time).joined new = .timed time := by
  unfold joined
  split
  · rfl
  · rename_i hagree
    rw [conflicts_timed, not_or] at hagree
    cases new with
    | none => rfl
    | conditional condition => exact absurd ⟨condition, rfl⟩ hagree.1
    | timed other =>
        obtain rfl : other = time := Classical.not_not.mp fun hne => hagree.2 ⟨other, rfl, hne⟩
        rfl

/-- Only another condition replaces a condition. -/
@[simp] theorem conditional_joined (condition : Code) (new : Trigger) :
    (Trigger.conditional condition).joined new =
      .conditional (new.condition?.getD condition) := by
  cases new <;> rfl

end Trigger

/-- The name of a procedure with its trigger. -/
def Procedure.tag (p : Procedure) : Handle × Trigger := (p.name, p.trigger)

namespace SymbolTable

variable {t u : SymbolTable} {name : String} {trigger : Trigger} {header : Header}

def tag? (t : SymbolTable) (index : Nat) : Option (Handle × Trigger) :=
  t.procs[index]?.map Procedure.tag

theorem tag?_of_scope? {index : Nat} {p : Procedure} (h : t.scope? (.proc index) = some p) :
    t.tag? index = some p.tag := by
  have hp : t.procs[index]? = some p := h
  simp [tag?, hp]

theorem SameShells.tag? (h : t.SameShells u) (index : Nat) : u.tag? index = t.tag? index := by
  have hshell : (u.procs[index]?).map Procedure.shell = (t.procs[index]?).map Procedure.shell :=
    h (.proc index)
  have htag := congrArg (Option.map Procedure.tag) hshell
  rw [Option.map_map, Option.map_map] at htag
  exact htag

theorem tag?_modifyScope {index : Nat} {f : Procedure → Procedure} {p : Procedure}
    (h : t.scope? (.proc index) = some p) (other : Nat) :
    (t.modifyScope (.proc index) f).tag? other =
      if other = index then some (f p).tag else t.tag? other := by
  split
  · subst other
    exact tag?_of_scope? (by rw [scope?_modifyScope_self, h]; rfl)
  · rename_i hne
    have hscope : (t.modifyScope (.proc index) f).scope? (.proc other) = t.scope? (.proc other) :=
      scope?_modifyScope_of_ne _ _ _ (by simpa using hne)
    show ((t.modifyScope (.proc index) f).scope? (.proc other)).map Procedure.tag = _
    rw [hscope]
    rfl

theorem tag?_modifyScope_of_tag (id : ScopeId) {f : Procedure → Procedure}
    (hf : ∀ p, (f p).tag = p.tag) (index : Nat) :
    (t.modifyScope id f).tag? index = t.tag? index := by
  show ((t.modifyScope id f).scope? (.proc index)).map Procedure.tag =
    (t.scope? (.proc index)).map Procedure.tag
  by_cases hid : ScopeId.proc index = id
  · subst hid
    rw [scope?_modifyScope_self, Option.map_map]
    exact congrArg (fun g => (t.scope? (.proc index)).map g) (funext hf)
  · rw [scope?_modifyScope_of_ne _ _ _ hid]

theorem tag?_opened {handle : Handle} {strings : Pool} {modifiers : Modifiers} (other : Nat) :
    (t.opened header handle strings modifiers).tag? other =
      if other = t.procs.length then some (handle, header.trigger) else t.tag? other := by
  unfold tag? opened
  split
  · subst other
    simp [Procedure.tag, Procedure.fresh]
  · rename_i hne
    rcases Nat.lt_or_gt_of_ne hne with hlt | hgt
    · rw [List.getElem?_append_left hlt]
    · rw [List.getElem?_eq_none (by simp; omega), List.getElem?_eq_none (Nat.le_of_lt hgt)]

/-! ## The trigger of a name -/

/-- The trigger of the procedure that a name stands for. -/
def triggerOf? (t : SymbolTable) (name : String) : Option Trigger :=
  match t.lookupGlobal name with
  | some (.proc index) => t.procs[index]?.map Procedure.trigger
  | _ => none

theorem triggerOf?_eq_some (h : t.Kept) : t.triggerOf? name = some trigger ↔
    ∃ index handle, t.strings.find? name = some handle ∧
      t.tag? index = some (handle, trigger) := by
  unfold triggerOf?
  constructor
  · intro htrigger
    split at htrigger
    · rename_i index hlookup
      obtain ⟨handle, hfound, ⟨_, _, hs⟩ | ⟨_, i, hindex, hs⟩⟩ := lookupGlobal_eq_some.mp hlookup
      · cases hs
      · cases hs
        obtain ⟨p, hp, hname⟩ := getElem?_of_findIdx? hindex
        refine ⟨index, handle, hfound, ?_⟩
        rw [hp] at htrigger
        cases htrigger
        simp [tag?, hp, Procedure.tag, hname]
    · cases htrigger
  · rintro ⟨index, handle, hfound, htag⟩
    obtain ⟨p, hp, heq⟩ := Option.map_eq_some_iff.mp htag
    cases heq
    have hbinds : t.Binds name (.proc index) :=
      ⟨t.strings, p.name, p.declared, by simp [declaration?, hp, Procedure.label], hfound⟩
    rw [lookupGlobal_of_binds h.globals.distinct hbinds (by simp)]
    simp [hp]

theorem Kept.find?_of_tag? (h : t.Kept) {index : Nat} {handle : Handle}
    (htag : t.tag? index = some (handle, trigger)) :
    ∃ text, t.strings.find? text = some handle := by
  obtain ⟨p, hp, heq⟩ := Option.map_eq_some_iff.mp htag
  cases heq
  exact h.globals.found p.name
    (List.mem_append_right _ (List.mem_map_of_mem (List.mem_of_getElem? hp)))

/-- The trigger of a name stays where no procedure with the name is touched. -/
theorem triggerOf?_congr (ht : t.Kept) (hu : u.Kept) (hg : t.strings.Grows u.strings)
    (htags : ∀ handle, u.strings.find? name = some handle → ∀ index trigger,
      u.tag? index = some (handle, trigger) ↔ t.tag? index = some (handle, trigger)) :
    u.triggerOf? name = t.triggerOf? name := by
  refine Option.ext fun trigger => ?_
  rw [triggerOf?_eq_some ht, triggerOf?_eq_some hu]
  constructor
  · rintro ⟨index, handle, hfound, htag⟩
    have hold := (htags handle hfound index trigger).mp htag
    -- The handle is one of the old table, which finds no other text with it.
    obtain ⟨text, htext⟩ := ht.find?_of_tag? hold
    obtain rfl := Pool.find?_inj (hg.find? htext) hfound
    exact ⟨index, handle, htext, hold⟩
  · rintro ⟨index, handle, hfound, htag⟩
    have hgrown := hg.find? hfound
    exact ⟨index, handle, hgrown, (htags handle hgrown index trigger).mpr htag⟩

theorem triggerOf?_of_tag? (ht : t.Kept) (hu : u.Kept) (hg : t.strings.Grows u.strings)
    (htags : ∀ index, u.tag? index = t.tag? index) : u.triggerOf? name = t.triggerOf? name :=
  triggerOf?_congr ht hu hg fun _ _ index _ => by rw [htags index]

/-- The trigger that headers of a name left, none as long as there is no procedure. -/
def remembered (t : SymbolTable) (name : String) : Trigger := (t.triggerOf? name).getD .none

/-! ## Reports of conflicts -/

/-- The reports of triggers that conflict. -/
def conflictsAmong (problems : List Diagnostic) : List Diagnostic :=
  problems.filter (·.cause = .triggerConflict)

@[simp] theorem conflictsAmong_append (ds es : List Diagnostic) :
    conflictsAmong (ds ++ es) = conflictsAmong ds ++ conflictsAmong es :=
  List.filter_append _ _

theorem conflictsAmong_eq_nil {ds : List Diagnostic} (h : ∀ d ∈ ds, d.cause ≠ .triggerConflict) :
    conflictsAmong ds = [] :=
  List.filter_eq_nil_iff.mpr fun d hd => by simpa using h d hd

theorem declareLocal_cause {scope : ScopeId} {pos : Position} {d : Diagnostic}
    (h : t.declareLocal scope name pos = .error d) : d.cause ≠ .triggerConflict := by
  unfold declareLocal at h
  split at h
  · cases h
    exact nofun
  · split at h
    · cases h
      exact nofun
    · split at h
      · cases h
        exact nofun
      · cases h

theorem addParam_conflicts (scope : ScopeId) (state : SymbolTable × List Diagnostic)
    (param : Param) :
    conflictsAmong (addParam scope state param).2 = conflictsAmong state.2 := by
  obtain ⟨table, problems⟩ := state
  unfold addParam
  cases hd : table.declareLocal scope param.name param.pos with
  | ok found => simp [hd]
  | error d =>
      have hnone : conflictsAmong [d] = [] :=
        conflictsAmong_eq_nil (List.forall_mem_singleton.mpr (declareLocal_cause hd))
      simp [hd, hnone]

theorem setParams_conflicts (scope : ScopeId) (params : List Param) :
    conflictsAmong (t.setParams scope params).2 = [] := by
  have hfold : ∀ (params : List Param) (state : SymbolTable × List Diagnostic),
      conflictsAmong (params.foldl (addParam scope) state).2 = conflictsAmong state.2 := by
    intro params
    induction params with
    | nil => exact fun _ => rfl
    | cons param rest ih => exact fun state => (ih _).trans (addParam_conflicts scope state param)
  exact hfold params (t, [])

theorem settle_conflicts (header : Header) : conflictsAmong header.settle.2 = [] := by
  have hscope : conflictsAmong header.settleScope.2 = [] := by
    unfold Header.settleScope
    split <;> rfl
  have himport : ∀ header : Header, conflictsAmong header.settleImport.2 = [] := by
    intro header
    unfold Header.settleImport
    split <;> rfl
  show conflictsAmong (header.settleScope.2 ++ header.settleScope.1.settleImport.2) = []
  rw [conflictsAmong_append, hscope, himport]
  rfl

theorem arityProblem_conflicts (p : Procedure) (header : Header) :
    conflictsAmong (arityProblem p header) = [] := by
  unfold arityProblem
  split <;> rfl

theorem mergeModifiers_conflicts (p : Procedure) (header : Header) :
    conflictsAmong (mergeModifiers p header).2 = [] := by
  unfold mergeModifiers
  dsimp only
  split <;> rfl

/-- The two triggers are joined; a conflict of theirs is reported at the header. -/
theorem mergeTrigger_joins (p : Procedure) (header : Header) :
    (mergeTrigger p header).1 = p.trigger.joined header.trigger ∧
      (conflictsAmong (mergeTrigger p header).2).map Diagnostic.pos =
        if p.trigger.Conflicts header.trigger then [header.pos] else [] := by
  unfold mergeTrigger Trigger.joined
  cases hc : p.trigger.conflict? header.trigger with
  | none =>
      have hagree : ¬p.trigger.Conflicts header.trigger := not_not_intro hc
      simp only [if_neg hagree]
      exact ⟨trivial, rfl⟩
  | some what =>
      have hconflict : p.trigger.Conflicts header.trigger := by simp [Trigger.Conflicts, hc]
      simp only [if_pos hconflict]
      exact ⟨trivial, rfl⟩

/-! ## Headers -/

/-- What an accepted header does to the triggers of a table. -/
structure Triggers (t : SymbolTable) (header : Header) (declared : Declared) : Prop where
  own : declared.table.triggerOf? header.name =
    some ((t.remembered header.name).joined header.trigger)
  others : ∀ name, name ≠ header.name → declared.table.triggerOf? name = t.triggerOf? name
  reports : (conflictsAmong declared.problems).map Diagnostic.pos =
    if (t.remembered header.name).Conflicts header.trigger then [header.pos] else []

/-- All tags but the one of a name stay, and that one is known. -/
theorem triggerOf?_of_tagged (ht : t.Kept) (hu : u.Kept) (hg : t.strings.Grows u.strings)
    {index : Nat} {handle : Handle} (hfound : u.strings.find? name = some handle)
    (hold : ∀ old, t.tag? index = some old → old.1 = handle)
    (htags : ∀ other, u.tag? other =
      if other = index then some (handle, trigger) else t.tag? other) :
    u.triggerOf? name = some trigger ∧
      ∀ other, other ≠ name → u.triggerOf? other = t.triggerOf? other := by
  refine ⟨(triggerOf?_eq_some hu).mpr ⟨index, handle, hfound, by rw [htags, if_pos rfl]⟩, ?_⟩
  intro other hother
  refine triggerOf?_congr ht hu hg fun handle' hfound' i trigger' => ?_
  -- Another name has another handle, so its procedure is not the one that is touched.
  have hne : handle' ≠ handle := by
    rintro rfl
    exact hother (Pool.find?_inj hfound' hfound)
  rw [htags]
  split
  · subst i
    refine iff_of_false (fun heq => ?_) (fun heq => hne (hold _ heq))
    cases heq
    exact hne rfl
  · exact Iff.rfl

theorem declareFirst_triggers (ht : t.Kept) (hnew : t.lookupGlobal header.name = none)
    {handle : Handle} {strings : Pool}
    (hi : t.strings.intern header.name = .ok (handle, strings)) :
    t.Triggers header (t.declareFirst header) := by
  have htable : (t.declareFirst header).table =
      ((t.opened header handle strings header.modifiers).setParams (.proc t.procs.length)
        header.params).1 := by
    simp only [declareFirst, hi]
    rfl
  have hproblems : (t.declareFirst header).problems =
      ((t.opened header handle strings header.modifiers).setParams (.proc t.procs.length)
        header.params).2 := by
    simp only [declareFirst, hi]
    rfl
  have hnone : t.remembered header.name = .none := by simp [remembered, triggerOf?, hnew]
  have hkept : (t.declareFirst header).table.Kept := by
    rw [htable]
    exact (ht.opened hnew hi).setParams _ _
  obtain ⟨hgrows, hfound⟩ := Pool.intern_spec hi
  have hstrings : (t.declareFirst header).table.strings = strings := by
    rw [htable, strings_setParams]
    rfl
  rw [← hstrings] at hgrows hfound
  have htags : ∀ other, (t.declareFirst header).table.tag? other =
      if other = t.procs.length then some (handle, header.trigger) else t.tag? other := by
    intro other
    rw [htable]
    exact (setParams_shells.tag? other).trans (tag?_opened other)
  obtain ⟨hown, hothers⟩ :=
    triggerOf?_of_tagged ht hkept hgrows hfound (by simp [tag?]) htags
  refine ⟨by rw [hown, hnone, Trigger.none_joined], hothers, ?_⟩
  rw [hproblems, setParams_conflicts, hnone, if_neg (Trigger.not_conflicts_none_left _)]
  rfl

theorem declareAgain_triggers (ht : t.Kept) {index : Nat} {p : Procedure}
    (hlookup : t.lookupGlobal header.name = some (.proc index))
    (hp : t.procs[index]? = some p)
    (ha : ∀ named, (t.declareAgain index p header).verdict ≠ .reject named)
    (hu : (t.declareAgain index p header).table.Kept) :
    t.Triggers header (t.declareAgain index p header) := by
  have hscope : t.scope? (.proc index) = some p := hp
  have hremembered : t.remembered header.name = p.trigger := by
    simp [remembered, triggerOf?, hlookup, hp]
  obtain ⟨hjoined, hreports⟩ := mergeTrigger_joins p header
  rw [← hremembered] at hjoined hreports
  have hfound : t.strings.find? header.name = some p.name := by
    obtain ⟨handle, hfound, ⟨_, _, hs⟩ | ⟨_, i, hindex, hs⟩⟩ := lookupGlobal_eq_some.mp hlookup
    · cases hs
    · cases hs
      obtain ⟨q, hq, hname⟩ := getElem?_of_findIdx? hindex
      rw [hp] at hq
      cases hq
      rwa [hname]
  -- With and without a body, the header does the same to triggers.
  suffices hcases : (t.declareAgain index p header).table.strings = t.strings ∧
      (∀ other, (t.declareAgain index p header).table.tag? other =
        if other = index then some (p.name, (mergeTrigger p header).1) else t.tag? other) ∧
      conflictsAmong (t.declareAgain index p header).problems =
        conflictsAmong (mergeTrigger p header).2 by
    obtain ⟨hstrings, htags, hconflicts⟩ := hcases
    obtain ⟨hown, hothers⟩ := triggerOf?_of_tagged ht hu (hstrings ▸ .refl _)
      (hstrings ▸ hfound) (fun old hold => by rw [tag?_of_scope? hscope] at hold; cases hold; rfl)
      htags
    exact ⟨by rw [hown, hjoined], hothers, by rw [hconflicts, hreports]⟩
  have hfirst : conflictsAmong (arityProblem p header ++ (mergeTrigger p header).2 ++
      (mergeModifiers p header).2) = conflictsAmong (mergeTrigger p header).2 := by
    rw [conflictsAmong_append, conflictsAmong_append, arityProblem_conflicts,
      mergeModifiers_conflicts, List.nil_append, List.append_nil]
  unfold declareAgain at ha ⊢
  by_cases hdefined : (header.hasBody && p.defined) = true
  · rw [if_pos hdefined] at ha
    exact absurd rfl (ha _)
  · rw [if_neg hdefined]
    cases hb : header.hasBody with
    | false =>
        refine ⟨strings_modifyScope _ _ _, fun other => ?_, hfirst⟩
        exact tag?_modifyScope hscope other
    | true =>
        refine ⟨strings_setParams.trans (strings_modifyScope _ _ _), fun other => ?_, ?_⟩
        · exact (setParams_shells.tag? other).trans (tag?_modifyScope hscope other)
        · have himport : ∀ imported : Bool,
              conflictsAmong (if imported then [header.importWithBody] else []) = [] := by
            intro imported
            cases imported <;> rfl
          show conflictsAmong (arityProblem p header ++ (mergeTrigger p header).2 ++
              (mergeModifiers p header).2 ++
              (if (mergeModifiers p header).1.imported then [header.importWithBody] else []) ++
              (setParams _ (.proc index) header.params).2) = _
          rw [conflictsAmong_append, conflictsAmong_append, hfirst, himport, setParams_conflicts,
            List.append_nil, List.append_nil]

theorem declareSettled_triggers (ht : t.Kept)
    (ha : ∀ named, (t.declareSettled header).verdict ≠ .reject named)
    (hu : (t.declareSettled header).table.Kept) :
    t.Triggers header (t.declareSettled header) := by
  unfold declareSettled at ha hu ⊢
  cases hl : t.lookupGlobal header.name with
  | none =>
      cases hi : t.strings.intern header.name with
      | error e => simp [hl, declareFirst, hi] at ha
      | ok found => exact declareFirst_triggers ht hl hi
  | some existing =>
      cases existing with
      | proc index =>
          cases hp : t.procs[index]? with
          | none => simp [hl, hp] at ha
          | some p =>
              simp only [hl, hp] at ha hu ⊢
              exact declareAgain_triggers ht hl hp ha hu
      | global i | inner scope i | builtin i => simp [hl] at ha

theorem declare_triggers (ht : t.Kept)
    (ha : ∀ named, (t.declare header).verdict ≠ .reject named) :
    t.Triggers header (t.declare header) := by
  have hsettled : t.Triggers header.settle.1 (t.declareSettled header.settle.1) :=
    declareSettled_triggers ht ha (ht.declare header)
  have hproblems : conflictsAmong (t.declare header).problems =
      conflictsAmong (t.declareSettled header.settle.1).problems := by
    show conflictsAmong
      (header.settle.2 ++ (t.declareSettled header.settle.1).problems) = _
    rw [conflictsAmong_append, settle_conflicts, List.nil_append]
  obtain ⟨modifiers, hm⟩ := settle_spec header
  have htrigger : header.settle.1.trigger = header.trigger := by rw [hm]
  refine ⟨?_, ?_, ?_⟩
  · have hown := hsettled.own
    rwa [header.settles.name, htrigger] at hown
  · have hothers := hsettled.others
    rwa [header.settles.name] at hothers
  · have hreports := hsettled.reports
    rwa [header.settles.name, header.settles.pos, htrigger, ← hproblems] at hreports

/-! ## Operations -/

/-- Only a header touches a trigger. -/
theorem triggerOf?_perform (ht : t.Kept) {op : Operation}
    (hop : ∀ header, op ≠ .declareProc header) (name : String) :
    (t.perform op).triggerOf? name = t.triggerOf? name := by
  have hu : (t.perform op).Kept := ht.perform op
  cases op with
  | declareVar own scope pos =>
      cases hd : t.declareVar own scope pos with
      | error problem => simp only [perform, hd]
      | ok found =>
          simp only [perform, hd] at hu ⊢
          exact triggerOf?_of_tag? ht hu (declareVar_grows hd).strings
            (SameShells.declareVar hd).tag?
  | declareLocal procedure own pos =>
      cases hd : t.declareLocal procedure own pos with
      | error problem => simp only [perform, hd]
      | ok found =>
          simp only [perform, hd] at hu ⊢
          exact triggerOf?_of_tag? ht hu (declareLocal_grows hd).strings
            (SameShells.declareLocal hd).tag?
  | declareProc header => exact absurd rfl (hop header)
  | declareDiscarded header =>
      cases hd : t.declareDiscarded header with
      | error problem => simp only [perform, hd]
      | ok found =>
          simp only [perform, hd] at hu ⊢
          refine triggerOf?_of_tag? ht hu (declareDiscarded_grows hd).1.strings fun index => ?_
          obtain ⟨handle, namelist, -, heq⟩ := declareDiscarded_spec hd
          rw [heq]
          exact setParams_shells.tag? index
  | markDefined index =>
      have hstrings : (t.perform (.markDefined index)).strings = t.strings :=
        strings_modifyScope _ _ _
      exact triggerOf?_of_tag? ht hu (hstrings ▸ .refl _)
        (tag?_modifyScope_of_tag _ fun _ => rfl)
  | checkDefinitions =>
      refine triggerOf?_of_tag? ht hu (.refl _) fun index => ?_
      show ((t.procs.map closeProcedure)[index]?).map Procedure.tag = _
      rw [List.getElem?_map, Option.map_map]
      have htag : Procedure.tag ∘ closeProcedure = Procedure.tag := by
        funext p
        rw [Function.comp_apply, closeProcedure_eq]
        rfl
      rw [htag]
      rfl

end SymbolTable

end SslFrontend
