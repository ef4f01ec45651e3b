import SslFrontend.Proofs.Symbol.Triggers

/-! # Triggers over the headers of a name

A procedure may have any number of headers, with anything declared between them.  The
first trigger that one of them has decides: a time is never replaced, and a condition
is replaced by later conditions only.  Each later header that brings a trigger of the
other kind, or another time, is reported once, and no other header is.
-/

namespace SslFrontend

namespace Trigger

/-- The trigger that headers with these triggers leave. -/
def merged (triggers : List Trigger) : Trigger := triggers.foldl joined .none

/-- The conditions among triggers. -/
def conditions (triggers : List Trigger) : List Code := triggers.filterMap condition?

/-- A trigger that is not compatible with a time. -/
def Misses (time : Int32) : Trigger → Prop
  | .none => False
  | .timed other => other ≠ time
  | .conditional _ => True

instance (time : Int32) : DecidablePred (Misses time)
  | .none => inferInstanceAs (Decidable False)
  | .timed other => inferInstanceAs (Decidable (other ≠ time))
  | .conditional _ => inferInstanceAs (Decidable True)

def IsTimed (trigger : Trigger) : Prop := ∃ time, trigger = .timed time

instance : DecidablePred IsTimed
  | .timed time => .isTrue ⟨time, rfl⟩
  | .none | .conditional _ => .isFalse (by simp [IsTimed])

theorem conflicts_timed_iff {time : Int32} {new : Trigger} :
    (Trigger.timed time).Conflicts new ↔ new.Misses time := by
  rw [conflicts_timed]
  cases new <;> simp [Misses]

theorem merged_append (first second : List Trigger) :
    merged (first ++ second) = second.foldl joined (merged first) :=
  List.foldl_append

theorem merged_silent {triggers : List Trigger} (h : ∀ trigger ∈ triggers, trigger = .none) :
    merged triggers = .none := by
  rw [List.eq_replicate_of_mem h]
  induction triggers.length with
  | zero => rfl
  | succ n ih => exact ih

theorem foldl_timed (time : Int32) (later : List Trigger) :
    later.foldl joined (.timed time) = .timed time := by
  induction later with
  | nil => rfl
  | cons trigger rest ih => rwa [List.foldl_cons, timed_joined]

/-- The last condition stays. -/
theorem foldl_conditional (condition : Code) (later : List Trigger) :
    later.foldl joined (.conditional condition) =
      .conditional ((conditions later).getLast?.getD condition) := by
  induction later generalizing condition with
  | nil => rfl
  | cons trigger rest ih =>
      rw [List.foldl_cons, conditional_joined, ih]
      cases trigger with
      | none | timed time => rfl
      | conditional other =>
          show _ = Trigger.conditional ((other :: conditions rest).getLast?.getD condition)
          rw [List.getLast?_cons]
          rfl

/-- Headers without a trigger come first. -/
theorem merged_of_silent {before later : List Trigger} {first : Trigger}
    (h : ∀ trigger ∈ before, trigger = .none) :
    merged (before ++ first :: later) = later.foldl joined first := by
  rw [merged_append, merged_silent h, List.foldl_cons, none_joined]

end Trigger

def Verdict.isReject : Verdict → Bool
  | .reject _ => true
  | _ => false

/-- The header of a procedure with a name, if the operation is one. -/
def Operation.header? (name : String) : Operation → Option Header
  | .declareProc header => if header.name = name then some header else none
  | _ => none

namespace SymbolTable

/-- A header and the table that it is declared in. -/
structure Call where
  table : SymbolTable
  header : Header

namespace Call

def declared (call : Call) : Declared := call.table.declare call.header

def trigger (call : Call) : Trigger := call.header.trigger

/-- Where a conflict is reported when the header is declared. -/
def conflicts (call : Call) : List Position :=
  (conflictsAmong call.declared.problems).map Diagnostic.pos

end Call

/-- The headers of a name among operations, each with the table that it finds. -/
def callsOf (name : String) : SymbolTable → List Operation → List Call
  | _, [] => []
  | t, op :: rest =>
    ((op.header? name).map (Call.mk t)).toList ++ callsOf name (t.perform op) rest

/-- What headers of one name come to: the trigger of their procedure, and the reports
that are made when they are declared. -/
structure Merges (name : String) (calls : List Call) (final : Option Trigger) : Prop where
  silent : (∀ call ∈ calls, call.trigger = .none) →
    final = some .none ∧ ∀ call ∈ calls, call.conflicts = []
  /-- The first trigger is a time. -/
  timed : ∀ before first after time, calls = before ++ first :: after →
    (∀ call ∈ before, call.trigger = .none) → first.trigger = .timed time →
    final = some (.timed time) ∧ (∀ call ∈ before ++ [first], call.conflicts = []) ∧
      ∀ call ∈ after,
        call.conflicts = if call.trigger.Misses time then [call.header.pos] else []
  /-- The first trigger is a condition. -/
  conditional : ∀ before first after condition, calls = before ++ first :: after →
    (∀ call ∈ before, call.trigger = .none) → first.trigger = .conditional condition →
    final = (Trigger.conditions ((first :: after).map Call.trigger)).getLast?.map .conditional ∧
      (∀ call ∈ before ++ [first], call.conflicts = []) ∧
      ∀ call ∈ after, call.conflicts = if call.trigger.IsTimed then [call.header.pos] else []
  /-- A header without a trigger leaves the one that is there. -/
  keeps : ∀ call ∈ calls, call.trigger = .none → ∀ trigger,
    call.table.triggerOf? name = some trigger →
      call.declared.table.triggerOf? name = some trigger

/-! ## What a header finds -/

variable {t : SymbolTable} {name : String}

/-- A header finds the trigger that those before it leave, and is reported if its own
conflicts with that one. -/
structure Call.Finds (call : Call) (name : String) (found : Trigger) : Prop where
  there : call.table.triggerOf? name = none ∨ call.table.triggerOf? name = some found
  own : call.declared.table.triggerOf? name = some (found.joined call.trigger)
  reports : call.conflicts = if found.Conflicts call.trigger then [call.header.pos] else []

theorem Call.finds {header : Header} (ht : t.Kept)
    (ha : (t.declare header).verdict.isReject = false) :
    (Call.mk t header).Finds header.name (t.remembered header.name) := by
  have haccepted : ∀ named, (t.declare header).verdict ≠ .reject named := fun named hverdict => by
    rw [hverdict] at ha
    cases ha
  have htriggers := declare_triggers ht haccepted
  refine ⟨?_, htriggers.own, htriggers.reports⟩
  unfold remembered
  cases t.triggerOf? header.name with
  | none => exact .inl rfl
  | some trigger => exact .inr rfl

/-- An operation that is no header of the name keeps the trigger of the name. -/
theorem triggerOf?_perform_of_header? (ht : t.Kept) {op : Operation}
    (hop : op.header? name = none) : (t.perform op).triggerOf? name = t.triggerOf? name := by
  by_cases hheader : ∃ header, op = .declareProc header
  · obtain ⟨header, rfl⟩ := hheader
    have hne : name ≠ header.name := by
      rintro rfl
      simp [Operation.header?] at hop
    by_cases hrejected : (Operation.declareProc header).FailsIn t
    · rw [perform_of_fails hrejected]
    · exact (declare_triggers ht (not_exists.mp hrejected)).others name hne
  · exact triggerOf?_perform ht (fun header heq => hheader ⟨header, heq⟩) name

theorem header?_eq_some {op : Operation} {header : Header} (h : op.header? name = some header) :
    op = .declareProc header ∧ header.name = name := by
  unfold Operation.header? at h
  split at h
  · split at h
    · rename_i own hname
      obtain rfl := Option.some.inj h
      exact ⟨rfl, hname⟩
    · cases h
  · cases h

/-- Each header finds what the ones before it leave, and so does the end. -/
theorem callsOf_spec (name : String) (ops : List Operation) (ht : t.Kept)
    (ha : ∀ call ∈ callsOf name t ops, call.declared.verdict.isReject = false) :
    ((ops.foldl perform t).triggerOf? name =
      if callsOf name t ops = [] then t.triggerOf? name
      else some (((callsOf name t ops).map Call.trigger).foldl .joined (t.remembered name))) ∧
    ∀ before call after, callsOf name t ops = before ++ call :: after →
      call.Finds name ((before.map Call.trigger).foldl .joined (t.remembered name)) := by
  induction ops generalizing t with
  | nil => exact ⟨rfl, fun before call after h => by cases before <;> cases h⟩
  | cons op rest ih =>
      have hnext := ht.perform op
      cases hop : op.header? name with
      | none =>
          -- The operation is not seen in the calls and leaves the trigger.
          have hkept := triggerOf?_perform_of_header? ht hop
          have hcalls : callsOf name t (op :: rest) = callsOf name (t.perform op) rest := by
            simp [callsOf, hop]
          have hremembered : (t.perform op).remembered name = t.remembered name := by
            rw [remembered, remembered, hkept]
          rw [hcalls] at ha ⊢
          rw [← hkept, ← hremembered]
          exact ih hnext ha
      | some header =>
          obtain ⟨rfl, rfl⟩ := header?_eq_some hop
          have hcalls : callsOf header.name t (.declareProc header :: rest) =
              ⟨t, header⟩ :: callsOf header.name (t.perform (.declareProc header)) rest := by
            simp [callsOf, hop]
          rw [hcalls] at ha ⊢
          obtain ⟨hfirst, hrest⟩ := List.forall_mem_cons.mp ha
          have hfinds := Call.finds ht hfirst
          have hown : (t.perform (.declareProc header)).triggerOf? header.name =
              some ((t.remembered header.name).joined header.trigger) := hfinds.own
          have hremembered : (t.perform (.declareProc header)).remembered header.name =
              (t.remembered header.name).joined header.trigger := by rw [remembered, hown]; rfl
          obtain ⟨hfinal, hcall⟩ := ih hnext hrest
          rw [hremembered] at hfinal hcall
          constructor
          · rw [if_neg (List.cons_ne_nil _ _), List.foldl_cons, hfinal, hown]
            split
            · rename_i hnil
              rw [hnil]
              rfl
            · rfl
          · intro before call after hsplit
            cases before with
            | nil =>
                cases hsplit
                exact hfinds
            | cons other before =>
                obtain ⟨rfl, hbehind⟩ := List.cons.inj hsplit
                exact hcall before call after hbehind

/-! ## The first trigger decides -/

section Decides

variable {calls before after : List Call} {first call : Call} {final : Option Trigger}

theorem map_trigger_silent (h : ∀ call ∈ before, call.trigger = .none) :
    ∀ trigger ∈ before.map Call.trigger, trigger = .none :=
  List.forall_mem_map.mpr h

/-- Every header finds what the ones before it leave. -/
def Traced (name : String) (calls : List Call) : Prop :=
  ∀ before call after, calls = before ++ call :: after →
    call.Finds name (Trigger.merged (before.map Call.trigger))

/-- Up to the first trigger there is nothing to conflict with. -/
theorem Traced.conflicts_of_silent (h : Traced name calls)
    (hcalls : calls = before ++ call :: after) (hs : ∀ call ∈ before, call.trigger = .none) :
    call.conflicts = [] := by
  have hreports := (h before call after hcalls).reports
  rwa [Trigger.merged_silent (map_trigger_silent hs),
    if_neg (Trigger.not_conflicts_none_left _)] at hreports

theorem Traced.conflicts_upTo (h : Traced name calls) (hcalls : calls = before ++ first :: after)
    (hs : ∀ call ∈ before, call.trigger = .none) :
    ∀ call ∈ before ++ [first], call.conflicts = [] := by
  intro call hcall
  rcases List.mem_append.mp hcall with hmem | hmem
  · obtain ⟨front, back, rfl⟩ := List.append_of_mem hmem
    have hfront : calls = front ++ call :: (back ++ first :: after) := by simp [hcalls]
    exact h.conflicts_of_silent hfront fun other hother =>
      hs other (List.mem_append_left _ hother)
  · obtain rfl := List.mem_singleton.mp hmem
    exact h.conflicts_of_silent hcalls hs

/-- A header behind the first trigger finds what has become of that one. -/
theorem Traced.conflicts_after (h : Traced name calls)
    (hcalls : calls = before ++ first :: after) (hs : ∀ call ∈ before, call.trigger = .none)
    (hmem : call ∈ after) : ∃ between : List Trigger,
      call.conflicts = if (between.foldl .joined first.trigger).Conflicts call.trigger
        then [call.header.pos] else [] := by
  obtain ⟨front, back, rfl⟩ := List.append_of_mem hmem
  have hsplit : calls = (before ++ first :: front) ++ call :: back := by simp [hcalls]
  have hreports := (h _ call back hsplit).reports
  rw [List.map_append, List.map_cons, Trigger.merged_of_silent (map_trigger_silent hs)] at hreports
  exact ⟨front.map Call.trigger, hreports⟩

theorem Traced.merges (h : Traced name calls) :
    Merges name calls (some (Trigger.merged (calls.map Call.trigger))) := by
  refine ⟨fun hs => ⟨?_, fun call hmem => ?_⟩, ?_, ?_, fun call hmem hnone trigger hthere => ?_⟩
  · rw [Trigger.merged_silent (map_trigger_silent hs)]
  · obtain ⟨before, after, rfl⟩ := List.append_of_mem hmem
    exact h.conflicts_of_silent rfl fun other hother => hs other (List.mem_append_left _ hother)
  · intro before first after time hcalls hs hfirst
    refine ⟨?_, h.conflicts_upTo hcalls hs, fun call hmem => ?_⟩
    · rw [hcalls, List.map_append, List.map_cons,
        Trigger.merged_of_silent (map_trigger_silent hs), hfirst, Trigger.foldl_timed]
    · obtain ⟨between, hreports⟩ := h.conflicts_after hcalls hs hmem
      rw [hreports, hfirst, Trigger.foldl_timed]
      exact if_congr Trigger.conflicts_timed_iff rfl rfl
  · intro before first after condition hcalls hs hfirst
    refine ⟨?_, h.conflicts_upTo hcalls hs, fun call hmem => ?_⟩
    · rw [hcalls, List.map_append, List.map_cons,
        Trigger.merged_of_silent (map_trigger_silent hs), hfirst,
        Trigger.foldl_conditional]
      show _ = ((condition :: Trigger.conditions _).getLast?).map Trigger.conditional
      rw [List.getLast?_cons]
      rfl
    · obtain ⟨between, hreports⟩ := h.conflicts_after hcalls hs hmem
      rw [hreports, hfirst, Trigger.foldl_conditional]
      exact if_congr Trigger.conflicts_conditional rfl rfl
  · obtain ⟨before, after, hcalls⟩ := List.append_of_mem hmem
    have hfinds := h before call after hcalls
    rw [hfinds.own, hnone, Trigger.joined_none]
    rcases hfinds.there with habsent | hfound
    · rw [habsent] at hthere
      cases hthere
    · rw [← hthere, hfound]

end Decides

/-- Whatever else happens to a table, the headers of a name merge their triggers: the
first one with a trigger decides, and each that conflicts with what it decided is
reported. -/
theorem run_merges (ops : List Operation) (name : String)
    (haccepted : ∀ call ∈ callsOf name .empty ops, call.declared.verdict.isReject = false)
    (hdeclared : callsOf name .empty ops ≠ []) :
    Merges name (callsOf name .empty ops) ((run ops).triggerOf? name) := by
  obtain ⟨hfinal, hfinds⟩ := callsOf_spec name ops .empty haccepted
  have htraced : Traced name (callsOf name .empty ops) := hfinds
  rw [if_neg hdeclared] at hfinal
  have hrun : (run ops).triggerOf? name =
      some (Trigger.merged ((callsOf name .empty ops).map Call.trigger)) := hfinal
  rw [hrun]
  exact htraced.merges

/-- A header without a trigger, a variable, a time, a condition and a body. -/
def delayed : List Operation :=
  let header (line : Nat) (trigger : Trigger) (hasBody : Bool) : Header :=
    ⟨"patrol", ⟨.primary, line, 1⟩, .none, trigger, [], hasBody⟩
  [.declareProc (header 1 .none false), .declareVar "guard" .globalVar ⟨.primary, 2, 1⟩,
    .declareProc (header 3 (.timed 10) false), .declareProc (header 4 (.conditional []) false),
    .declareProc (header 5 .none true)]

theorem run_merges_delayed :
    (∀ call ∈ callsOf "patrol" .empty delayed, call.declared.verdict.isReject = false) ∧
    callsOf "patrol" .empty delayed ≠ [] ∧
    Merges "patrol" (callsOf "patrol" .empty delayed) ((run delayed).triggerOf? "patrol") := by
  have haccepted : ∀ call ∈ callsOf "patrol" .empty delayed,
      call.declared.verdict.isReject = false := by decide +kernel
  have hdeclared : callsOf "patrol" .empty delayed ≠ [] := by decide +kernel
  exact ⟨haccepted, hdeclared, run_merges delayed "patrol" haccepted hdeclared⟩

end SymbolTable

end SslFrontend
