import SslFrontend.Proofs.Along.Units
import SslFrontend.Proofs.Misuse.Uses
import SslFrontend.Proofs.Report.Early
import SslFrontend.Proofs.Run.Resolution

/-! # Definitions and linkage of a unit

However many headers a procedure has, and in whatever order their qualifiers
come, the flags of the parsed module are consistent: import and export do not
meet, what is exported is defined, and what is defined has a span and a body
that returns.  Each procedure that lacks its body is reported once, at its
declaration, unless another script has the body.  Imported variables are left to
the script that has them.  Main statement: `TokenStream.ofText_defines`.
-/

namespace SslFrontend

/-! ## Laws throughout a run -/

/-- Nothing that happens while a unit is read breaks a law of its table. -/
theorem SymbolTable.Lawful.throughout :
    HoldsThroughout fun s t => s.table.Lawful → t.table.Lawful where
  inside scope :=
    { refl := fun _ => id
      trans := fun h₁ h₂ h => h₂ (h₁ h)
      move := fun _ _ _ => id
      report := fun _ _ => id
      intern := fun _ _ _ _ _ h => h.strings _
      adjust := fun _ _ _ _ _ hf h => h.amend hf
      mention := fun s _ _ h => by rwa [ParserState.mentioned_table]
      declare := fun _ _ _ _ _ _ _ hd h => h.declareIn hd }
  reserve _ := id
  recordAt _ _ _ _ _ := id
  declare _ header h := h.declare header
  disown _ _ _ _ _ hd h := h.declareDiscarded hd
  attach _ scope _ _ _ h := h.attach scope (fun _ => rfl) fun _ => rfl

theorem TokenStream.draft_lawful (stream : TokenStream) : stream.draft.table.Lawful := by
  rw [stream.draft_table]
  exact SymbolTable.Lawful.throughout.items_along _ .empty

/-! ## Reports on procedures without a body -/

/-- A report on a procedure of a name that lacks its body. -/
def Diagnostic.reportsMissing (name : String) (d : Diagnostic) : Bool :=
  (d.cause == .exportWithoutBody && d.message == s!"exported procedure `{name}` has no body") ||
    (d.cause == .neverDefined && d.message == s!"procedure `{name}` is declared but never defined")

/-- Not about a procedure that lacks its body. -/
theorem Diagnostic.Early.not_reportsMissing {d : Diagnostic} (h : d.Early) (name : String) :
    d.reportsMissing name = false := by
  unfold reportsMissing
  cases hc : d.cause <;> simp_all [Diagnostic.Early, Cause.isFinal]

namespace SymbolTable

/-- What is said of a procedure that lacks its body. -/
theorem reportsMissing_of_undefinedProblem? {name : String} {p : Procedure} {d : Diagnostic}
    (h : undefinedProblem? name p = some d) : d.pos = p.declared ∧
      d.cause = (if p.modifiers.exported then .exportWithoutBody else .neverDefined) ∧
      ∀ other, d.reportsMissing other = true ↔ name = other := by
  unfold undefinedProblem? at h
  split at h
  · cases h
  · split at h
    · rename_i hexported
      cases h
      refine ⟨rfl, by simp [hexported]; rfl, fun other => ?_⟩
      simp [Diagnostic.reportsMissing, Diagnostic.error, Diagnostic.withNote, toString]
    · split at h
      · cases h
      · rename_i hexported _
        cases h
        refine ⟨rfl, by simp [hexported]; rfl, fun other => ?_⟩
        simp [Diagnostic.reportsMissing, Diagnostic.warning, toString]

/-- No two procedures have a name in common. -/
theorem Sound.index_of_name {known : Position → Prop} {t : SymbolTable} (h : t.Sound known)
    {i j : Nat} {p q : Procedure} (hp : t.procs[i]? = some p) (hq : t.procs[j]? = some q)
    (hname : t.strings.lookup p.name = t.strings.lookup q.name) : i = j := by
  have hi := h.lookupGlobal_of_binds (h.binds_proc hp) fun _ _ => nofun
  have hj := h.lookupGlobal_of_binds (h.binds_proc hq) fun _ _ => nofun
  rw [hname, hj] at hi
  cases hi
  rfl

/-- Of everything that a list comes to, what comes of one place is told apart. -/
theorem filter_filterMap_at {α β : Type} {f : α → Option β} {test : β → Bool} {l : List α}
    {i : Nat} {a : α} (h : l[i]? = some a) (hown : ∀ b, f a = some b → test b = true)
    (hapart : ∀ j a', l[j]? = some a' → j ≠ i → ∀ b, f a' = some b → test b = false) :
    (l.filterMap f).filter test = (f a).toList := by
  induction l generalizing i with
  | nil => cases h
  | cons first rest ih =>
      cases i with
      | zero =>
          obtain rfl : first = a := Option.some.inj h
          have hrest : (rest.filterMap f).filter test = [] := by
            rw [List.filter_eq_nil_iff]
            intro b hb
            obtain ⟨a', ha', hb⟩ := List.mem_filterMap.mp hb
            obtain ⟨j, hj⟩ := List.mem_iff_getElem?.mp ha'
            simp [hapart (j + 1) a' hj (Nat.succ_ne_zero j) b hb]
          cases hf : f first with
          | none => simpa [hf] using hrest
          | some b => simpa [hf, hown b hf] using hrest
      | succ i =>
          have hrest := ih (i := i) h fun j a' hj hne =>
            hapart (j + 1) a' hj (by omega)
          cases hf : f first with
          | none => simpa [hf] using hrest
          | some b => simpa [hf, hapart 0 first rfl (by omega) b hf] using hrest

/-- Of all procedures that lack a body, one is reported under its name. -/
theorem Sound.filter_checkDefinitions {known : Position → Prop} {t : SymbolTable}
    (h : t.Sound known) {i : Nat} {p : Procedure} (hp : t.procs[i]? = some p) :
    t.checkDefinitions.2.filter (·.reportsMissing (t.strings.lookup p.name)) =
      (undefinedProblem? (t.strings.lookup p.name) p).toList := by
  refine filter_filterMap_at hp (fun d hd => ?_) fun j q hq hne d hd => ?_
  · exact ((reportsMissing_of_undefinedProblem? hd).2.2 _).mpr rfl
  · have hnames := (reportsMissing_of_undefinedProblem? hd).2.2 (t.strings.lookup p.name)
    exact Bool.eq_false_iff.mpr fun hreports =>
      hne (h.index_of_name hq hp (hnames.mp hreports))

end SymbolTable

/-- A misuse is no procedure that lacks its body. -/
theorem Diagnostic.not_reportsMissing_of_invalidUse {d : Diagnostic}
    (h : d.cause.category = .invalidUse) (name : String) : d.reportsMissing name = false := by
  unfold reportsMissing
  cases hc : d.cause <;> simp_all [Cause.category]

theorem Pending.early_problems {pending : Pending} {t : SymbolTable} :
    ∀ d ∈ pending.problems t, d.Early := by
  intro d hd
  obtain ⟨p, _, hproblem⟩ := List.mem_filterMap.mp hd
  unfold problem? at hproblem
  split at hproblem <;> cases hproblem
  rfl

/-! ## The parsed module -/

/-- The flags of the parsed module, with what headers left behind in the draft. -/
structure Parsed.Defines (parsed : Parsed) (draft : Draft) : Prop where
  sober : ∀ p ∈ parsed.module.procs,
    ¬(p.modifiers.imported = true ∧ p.modifiers.exported = true)
  exported : ∀ p ∈ parsed.module.procs, p.modifiers.exported = true → p.defined = true
  span : ∀ p ∈ parsed.module.procs, p.defined = true ↔ p.span.isSome = true
  body : ∀ p ∈ parsed.module.procs, p.defined = true ↔ p.body ≠ []
  returns : ∀ p ∈ parsed.module.procs, p.defined = true →
    ∃ code pos, p.body = code ++ [⟨.ret, .int 0, pos⟩]
  /-- What lacks its body and is not imported is reported once under its name, where
  it is declared, as headers left it. -/
  missing : ∀ (i : Nat) (p left : Procedure), parsed.module.procs[i]? = some p → draft.table.procs[i]? = some left →
    p.defined = false → p.modifiers.imported = false →
    ∃ d, parsed.diagnostics.filter
        (·.reportsMissing (parsed.module.strings.lookup p.name)) = [d] ∧
      d.pos = p.declared ∧
      d.cause = (if left.modifiers.exported then .exportWithoutBody else .neverDefined)
  imported : ∀ v ∈ parsed.module.vars, v.scope = .importVar →
    v.initialized = false ∧ v.value = .int 0

/-- Code is kept where it is kept before its names are resolved. -/
theorem Code.resolved_eq_nil {found : List (Option Symbol)} {code : Code} :
    code.resolved found = [] ↔ code = [] := by
  cases code with
  | nil => simp [Code.resolved]
  | cons node rest =>
      unfold Code.resolved
      dsimp only
      split <;> simp

namespace Draft.Finished

variable {stream : TokenStream} {i : Nat} {p q : Procedure}

theorem modifiers {draft : Draft} {files : FileTable}
    (h : (draft.finish files).module.procs[i]? = some p) (hq : draft.Finished i p q) :
    p.modifiers = (SymbolTable.closeProcedure q).modifiers := by
  obtain ⟨q', hq', rfl⟩ := finish_proc h
  have hsame : draft.table.procs[i]? = some q := hq.there
  obtain rfl := Option.some.inj (hq'.symm.trans hsame)
  rfl

end Draft.Finished

theorem Draft.filter_diagnostics {draft : Draft} (files : FileTable) (name : String)
    (h : ∀ d ∈ draft.problems.items, d.reportsMissing name = false) :
    ((draft.finish files).diagnostics.filter (·.reportsMissing name)).Perm
      (draft.table.checkDefinitions.2.filter (·.reportsMissing name)) := by
  refine (diagnostics_perm.filter _).trans (.of_eq ?_)
  have hnone : ∀ {ds : List Diagnostic}, (∀ d ∈ ds, d.reportsMissing name = false) →
      ds.filter (·.reportsMissing name) = [] := fun hds =>
    List.filter_eq_nil_iff.mpr fun d hd => Bool.eq_false_iff.mp (hds d hd)
  unfold reports
  rw [List.filter_append, List.filter_append, List.filter_append, hnone h,
    hnone fun d hd => (Pending.early_problems d hd).not_reportsMissing name,
    hnone fun d hd => d.not_reportsMissing_of_invalidUse
      (SymbolTable.invalidUse_of_allUseProblems hd) name,
    List.nil_append, List.append_nil, List.append_nil]

namespace SymbolTable

/-- What is left of a procedure at the end: export only with a body. -/
theorem closeProcedure_exported {p : Procedure}
    (h : (closeProcedure p).modifiers.exported = true) : p.defined = true := by
  unfold closeProcedure at h
  split at h
  · assumption
  · cases h

theorem closeProcedure_imported (p : Procedure) :
    (closeProcedure p).modifiers.imported = p.modifiers.imported := by
  unfold closeProcedure
  split <;> rfl

end SymbolTable

/-- Whatever the text, what the module says of definitions, linkage and imports
is consistent. -/
theorem TokenStream.ofText_defines (fs : FileSystem) (options : IncludeOptions) (text : String)
    (shown key : Path) : (ofText fs options text shown key).parse.Defines
      (ofText fs options text shown key).draft := by
  have hproblems := early_ofText fs options text shown key
  generalize ofText fs options text shown key = stream at hproblems ⊢
  obtain ⟨x, hx⟩ := stream.completes
  have hlawful := stream.draft_lawful
  have hproc : ∀ p ∈ stream.parse.module.procs, ∃ i q, stream.draft.Finished i p q ∧
      q.Coded x (.proc i) ∧ q.Lawful ∧ p.modifiers = (SymbolTable.closeProcedure q).modifiers := by
    intro p hp
    obtain ⟨i, hi⟩ := List.getElem?_of_mem hp
    obtain ⟨q, hq⟩ := Draft.finished hi
    exact ⟨i, q, hq, hx.finished_coded hq, hlawful.procs i q hq.there, hq.modifiers hi⟩
  constructor
  · intro p hp
    obtain ⟨i, q, hq, _, hq', hmodifiers⟩ := hproc p hp
    have hsober := SymbolTable.closeProcedure_sober hq'.sober
    rw [← hmodifiers, Modifiers.conflicts, Bool.and_eq_false_iff] at hsober
    rintro ⟨himported, hexported⟩
    rw [himported, hexported] at hsober
    simp at hsober
  · intro p hp hexported
    obtain ⟨i, q, hq, _, _, hmodifiers⟩ := hproc p hp
    rw [hq.defined]
    exact SymbolTable.closeProcedure_exported (hmodifiers ▸ hexported)
  · intro p hp
    obtain ⟨i, q, hq, _, hq', _⟩ := hproc p hp
    rw [hq.defined, hq.span, hq'.span]
  · intro p hp
    obtain ⟨i, q, hq, hc, _, _⟩ := hproc p hp
    rw [hq.defined, hq.body, ne_eq, Code.resolved_eq_nil]
    cases hd : q.defined with
    | false => simp [hc.blank hd]
    | true =>
        obtain ⟨code, last, hbody, _, _⟩ := hc.body hd
        simp [hbody]
  · intro p hp hd
    obtain ⟨i, q, hq, _, _, _⟩ := hproc p hp
    exact hx.returns hq hd
  · intro i p left hp hleft hd himported
    obtain ⟨q, hq⟩ := Draft.finished hp
    obtain rfl : q = left := Option.some.inj (hq.there.symm.trans hleft)
    have hdefined : q.defined = false := hq.defined ▸ hd
    have hnot : q.modifiers.imported = false := by
      rw [← SymbolTable.closeProcedure_imported, ← hq.modifiers hp]
      exact himported
    have hname : p.name = q.name := hq.name
    obtain ⟨d, hd⟩ : ∃ d, SymbolTable.undefinedProblem?
        (stream.draft.table.strings.lookup q.name) q = some d := by
      unfold SymbolTable.undefinedProblem?
      rw [hdefined, hnot]
      cases q.modifiers.exported <;> exact ⟨_, rfl⟩
    obtain ⟨hpos, hcause, _⟩ := SymbolTable.reportsMissing_of_undefinedProblem? hd
    refine ⟨d, ?_, hpos.trans hq.declared.symm, hcause⟩
    have hearly : ∀ e ∈ stream.draft.problems.items, e.Early := fun e he =>
      (stream.early_draft e he).elim (hproblems e) id
    have hperm := Draft.filter_diagnostics stream.files (stream.draft.table.strings.lookup q.name)
      fun e he => (hearly e he).not_reportsMissing _
    rw [hx.sound.filter_checkDefinitions hleft, hd] at hperm
    have hstrings : stream.parse.module.strings = stream.draft.table.strings := rfl
    rw [hname, hstrings]
    exact List.perm_singleton.mp hperm
  · intro v hv himported
    obtain ⟨i, hi⟩ := List.getElem?_of_mem hv
    obtain ⟨w, hw, rfl⟩ := Draft.finish_var hi
    exact hlawful.imported w (List.mem_of_getElem? hw) himported

end SslFrontend
