import SslFrontend.Proofs.Definitions
import SslFrontend.Proofs.Misuse.Unit
import SslFrontend.Proofs.Report.Early
import SslFrontend.Proofs.Run.Finish
import SslFrontend.Proofs.Token.Apart

/-! # Misuses are reported once

Uses are checked in the code that was made of a unit, and code that is made once
of each token is checked once.  Where something is added to an element, though,
as in `a[index] += 1`, the code of the index stands twice: to read the element
and to store it.  So a misuse in such an index may be reported twice, and every
other one is reported once (`TokenStream.ofText_reportsMisuses`).
-/

namespace SslFrontend

theorem Cause.isFinal_of_invalidUse {cause : Cause} (h : cause.category = .invalidUse) :
    cause.isFinal = true := by
  cases cause <;> first | rfl | cases h

variable (cause : Cause) (pos : Position)

namespace SymbolTable

variable (t : SymbolTable) (found : List (Option Symbol))

theorem countP_procedureProblems (scope : ScopeId) (p : Procedure) :
    (t.procedureProblems scope (p.resolved found)).countP (Diagnostic.isAt cause pos) ≤
      p.codeUses (cause.useAt pos) := by
  have hcondition : (p.resolved found).trigger.condition?.getD [] =
      Code.resolved found (p.trigger.condition?.getD []) := by
    unfold Procedure.resolved
    cases p.trigger <;> rfl
  have hbody := @countP_useProblems found t (some scope) cause pos p.body
  have htrigger := @countP_useProblems found t none cause pos (p.trigger.condition?.getD [])
  rw [procedureProblems, hcondition, List.countP_append]
  exact Nat.add_le_add hbody htrigger

/-- Procedures are checked one by one. -/
theorem countP_proceduresProblems (id : Nat → ScopeId) (ps : List Procedure) :
    ((ps.map (·.resolved found)).mapIdx fun i p => t.procedureProblems (id i) p).flatten.countP
        (Diagnostic.isAt cause pos) ≤
      Procedure.usesOfAll (cause.useAt pos) ps := by
  unfold Procedure.usesOfAll
  induction ps generalizing id with
  | nil => exact Nat.le_refl 0
  | cons p rest ih =>
      have hfirst := countP_procedureProblems cause pos t found (id 0) p
      have hrest := ih fun i => id (i + 1)
      rw [List.map_cons, List.mapIdx_cons, List.flatten_cons, List.countP_append, List.map_cons,
        List.sum_cons]
      exact Nat.add_le_add hfirst hrest

end SymbolTable

namespace Draft

variable (draft : Draft)

theorem closed_uses (u : Use) : draft.closed.uses u = draft.table.uses u := by
  have hsame : ∀ p, (SymbolTable.closeProcedure p).codeUses u = p.codeUses u := by
    intro p
    rw [SymbolTable.closeProcedure_eq]
    rfl
  have hprocs : draft.closed.procs = draft.table.procs.map SymbolTable.closeProcedure := rfl
  unfold SymbolTable.uses Procedure.usesOfAll
  rw [hprocs, List.map_map]
  exact congrArg (fun f => (draft.table.procs.map f).sum + _) (funext hsame)

/-- At the end no more misuses are found than the code of the draft has uses. -/
theorem countP_allUseProblems :
    (draft.resolved.allUseProblems (draft.main.resolved draft.found)).countP
        (Diagnostic.isAt cause pos) ≤
      draft.main.uses (cause.useAt pos) + draft.table.uses (cause.useAt pos) := by
  have hmain := @SymbolTable.countP_useProblems draft.found draft.resolved none cause pos draft.main
  have hprocs := SymbolTable.countP_proceduresProblems cause pos draft.resolved draft.found .proc
    draft.closed.procs
  have hdiscarded := SymbolTable.countP_proceduresProblems cause pos draft.resolved draft.found
    .discarded draft.closed.discarded
  rw [SymbolTable.allUseProblems, List.countP_append, List.countP_append, ← closed_uses,
    SymbolTable.uses]
  exact Nat.le_trans (Nat.add_le_add (Nat.add_le_add hmain hprocs) hdiscarded)
    (Nat.le_of_eq (Nat.add_assoc _ _ _))

variable {cause draft}

/-- Misuses are found at the end only. -/
theorem countP_diagnostics (files : FileTable) (h : cause.category = .invalidUse) (pos : Position)
    (hearly : ∀ d ∈ draft.problems.items, d.Early) :
    (draft.finish files).diagnostics.countP (Diagnostic.isAt cause pos) =
      (draft.resolved.allUseProblems (draft.main.resolved draft.found)).countP
        (Diagnostic.isAt cause pos) := by
  have hnone : ∀ {ds : List Diagnostic}, (∀ d ∈ ds, d.cause.category ≠ .invalidUse) →
      ds.countP (Diagnostic.isAt cause pos) = 0 := by
    intro ds hds
    refine List.countP_eq_zero.mpr fun d hd hat => hds d hd ?_
    obtain ⟨hcause, -⟩ : d.cause = cause ∧ d.pos = pos := by simpa [Diagnostic.isAt] using hat
    rw [hcause, h]
  have hnotFinal : ∀ {d : Diagnostic}, d.Early → d.cause.category ≠ .invalidUse := by
    intro d hd huse
    rw [Diagnostic.Early, Cause.isFinal_of_invalidUse huse] at hd
    cases hd
  have hundefined : ∀ d ∈ draft.table.checkDefinitions.2, d.cause.category ≠ .invalidUse := by
    intro d hd
    obtain ⟨p, -, hd⟩ := List.mem_filterMap.mp hd
    rw [(SymbolTable.reportsMissing_of_undefinedProblem? hd).2.1]
    split <;> decide
  rw [diagnostics_perm.countP_eq, reports, List.countP_append, List.countP_append,
    List.countP_append, hnone fun d hd => hnotFinal (hearly d hd), hnone hundefined,
    hnone fun d hd => hnotFinal (Pending.early_problems d hd), Nat.zero_add, Nat.zero_add]

end Draft

/-- In a text without directives no misuse is reported twice, but for those in
the index of an element to which something is added, which are not reported more
often than that. -/
theorem TokenStream.ofText_reportsMisuses (fs : FileSystem) (options : IncludeOptions)
    {text : String} (hplain : Lexer.Plain text) (hlength : text.length ≤ maxWord)
    (shown key : Path) (cause : Cause) (huse : cause.category = .invalidUse) (pos : Position) :
    (ofText fs options text shown key).parse.diagnostics.countP (Diagnostic.isAt cause pos) ≤ 2 ∧
      (cause = .badTarget ∨ ¬(ofText fs options text shown key).Rereads pos →
        (ofText fs options text shown key).parse.diagnostics.countP
          (Diagnostic.isAt cause pos) ≤ 1) := by
  have hproblems := early_ofText fs options text shown key
  have hapart := apart_ofText fs options hplain hlength shown key
  generalize ofText fs options text shown key = stream at hproblems hapart ⊢
  have hearly : ∀ d ∈ stream.draft.problems.items, d.Early := fun d hd =>
    (stream.early_draft d hd).elim (hproblems d) id
  have hone : (cause.useAt pos).tokens stream.tokens ≤ 1 := by
    have hcounted := List.nodup_iff_count_le_one.mp hapart pos
    rw [List.count_eq_countP, List.countP_map] at hcounted
    exact hcounted
  have hcount : ∀ w, (cause.useAt pos).Allowed stream w →
      stream.parse.diagnostics.countP (Diagnostic.isAt cause pos) ≤ w := by
    intro w hw
    have huses := draft_uses_le hw
    have hfound := stream.draft.countP_allUseProblems cause pos
    have hsame := Draft.countP_diagnostics stream.files huse pos hearly
    have hworth := Nat.mul_le_mul_left w hone
    unfold parse
    omega
  refine ⟨hcount 2 ⟨by decide, fun _ _ => Nat.le_refl 2⟩, fun honce => hcount 1 ⟨Nat.le_refl 1, ?_⟩⟩
  intro hread hagain
  rcases honce with rfl | hnot
  · cases hread
  · exact absurd hagain hnot

/-- A call that lacks its argument, in the index of an element to which one is added. -/
def TokenStream.addedText : String := "procedure p(x) begin end variable a[2]; a[p] += 1;"

theorem TokenStream.addedText_plain : Lexer.Plain addedText := by decide +kernel

def TokenStream.added : TokenStream := .ofString .none .default addedText ⟨"test.ssl"⟩

/-- The parse of the text, computed: nothing is said before the end, and the one
call is reported twice there. -/
theorem TokenStream.added_computed :
    added.draft.problems.items = [] ∧
      (added.draft.resolved.allUseProblems (added.draft.main.resolved added.draft.found)).countP
        (Diagnostic.isAt .wrongArity ⟨.primary, 1, 43⟩) = 2 := by
  decide +kernel

theorem TokenStream.added_reportedTwice :
    Lexer.Plain addedText ∧
      added.parse.diagnostics.countP (Diagnostic.isAt .wrongArity ⟨.primary, 1, 43⟩) = 2 := by
  obtain ⟨hsilent, htwice⟩ := added_computed
  refine ⟨addedText_plain, ?_⟩
  rw [parse, Draft.countP_diagnostics _ rfl, htwice]
  rw [hsilent]
  exact nofun

theorem TokenStream.ofText_reportsMisuses_added :
    (Lexer.Plain addedText ∧ addedText.length ≤ maxWord ∧
      Cause.wrongArity.category = .invalidUse) ∧
      added.parse.diagnostics.countP (Diagnostic.isAt .wrongArity ⟨.primary, 1, 43⟩) ≤ 2 ∧
      (Cause.wrongArity = .badTarget ∨ ¬added.Rereads ⟨.primary, 1, 43⟩ →
        added.parse.diagnostics.countP (Diagnostic.isAt .wrongArity ⟨.primary, 1, 43⟩) ≤ 1) := by
  have hlength : addedText.length ≤ maxWord := by decide
  exact ⟨⟨addedText_plain, hlength, rfl⟩,
    ofText_reportsMisuses .none .default addedText_plain hlength ⟨"test.ssl"⟩ _ .wrongArity rfl _⟩

end SslFrontend
