import SslFrontend.Include.Splice
import SslFrontend.Proofs.Conduct.Units

/-! # What is reported while a unit is read

Some things are known to be wrong only when the whole unit was read: a use that
does not fit its symbol, a procedure without a body, and a name that nothing
declares.  No production reports one of them, and no production fails with one
(`Conduct.plain_throughout`), so that all such reports come from the end of the
unit.
-/

namespace SslFrontend

/-- What was reported between two states is about text that was just read. -/
def ParserState.Says (s t : ParserState) : Prop :=
  ∃ ds, t.problems.items = s.problems.items ++ ds ∧ ∀ d ∈ ds, d.Plain

namespace ParserState.Says

variable {s t u : ParserState} {d : Diagnostic}

theorem refl (s : ParserState) : s.Says s := ⟨[], (List.append_nil _).symm, nofun⟩

theorem trans (h₁ : s.Says t) (h₂ : t.Says u) : s.Says u := by
  obtain ⟨ds, ht, hds⟩ := h₁
  obtain ⟨es, hu, hes⟩ := h₂
  exact ⟨ds ++ es, by rw [hu, ht, List.append_assoc], List.forall_mem_append.mpr ⟨hds, hes⟩⟩

/-- One more report. -/
theorem push (h : s.Says t) (hd : d.Plain) : s.Says { t with problems := t.problems.push d } :=
  h.trans ⟨[d], rfl, List.forall_mem_singleton.mpr hd⟩

end ParserState.Says

/-- The scope is one of the table, if it is not the unit. -/
def SymbolTable.HasContext (t : SymbolTable) (context : Option ScopeId) : Prop :=
  ∀ scope, context = some scope → t.scope? scope ≠ none

/-- What is said while a unit is read is about the text that was just read: from a
state that has the scope, all that is reported or thrown is plain. -/
def Conduct.plain (scope : Option ScopeId) : Conduct where
  ok s t :=
    (∀ sc, s.table.scope? sc ≠ none → t.table.scope? sc ≠ none) ∧
    (s.table.HasContext scope → s.Says t)
  fails s e t :=
    (∀ sc, s.table.scope? sc ≠ none → t.table.scope? sc ≠ none) ∧
    (s.table.HasContext scope → s.Says t ∧ e.diagnostic.Plain)

namespace Conduct

theorem plain_inside (scope : Option ScopeId) : (plain scope).Inside scope where
  refl s := ⟨fun _ => id, fun _ => .refl s⟩
  trans h₁ h₂ := ⟨fun sc there => h₂.1 sc (h₁.1 sc there), fun hs =>
    (h₁.2 hs).trans (h₂.2 fun sc hsc => h₁.1 sc (hs sc hsc))⟩
  fail h₁ h₂ := by
    refine ⟨fun sc there => h₂.1 sc (h₁.1 sc there), fun hs => ?_⟩
    obtain ⟨hsaid, hthrown⟩ := h₂.2 fun sc hsc => h₁.1 sc (hs sc hsc)
    exact ⟨(h₁.2 hs).trans hsaid, hthrown⟩
  raise s _ _ h _ := ⟨fun _ => id, fun _ => ⟨.refl s, h⟩⟩
  caught h := ⟨h.1, fun hs => (h.2 hs).1.push (h.2 hs).2⟩
  read s _ _ _ _ := ⟨fun _ => id, fun _ => .refl s⟩
  report s ds h := ⟨fun _ => id, fun _ => ⟨ds, rfl, h⟩⟩
  text s _ _ _ _ _ := ⟨fun sc there => by cases sc <;> exact there, fun _ => .refl s⟩
  refused s _ _ _ _ := ⟨fun _ => id, fun _ => (ParserState.Says.refl s).push rfl⟩
  enter s _ _ := ⟨fun _ => id, fun _ => .refl s⟩
  adjust s symbol f hf := by
    have hgrows : s.table.Grows (s.table.modifyVariable symbol f) :=
      SymbolTable.extends_modifyVariable hf
    exact ⟨fun _ => hgrows.keeps_scope trivial, fun _ => .refl s⟩
  declare s _ _ _ _ _ h :=
    ⟨fun _ => (SymbolTable.declareIn_grows h).keeps_scope trivial, fun _ => .refl s⟩
  redeclare s _ _ _ _ h :=
    ⟨fun _ => id, fun hs => (ParserState.Says.refl s).push (SymbolTable.declareIn_plain h hs)⟩

theorem plain_throughout : Throughout plain where
  inside := plain_inside
  begins s _ := ⟨fun _ => id, fun _ => .refl s⟩
  declares s header := ⟨fun _ => (SymbolTable.declare_spec s.table header).keeps_scope,
    fun _ => .refl s⟩
  disowns s _ _ _ _ h := ⟨fun _ => (SymbolTable.declareDiscarded_grows h).1.keeps_scope trivial,
    fun _ => .refl s⟩
  attaches s _ _ _ _ := ⟨fun _ => SymbolTable.keeps_scope_modifyScope, fun _ => .refl s⟩
  attachesFailed _ _ _ _ h :=
    ⟨fun sc there => SymbolTable.keeps_scope_modifyScope (h.1 sc there), h.2⟩
  leaves there h := ⟨h.1, fun _ => h.2 fun _ hsc => Option.some.inj hsc ▸ there⟩
  leavesFailed there h := ⟨h.1, fun _ => h.2 fun _ hsc => Option.some.inj hsc ▸ there⟩

end Conduct

/-! ## Streams -/

theorem LexError.plain_diagnostic (error : LexError) : error.diagnostic.Plain := by
  obtain ⟨pos, kind⟩ := error
  cases kind <;> rfl

namespace Include

theorem plain_notFound (candidates : List Path) (name : String) (pos : Position) :
    (notFound candidates name pos).Plain := by
  have hfold : ∀ d : Diagnostic, d.Plain →
      (candidates.foldl (fun d path => d.withNote s!"searched {path.text}") d).Plain := by
    induction candidates with
    | nil => exact fun _ => id
    | cons path rest ih => exact fun d hd => ih _ hd
  exact hfold _ rfl

theorem plain_spliceTokens {one : FileTable → String → Position → Spliced}
    (hone : ∀ files name pos, ∀ d ∈ (one files name pos).problems, d.Plain) (files : FileTable)
    (tokens : List Token) : ∀ d ∈ (spliceTokens one files tokens).problems, d.Plain := by
  induction tokens generalizing files with
  | nil => exact nofun
  | cons token rest ih =>
      unfold spliceTokens
      split
      · exact List.forall_mem_append.mpr ⟨hone _ _ _, ih _⟩
      · exact ih files

theorem plain_expand (fs : FileSystem) (options : IncludeOptions) (left : Nat)
    (source : SourceText) (files : FileTable) :
    ∀ d ∈ (expand fs options left source files).1.problems, d.Plain := by
  have hlexed : ∀ errors : List LexError, ∀ d ∈ errors.map LexError.diagnostic, d.Plain := by
    intro errors d hd
    obtain ⟨error, -, rfl⟩ := List.mem_map.mp hd
    exact error.plain_diagnostic
  -- Each level reports what its own text and its includes come to.
  induction left generalizing source files with
  | zero =>
      refine List.forall_mem_append.mpr ⟨hlexed _, plain_spliceTokens (fun files name pos => ?_) _ _⟩
      exact List.forall_mem_singleton.mpr rfl
  | succ left ih =>
      refine List.forall_mem_append.mpr ⟨hlexed _, plain_spliceTokens (fun files name pos => ?_) _ _⟩
      unfold expandOne
      split
      · rename_i problem hopen
        refine List.forall_mem_singleton.mpr ?_
        unfold open? at hopen
        dsimp only at hopen
        split at hopen
        · cases hopen
          exact plain_notFound _ _ _
        · split at hopen
          · cases hopen
            rfl
          · split at hopen <;> cases hopen
            rfl
      · exact ih _ _

end Include

theorem TokenStream.plain_ofText (fs : FileSystem) (options : IncludeOptions) (text : String)
    (shown key : Path) : ∀ d ∈ (ofText fs options text shown key).problems.items, d.Plain :=
  Include.plain_expand fs options options.maxDepth _ _

theorem TokenStream.early_ofText (fs : FileSystem) (options : IncludeOptions) (text : String)
    (shown key : Path) : ∀ d ∈ (ofText fs options text shown key).problems.items, d.Early :=
  fun d hd => (plain_ofText fs options text shown key d hd).early

/-- A draft reports what was wrong with the stream, and then what is about text that
was just read. -/
theorem TokenStream.plain_draft (stream : TokenStream) :
    ∃ ds, stream.draft.problems.items = stream.problems.items ++ ds ∧ ∀ d ∈ ds, d.Plain := by
  have hitems := Conduct.plain_throughout.items (s := .start stream)
  unfold TokenStream.draft
  unfold Conduct.Keeps Conduct.Comes at hitems
  cases hr : Parse.items (.start stream) with
  | ok main s =>
      rw [hr] at hitems
      exact hitems.2 nofun
  | error e s =>
      rw [hr] at hitems
      obtain ⟨hsaid, hthrown⟩ := hitems.2 nofun
      exact hsaid.push hthrown

/-- What a draft reports was wrong with the stream, or may be reported early. -/
theorem TokenStream.early_draft (stream : TokenStream) :
    ∀ d ∈ stream.draft.problems.items, d ∈ stream.problems.items ∨ d.Early := by
  obtain ⟨ds, hitems, hplain⟩ := stream.plain_draft
  intro d hd
  rw [hitems] at hd
  exact (List.mem_append.mp hd).imp_right fun h => (hplain d h).early

end SslFrontend
