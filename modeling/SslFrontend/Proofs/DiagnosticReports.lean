import SslFrontend.Proofs.IncludeExpansion
import SslFrontend.Proofs.Journal.Run
import SslFrontend.Proofs.Run.Finish
import SslFrontend.Proofs.Termination
import SslFrontend.Proofs.Twin.Same
import SslFrontend.Unit.Basic

/-! # No diagnostic is lost

A run goes from one step to the next, and some of the steps report something.
`Telling` collects what is reported along a run.  The loader reports what is wrong
with a text when it opens the file, and each include that it refuses; the parser
reports at turns of its own and when a header is merged or discarded.  Neither
ever takes back what it reported.

A collector counts what it takes and hands it out in the order of the positions,
and what stands at one position in the order of the reports.  The loader fills it
first and the parser goes on with it; the checks at the end of the unit come last.

Main statement: whatever is pushed into a collector, in whatever order and with
whatever other collectors, it counts and hands out what was pushed; and what a parse
hands out is everything that the loader, the parser and the checks at the end
reported, in the order of the positions (`diagnostics_kept`).
-/

namespace SslFrontend

/-! ## What a run tells -/

/-- A run, with what its steps report one after the other. -/
inductive Telling {σ : Type} (R : σ → List Diagnostic → σ → Prop) :
    σ → List Diagnostic → σ → Prop
  | refl (x : σ) : Telling R x [] x
  | tail {x y z : σ} {ds es : List Diagnostic} (h : Telling R x ds y) (hstep : R y es z) :
      Telling R x (ds ++ es) z

namespace Telling

variable {σ : Type} {R : σ → List Diagnostic → σ → Prop} {x y : σ} {ds : List Diagnostic}

/-- If each step leaves what it reports behind what is there, the run does. -/
theorem appends (problems : σ → List Diagnostic)
    (hR : ∀ {x ds y}, R x ds y → problems y = problems x ++ ds) (h : Telling R x ds y) :
    problems y = problems x ++ ds := by
  induction h with
  | refl => simp
  | tail _ hstep ih => rw [hR hstep, ih, List.append_assoc]

/-- The steps of a run that tells are steps. -/
theorem steps {S : σ → σ → Prop} (hR : ∀ {x ds y}, R x ds y → S x y) (h : Telling R x ds y) :
    Relation.ReflTransGen S x y := by
  induction h with
  | refl => exact .refl
  | tail _ hstep ih => exact ih.tail (hR hstep)

/-- Every run tells something if every step does. -/
theorem of_steps {S : σ → σ → Prop} (hS : ∀ {x y}, S x y → ∃ ds, R x ds y)
    (h : Relation.ReflTransGen S x y) : ∃ ds, Telling R x ds y := by
  induction h with
  | refl => exact ⟨[], .refl x⟩
  | tail _ hstep ih =>
      obtain ⟨ds, hds⟩ := ih
      obtain ⟨es, hes⟩ := hS hstep
      exact ⟨ds ++ es, hds.tail hes⟩

end Telling

/-! ## The loader -/

namespace Loader

variable {fs : FileSystem} {options : IncludeOptions}

variable (fs options) in
/-- What is reported when an include directive of `source` is followed: that it is
refused, or what is wrong with the text of the file that it opens. -/
def followReports (m : Loader) (source : SourceText) (name : String) (pos : Position) :
    List Diagnostic :=
  if options.maxDepth < m.chain.length then [Include.tooDeep options.maxDepth name pos]
  else
    match Include.open? fs options { source with chain := m.chain } name pos with
    | .error problem => [problem]
    | .ok (path, text) =>
      (Lexer.lex text (m.files.add path).1 (m.files.add path).2).errors.map LexError.diagnostic

variable (fs options) in
/-- What the next step of a loader reports. -/
def reports (m : Loader) : List Diagnostic :=
  match m.stack with
  | ⟨source, token :: _⟩ :: _ =>
    match token.kind with
    | .included name => followReports fs options m source name token.pos
    | _ => []
  | _ => []

variable (fs options) in
/-- A step of a loader with what it reports. -/
structure Tells (m : Loader) (ds : List Diagnostic) (m' : Loader) : Prop where
  step : Step fs options m m'
  reports : ds = reports fs options m

variable {m m' : Loader} {ds : List Diagnostic}

theorem follow_problems (m : Loader) (source : SourceText) (name : String) (pos : Position) :
    (follow fs options m source name pos).problems =
      m.problems ++ followReports fs options m source name pos := by
  unfold follow followReports
  split
  · rfl
  · cases Include.open? fs options { source with chain := m.chain } name pos with
    | error problem => rfl
    | ok found => rfl

theorem Tells.problems (h : Tells fs options m ds m') : m'.problems = m.problems ++ ds := by
  obtain ⟨hstep, rfl⟩ := h
  unfold Loader.Step Loader.step at hstep
  unfold Loader.reports
  cases hstack : m.stack with
  | nil =>
      rw [hstack] at hstep
      cases hstep
  | cons top outer =>
      rw [hstack] at hstep
      obtain ⟨source, tokens⟩ := top
      cases tokens with
      | nil =>
          cases hstep
          exact (List.append_nil _).symm
      | cons token rest =>
          dsimp only at hstep ⊢
          cases hkind : token.kind with
          | included name =>
              rw [hkind] at hstep
              cases hstep
              exact follow_problems _ source name token.pos
          | _ =>
              rw [hkind] at hstep
              cases hstep
              exact (List.append_nil _).symm

/-- A loader comes to one end only. -/
theorem ends_unique {last : Loader} (h : Steps fs options m m') (hend : step fs options m' = none)
    (hlast : Steps fs options m last) (hstop : step fs options last = none) : m' = last := by
  have hunique : Relator.RightUnique (Step fs options) := fun _ _ _ hb hc =>
    Option.some.inj (hb.symm.trans hc)
  have hstuck : ∀ {k k' : Loader}, step fs options k = none → Steps fs options k k' → k = k' := by
    intro k k' hk hkk'
    refine (Relation.ReflTransGen.cases_head hkk').resolve_right ?_
    rintro ⟨next, hnext, _⟩
    exact absurd (hk.symm.trans hnext) nofun
  rcases Relation.ReflTransGen.total_of_right_unique hunique h hlast with hle | hle
  · exact hstuck hend hle
  · exact (hstuck hstop hle).symm

end Loader

/-! ## The parser -/

namespace Journal

variable {stream : TokenStream} {x y : Journal stream} {ds : List Diagnostic}

/-- A turn with what it reports: the diagnostics that are pushed, those of a header
that is merged, and those of a rejected one whose body comes next.  Any other turn
leaves the queue as it stands. -/
inductive Tells : Journal stream → List Diagnostic → Journal stream → Prop
  | report (x : Journal stream) (ds : List Diagnostic) : Tells x ds (x.report ds)
  | merge (x : Journal stream) (header : Header) {number : Nat} (hx : x.scope = none)
      (held : x.Holds number header.name header.pos) :
      Tells x (x.table.declare header).problems (x.merge header number)
  | discard (x : Journal stream) (header : Header) {scope : ScopeId} {table : SymbolTable}
      {problems : List Diagnostic} (hx : x.scope = none)
      (declared : x.table.declareDiscarded header = .ok (scope, table, problems)) :
      Tells x problems (((x.setTable table).report problems).enter (some scope))
  | silent {x y : Journal stream} (h : Turn x y) (hproblems : y.state.problems = x.state.problems) :
      Tells x [] y

namespace Tells

theorem turn (h : Tells x ds y) : Turn x y := by
  cases h with
  | report ds => exact .inner (.report x ds)
  | merge header hx held => exact .merge x header hx held
  | discard header hx declared => exact .discard x header hx declared
  | silent h => exact h

theorem problems (h : Tells x ds y) :
    y.state.problems.items = x.state.problems.items ++ ds := by
  cases h with
  | report ds => rfl
  | merge header hx held => rw [merge_state]
  | discard header hx declared => rfl
  | silent _ hproblems => rw [hproblems, List.append_nil]

theorem of_inner (h : InnerTurn x y) : ∃ ds, Tells x ds y := by
  have hturn : Turn x y := .inner h
  cases h with
  | report ds => exact ⟨ds, .report x ds⟩
  | mention hk => exact ⟨[], .silent hturn (ParserState.mentioned_problems ..)⟩
  | _ => exact ⟨[], .silent hturn rfl⟩

theorem of_turn (h : Turn x y) : ∃ ds, Tells x ds y := by
  have hturn := h
  cases h with
  | inner h => exact of_inner h
  | merge header hx held => exact ⟨_, .merge x header hx held⟩
  | discard header hx declared => exact ⟨_, .discard x header hx declared⟩
  | param | attach => exact ⟨[], .silent hturn rfl⟩

end Tells

/-- A journal that is left with the state in which all items are read. -/
def Finishes (x : Journal stream) : Prop :=
  ∃ main, Parse.items (.start stream) = .ok main x.state

theorem Finishes.draft (h : x.Finishes) : stream.draft.problems = x.state.problems := by
  obtain ⟨main, hmain⟩ := h
  unfold TokenStream.draft
  rw [hmain]

end Journal

/-- All items of a stream are read by a run of turns. -/
theorem TokenStream.finished (stream : TokenStream) :
    ∃ x : Journal stream, Turns (.start stream) x ∧ x.Finishes := by
  obtain ⟨main, s, hs, _⟩ := Parse.items_end (Parse.Loop.repeats .items (.start stream))
  have hitems := items_journaled stream
  unfold Yields at hitems
  have hstart : HasState.state (Journal.start stream) = .start stream := rfl
  rw [hstart, hs] at hitems
  obtain ⟨x, rfl, hpasses, _⟩ := hitems
  exact ⟨x, Passes.turns hpasses, main, hs⟩

/-! ## Collectors -/

/-- The diagnostics sorted by position, those at one position as they stand. -/
structure SortedFrom (sorted ds : List Diagnostic) : Prop where
  perm : sorted.Perm ds
  ordered : sorted.Pairwise fun c d => c.pos.le d.pos = true
  stable : ∀ pos, sorted.filter (·.pos = pos) = ds.filter (·.pos = pos)

theorem SortedFrom.queue (ds : List Diagnostic) : SortedFrom (Queue.sorted ⟨ds⟩) ds :=
  ⟨Queue.sorted_perm _, Queue.sorted_pairwise _, Queue.sorted_stable _⟩

namespace Collector

/-- What can be done with a collector before it is flushed. -/
inductive Operation where
  | push (d : Diagnostic)
  | extend (other : Collector)

/-- The diagnostics that an operation adds. -/
def Operation.pushed : Operation → List Diagnostic
  | .push d => [d]
  | .extend other => other.items

def perform (c : Collector) : Operation → Collector
  | .push d => c.push d
  | .extend other => c.extend other

/-- A new collector after a sequence of operations. -/
def after (ops : List Operation) : Collector := ops.foldl perform empty

/-- A collector counts diagnostics and hands them out sorted. -/
structure Keeps (c : Collector) (ds : List Diagnostic) : Prop where
  errors : c.errors = ds.countP Diagnostic.isError
  warnings : c.warnings = ds.countP fun d => !d.isError && d.cause.isWarning
  length : c.waiting.length = ds.length
  flushed : SortedFrom c.flush.1 ds
  /-- Sorting comes to the same where it is left out. -/
  shortcut : (c.waiting.mergeSort notAfter).map Collected.diagnostic = c.flush.1
  cleared : c.flush.2 = ⟨[], 0, 0⟩

theorem keeps_pushAll (ds : List Diagnostic) : (empty.pushAll ds).Keeps ds where
  errors := by rw [errors_pushAll, empty, Nat.zero_add]
  warnings := by rw [warnings_pushAll, empty, Nat.zero_add]
  length := by simp [waiting_pushAll, empty]
  flushed := .queue ds
  shortcut := (flush_fst _).symm
  cleared := rfl

theorem perform_pushAll (ds : List Diagnostic) (op : Operation) :
    (empty.pushAll ds).perform op = empty.pushAll (ds ++ op.pushed) := by
  cases op <;> simp [perform, extend, pushAll, Operation.pushed]

/-- Operations come to pushing all that they add. -/
theorem after_eq (ops : List Operation) : after ops = empty.pushAll (ops.flatMap (·.pushed)) := by
  have hgo : ∀ ds : List Diagnostic, ops.foldl perform (empty.pushAll ds) =
      empty.pushAll (ds ++ ops.flatMap (·.pushed)) := by
    induction ops with
    | nil => simp
    | cons op rest ih =>
        intro ds
        rw [List.foldl_cons, perform_pushAll, ih, List.flatMap_cons, List.append_assoc]
  exact hgo []

end Collector

/-! ## Runs that start with a queue of their own -/

/-- The stream with nothing reported about it yet. -/
def TokenStream.alone (stream : TokenStream) : TokenStream := { stream with problems := .empty }

/-- Runs over the same tokens, of which the right one starts with reports that are
there already. -/
def Variation.behind (tokens : List Token) (before : List Diagnostic) : Variation where
  seam := .none tokens
  closed := none
  reports ds ds' := ds' = before ++ ds
  extend h hd := by rw [Seam.eq_of_alike rfl hd, h, List.append_assoc]
  strict := none_strict tokens
  ahead := @none_ahead tokens
  lists := none_lists tokens

/-- The parser reports the same whatever is reported already, and puts it behind. -/
theorem TokenStream.draft_alone (stream : TokenStream) :
    stream.draft =
      { stream.alone.draft with
        problems := ⟨stream.problems.items ++ stream.alone.draft.problems.items⟩ } := by
  let V := Variation.behind stream.tokens stream.problems.items
  have hpair : V.comparison.Pair (.start stream.alone) (.start stream) := by
    refine ⟨⟨stream.tokens, ?_, ?_, List.suffix_rfl, fun _ => rfl, fun h => absurd rfl h⟩,
      .inl rfl, rfl, rfl, ?_⟩
    · exact (List.append_nil _).symm
    · show stream.tokens = stream.tokens.map (Seam.none stream.tokens).spell ++ []
      rw [Seam.spell_eq rfl, List.map_id, List.append_nil]
    · exact (List.append_nil _).symm
  have hdrafts := Variation.drafts (V := V) rfl
    (Comparison.items_agree V.ofUnits (fun _ => trivial) rfl hpair)
  rw [← TokenStream.draft_eq, ← TokenStream.draft_eq] at hdrafts
  have htable : stream.draft.table = stream.alone.draft.table := by
    rcases hdrafts.table with h | ⟨_, hnone, _⟩
    · exact h
    · cases hnone
  have hproblems : stream.draft.problems.items =
      stream.problems.items ++ stream.alone.draft.problems.items := hdrafts.problems
  show (⟨stream.draft.main, stream.draft.table, stream.draft.ledger, stream.draft.pending,
    ⟨stream.draft.problems.items⟩⟩ : Draft) = _
  rw [hdrafts.main, htable, hdrafts.ledger, hdrafts.pending, hproblems]

/-! ## What is reported about a text -/

/-- What is wrong with the unit as a whole. -/
def Draft.closingReports (draft : Draft) : List Diagnostic :=
  draft.table.checkDefinitions.2 ++ draft.pending.problems draft.closed ++
    draft.resolved.allUseProblems (draft.main.resolved draft.found)

/-- What is reported about a text, in the order of the reports. -/
structure Told where
  /-- By the lexer, and by the loader about includes. -/
  loading : List Diagnostic
  parsing : List Diagnostic
  /-- When all items are read. -/
  closing : List Diagnostic

def Told.all (told : Told) : List Diagnostic := told.loading ++ told.parsing ++ told.closing

/-- How the reports about a text come about. -/
structure Told.About (told : Told) (fs : FileSystem) (options : IncludeOptions) (text : String)
    (shown key : Path) : Prop where
  /-- What is wrong with the primary file, and what a run of the loader tells. -/
  loading : ∃ ds last, Telling (Loader.Tells fs options) (.start text shown key) ds last ∧
    Loader.step fs options last = none ∧
    told.loading = (Lexer.lex text (FileTable.empty.add shown).1
      (FileTable.empty.add shown).2).errors.map LexError.diagnostic ++ ds
  /-- What a run of the parser tells. -/
  parsing : ∃ x : Journal (.ofText fs options text shown key),
    Telling Journal.Tells (.start _) told.parsing x ∧ x.Finishes
  closing : told.closing = (TokenStream.ofText fs options text shown key).draft.closingReports

/-- What is handed out is what was told. -/
structure TokenStream.HandsOut (stream : TokenStream) (told : Told) : Prop where
  sorted : SortedFrom stream.parse.diagnostics told.all
  status : stream.parse.status.code = 1 ↔ ∃ d ∈ told.all, d.severity = .error
  /-- The parser goes on with what the loader reported. -/
  loading : stream.problems.items = told.loading
  /-- The parser and the checks at the end report what they would without it. -/
  alone : SortedFrom stream.alone.parse.diagnostics (told.parsing ++ told.closing)

namespace Told

variable {fs : FileSystem} {options : IncludeOptions} {text : String} {shown key : Path}
  {told : Told}

/-- There is one end of the loader, and its problems are those of the stream. -/
theorem About.problems (h : told.About fs options text shown key) :
    (TokenStream.ofText fs options text shown key).problems.items = told.loading := by
  obtain ⟨ds, last, hrun, hend, hloading⟩ := h.loading
  have hlast := Loader.ends_unique (hrun.steps Loader.Tells.step) hend
    (Loader.start_run text shown key) rfl
  have happends := hrun.appends Loader.problems Loader.Tells.problems
  rw [hlast] at happends
  rw [hloading]
  exact happends

theorem About.draft_problems (h : told.About fs options text shown key) :
    (TokenStream.ofText fs options text shown key).draft.problems.items =
      told.loading ++ told.parsing := by
  obtain ⟨x, hrun, hfinishes⟩ := h.parsing
  rw [hfinishes.draft, hrun.appends (·.state.problems.items) Journal.Tells.problems, ← h.problems]
  rfl

theorem exists_about (fs : FileSystem) (options : IncludeOptions) (text : String)
    (shown key : Path) : ∃ told : Told, told.About fs options text shown key := by
  obtain ⟨ds, hds⟩ := Telling.of_steps (R := Loader.Tells fs options)
    (fun hstep => ⟨_, hstep, rfl⟩) (@Loader.start_run fs options text shown key)
  obtain ⟨x, hturns, hfinishes⟩ := (TokenStream.ofText fs options text shown key).finished
  obtain ⟨parsing, hparsing⟩ := Telling.of_steps Journal.Tells.of_turn hturns
  exact ⟨⟨_, parsing, _⟩, ⟨ds, _, hds, rfl, rfl⟩, ⟨x, hparsing, hfinishes⟩, rfl⟩

end Told

namespace TokenStream

theorem draft_reports {fs : FileSystem} {options : IncludeOptions} {text : String}
    {shown key : Path} {told : Told} (h : told.About fs options text shown key) :
    (ofText fs options text shown key).draft.reports = told.all := by
  show _ ++ Draft.closingReports _ = _
  rw [h.draft_problems, ← h.closing, Told.all]

theorem handsOut {fs : FileSystem} {options : IncludeOptions} {text : String}
    {shown key : Path} {told : Told} (h : told.About fs options text shown key) :
    (ofText fs options text shown key).HandsOut told where
  sorted := by
    rw [← draft_reports h]
    exact .queue _
  status := by
    rw [← draft_reports h]
    have hperm : (ofText fs options text shown key).parse.diagnostics.Perm
        (ofText fs options text shown key).draft.reports := Draft.diagnostics_perm
    have hany : (ofText fs options text shown key).parse.diagnostics.any Diagnostic.isError = true ↔
        ∃ d ∈ (ofText fs options text shown key).draft.reports, d.severity = .error := by
      simp [List.any_eq_true, hperm.mem_iff, Diagnostic.isError]
    rw [← hany]
    unfold Parsed.status
    split <;> simp_all [Status.code]
  loading := h.problems
  alone := by
    have hparsing := h.draft_problems
    have hclosing := h.closing
    rw [draft_alone, h.problems] at hparsing
    rw [draft_alone] at hclosing
    rw [← List.append_cancel_left hparsing, hclosing]
    exact .queue _

end TokenStream

/-- A collector counts and hands out what was pushed, whatever is done with it; and
what a parse of a text hands out is what was reported about the text: by a run of
the loader, by a run of the parser, and by the checks at the end. -/
theorem diagnostics_kept :
    (∀ ops : List Collector.Operation, (Collector.after ops).Keeps (ops.flatMap (·.pushed))) ∧
      ∀ (fs : FileSystem) (options : IncludeOptions) (text : String) (shown key : Path),
        (∃ told : Told, told.About fs options text shown key) ∧
          ∀ told : Told, told.About fs options text shown key →
            (TokenStream.ofText fs options text shown key).HandsOut told := by
  refine ⟨fun ops => ?_, fun fs options text shown key => ⟨?_, fun told h => ?_⟩⟩
  · rw [Collector.after_eq]
    exact Collector.keeps_pushAll _
  · exact Told.exists_about fs options text shown key
  · exact TokenStream.handsOut h

/-- A file that includes one that is not there, a string that is not closed, a
declaration without a name, and a call of what nobody declares. -/
def ailing : String :=
  "#include \"none.h\"\nvariable 1;\nprocedure p begin q(\"open); end\n"

/-- What is wrong with it is handed out, each of it once. -/
theorem diagnostics_kept_ailing :
    ∃ told : Told, told.About .none .default ailing ⟨"a.ssl"⟩ ⟨"a.ssl"⟩ ∧
      (TokenStream.ofText .none .default ailing ⟨"a.ssl"⟩ ⟨"a.ssl"⟩).HandsOut told := by
  obtain ⟨⟨told, htold⟩, hall⟩ := diagnostics_kept.2 .none .default ailing ⟨"a.ssl"⟩ ⟨"a.ssl"⟩
  exact ⟨told, htold, hall told htold⟩

end SslFrontend
