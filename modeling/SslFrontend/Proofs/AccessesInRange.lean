import SslFrontend.Proofs.Access.Lexing
import SslFrontend.Proofs.Access.Machine

/-! # Every access is in range

A text is cut into lexemes at offsets between its characters, tokens and declarations
are looked up at indices, and numbers are counted up and down.  None of this leaves its
range: read with checks, a text is read as without them.

When all items are read, procedures are resolved one after the other, each at its
index, and their uses are checked while later ones are still unresolved.  What a use is
checked for is not in the code of any procedure (`SymbolTable.SameFaces.useProblems`),
so the reports are the same.

Main statement: `TokenStream.ofText_inRange`.
-/

namespace SslFrontend

/-! ## Procedures that are resolved one after the other -/

/-- A procedure without its code. -/
def Procedure.face (p : Procedure) : Procedure := { p with body := [], trigger := .none }

@[simp] theorem Procedure.face_resolved (p : Procedure) (found : List (Option Symbol)) :
    (p.resolved found).face = p.face := rfl

namespace SymbolTable

/-- The tables differ in the code of procedures only. -/
structure SameFaces (t u : SymbolTable) : Prop where
  strings : u.strings = t.strings
  vars : u.vars = t.vars
  scopes : ∀ scope, (u.scope? scope).map Procedure.face = (t.scope? scope).map Procedure.face

namespace SameFaces

variable {t u : SymbolTable}

theorem map_eq {β : Type} (h : t.SameFaces u) {f : Procedure → β} (hf : ∀ p, f p.face = f p)
    (scope : ScopeId) : (u.scope? scope).map f = (t.scope? scope).map f := by
  have hface : f = f ∘ Procedure.face := funext fun p => (hf p).symm
  rw [hface, ← Option.map_map, ← Option.map_map, h.scopes]

theorem nameOf (h : t.SameFaces u) (symbol : Symbol) : u.nameOf symbol = t.nameOf symbol := by
  cases symbol with
  | global i => simp only [SymbolTable.nameOf, h.strings, h.vars]
  | proc i =>
      have hname := h.map_eq (f := fun p => t.strings.lookup p.name) (fun _ => rfl) (.proc i)
      simp only [SymbolTable.nameOf, h.strings]
      exact congrArg (·.getD "") hname
  | inner scope i =>
      have hname := h.map_eq (f := fun p => p.localName? i) (fun _ => rfl) scope
      have hjoin : ∀ found : Option Procedure, found.bind (·.localName? i) =
          (found.map (·.localName? i)).join := fun found => by cases found <;> rfl
      simp only [SymbolTable.nameOf, hjoin, hname]
  | builtin i => rfl

theorem arity? (h : t.SameFaces u) (symbol : Symbol) : u.arity? symbol = t.arity? symbol := by
  cases symbol with
  | proc i =>
      exact h.map_eq (f := fun p => (⟨p.minArgs, p.numArgs, some p.declared⟩ : Arity))
        (fun _ => rfl) (.proc i)
  | _ => rfl

/-- What is wrong with a use is not in the code of procedures. -/
theorem useProblems (h : t.SameFaces u) (context : Option ScopeId) (code : Code) :
    u.useProblems context code = t.useProblems context code := by
  have huse : ∀ symbol pos user, u.useProblem? symbol pos user = t.useProblem? symbol pos user := by
    intro symbol pos user
    simp only [useProblem?, callProblem?, h.nameOf, h.arity?]
  induction code with
  | nil => rfl
  | cons operand rest ih =>
      cases rest with
      | nil => rfl
      | cons user rest =>
          unfold SymbolTable.useProblems
          simp only [huse, ih]

theorem procedureProblems (h : t.SameFaces u) (scope : ScopeId) (p : Procedure) :
    u.procedureProblems scope p = t.procedureProblems scope p := by
  unfold SymbolTable.procedureProblems
  rw [h.useProblems, h.useProblems]

end SameFaces

/-- Resolve and check the procedure at an index. -/
def finishProcedure? (found : List (Option Symbol)) (state : SymbolTable × List Diagnostic)
    (index : Nat) : Option (SymbolTable × List Diagnostic) := do
  let (table, problems) := state
  let p := (← table.procs[index]?).resolved found
  return ({ table with procs := table.procs.set index p },
    problems ++ table.procedureProblems (.proc index) p)

/-- The first procedures are resolved. -/
def resolvedUpTo (table : SymbolTable) (found : List (Option Symbol)) (count : Nat) :
    SymbolTable :=
  { table with
    procs := table.procs.mapIdx fun i p => if i < count then p.resolved found else p }

variable {table : SymbolTable} {found : List (Option Symbol)} {count : Nat}

theorem sameFaces_resolvedUpTo : table.SameFaces (table.resolvedUpTo found count) := by
  refine ⟨rfl, rfl, fun scope => ?_⟩
  cases scope with
  | discarded i => rfl
  | proc i =>
      show ((table.procs.mapIdx _)[i]?).map _ = (table.procs[i]?).map _
      rw [List.getElem?_mapIdx, Option.map_map]
      refine Option.map_congr fun p _ => ?_
      simp only [Function.comp_apply]
      split <;> rfl

theorem resolvedUpTo_zero : table.resolvedUpTo found 0 = table := by
  have hprocs : table.procs.mapIdx (fun _ p => p) = table.procs := List.ext_getElem? fun i => by
    simp
  simp [resolvedUpTo, hprocs]

theorem resolvedUpTo_succ {p : Procedure} (hp : table.procs[count]? = some p) :
    table.resolvedUpTo found (count + 1) =
      { table.resolvedUpTo found count with
        procs := (table.resolvedUpTo found count).procs.set count (p.resolved found) } := by
  refine congrArg (fun procs => { table with procs := procs }) (List.ext_getElem? fun i => ?_)
  simp only [resolvedUpTo, List.getElem?_set, List.getElem?_mapIdx, List.length_mapIdx]
  by_cases hi : count = i
  · subst hi
    obtain ⟨hlt, rfl⟩ := List.getElem?_eq_some_iff.mp hp
    simp [hlt]
  · rw [if_neg hi]
    refine Option.map_congr fun q _ => if_congr ?_ rfl rfl
    omega

/-- Every procedure is found at its index, and what is wrong with it is reported. -/
theorem foldlM_finishProcedure?_eq (hcount : count ≤ table.procs.length) :
    (List.range count).foldlM (finishProcedure? found) (table, []) =
      some (table.resolvedUpTo found count,
        ((table.procs.take count).mapIdx fun i p =>
          table.procedureProblems (.proc i) (p.resolved found)).flatten) := by
  induction count with
  | zero => simp [resolvedUpTo_zero]
  | succ count ih =>
      have hp : table.procs[count]? = some table.procs[count] := List.getElem?_eq_getElem hcount
      have hthere : (table.resolvedUpTo found count).procs[count]? = some table.procs[count] := by
        simp [resolvedUpTo, hp]
      rw [List.range_succ, List.foldlM_append, ih (Nat.le_of_succ_le hcount)]
      simp only [Option.bind_eq_bind, Option.bind_some, List.foldlM_cons, List.foldlM_nil,
        finishProcedure?, hthere, sameFaces_resolvedUpTo.procedureProblems]
      rw [resolvedUpTo_succ hp, List.take_add_one, hp]
      rw [Option.toList_some, List.mapIdx_concat, List.flatten_concat,
        List.length_take_of_le (Nat.le_of_succ_le hcount)]
      rfl

theorem resolvedUpTo_length : table.resolvedUpTo found table.procs.length =
    { table with procs := table.procs.map (·.resolved found) } := by
  refine congrArg (fun procs => { table with procs := procs }) (List.ext_getElem? fun i => ?_)
  rw [List.getElem?_mapIdx, List.getElem?_map]
  exact Option.map_congr fun p hp => if_pos (List.getElem?_eq_some_iff.mp hp).1

theorem sameFaces_resolved : table.SameFaces (table.resolved found) := by
  refine ⟨rfl, rfl, fun scope => ?_⟩
  cases scope with
  | proc i =>
      show ((table.procs.map _)[i]?).map _ = (table.procs[i]?).map _
      rw [List.getElem?_map, Option.map_map]
      rfl
  | discarded i =>
      show ((table.discarded.map _)[i]?).map _ = (table.discarded[i]?).map _
      rw [List.getElem?_map, Option.map_map]
      rfl

/-- Checked in a table that is resolved or in one that is not, uses are as wrong. -/
theorem allUseProblems_resolved (main : Code) : (table.resolved found).allUseProblems main =
    table.useProblems none main ++
      ((table.procs.take table.procs.length).mapIdx fun i p =>
        table.procedureProblems (.proc i) (p.resolved found)).flatten ++
      ((table.discarded.map (·.resolved found)).mapIdx fun i p =>
        (table.resolved found).procedureProblems (.discarded i) p).flatten := by
  have hprocs : (table.resolved found).procs = table.procs.map (·.resolved found) := rfl
  have hdiscarded : (table.resolved found).discarded = table.discarded.map (·.resolved found) := rfl
  have heach : (table.procs.map (·.resolved found)).mapIdx
      (fun i p => table.procedureProblems (.proc i) p) =
      table.procs.mapIdx fun i p => table.procedureProblems (.proc i) (p.resolved found) :=
    List.ext_getElem? fun i => by simp [List.getElem?_mapIdx, Function.comp_def]
  unfold allUseProblems
  simp only [sameFaces_resolved.useProblems, sameFaces_resolved.procedureProblems, hprocs,
    hdiscarded, List.take_length, heach]

end SymbolTable

/-! ## The end of a unit -/

namespace Machine

/-- Resolve all names and check all uses, one procedure after the other. -/
def finish? (m : Machine) (main : Code) (files : FileTable) : Option Parsed := do
  let (closed, undefinedProblems) := m.table.table.checkDefinitions
  let pending := m.pending.pending
  let found := pending.resolutions closed
  let main := main.resolved found
  let (table, procProblems) ← (List.range closed.procs.length).foldlM
    (SymbolTable.finishProcedure? found) (closed, [])
  let table := { table with discarded := table.discarded.map (·.resolved found) }
  let problems := undefinedProblems ++ pending.problems closed ++
    (closed.useProblems none main ++ procProblems ++
      (table.discarded.mapIdx fun i p => table.procedureProblems (.discarded i) p).flatten)
  let settled := (pending.settleAll closed m.ledger).distribute table
  return ⟨⟨settled.procs, settled.vars, settled.strings, main, files⟩,
    Queue.sorted ⟨m.problems.items ++ problems⟩⟩

/-- The end of a unit finds every procedure at its index. -/
theorem Shows.finish {m : Machine} {x : Standing} (h : m.Shows x) (main : Code)
    (files : FileTable) :
    m.finish? main files = some (Draft.finish ⟨main, x.state.table, x.state.ledger,
      x.state.pending, x.state.problems⟩ files) := by
  unfold finish?
  simp only [h.table, h.pending, h.ledger, h.problems,
    SymbolTable.foldlM_finishProcedure?_eq (Nat.le_refl _), Option.bind_eq_bind, Option.bind_some]
  unfold Draft.finish
  simp only [SymbolTable.allUseProblems_resolved, SymbolTable.resolvedUpTo_length]
  rfl

end Machine

/-! ## The theorem -/

/-- Whatever the parser does to its state, and when the unit ends, every index is in
range. -/
structure TokenStream.InRange (stream : TokenStream) : Prop where
  /-- As long as there are numbers, all that is done finds what it looks up, and there
  is a token to be read and one that was read last. -/
  acts : ∀ actions, (Standing.after ⟨.start stream, none⟩ actions).Fits →
    ∃ m, (Machine.start stream).run? actions = some m ∧
      m.Shows (Standing.after ⟨.start stream, none⟩ actions) ∧
      m.cursor.current?.isSome ∧ m.cursor.previousPos?.isSome
  /-- What the parser does is such a run, and what it leaves behind is finished as it
  is without checks. -/
  parses : ∃ actions m, (Machine.start stream).run? actions = some m ∧
    m.finish? stream.draft.main stream.files = some stream.parse

/-- Reading a text with fewer than 2 ^ 32 mentions and fewer than 2 ^ 31 procedures,
rejected ones apart, and fewer than 2 ^ 31 rejected ones, leaves no range.  Every text
is cut into lexemes between its characters, and no bracket is closed that was not
opened where an assignment is looked for. -/
theorem TokenStream.ofText_inRange (fs : FileSystem) (options : IncludeOptions) (text : String)
    (shown key : Path)
    (hnext : (ofText fs options text shown key).draft.ledger.next < 2 ^ 32)
    (hprocs : (ofText fs options text shown key).draft.table.procs.length < 2 ^ 31)
    (hdiscarded : (ofText fs options text shown key).draft.table.discarded.length < 2 ^ 31) :
    (∀ source file files, Lexer.lex? source file files = some (Lexer.lex source file files)) ∧
      (∀ tokens, Assignment.isNext? tokens = some (Assignment.isNext tokens)) ∧
      (ofText fs options text shown key).InRange := by
  have hinner := inner_ofText fs options text shown key
  generalize ofText fs options text shown key = stream at hnext hprocs hdiscarded hinner ⊢
  refine ⟨Lexer.lex?_eq, Assignment.isNext?_eq, fun actions hfits => ?_, ?_⟩
  · obtain ⟨m, hrun, hshows⟩ := (Machine.Shows.start _).run actions hfits
    exact ⟨m, hrun, hshows, by rw [hshows.cursor.current?]; rfl,
      by rw [hshows.cursor.previousPos?]; rfl⟩
  · obtain ⟨actions, x, hafter, hdraft⟩ := draft_after hinner
    have hfits : (Standing.after ⟨.start stream, none⟩ actions).Fits := by
      rw [hdraft] at hnext hprocs hdiscarded
      rw [hafter]
      exact ⟨Nat.le_of_lt_succ hnext, Nat.le_of_lt hprocs, Nat.le_of_lt hdiscarded⟩
    obtain ⟨m, hrun, hshows⟩ := (Machine.Shows.start _).run actions hfits
    refine ⟨actions, m, hrun, ?_⟩
    rw [hafter] at hshows
    rw [hshows.finish, ← hdraft]
    rfl

/-- A text with characters of two bytes, a variable that is declared again, a procedure
that is defined again and a name that is declared later. -/
def TokenStream.crowded : TokenStream :=
  .ofText .none .default
    ("#line 3 \"ä.ssl\"\nvariable a := 0x1F; variable a; procedure p(variable x) begin " ++
      "x := q(\"ö\"); end procedure p begin a[1] := 2; end procedure q(variable y) begin end")
    ⟨"a.ssl"⟩ ⟨"a.ssl"⟩

theorem TokenStream.ofText_inRange_crowded : crowded.draft.ledger.next < 2 ^ 32 ∧
    crowded.draft.table.procs.length < 2 ^ 31 ∧ crowded.draft.table.discarded.length < 2 ^ 31 ∧
      crowded.InRange := by
  have hfits : crowded.draft.ledger.next < 2 ^ 32 ∧ crowded.draft.table.procs.length < 2 ^ 31 ∧
      crowded.draft.table.discarded.length < 2 ^ 31 := by decide +kernel
  obtain ⟨hnext, hprocs, hdiscarded⟩ := hfits
  exact ⟨hnext, hprocs, hdiscarded,
    (ofText_inRange _ _ _ _ _ hnext hprocs hdiscarded).2.2⟩

end SslFrontend
