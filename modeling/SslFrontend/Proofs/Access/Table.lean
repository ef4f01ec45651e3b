import SslFrontend.Proofs.Access.Slice
import SslFrontend.Proofs.Symbol.Kept

/-! # Tables with an index of names

A table can keep what each name of the unit is in a map from names to indices, and
number the scopes of procedures, those of rejected headers from `discardedBase` on.
Then it finds a variable, a procedure or a local at an index that it took from the
map, from a scope's number or from a look-up; an index that is out of range is none
here.

Main statements: such a table declares variables, locals and headers as a table
without an index does, and finds everything at its index, as long as there are fewer
procedures than numbers for them (`Indexed.declareIn?_eq`, `Indexed.declare?_eq`,
`Indexed.declareDiscarded?_eq`).
-/

namespace SslFrontend

/-! ## Numbers of scopes -/

namespace ScopeId

/-- The numbers from here on are those of the scopes of rejected headers. -/
def discardedBase : Nat := 2 ^ 31

/-- The number of a scope; there is no greater one than a word. -/
def number : ScopeId → Nat
  | .proc index => saturate index
  | .discarded index => saturate (discardedBase + saturate index)

/-- The place among the rejected headers that a number stands for. -/
def discardedSlot? (number : Nat) : Option Nat :=
  if discardedBase ≤ number then some (number - discardedBase) else none

def ofNumber (number : Nat) : ScopeId :=
  match discardedSlot? number with
  | some slot => .discarded slot
  | none => .proc number

theorem ofNumber_inj {m n : Nat} (h : ofNumber m = ofNumber n) : m = n := by
  unfold ofNumber discardedSlot? at h
  by_cases hm : discardedBase ≤ m <;> by_cases hn : discardedBase ≤ n
  · simp only [if_pos hm, if_pos hn, discarded.injEq] at h
    omega
  · simp [if_pos hm, if_neg hn] at h
  · simp [if_neg hm, if_pos hn] at h
  · simpa [if_neg hm, if_neg hn] using h

theorem ofNumber_of_lt {index : Nat} (h : index < discardedBase) :
    ofNumber index = .proc index := by
  unfold ofNumber discardedSlot?
  rw [if_neg (Nat.not_le.mpr h)]

theorem le_maxWord {index : Nat} (h : index < discardedBase) : index ≤ maxWord := by
  unfold discardedBase at h
  unfold maxWord
  omega

theorem ofNumber_discarded {index : Nat} (h : index < discardedBase) :
    ofNumber (number (.discarded index)) = .discarded index := by
  have hword : discardedBase + index ≤ maxWord := by
    unfold discardedBase at h ⊢
    unfold maxWord
    omega
  unfold number ofNumber discardedSlot?
  simp only [saturate_of_le (le_maxWord h), saturate_of_le hword, if_pos (Nat.le_add_right _ _),
    Nat.add_sub_cancel_left]

end ScopeId

/-! ## What an index holds -/

namespace SymbolTable

variable {t u : SymbolTable}

/-- A variable of the unit or a procedure that is only in the second table. -/
def IsNew (t u : SymbolTable) (symbol : Symbol) : Prop :=
  (∃ i, symbol = .global i ∧ t.vars.length ≤ i ∧ i < u.vars.length) ∨
    ∃ i, symbol = .proc i ∧ t.procs.length ≤ i ∧ i < u.procs.length

/-- A name that a grown table has is one of the table, or the name of something that
is new. -/
theorem lookupGlobal_or_new (ht : t.Kept) {keep : ScopeId → Prop} (hg : t.Extends keep u)
    {name : String} {symbol : Symbol} (hl : u.lookupGlobal name = some symbol) :
    t.lookupGlobal name = some symbol ∨ t.IsNew u symbol := by
  have houter := outer_of_lookupGlobal hl
  obtain ⟨hbinds, i, hsymbol⟩ := binds_of_lookupGlobal hl
  -- A symbol that was there before is found under its name, which has not changed.
  have hold : ∀ handle ∈ t.globals, (∃ pos, t.declaration? symbol = some (t.strings, handle, pos)) →
      t.lookupGlobal name = some symbol := by
    rintro handle hmem ⟨pos, hentry⟩
    obtain ⟨text, hfound⟩ := ht.globals.found handle hmem
    have hbefore : t.Binds text symbol := ⟨_, _, _, hentry, hfound⟩
    have hafter := (hbefore.grows hg fun scope j hs => absurd hs (houter scope j)).1
    have hname : text = name := hafter.nameOf.symm.trans hbinds.nameOf
    exact hname ▸ lookupGlobal_of_binds ht.globals.distinct hbefore houter
  have hfits : symbol.FitsIn none := by
    rcases hsymbol with rfl | rfl
    · trivial
    · trivial
  obtain ⟨-, hin⟩ := hbinds.holds hfits
  rcases hsymbol with rfl | rfl
  · rcases Nat.lt_or_ge i t.vars.length with hlt | hge
    · refine .inl (hold t.vars[i].name ?_ ⟨t.vars[i].declared, ?_⟩)
      · exact List.mem_append_left _ (List.mem_map_of_mem (List.getElem_mem hlt))
      · simp [declaration?, List.getElem?_eq_getElem hlt, Variable.label]
    · exact .inr (.inl ⟨i, rfl, hge, hin⟩)
  · rcases Nat.lt_or_ge i t.procs.length with hlt | hge
    · refine .inl (hold t.procs[i].name ?_ ⟨t.procs[i].declared, ?_⟩)
      · exact List.mem_append_right _ (List.mem_map_of_mem (List.getElem_mem hlt))
      · simp [declaration?, List.getElem?_eq_getElem hlt, Procedure.label]
    · exact .inr (.inr ⟨i, rfl, hge, hin⟩)

/-- A name that nothing new has is looked up as before. -/
theorem lookupGlobal_extends (ht : t.Kept) (hu : u.Kept) {keep : ScopeId → Prop}
    (hg : t.Extends keep u) {name : String}
    (hnew : ∀ symbol, u.lookupGlobal name = some symbol → ¬ t.IsNew u symbol) :
    u.lookupGlobal name = t.lookupGlobal name := by
  cases hl : u.lookupGlobal name with
  | some symbol => exact ((lookupGlobal_or_new ht hg hl).resolve_right (hnew symbol hl)).symm
  | none =>
      cases hold : t.lookupGlobal name with
      | none => rfl
      | some symbol =>
          have houter := outer_of_lookupGlobal hold
          have hafter := ((binds_of_lookupGlobal hold).1.grows hg
            fun scope i hs => absurd hs (houter scope i)).1
          rw [lookupGlobal_of_binds hu.globals.distinct hafter houter] at hl
          cases hl

/-- Only the first header of a name adds a procedure, the one that it names. -/
theorem Declares.procs_cases {header : Header} {verdict : Verdict}
    (h : Declares t header verdict u) : u.procs.length = t.procs.length ∨
      (t.lookupGlobal header.name = none ∧ u.procs.length = t.procs.length + 1 ∧
        verdict.named? = some t.procs.length) := by
  cases h with
  | reject named => exact .inl rfl
  | first fresh interned hverdict =>
      refine .inr ⟨fresh, ?_, ?_⟩
      · rw [setParams_shells.procs_length]
        simp [opened]
      · rcases hverdict with rfl | rfl <;> rfl
  | announce there htrigger => exact .inl (by simp)
  | define there open_ htrigger =>
      exact .inl (setParams_shells.procs_length.trans (by simp [cleared]))

theorem declareFirst_of_ok {header : Header} {handle : Handle} {strings : Pool}
    (hi : t.strings.intern header.name = .ok (handle, strings)) :
    t.declareFirst header =
      let set := (t.opened header handle strings header.modifiers).setParams
        (.proc t.procs.length) header.params
      ⟨if header.hasBody then .define t.procs.length else .announce t.procs.length, set.1,
        set.2⟩ := by
  unfold declareFirst
  simp only [hi]
  rfl

/-- What a name of the unit is. -/
inductive GlobalName where
  | var (index : Nat)
  | proc (index : Nat)
deriving DecidableEq, Repr

namespace GlobalName

def symbol : GlobalName → Symbol
  | .var index => .global index
  | .proc index => .proc index

end GlobalName

/-- A table with a map from the names of the unit to what they are.  The last
name is the first one in the map. -/
structure Indexed where
  table : SymbolTable
  globals : List (String × GlobalName)

namespace Indexed

def empty : Indexed := ⟨.empty, []⟩

/-- The map has what a look-up finds. -/
structure Faithful (t : Indexed) : Prop where
  kept : t.table.Kept
  maps : ∀ name, (t.globals.lookup name).map GlobalName.symbol = t.table.lookupGlobal name

theorem Faithful.empty : Indexed.empty.Faithful := by
  refine ⟨.empty, fun name => ?_⟩
  rfl

variable {t : Indexed} {u : SymbolTable} {name : String}

/-- A table may grow without new names in the unit. -/
theorem Faithful.grown (h : t.Faithful) (hu : u.Kept) {keep : ScopeId → Prop}
    (hg : t.table.Extends keep u) (hvars : u.vars.length = t.table.vars.length)
    (hprocs : u.procs.length = t.table.procs.length) : Faithful { t with table := u } := by
  refine ⟨hu, fun name => (h.maps name).trans (lookupGlobal_extends h.kept hu hg ?_).symm⟩
  rintro symbol - (⟨i, -, hge, hlt⟩ | ⟨i, -, hge, hlt⟩)
  · omega
  · omega

/-- A table may grow by one name in the unit. -/
theorem Faithful.added (h : t.Faithful) (hu : u.Kept) {keep : ScopeId → Prop}
    (hg : t.table.Extends keep u) (what : GlobalName) (hbinds : u.Binds name what.symbol)
    (hone : ∀ symbol, t.table.IsNew u symbol → symbol = what.symbol) :
    Faithful ⟨u, (name, what) :: t.globals⟩ := by
  refine ⟨hu, fun other => ?_⟩
  rw [List.lookup_cons]
  by_cases hname : other = name
  · have houter : ∀ scope i, what.symbol ≠ .inner scope i := by
      cases what <;> exact fun _ _ => Symbol.noConfusion
    rw [hname, lookupGlobal_of_binds hu.globals.distinct hbinds houter, beq_self_eq_true]
    rfl
  · rw [beq_eq_false_iff_ne.mpr hname]
    refine (h.maps other).trans (lookupGlobal_extends h.kept hu hg fun symbol hl hnew => ?_).symm
    obtain rfl := hone symbol hnew
    exact hname ((binds_of_lookupGlobal hl).1.nameOf.symm.trans hbinds.nameOf)

/-! ## Variables and locals -/

/-- Where a name of the unit was declared first. -/
def site? (t : Indexed) : GlobalName → Option Position
  | .var index => t.table.vars[index]?.map Variable.declared
  | .proc index => t.table.procs[index]?.map Procedure.declared

/-- Declare a variable of the unit. -/
def declareVar? (t : Indexed) (name : String) (kind : VarScope) (pos : Position) :
    Option (Except Diagnostic (Symbol × Indexed)) :=
  match t.globals.lookup name with
  | some existing => do
    let first ← t.site? existing
    return .error (.redeclared pos first name)
  | none =>
    match t.table.strings.intern name with
    | .error error => some (.error (refused pos error))
    | .ok (handle, strings) =>
      let index := saturate t.table.vars.length
      some (.ok (.global index,
        ⟨{ t.table with strings := strings, vars := t.table.vars ++ [.fresh handle kind pos] },
          (name, .var index) :: t.globals⟩))

/-- The procedure whose scope has a number. -/
def procedure? (t : Indexed) (number : Nat) : Option Procedure :=
  match ScopeId.discardedSlot? number with
  | some slot => t.table.discarded[slot]?
  | none => t.table.procs[number]?

/-- Declare a parameter or local of a procedure. -/
def declareLocal? (t : Indexed) (number : Nat) (name : String) (pos : Position) :
    Option (Except Diagnostic (Symbol × Indexed)) := do
  let procedure ← t.procedure? number
  match procedure.findLocal? name with
  | some existing => do
    let first ← procedure.locals[existing]?
    return .error (.redeclared pos first.declared name)
  | none =>
    match procedure.namelist.intern name with
    | .error error => return .error (refused pos error)
    | .ok (handle, namelist) =>
      let scope := ScopeId.ofNumber number
      return .ok (.inner scope procedure.locals.length,
        { t with table := t.table.modifyScope scope fun p =>
            { p with
              namelist := namelist
              locals := p.locals ++ [.fresh handle .localVar pos] } })

/-- Declare a variable in the scope that has a number, or in the unit. -/
def declareIn? (t : Indexed) (context : Option Nat) (kind : VarScope) (name : String)
    (pos : Position) : Option (Except Diagnostic (Symbol × Indexed)) :=
  match context with
  | some number => t.declareLocal? number name pos
  | none => t.declareVar? name kind pos

theorem procedure?_eq (t : Indexed) (number : Nat) :
    t.procedure? number = t.table.scope? (ScopeId.ofNumber number) := by
  unfold procedure? ScopeId.ofNumber
  cases ScopeId.discardedSlot? number <;> rfl

theorem site?_eq (h : t.Faithful) {what : GlobalName}
    (hl : t.globals.lookup name = some what) :
    ∃ pos, t.site? what = some pos ∧ t.table.siteOf? what.symbol = some pos ∧
      t.table.lookupGlobal name = some what.symbol := by
  have hfound : t.table.lookupGlobal name = some what.symbol := by
    rw [← h.maps, hl]
    rfl
  obtain ⟨⟨_, _, pos, hentry, _⟩, -⟩ := binds_of_lookupGlobal hfound
  have hsite := siteOf?_of_declaration? hentry
  refine ⟨pos, ?_, hsite, hfound⟩
  rw [← hsite]
  cases what <;> rfl

/-- The name of every variable is found at its index. -/
theorem declareVar?_eq (h : t.Faithful) (hvars : t.table.vars.length ≤ maxWord)
    (name : String) (kind : VarScope) (pos : Position) :
    t.declareVar? name kind pos = some ((t.table.declareVar name kind pos).map fun (symbol, u) =>
      (symbol, ⟨u, (name, .var t.table.vars.length) :: t.globals⟩)) := by
  unfold declareVar? declareVar
  cases hl : t.globals.lookup name with
  | some existing =>
      obtain ⟨first, hfirst, hsite, hfound⟩ := site?_eq h hl
      simp only [hfirst, hfound, hsite]
      rfl
  | none =>
      have hnone : t.table.lookupGlobal name = none := by
        rw [← h.maps, hl]
        rfl
      simp only [hnone, saturate_of_le hvars]
      cases t.table.strings.intern name <;> rfl

/-- A scope that is there has its procedure and its locals at their indices. -/
theorem declareLocal?_eq (t : Indexed) {number : Nat}
    (hscope : t.table.scope? (ScopeId.ofNumber number) ≠ none) (name : String) (pos : Position) :
    t.declareLocal? number name pos =
      some ((t.table.declareLocal (ScopeId.ofNumber number) name pos).map fun (symbol, u) =>
        (symbol, { t with table := u })) := by
  obtain ⟨p, hp⟩ := Option.ne_none_iff_exists'.mp hscope
  unfold declareLocal? declareLocal lookupLocal
  rw [procedure?_eq, hp]
  simp only [Option.bind_eq_bind, Option.bind_some]
  cases hl : p.findLocal? name with
  | some existing =>
      obtain ⟨handle, -, hindex⟩ := Option.bind_eq_some_iff.mp hl
      obtain ⟨v, hv, -⟩ := getElem?_of_findIdx? hindex
      simp [hv, siteOf?, hp, Except.map]
  | none => cases p.namelist.intern name <;> rfl

/-- The map when a name was declared in a context. -/
def noted (t : Indexed) (context : Option ScopeId) (name : String) : List (String × GlobalName) :=
  match context with
  | some _ => t.globals
  | none => (name, .var t.table.vars.length) :: t.globals

theorem declareIn?_eq (h : t.Faithful) (hvars : t.table.vars.length ≤ maxWord)
    {context : Option ScopeId} {number? : Option Nat}
    (hcontext : context = number?.map ScopeId.ofNumber)
    (hscope : ∀ scope, context = some scope → t.table.scope? scope ≠ none)
    (kind : VarScope) (name : String) (pos : Position) :
    t.declareIn? number? kind name pos =
      some ((t.table.declareIn context kind name pos).map fun (symbol, u) =>
        (symbol, ⟨u, t.noted context name⟩)) := by
  subst hcontext
  cases number? with
  | none => exact declareVar?_eq h hvars name kind pos
  | some number => exact t.declareLocal?_eq (hscope _ rfl) name pos

theorem length_vars_of_declareIn {t : SymbolTable} {context : Option ScopeId} {kind : VarScope}
    {pos : Position} {symbol : Symbol}
    (hd : t.declareIn context kind name pos = .ok (symbol, u)) :
    u.vars.length ≤ t.vars.length + 1 := by
  cases context with
  | some scope =>
      obtain ⟨_, _, _, _, _, _, _, rfl⟩ := declareLocal_spec hd
      rw [vars_modifyScope]
      exact Nat.le_succ _
  | none =>
      obtain ⟨_, _, _, _, _, rfl⟩ := declareVar_spec hd
      simp

theorem Faithful.declareIn (h : t.Faithful) {context : Option ScopeId} {kind : VarScope}
    {pos : Position} {symbol : Symbol}
    (hd : t.table.declareIn context kind name pos = .ok (symbol, u)) :
    Faithful ⟨u, t.noted context name⟩ := by
  have hkept := h.kept.declareIn hd
  cases context with
  | some scope =>
      have hshells : t.table.SameShells u := .declareLocal hd
      have hvars : u.vars.length = t.table.vars.length := by
        obtain ⟨_, _, _, _, _, _, _, rfl⟩ := declareLocal_spec hd
        cases scope <;> rfl
      exact h.grown hkept (declareLocal_grows hd) hvars hshells.procs_length
  | none =>
      have hbinds := (binds_of_declareIn hd).1
      have hgrows := declareVar_grows hd
      obtain ⟨_, _, _, _, rfl, rfl⟩ := declareVar_spec hd
      refine h.added hkept hgrows (.var t.table.vars.length) hbinds ?_
      rintro symbol (⟨i, rfl, hge, hlt⟩ | ⟨i, rfl, hge, hlt⟩)
      · have hlast : i = t.table.vars.length := by
          rw [List.length_append, List.length_singleton] at hlt
          omega
        exact congrArg Symbol.global hlast
      · exact absurd hlt (Nat.not_lt.mpr hge)

/-! ## Headers -/

def addParam? (number : Nat) (state : Indexed × List Diagnostic) (param : Param) :
    Option (Indexed × List Diagnostic) := do
  let (t, problems) := state
  match ← t.declareLocal? number param.name param.pos with
  | .ok (symbol, t) =>
    return ({ t with table := t.table.modifyVariable symbol (·.withValue param.default) }, problems)
  | .error problem => return (t, problems ++ [problem])

/-- Make a header's parameters the procedure's. -/
def setParams? (t : Indexed) (number : Nat) (params : List Param) :
    Option (Indexed × List Diagnostic) := do
  let (t, problems) ← params.foldlM (addParam? number) (t, [])
  return ({ t with table := t.table.modifyScope (ScopeId.ofNumber number) fun p =>
    { p with numArgs := params.length, minArgs := Param.required params } }, problems)

structure Declared where
  verdict : Verdict
  table : Indexed
  problems : List Diagnostic

/-- The first header of a name. -/
def declareFirst? (t : Indexed) (header : Header) : Option Declared :=
  match t.table.strings.intern header.name with
  | .error error => some ⟨.reject none, t, [refused header.pos error]⟩
  | .ok (handle, strings) => do
    let index := saturate t.table.procs.length
    let opened : Indexed := ⟨t.table.opened header handle strings header.modifiers,
      (header.name, .proc index) :: t.globals⟩
    let (t, problems) ← opened.setParams? index header.params
    return ⟨if header.hasBody then .define index else .announce index, t, problems⟩

/-- A later header of the procedure at an index. -/
def declareAgain? (t : Indexed) (index : Nat) (header : Header) : Option Declared := do
  let procedure ← t.table.procs[index]?
  if header.hasBody && procedure.defined then
    return ⟨.reject (some index), t, [redefinition procedure header]⟩
  let (trigger, triggerProblems) := mergeTrigger procedure header
  let (modifiers, modifierProblems) := mergeModifiers procedure header
  let problems := arityProblem procedure header ++ triggerProblems ++ modifierProblems
  if header.hasBody then
    let importProblems := if modifiers.imported then [header.importWithBody] else []
    let cleared := t.table.cleared index trigger modifiers.withoutImport
    let (t, paramProblems) ← { t with table := cleared }.setParams? index header.params
    return ⟨.define index, t, problems ++ importProblems ++ paramProblems⟩
  else
    let merged := t.table.modifyScope (.proc index) fun p =>
      { p with trigger := trigger, modifiers := modifiers }
    return ⟨.announce index, { t with table := merged }, problems⟩

/-- Merge a settled header into the table. -/
def declareSettled? (t : Indexed) (header : Header) : Option Declared :=
  match t.globals.lookup header.name with
  | some (.proc index) => t.declareAgain? index header
  | some (.var index) => do
    let first ← t.table.vars[index]?
    return ⟨.reject none, t, [.redeclared header.pos first.declared header.name]⟩
  | none => t.declareFirst? header

def declare? (t : Indexed) (header : Header) : Option Declared := do
  let (settled, problems) := header.settle
  let declared ← t.declareSettled? settled
  return { declared with problems := problems ++ declared.problems }

/-- Open a scope for the body of a rejected header. -/
def declareDiscarded? (t : Indexed) (header : Header) :
    Option (Except Diagnostic (Nat × Indexed × List Diagnostic)) :=
  match (Pool.empty .scratch).intern header.name with
  | .error error => some (.error (refused header.pos error))
  | .ok (handle, namelist) => do
    let number := ScopeId.number (.discarded t.table.discarded.length)
    let opened := t.table.disowned header handle namelist
    let (t, problems) ← { t with table := opened }.setParams? number header.params
    return .ok (number, t, problems)

theorem scope?_ne_none_of_shells {t u : SymbolTable} (h : t.SameShells u) {scope : ScopeId}
    (hscope : t.scope? scope ≠ none) : u.scope? scope ≠ none := by
  obtain ⟨p, hp⟩ := Option.ne_none_iff_exists'.mp hscope
  obtain ⟨q, hq, -⟩ := h.exists_of_some hp
  exact Option.ne_none_iff_exists'.mpr ⟨q, hq⟩

theorem addParam?_eq (t : Indexed) {number : Nat}
    (hscope : t.table.scope? (ScopeId.ofNumber number) ≠ none) (problems : List Diagnostic)
    (param : Param) :
    addParam? number (t, problems) param =
      let added := addParam (ScopeId.ofNumber number) (t.table, problems) param
      some ({ t with table := added.1 }, added.2) := by
  unfold addParam? addParam
  simp only [t.declareLocal?_eq hscope, Option.bind_eq_bind, Option.bind_some]
  cases t.table.declareLocal (ScopeId.ofNumber number) param.name param.pos <;> rfl

theorem foldlM_addParam?_eq (t : Indexed) {number : Nat}
    (hscope : t.table.scope? (ScopeId.ofNumber number) ≠ none) (problems : List Diagnostic)
    (params : List Param) :
    params.foldlM (addParam? number) (t, problems) =
      let added := params.foldl (addParam (ScopeId.ofNumber number)) (t.table, problems)
      some ({ t with table := added.1 }, added.2) := by
  induction params generalizing t problems with
  | nil => rfl
  | cons param params ih =>
      have hshells : t.table.SameShells
          (addParam (ScopeId.ofNumber number) (t.table, problems) param).1 := by
        obtain heq | ⟨symbol, v, hv, heq⟩ :=
          @addParam_cases t.table (ScopeId.ofNumber number) problems param
        · rw [heq]
          exact .refl _
        · rw [heq]
          exact (SameShells.declareLocal hv).trans (.modifyVariable _ _)
      rw [List.foldlM_cons, addParam?_eq t hscope, List.foldl_cons]
      exact ih _ (scope?_ne_none_of_shells hshells hscope) _

theorem setParams?_eq (t : Indexed) {number : Nat}
    (hscope : t.table.scope? (ScopeId.ofNumber number) ≠ none) (params : List Param) :
    t.setParams? number params =
      let set := t.table.setParams (ScopeId.ofNumber number) params
      some ({ t with table := set.1 }, set.2) := by
  unfold setParams? setParams
  simp only [t.foldlM_addParam?_eq hscope, Option.bind_eq_bind, Option.bind_some]
  rfl

/-- The map when a settled header was merged. -/
def merged (t : Indexed) (header : Header) : List (String × GlobalName) :=
  if (t.table.declareSettled header).table.procs.length = t.table.procs.length then t.globals
  else (header.name, .proc t.table.procs.length) :: t.globals

theorem declareAgain?_eq (t : Indexed) {index : Nat} {procedure : Procedure}
    (hp : t.table.procs[index]? = some procedure) (hindex : index < ScopeId.discardedBase)
    (header : Header) :
    t.declareAgain? index header =
      let declared := t.table.declareAgain index procedure header
      some ⟨declared.verdict, { t with table := declared.table }, declared.problems⟩ := by
  have hnumber := ScopeId.ofNumber_of_lt hindex
  unfold declareAgain? declareAgain
  simp only [hp, Option.bind_eq_bind, Option.bind_some]
  by_cases hdefined : (header.hasBody && procedure.defined) = true
  · simp only [if_pos hdefined]
    rfl
  · simp only [if_neg hdefined]
    by_cases hbody : header.hasBody = true
    · have hscope : ∀ trigger modifiers,
          ({ t with table := t.table.cleared index trigger modifiers } : Indexed).table.scope?
            (ScopeId.ofNumber index) ≠ none := by
        intro trigger modifiers
        show (t.table.cleared index trigger modifiers).scope? (ScopeId.ofNumber index) ≠ none
        unfold cleared
        rw [hnumber, scope?_modifyScope_self]
        simp [scope?, hp]
      simp only [if_pos hbody, setParams?_eq _ (hscope _ _), Option.bind_some, hnumber]
      rfl
    · simp only [if_neg hbody]
      rfl

theorem declareFirst?_eq (t : Indexed) {header : Header}
    (hnone : t.table.lookupGlobal header.name = none)
    (hroom : (t.table.declareFirst header).table.procs.length ≤ ScopeId.discardedBase) :
    t.declareFirst? header = some ⟨(t.table.declareFirst header).verdict,
      ⟨(t.table.declareFirst header).table, t.merged header⟩,
      (t.table.declareFirst header).problems⟩ := by
  have hfirst : t.table.declareSettled header = t.table.declareFirst header := by
    unfold declareSettled
    rw [hnone]
  unfold merged
  rw [hfirst]
  unfold declareFirst?
  cases hi : t.table.strings.intern header.name with
  | error error => simp [declareFirst, hi]
  | ok found =>
      obtain ⟨handle, strings⟩ := found
      rw [declareFirst_of_ok hi] at hroom ⊢
      have hlength : ∀ scope params,
          ((t.table.opened header handle strings header.modifiers).setParams scope
            params).1.procs.length = t.table.procs.length + 1 := by
        intro scope params
        rw [setParams_shells.procs_length]
        simp [opened]
      have hindex : t.table.procs.length < ScopeId.discardedBase := by
        rw [hlength] at hroom
        exact hroom
      have hnumber := ScopeId.ofNumber_of_lt hindex
      have hscope : (⟨t.table.opened header handle strings header.modifiers,
          (header.name, .proc t.table.procs.length) :: t.globals⟩
            : Indexed).table.scope? (ScopeId.ofNumber t.table.procs.length) ≠ none := by
        rw [hnumber]
        simp [scope?, opened]
      simp only [saturate_of_le (ScopeId.le_maxWord hindex), setParams?_eq _ hscope, hnumber,
        hlength]
      simp

/-- A procedure that has the name of a header, or a variable, is found at its index. -/
theorem declareSettled?_eq (h : t.Faithful) (header : Header)
    (hroom : (t.table.declareSettled header).table.procs.length ≤ ScopeId.discardedBase)
    (hprocs : t.table.procs.length ≤ ScopeId.discardedBase) :
    t.declareSettled? header = some ⟨(t.table.declareSettled header).verdict,
      ⟨(t.table.declareSettled header).table, t.merged header⟩,
      (t.table.declareSettled header).problems⟩ := by
  unfold declareSettled?
  cases hl : t.globals.lookup header.name with
  | none =>
      have hnone : t.table.lookupGlobal header.name = none := by
        rw [← h.maps, hl]
        rfl
      have hfirst : t.table.declareSettled header = t.table.declareFirst header := by
        unfold declareSettled
        rw [hnone]
      rw [hfirst] at hroom ⊢
      exact t.declareFirst?_eq hnone hroom
  | some existing =>
      obtain ⟨first, hfirst, hsite, hfound⟩ := site?_eq h hl
      unfold merged
      cases existing with
      | var index =>
          have hrejected : t.table.declareSettled header =
              ⟨.reject none, t.table, [.redeclared header.pos first header.name]⟩ := by
            unfold declareSettled
            simp only [hfound, GlobalName.symbol] at hsite ⊢
            rw [hsite]
            rfl
          obtain ⟨v, hv, rfl⟩ := Option.map_eq_some_iff.mp hfirst
          rw [hrejected]
          simp [hv]
      | proc index =>
          obtain ⟨p, hp, -⟩ := Option.map_eq_some_iff.mp hfirst
          have hlt := (List.getElem?_eq_some_iff.mp hp).1
          have hagain : t.table.declareSettled header = t.table.declareAgain index p header := by
            unfold declareSettled
            simp only [hfound, GlobalName.symbol, hp]
          rw [hagain] at hroom ⊢
          have hlength : (t.table.declareAgain index p header).table.procs.length =
              t.table.procs.length := by
            refine (declareAgain_spec header hp).procs_cases.resolve_right fun hfresh => ?_
            rw [hfound] at hfresh
            cases hfresh.1
          rw [hlength, if_pos rfl]
          exact t.declareAgain?_eq hp (Nat.lt_of_lt_of_le hlt hprocs) header

/-- Every access of a header is in range. -/
theorem declare?_eq (h : t.Faithful) (header : Header)
    (hroom : (t.table.declare header).table.procs.length ≤ ScopeId.discardedBase)
    (hprocs : t.table.procs.length ≤ ScopeId.discardedBase) :
    t.declare? header = some ⟨(t.table.declare header).verdict,
      ⟨(t.table.declare header).table, t.merged header.settle.1⟩,
      (t.table.declare header).problems⟩ := by
  unfold declare?
  simp only [declareSettled?_eq h header.settle.1 hroom hprocs, Option.bind_eq_bind,
    Option.bind_some]
  rfl

theorem Faithful.declare (h : t.Faithful) (header : Header) :
    Faithful ⟨(t.table.declare header).table, t.merged header.settle.1⟩ := by
  have hkept := h.kept.declare header
  have hspec := declareSettled_spec t.table header.settle.1
  have hgrows := hspec.extends
  have htable : (t.table.declare header).table =
      (t.table.declareSettled header.settle.1).table := rfl
  rw [htable] at hkept ⊢
  unfold merged
  split
  · rename_i hsame
    exact h.grown hkept hgrows (congrArg List.length hspec.vars) hsame
  · rename_i hdiffers
    obtain ⟨-, hlength, hnamed⟩ := hspec.procs_cases.resolve_left hdiffers
    refine h.added hkept hgrows (.proc t.table.procs.length) (binds_of_declareSettled hnamed) ?_
    rintro symbol (⟨i, rfl, hge, hlt⟩ | ⟨i, rfl, hge, hlt⟩)
    · exact absurd hlt (Nat.not_lt.mpr (hspec.vars ▸ hge))
    · have hlast : i = t.table.procs.length := by omega
      exact congrArg Symbol.proc hlast

/-- Every access of a rejected header is in range. -/
theorem declareDiscarded?_eq (t : Indexed) (header : Header)
    (hroom : ∀ found, t.table.declareDiscarded header = .ok found →
      t.table.discarded.length < ScopeId.discardedBase) :
    t.declareDiscarded? header =
      some ((t.table.declareDiscarded header).map fun (scope, u, problems) =>
        (scope.number, { t with table := u }, problems)) := by
  unfold declareDiscarded? SymbolTable.declareDiscarded at *
  cases hi : (Pool.empty .scratch).intern header.name with
  | error error => rfl
  | ok found =>
      obtain ⟨handle, namelist⟩ := found
      rw [hi] at hroom
      have hnumber := ScopeId.ofNumber_discarded (hroom _ rfl)
      have hscope : ({ t with table := t.table.disowned header handle namelist }
          : Indexed).table.scope? (ScopeId.ofNumber
            (ScopeId.number (.discarded t.table.discarded.length))) ≠ none := by
        rw [hnumber]
        simp [scope?, disowned]
      simp only [setParams?_eq _ hscope, hnumber, Option.bind_eq_bind, Option.bind_some]
      rfl

theorem Faithful.declareDiscarded (h : t.Faithful) {header : Header} {scope : ScopeId}
    {problems : List Diagnostic}
    (hd : t.table.declareDiscarded header = .ok (scope, u, problems)) :
    Faithful { t with table := u } := by
  have hkept := h.kept.declareDiscarded hd
  obtain ⟨hgrows, -⟩ := declareDiscarded_grows hd
  have houtside := declareDiscarded_outside hd
  obtain ⟨handle, namelist, rfl, rfl⟩ := declareDiscarded_spec hd
  exact h.grown hkept hgrows (congrArg List.length houtside.1) setParams_shells.procs_length

end Indexed

end SymbolTable

end SslFrontend
