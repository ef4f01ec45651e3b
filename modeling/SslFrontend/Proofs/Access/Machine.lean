import SslFrontend.Proofs.Access.Cursor
import SslFrontend.Proofs.Access.Table
import SslFrontend.Proofs.Journal.Run

/-! # The parser on indices

What the parser does to its state at a time is an `Action`; its effect on the state is
told with the parser's own look-ups and declarations.  A `Machine` has the same state
with indices in it: all tokens with a position, maps from names to indices, numbers for
scopes.  It does the same things and answers none where an index is out of range, or
where the numbers of mentions are used up.

Main statements: as long as there are numbers for what is mentioned and for every scope,
the machine does whatever the parser may do (`Machine.Shows.run`), and what the parser
does to read a stream is such a run (`TokenStream.draft_after`).
-/

namespace SslFrontend

/-! ## Pending names -/

namespace Pending

/-- Pending names with a map from a name and the number of its scope to its place.
The last name is the first one in the map. -/
structure Indexed where
  pending : Pending
  places : List ((String × Option Nat) × Nat)

namespace Indexed

def empty : Indexed := ⟨.empty, []⟩

/-- Add a mention; the result is the place of its name. -/
def mention? (p : Indexed) (name : String) (context : Option Nat) (number : Nat)
    (pos : Position) : Option (Nat × Indexed) := do
  let (place, p) : Nat × Indexed :=
    match p.places.lookup (name, context) with
    | some place => (place, p)
    | none =>
      let place := saturate p.pending.names.length
      (place, ⟨⟨p.pending.names ++ [⟨name, context.map ScopeId.ofNumber, []⟩]⟩,
        ((name, context), place) :: p.places⟩)
  let pendingName ← p.pending.names[place]?
  return (place, { p with pending := ⟨p.pending.names.set place (addSite number pos pendingName)⟩ })

/-- The map has what a search finds. -/
def Faithful (p : Indexed) : Prop :=
  ∀ name context, p.places.lookup (name, context) =
    p.pending.names.findIdx? (matchesKey name (context.map ScopeId.ofNumber))

theorem Faithful.empty : Indexed.empty.Faithful := fun _ _ => rfl

theorem findIdx?_addSite (names : List PendingName) (place number : Nat) (pos : Position)
    (name : String) (context : Option ScopeId) :
    (names.modify place (addSite number pos)).findIdx? (matchesKey name context) =
      names.findIdx? (matchesKey name context) := by
  have hkey : matchesKey name context =
      (fun key : String × Option ScopeId => key.1 == name && key.2 == context) ∘
        fun p : PendingName => (p.name, p.context) := rfl
  have hsame : (names.modify place (addSite number pos)).map (fun p => (p.name, p.context)) =
      names.map fun p => (p.name, p.context) := SymbolTable.map_modify fun _ _ => rfl
  rw [hkey, ← List.findIdx?_map, ← List.findIdx?_map, hsame]

/-- Numbers tell scopes apart, so they tell keys apart. -/
theorem matchesKey_numbers (name other : String) (context context' : Option Nat)
    (sites : List (Nat × Position)) :
    matchesKey other (context'.map ScopeId.ofNumber) ⟨name, context.map ScopeId.ofNumber, sites⟩ =
      ((other, context') == (name, context)) := by
  have hinj : Function.Injective (Option.map ScopeId.ofNumber) :=
    Option.map_injective fun _ _ => ScopeId.ofNumber_inj
  rw [Bool.eq_iff_iff]
  simp only [matchesKey, Bool.and_eq_true, beq_iff_eq, Prod.mk.injEq, hinj.eq_iff]
  exact and_congr eq_comm eq_comm

/-- The place of a name is found in the list. -/
theorem mention?_eq {p : Indexed} (h : p.Faithful) (hroom : p.pending.names.length ≤ maxWord)
    (name : String) (context : Option Nat) (number : Nat) (pos : Position) :
    let noted := p.pending.mention name (context.map ScopeId.ofNumber) number pos
    ∃ places, p.mention? name context number pos = some (noted.1, ⟨noted.2, places⟩) ∧
      Faithful ⟨noted.2, places⟩ := by
  intro noted
  have hnoted : noted = p.pending.mention name (context.map ScopeId.ofNumber) number pos := rfl
  unfold mention at hnoted
  unfold mention?
  have hlookup := h name context
  cases hl : p.places.lookup (name, context) with
  | some place =>
      rw [hl] at hlookup
      rw [← hlookup] at hnoted
      obtain ⟨hlt, -⟩ := List.findIdx?_eq_some_iff_getElem.mp hlookup.symm
      refine ⟨p.places, ?_, fun other context' => ?_⟩
      · rw [hnoted]
        simp [List.getElem?_eq_getElem hlt, List.modify_eq_set_getElem?]
      · rw [hnoted]
        exact (h other context').trans (findIdx?_addSite _ _ _ _ _ _).symm
  | none =>
      rw [hl] at hlookup
      rw [← hlookup] at hnoted
      refine ⟨((name, context), p.pending.names.length) :: p.places, ?_, fun other context' => ?_⟩
      · rw [hnoted]
        simp [saturate_of_le hroom, addSite]
      · rw [hnoted, List.lookup_cons, List.findIdx?_append, List.findIdx?_singleton,
          matchesKey_numbers, ← h other context']
        by_cases hkey : (other, context') = (name, context)
        · rw [hkey, hl]
          simp
        · simp [beq_eq_false_iff_ne.mpr hkey]

end Indexed

end Pending

/-! ## What is done at a time -/

/-- Take the next number; none if it is the last one that is a word. -/
def Ledger.reserve? (ledger : Ledger) : Option (Nat × Ledger) :=
  if ledger.next < maxWord then some ledger.reserve else none

/-- What the parser reads and writes, with indices and maps. -/
structure Machine where
  cursor : Cursor.Indexed
  table : SymbolTable.Indexed
  ledger : Ledger
  pending : Pending.Indexed
  problems : Queue
  /-- The number of the scope whose body is read. -/
  current : Option Nat

/-- What the parser does to its state at a time. -/
inductive Action where
  | read (count : Nat)
  | report (ds : List Diagnostic)
  | intern (text : String)
  /-- Change the length or the value of a variable. -/
  | adjust (symbol : Symbol) (f : Variable → Variable) (h : ∀ v, (f v).label = v.label)
  /-- Take a number for a name. -/
  | reserve
  | mention (name : String) (pos : Position)
  | declare (kind : VarScope) (name : String) (pos : Position)
  /-- Enter a declaration under a number. -/
  | record (number : Nat) (symbol : Symbol) (pos : Position)
  /-- Merge a header whose name has a number. -/
  | merge (header : Header) (number : Nat)
  /-- Open a scope for the body of a rejected header. -/
  | discard (header : Header)
  /-- End a body. -/
  | attach (code : Code) (first last : Position)

/-- The state of the parser and the scope whose body it reads. -/
structure Standing where
  state : ParserState
  scope : Option ScopeId

namespace Action

/-- Enter the declaration that a header is. -/
def recordHeader (ledger : Ledger) (header : Header) (number : Nat) (verdict : Verdict) : Ledger :=
  match verdict.named? with
  | some index => ledger.recordAt number (.proc index) header.pos .declaration
  | none => ledger

/-- The procedure whose body comes next. -/
def defined? : Verdict → Option Nat
  | .define index => some index
  | _ => none

/-- What the action does. -/
def effect (x : Standing) : Action → Standing
  | read count => { x with state.cursor := Cursor.advance^[count] x.state.cursor }
  | report ds => { x with state.problems := ⟨x.state.problems.items ++ ds⟩ }
  | intern text =>
    match x.state.table.strings.intern text with
    | .ok (_, strings) => { x with state.table.strings := strings }
    | .error _ => x
  | adjust symbol f _ => { x with state.table := x.state.table.modifyVariable symbol f }
  | reserve => { x with state.ledger := x.state.ledger.reserve.2 }
  | mention name pos => { x with state := (x.state.mentioned x.scope name pos).2 }
  | declare kind name pos =>
    match x.state.table.declareIn x.scope kind name pos with
    | .ok (symbol, table) =>
      { x with
        state.table := table
        state.ledger := x.state.ledger.record symbol pos .declaration }
    | .error problem => { x with state.problems := x.state.problems.push problem }
  | record number symbol pos =>
    { x with state.ledger := x.state.ledger.recordAt number symbol pos .declaration }
  | merge header number =>
    let declared := x.state.table.declare header
    ⟨{ x.state with
        table := declared.table
        problems := ⟨x.state.problems.items ++ declared.problems⟩
        ledger := recordHeader x.state.ledger header number declared.verdict },
      (defined? declared.verdict).map .proc⟩
  | discard header =>
    match x.state.table.declareDiscarded header with
    | .ok (scope, table, problems) =>
      ⟨{ x.state with table := table, problems := ⟨x.state.problems.items ++ problems⟩ },
        some scope⟩
    | .error problem => { x with state.problems := x.state.problems.push problem }
  | attach code first last =>
    match x.scope with
    | some scope =>
      ⟨{ x.state with table := x.state.table.modifyScope scope (·.withBody code first last) }, none⟩
    | none => x

theorem effect_declare {x : Standing} {kind : VarScope} {name : String} {pos : Position}
    {symbol : Symbol} {table : SymbolTable}
    (h : x.state.table.declareIn x.scope kind name pos = .ok (symbol, table)) :
    effect x (.declare kind name pos) =
      { x with
        state.table := table
        state.ledger := x.state.ledger.record symbol pos .declaration } := by
  simp only [effect, h]

end Action

namespace Machine

def start (stream : TokenStream) : Machine :=
  ⟨.start stream.tokens stream.eof, .empty, .empty, .empty, stream.problems, none⟩

/-- What a name is in the scope whose body is read, or in the unit. -/
def lookup? (m : Machine) (name : String) : Option Symbol :=
  (m.current.bind fun number => m.table.table.lookupLocal (ScopeId.ofNumber number) name).or
    ((m.table.globals.lookup name).map SymbolTable.GlobalName.symbol)

/-- Mention a name, bound or pending. -/
def mention? (m : Machine) (name : String) (pos : Position) : Option Machine := do
  let (number, ledger) ← m.ledger.reserve?
  match m.lookup? name with
  | some symbol => return { m with ledger := ledger.recordAt number symbol pos .use }
  | none => do
    let (_, pending) ← m.pending.mention? name m.current number pos
    return { m with ledger := ledger, pending := pending }

/-- Declare a name, or report what keeps it from that. -/
def declare? (m : Machine) (kind : VarScope) (name : String) (pos : Position) : Option Machine := do
  match ← m.table.declareIn? m.current kind name pos with
  | .ok (symbol, table) => do
    let (number, ledger) ← m.ledger.reserve?
    return { m with table := table, ledger := ledger.recordAt number symbol pos .declaration }
  | .error problem => return { m with problems := m.problems.push problem }

def merge? (m : Machine) (header : Header) (number : Nat) : Option Machine := do
  let declared ← m.table.declare? header
  return { m with
    table := declared.table
    problems := ⟨m.problems.items ++ declared.problems⟩
    ledger := Action.recordHeader m.ledger header number declared.verdict
    current := Action.defined? declared.verdict }

def discard? (m : Machine) (header : Header) : Option Machine := do
  match ← m.table.declareDiscarded? header with
  | .ok (number, table, problems) =>
    return { m with
      table := table
      problems := ⟨m.problems.items ++ problems⟩
      current := some number }
  | .error problem => return { m with problems := m.problems.push problem }

def attach (m : Machine) (code : Code) (first last : Position) : Machine :=
  match m.current with
  | some number =>
    { m with
      table.table := m.table.table.modifyScope (ScopeId.ofNumber number)
        (·.withBody code first last)
      current := none }
  | none => m

/-- Do something; none if an index is out of range or there is no number left. -/
def perform? (m : Machine) : Action → Option Machine
  | .read count => do return { m with cursor := ← m.cursor.read? count }
  | .report ds => some { m with problems := ⟨m.problems.items ++ ds⟩ }
  | .intern text =>
    match m.table.table.strings.intern text with
    | .ok (_, strings) => some { m with table.table := { m.table.table with strings := strings } }
    | .error _ => some m
  | .adjust symbol f _ => some { m with table.table := m.table.table.modifyVariable symbol f }
  | .reserve => do return { m with ledger := (← m.ledger.reserve?).2 }
  | .mention name pos => m.mention? name pos
  | .declare kind name pos => m.declare? kind name pos
  | .record number symbol pos =>
    some { m with ledger := m.ledger.recordAt number symbol pos .declaration }
  | .merge header number => m.merge? header number
  | .discard header => m.discard? header
  | .attach code first last => some (m.attach code first last)

/-- Do one thing after the other. -/
def run? (m : Machine) (actions : List Action) : Option Machine := actions.foldlM perform? m

/-- The machine is in the parser's state. -/
structure Shows (m : Machine) (x : Standing) : Prop where
  cursor : m.cursor.Shows x.state.cursor
  table : m.table.table = x.state.table
  ledger : m.ledger = x.state.ledger
  pending : m.pending.pending = x.state.pending
  problems : m.problems = x.state.problems
  scope : x.scope = m.current.map ScopeId.ofNumber
  faithful : m.table.Faithful
  places : m.pending.Faithful
  /-- The scope whose body is read is there. -/
  there : ∀ scope, x.scope = some scope → x.state.table.scope? scope ≠ none
  /-- Every variable of the unit and every pending name took a number. -/
  vars : x.state.table.vars.length ≤ x.state.ledger.next
  names : x.state.pending.names.length ≤ x.state.ledger.next

end Machine

/-- All numbers, and all indices of procedures, are numbers that there are. -/
structure Standing.Fits (x : Standing) : Prop where
  next : x.state.ledger.next ≤ maxWord
  procs : x.state.table.procs.length ≤ ScopeId.discardedBase
  discarded : x.state.table.discarded.length ≤ ScopeId.discardedBase

namespace Standing

/-- Numbers are taken, and no scope goes away. -/
structure Grows (x y : Standing) : Prop where
  next : x.state.ledger.next ≤ y.state.ledger.next
  scopes : ∀ scope, x.state.table.scope? scope ≠ none → y.state.table.scope? scope ≠ none

variable {x y z : Standing}

theorem Grows.trans (h₁ : x.Grows y) (h₂ : y.Grows z) : x.Grows z :=
  ⟨Nat.le_trans h₁.next h₂.next, fun scope hx => h₂.scopes scope (h₁.scopes scope hx)⟩

/-- What fits later on has always fit. -/
theorem Fits.of_grows (h : y.Fits) (hg : x.Grows y) : x.Fits where
  next := Nat.le_trans hg.next h.next
  procs := by
    by_contra hmore
    have hthere := hg.scopes (.proc ScopeId.discardedBase) (by simp [SymbolTable.scope?]; omega)
    simp only [SymbolTable.scope?, ne_eq, List.getElem?_eq_none_iff, Nat.not_le] at hthere
    exact Nat.lt_irrefl _ (Nat.lt_of_lt_of_le hthere h.procs)
  discarded := by
    by_contra hmore
    have hthere := hg.scopes (.discarded ScopeId.discardedBase)
      (by simp [SymbolTable.scope?]; omega)
    simp only [SymbolTable.scope?, ne_eq, List.getElem?_eq_none_iff, Nat.not_le] at hthere
    exact Nat.lt_irrefl _ (Nat.lt_of_lt_of_le hthere h.discarded)

theorem effect_grows (x : Standing) (action : Action) : x.Grows (action.effect x) := by
  have hlater : ∀ {y : Standing}, y.state.ledger.next = x.state.ledger.next →
      (∀ scope, y.state.table.scope? scope = x.state.table.scope? scope) → x.Grows y :=
    fun hnext hscopes => ⟨Nat.le_of_eq hnext.symm, fun scope hx => hscopes scope ▸ hx⟩
  have hshells : ∀ {u : SymbolTable}, x.state.table.SameShells u → ∀ scope,
      x.state.table.scope? scope ≠ none → u.scope? scope ≠ none :=
    fun h _ hx => SymbolTable.Indexed.scope?_ne_none_of_shells h hx
  cases action with
  | read | report => exact hlater rfl fun _ => rfl
  | record number symbol pos => exact hlater (Ledger.next_recordAt ..) fun _ => rfl
  | reserve => exact ⟨Nat.le_succ _, fun _ => id⟩
  | intern text =>
      simp only [Action.effect]
      split
      · exact hlater rfl fun scope => by cases scope <;> rfl
      · exact hlater rfl fun _ => rfl
  | adjust symbol f h => exact ⟨Nat.le_refl _, hshells (.modifyVariable _ _)⟩
  | mention name pos =>
      refine ⟨?_, fun scope hx => ?_⟩
      · simp only [Action.effect, ParserState.mentioned_next]
        exact Nat.le_succ _
      · simp only [Action.effect, ParserState.mentioned_table]
        exact hx
  | declare kind name pos =>
      simp only [Action.effect]
      split
      · rename_i symbol table hd
        exact ⟨(Ledger.next_record ..) ▸ Nat.le_succ _, hshells (.declareIn hd)⟩
      · exact hlater rfl fun _ => rfl
  | merge header number =>
      refine ⟨?_, fun scope hx => (SymbolTable.declare_spec _ header).keeps_scope hx⟩
      simp only [Action.effect, Action.recordHeader]
      split
      · rw [Ledger.next_recordAt]
      · exact Nat.le_refl _
  | discard header =>
      simp only [Action.effect]
      split
      · rename_i scope table problems hd
        refine ⟨Nat.le_refl _, fun sc hx => ?_⟩
        obtain ⟨p, hp⟩ := Option.ne_none_iff_exists'.mp hx
        exact Option.ne_none_iff_exists'.mpr
          ⟨p, (SymbolTable.declareDiscarded_outside hd).2 sc p hp⟩
      · exact hlater rfl fun _ => rfl
  | attach code first last =>
      simp only [Action.effect]
      split
      · exact ⟨Nat.le_refl _, fun scope hx => SymbolTable.keeps_scope_modifyScope hx⟩
      · exact hlater rfl fun _ => rfl

end Standing

namespace Machine.Shows

variable {m : Machine} {x : Standing}

theorem start (stream : TokenStream) : (Machine.start stream).Shows ⟨.start stream, none⟩ where
  cursor := .start stream.tokens stream.eof
  table := rfl
  ledger := rfl
  pending := rfl
  problems := rfl
  scope := rfl
  faithful := .empty
  places := .empty
  there := nofun
  vars := Nat.le_refl _
  names := Nat.le_refl _

/-- What the table is changed to, in the scope whose body is read. -/
theorem changed (h : m.Shows x) {u : SymbolTable} (hu : u.Kept) (hg : x.state.table.Grows u)
    (hvars : u.vars.length = x.state.table.vars.length)
    (hprocs : u.procs.length = x.state.table.procs.length)
    (hthere : ∀ scope, x.state.table.scope? scope ≠ none → u.scope? scope ≠ none) :
    Shows { m with table.table := u } { x with state.table := u } := by
  have hsame := h.table
  exact { h with
    table := rfl
    faithful := h.faithful.grown hu (hsame ▸ hg) (hsame ▸ hvars) (hsame ▸ hprocs)
    there := fun scope hs => hthere scope (h.there scope hs)
    vars := Nat.le_trans (Nat.le_of_eq hvars) h.vars }

theorem kept (h : m.Shows x) : x.state.table.Kept := h.table ▸ h.faithful.kept

/-- Outside of all bodies. -/
theorem outside (h : m.Shows x) : Shows { m with current := none } ⟨x.state, none⟩ :=
  { h with scope := rfl, there := nofun }

theorem read (h : m.Shows x) (count : Nat) : ∃ m', m.perform? (.read count) = some m' ∧
    m'.Shows (Action.effect x (.read count)) := by
  obtain ⟨c, hc, hshows⟩ := h.cursor.read? count
  refine ⟨{ m with cursor := c }, ?_, { h with cursor := hshows }⟩
  simp only [perform?, hc]
  rfl

theorem intern (h : m.Shows x) (text : String) : ∃ m', m.perform? (.intern text) = some m' ∧
    m'.Shows (Action.effect x (.intern text)) := by
  simp only [perform?, Action.effect, h.table]
  cases hi : x.state.table.strings.intern text with
  | error error => exact ⟨m, rfl, h⟩
  | ok found =>
      obtain ⟨handle, strings⟩ := found
      have hgrows := (Pool.intern_spec hi).1
      refine ⟨_, rfl, h.changed (h.kept.grown hgrows)
        (SymbolTable.extends_strings hgrows) rfl rfl ?_⟩
      exact fun scope hs => by cases scope <;> exact hs

theorem adjust (h : m.Shows x) (symbol : Symbol) {f : Variable → Variable}
    (hf : ∀ v, (f v).label = v.label) : ∃ m', m.perform? (.adjust symbol f hf) = some m' ∧
      m'.Shows (Action.effect x (.adjust symbol f hf)) := by
  have hname : ∀ v, (f v).name = v.name := fun v => congrArg Prod.fst (hf v)
  have hshells : x.state.table.SameShells (x.state.table.modifyVariable symbol f) :=
    .modifyVariable _ _
  have hvars : (x.state.table.modifyVariable symbol f).vars.length =
      x.state.table.vars.length := by
    cases symbol <;> simp [SymbolTable.modifyVariable]
  simp only [perform?, Action.effect, h.table]
  exact ⟨_, rfl, h.changed (h.kept.adjust symbol hname)
    (SymbolTable.extends_modifyVariable hf) hvars hshells.procs_length
    fun _ => SymbolTable.Indexed.scope?_ne_none_of_shells hshells⟩

theorem attach (h : m.Shows x) (code : Code) (first last : Position) :
    ∃ m', m.perform? (.attach code first last) = some m' ∧
      m'.Shows (Action.effect x (.attach code first last)) := by
  have hscope := h.scope
  simp only [perform?, Machine.attach, Action.effect, h.table]
  cases hcurrent : m.current with
  | none =>
      rw [hcurrent] at hscope
      rw [hscope]
      exact ⟨m, rfl, h⟩
  | some number =>
      rw [hcurrent] at hscope
      rw [hscope]
      have hkept : (x.state.table.modifyScope (ScopeId.ofNumber number)
          (·.withBody code first last)).Kept :=
        h.kept.modifyScope (fun _ => rfl) fun _ _ hp => hp.congr rfl rfl hp.args
      have hgrows := x.state.table.withBody_grows (ScopeId.ofNumber number) code first last
      refine ⟨_, rfl, (h.changed hkept hgrows ?_ ?_ ?_).outside⟩
      · exact congrArg List.length (SymbolTable.vars_modifyScope ..)
      · exact SymbolTable.procs_length_modifyScope ..
      · exact fun _ => SymbolTable.keeps_scope_modifyScope

theorem reserve? (h : m.Shows x) (hroom : x.state.ledger.next < maxWord) :
    m.ledger.reserve? = some (x.state.ledger.next, x.state.ledger.reserve.2) := by
  unfold Ledger.reserve?
  rw [h.ledger, if_pos hroom]
  rfl

theorem reserve (h : m.Shows x) (hfits : (Action.effect x .reserve).Fits) :
    ∃ m', m.perform? .reserve = some m' ∧ m'.Shows (Action.effect x .reserve) := by
  refine ⟨{ m with ledger := x.state.ledger.reserve.2 }, ?_, ?_⟩
  · simp only [perform?, h.reserve? hfits.next]
    rfl
  · exact { h with
      ledger := rfl
      vars := Nat.le_succ_of_le h.vars
      names := Nat.le_succ_of_le h.names }

theorem lookup?_eq (h : m.Shows x) (name : String) :
    m.lookup? name = x.state.table.lookupDeclared x.scope name := by
  unfold Machine.lookup? SymbolTable.lookupDeclared
  rw [h.faithful.maps, h.scope, h.table]
  cases m.current <;> rfl

theorem mention (h : m.Shows x) (name : String) (pos : Position)
    (hfits : (Action.effect x (.mention name pos)).Fits) :
    ∃ m', m.perform? (.mention name pos) = some m' ∧
      m'.Shows (Action.effect x (.mention name pos)) := by
  have hroom : x.state.ledger.next < maxWord := by
    have hnext := hfits.next
    simp only [Action.effect, ParserState.mentioned_next] at hnext
    exact hnext
  have hvars := Nat.le_succ_of_le h.vars
  simp only [perform?, Machine.mention?, Action.effect, h.reserve? hroom, h.lookup?_eq,
    Option.bind_eq_bind, Option.bind_some]
  cases hl : x.state.table.lookupDeclared x.scope name with
  | some symbol =>
      rw [ParserState.mentioned_of_some _ hl]
      refine ⟨_, rfl, { h with ledger := rfl, vars := ?_, names := ?_ }⟩
      · simp only [Ledger.next_record]
        exact hvars
      · simp only [Ledger.next_record]
        exact Nat.le_succ_of_le h.names
  | none =>
      rw [ParserState.mentioned_of_none _ hl]
      have hnames : m.pending.pending.names.length ≤ maxWord :=
        h.pending ▸ Nat.le_trans h.names (Nat.le_of_lt hroom)
      obtain ⟨places, hnoted, hplaces⟩ :=
        Pending.Indexed.mention?_eq h.places hnames name m.current x.state.ledger.next pos
      rw [← h.scope, h.pending] at hnoted hplaces
      have hspec := x.state.pending.mention_spec name x.scope x.state.ledger.next pos
      simp only [hnoted, Option.bind_some]
      refine ⟨_, rfl, { h with
        ledger := rfl
        pending := rfl
        places := hplaces
        vars := hvars
        names := ?_ }⟩
      exact Nat.le_trans hspec.length (Nat.succ_le_succ h.names)

theorem declare (h : m.Shows x) (kind : VarScope) (name : String) (pos : Position)
    (hfits : (Action.effect x (.declare kind name pos)).Fits) :
    ∃ m', m.perform? (.declare kind name pos) = some m' ∧
      m'.Shows (Action.effect x (.declare kind name pos)) := by
  have hnext := (hfits.of_grows (x.effect_grows _)).next
  have hdeclared := SymbolTable.Indexed.declareIn?_eq h.faithful
    (h.table ▸ Nat.le_trans h.vars hnext) h.scope (h.table ▸ h.there) kind name pos
  simp only [Action.effect] at hfits ⊢
  simp only [perform?, Machine.declare?, hdeclared, h.table, Option.bind_eq_bind, Option.bind_some]
  cases hd : x.state.table.declareIn x.scope kind name pos with
  | error problem => exact ⟨_, rfl, { h with problems := congrArg (·.push problem) h.problems }⟩
  | ok found =>
      obtain ⟨symbol, u⟩ := found
      have hroom : x.state.ledger.next < maxWord := by
        have hlater := hfits.next
        simp only [hd, Ledger.next_record] at hlater
        exact hlater
      have hshells : x.state.table.SameShells u := .declareIn hd
      have hvars : u.vars.length ≤ x.state.table.vars.length + 1 :=
        SymbolTable.Indexed.length_vars_of_declareIn hd
      simp only [Except.map, h.reserve? hroom, Option.bind_some]
      refine ⟨_, rfl, { h with
        table := rfl
        ledger := rfl
        faithful := h.faithful.declareIn (h.table ▸ hd)
        there := fun scope hs =>
          SymbolTable.Indexed.scope?_ne_none_of_shells hshells (h.there scope hs)
        vars := ?_
        names := ?_ }⟩
      · simp only [Ledger.next_record]
        exact Nat.le_trans hvars (Nat.succ_le_succ h.vars)
      · simp only [Ledger.next_record]
        exact Nat.le_succ_of_le h.names

theorem merge (h : m.Shows x) (header : Header) (number : Nat)
    (hfits : (Action.effect x (.merge header number)).Fits) :
    ∃ m', m.perform? (.merge header number) = some m' ∧
      m'.Shows (Action.effect x (.merge header number)) := by
  have hprocs := (hfits.of_grows (x.effect_grows _)).procs
  have hmerged := SymbolTable.Indexed.declare?_eq h.faithful header
    (h.table ▸ hfits.procs) (h.table ▸ hprocs)
  have hspec := SymbolTable.declare_spec x.state.table header
  have hopened : ∀ index, Action.defined? (x.state.table.declare header).verdict = some index →
      (x.state.table.declare header).table.scope? (.proc index) ≠ none := by
    intro index hdefined
    have hverdict : (x.state.table.declare header).verdict = .define index := by
      revert hdefined
      cases (x.state.table.declare header).verdict <;> simp [Action.defined?]
    rw [hverdict] at hspec
    exact Option.ne_none_iff_exists'.mpr hspec.exists_of_define
  have hnext : (Action.recordHeader x.state.ledger header number
      (x.state.table.declare header).verdict).next = x.state.ledger.next := by
    unfold Action.recordHeader
    split
    · exact Ledger.next_recordAt ..
    · rfl
  rw [h.table] at hmerged
  simp only [perform?, Machine.merge?, hmerged, Option.bind_eq_bind, Option.bind_some]
  refine ⟨_, rfl, { h with
    table := rfl
    ledger := ?_
    problems := ?_
    scope := ?_
    faithful := h.table ▸ h.faithful.declare header
    there := ?_
    vars := ?_
    names := ?_ }⟩
  · simp only [Action.effect, h.ledger]
  · simp only [Action.effect, h.problems]
  · refine Option.map_congr fun index hdefined => (ScopeId.ofNumber_of_lt ?_).symm
    have hthere := hopened index hdefined
    simp only [SymbolTable.scope?, ne_eq, List.getElem?_eq_none_iff, Nat.not_le] at hthere
    exact Nat.lt_of_lt_of_le hthere hfits.procs
  · intro scope hs
    obtain ⟨index, hdefined, rfl⟩ := Option.map_eq_some_iff.mp hs
    exact hopened index hdefined
  · simp only [Action.effect, hspec.vars, hnext]
    exact h.vars
  · simp only [Action.effect, hnext]
    exact h.names

theorem discard (h : m.Shows x) (header : Header)
    (hfits : (Action.effect x (.discard header)).Fits) :
    ∃ m', m.perform? (.discard header) = some m' ∧
      m'.Shows (Action.effect x (.discard header)) := by
  have hopened : ∀ found, x.state.table.declareDiscarded header = .ok found →
      x.state.table.discarded.length < ScopeId.discardedBase := by
    rintro ⟨scope, u, problems⟩ hd
    simp only [Action.effect, hd] at hfits
    obtain ⟨-, hthere⟩ := SymbolTable.declareDiscarded_exists hd
    obtain ⟨_, _, rfl, -⟩ := SymbolTable.declareDiscarded_spec hd
    have hlt : x.state.table.discarded.length < u.discarded.length := by
      obtain ⟨p, hp⟩ := hthere
      exact (List.getElem?_eq_some_iff.mp hp).1
    exact Nat.lt_of_lt_of_le hlt hfits.discarded
  have hdiscarded := m.table.declareDiscarded?_eq header (h.table ▸ hopened)
  rw [h.table] at hdiscarded
  simp only [perform?, Machine.discard?, Action.effect, hdiscarded, Option.bind_eq_bind,
    Option.bind_some]
  cases hd : x.state.table.declareDiscarded header with
  | error problem => exact ⟨_, rfl, { h with problems := congrArg (·.push problem) h.problems }⟩
  | ok found =>
      obtain ⟨scope, u, problems⟩ := found
      obtain ⟨-, hthere⟩ := SymbolTable.declareDiscarded_exists hd
      have hvars := (SymbolTable.declareDiscarded_outside hd).1
      have hfaithful := h.faithful.declareDiscarded (h.table ▸ hd)
      obtain ⟨_, _, rfl, -⟩ := SymbolTable.declareDiscarded_spec hd
      refine ⟨_, rfl, { h with
        table := rfl
        problems := ?_
        scope := ?_
        faithful := hfaithful
        there := ?_
        vars := ?_ }⟩
      · simp only [h.problems]
      · exact congrArg some (ScopeId.ofNumber_discarded (hopened _ hd)).symm
      · rintro _ ⟨⟩
        exact Option.ne_none_iff_exists'.mpr hthere
      · simp only [hvars]
        exact h.vars

/-- As long as there are numbers, everything is found at its index, whatever is done. -/
theorem perform (h : m.Shows x) (action : Action) (hfits : (action.effect x).Fits) :
    ∃ m', m.perform? action = some m' ∧ m'.Shows (action.effect x) := by
  cases action with
  | read count => exact h.read count
  | report ds => exact ⟨_, rfl, { h with problems := by simp only [Action.effect, h.problems] }⟩
  | intern text => exact h.intern text
  | adjust symbol f hf => exact h.adjust symbol hf
  | reserve => exact h.reserve hfits
  | mention name pos => exact h.mention name pos hfits
  | declare kind name pos => exact h.declare kind name pos hfits
  | record number symbol pos =>
      have hnext : (x.state.ledger.recordAt number symbol pos .declaration).next =
          x.state.ledger.next := Ledger.next_recordAt ..
      refine ⟨_, rfl, { h with ledger := ?_, vars := ?_, names := ?_ }⟩
      · simp only [Action.effect, h.ledger]
      · simp only [Action.effect, hnext]
        exact h.vars
      · simp only [Action.effect, hnext]
        exact h.names
  | merge header number => exact h.merge header number hfits
  | discard header => exact h.discard header hfits
  | attach code first last => exact h.attach code first last

end Machine.Shows

/-! ## Runs

What numbers there are is asked of the state that a run ends in: numbers are only ever
taken, and scopes only ever added, so they sufficed all along.
-/

/-- Where doing one thing after the other leads. -/
def Standing.after (x : Standing) (actions : List Action) : Standing :=
  actions.foldl (fun x action => action.effect x) x

theorem Standing.after_append (x : Standing) (actions more : List Action) :
    x.after (actions ++ more) = (x.after actions).after more :=
  List.foldl_append

theorem Standing.after_grows (x : Standing) (actions : List Action) :
    x.Grows (x.after actions) := by
  induction actions generalizing x with
  | nil => exact ⟨Nat.le_refl _, fun _ => id⟩
  | cons action actions ih => exact (x.effect_grows action).trans (ih _)

/-- As long as there are numbers, a run finds everything at its index. -/
theorem Machine.Shows.run {m : Machine} {x : Standing} (h : m.Shows x) (actions : List Action)
    (hfits : (x.after actions).Fits) :
    ∃ m', m.run? actions = some m' ∧ m'.Shows (x.after actions) := by
  induction actions generalizing m x with
  | nil => exact ⟨m, rfl, h⟩
  | cons action actions ih =>
      have hnext : (action.effect x).Fits := hfits.of_grows (Standing.after_grows _ actions)
      obtain ⟨m₁, hperform, hshows⟩ := h.perform action hnext
      obtain ⟨m', hrun, hall⟩ := ih hshows hfits
      refine ⟨m', ?_, hall⟩
      unfold Machine.run? at hrun ⊢
      rw [List.foldlM_cons, hperform]
      exact hrun

/-! ## The parser -/

namespace Journal

variable {stream : TokenStream} {x y : Journal stream}

def standing (x : Journal stream) : Standing := ⟨x.state, x.scope⟩

/-- A single thing that is done. -/
theorem after_one {action : Action} {z : Standing} (h : action.effect x.standing = z) :
    x.standing.after [action] = z := h

end Journal

/-- Every turn is a run. -/
theorem Turn.actions {stream : TokenStream} {x y : Journal stream}
    (hinner : ∀ token ∈ stream.tokens, token.kind ≠ .eof) (h : Turn x y) :
    ∃ actions, x.standing.after actions = y.standing := by
  cases h with
  | inner h =>
      cases h with
      | move c hc =>
          obtain ⟨taken, hrest, heof, hposition, hlast⟩ := hc
          have hreads : x.cursor.Reads taken c := ⟨hrest, heof, hposition, hlast⟩
          have hread := hreads.iterate fun token ht =>
            hinner token (x.tracked.mem_of_mem_rest (hrest ▸ List.mem_append_left _ ht))
          refine ⟨[.read taken.length], Journal.after_one ?_⟩
          exact congrArg (fun c => (⟨{ x.state with cursor := c }, x.scope⟩ : Standing)) hread
      | report ds => exact ⟨[.report ds], rfl⟩
      | @intern text handle strings hi =>
          refine ⟨[.intern text], Journal.after_one ?_⟩
          have htable : x.standing.state.table.strings.intern text = .ok (handle, strings) := hi
          simp only [Action.effect, htable]
          rfl
      | adjust symbol hf => exact ⟨[.adjust symbol _ hf], rfl⟩
      | hold hk => exact ⟨[.read 1, .reserve], rfl⟩
      | @mention name hk => exact ⟨[.read 1, .mention name x.cursor.pos], rfl⟩
      | @declare name kind symbol table hk hd =>
          refine ⟨[.read 1, .declare kind name x.cursor.pos], ?_⟩
          exact Action.effect_declare (x := Action.effect x.standing (.read 1)) hd
  | @merge header number hx held =>
      refine ⟨[.merge header number], Journal.after_one ?_⟩
      have hscope : (Action.defined? (x.table.declare header).verdict).map ScopeId.proc =
          (x.merge header number).scope := by
        have hmerge : (x.merge header number).scope =
            match (x.table.declare header).verdict with
            | .define index => some (.proc index)
            | _ => none := rfl
        rw [hmerge]
        cases (x.table.declare header).verdict <;> rfl
      simp only [Action.effect, Journal.standing, Journal.merge_state, ← hscope]
      rfl
  | @param scope number name pos symbol hx held found =>
      exact ⟨[.record number symbol pos], rfl⟩
  | @discard header scope table problems hx hd =>
      refine ⟨[.discard header], Journal.after_one ?_⟩
      have htable : x.standing.state.table.declareDiscarded header =
        .ok (scope, table, problems) := hd
      simp only [Action.effect, htable]
      rfl
  | @attach scope code first last hx =>
      refine ⟨[.attach code first last], Journal.after_one ?_⟩
      have hscope : x.standing.scope = some scope := hx
      simp only [Action.effect, hscope]
      rfl

theorem Turns.actions {stream : TokenStream} {x y : Journal stream}
    (hinner : ∀ token ∈ stream.tokens, token.kind ≠ .eof) (h : Turns x y) :
    ∃ actions, x.standing.after actions = y.standing := by
  induction h with
  | refl => exact ⟨[], rfl⟩
  | tail _ hturn ih =>
      obtain ⟨actions, hactions⟩ := ih
      obtain ⟨more, hmore⟩ := hturn.actions hinner
      exact ⟨actions ++ more, by rw [Standing.after_append, hactions, hmore]⟩

/-- The draft of a stream is what a run leaves behind. -/
theorem TokenStream.draft_after {stream : TokenStream}
    (hinner : ∀ token ∈ stream.tokens, token.kind ≠ .eof) : ∃ actions x,
      Standing.after ⟨.start stream, none⟩ actions = x ∧
        stream.draft = ⟨stream.draft.main, x.state.table, x.state.ledger, x.state.pending,
          x.state.problems⟩ := by
  obtain ⟨y, hturns, hleaves⟩ := stream.journaled
  obtain ⟨actions, hactions⟩ := hturns.actions hinner
  obtain ⟨rest, hrest⟩ := hleaves.problems
  refine ⟨actions ++ [.report rest], _, rfl, ?_⟩
  have hstart : (Journal.start stream).standing = ⟨.start stream, none⟩ := rfl
  rw [Standing.after_append, ← hstart, hactions]
  have hend : y.standing.after [.report rest] =
      ⟨{ y.state with problems := ⟨y.state.problems.items ++ rest⟩ }, y.scope⟩ := rfl
  rw [hend, hrest]
  show stream.draft = ⟨stream.draft.main, y.table, y.state.ledger, y.state.pending,
    stream.draft.problems⟩
  rw [← hleaves.table, ← hleaves.ledger, ← hleaves.pending]

end SslFrontend
