import SslFrontend.Proofs.Along.Productions
import SslFrontend.Proofs.Reference.Numbers
import SslFrontend.Proofs.Run.Known
import SslFrontend.Proofs.Run.Statement

/-! # What a journal keeps

Beside the parser's state a journal has every name that took a number, in the
order of the numbers, and every header that was merged into the table, in the
order of the text.  A name takes its number when its token is read.  `InnerTurn`
is what is done at a time inside a scope, and `Turn` adds what is done with the
headers and the bodies of procedures.

Names and headers are only ever added behind those that are there, and whatever
is entered inside a scope is entered under a number that is new.  So a number
that is held stays free until it is used.
-/

namespace SslFrontend

/-! ## The journal of a run -/

section

/-- A name that was read and took a number. -/
structure NameRead where
  /-- The place of its token in the stream. -/
  token : Nat
  name : String
  pos : Position
  /-- The mention that it is, unless it is the name of something declared. -/
  mention? : Option Mentioned

/-- A header that was merged into the table, with the number of its name and what
followed from it. -/
structure Merged where
  header : Header
  number : Nat
  verdict : Verdict

namespace ParserState

theorem mentioned_next (s : ParserState) (scope : Option ScopeId) (name : String)
    (pos : Position) : (s.mentioned scope name pos).2.ledger.next = s.ledger.next + 1 := by
  unfold mentioned
  split
  · exact Ledger.next_record ..
  · rfl

/-- The numbers under which something is entered or waits. -/
def numbers (s : ParserState) : List Nat :=
  s.ledger.entries.map Entry.number ++ s.pending.numbers

end ParserState

structure Journal (stream : TokenStream) where
  /-- The procedure whose body is being read. -/
  scope : Option ScopeId
  /-- The name under each number. -/
  names : List NameRead
  headers : List Merged
  state : ParserState
  tracked : stream.Tracks state.cursor
  numbered : state.ledger.next = names.length

namespace Journal

variable {stream : TokenStream} (x : Journal stream)

instance : HasState (Journal stream) := ⟨Journal.state⟩

abbrev cursor : Cursor := x.state.cursor

abbrev table : SymbolTable := x.state.table

/-- The configuration that a journal is of; it has no log of its own. -/
def config : Config stream := ⟨x.scope, [], x.state, x.tracked⟩

/-- Before the first item. -/
def start (stream : TokenStream) : Journal stream :=
  ⟨none, [], [], .start stream, .start stream, rfl⟩

def move (c : Cursor) (h : x.cursor.Follows c) : Journal stream :=
  ⟨x.scope, x.names, x.headers, { x.state with cursor := c }, x.tracked.follows h, x.numbered⟩

def report (ds : List Diagnostic) : Journal stream :=
  ⟨x.scope, x.names, x.headers,
    { x.state with problems := ⟨x.state.problems.items ++ ds⟩ }, x.tracked, x.numbered⟩

def setTable (table : SymbolTable) : Journal stream :=
  ⟨x.scope, x.names, x.headers, { x.state with table := table }, x.tracked, x.numbered⟩

def enter (scope : Option ScopeId) : Journal stream :=
  ⟨scope, x.names, x.headers, x.state, x.tracked, x.numbered⟩

/-- Read a name to declare something; it takes a number. -/
def hold (name : String) : Journal stream where
  scope := x.scope
  names := x.names ++ [⟨x.cursor.position, name, x.cursor.pos, none⟩]
  headers := x.headers
  state := { x.state with cursor := x.cursor.advance, ledger := x.state.ledger.reserve.2 }
  tracked := x.tracked.follows x.cursor.follows_advance
  numbered := by simp [Ledger.reserve, x.numbered]

/-- Enter a declaration under a number. -/
def record (number : Nat) (symbol : Symbol) (pos : Position) : Journal stream where
  scope := x.scope
  names := x.names
  headers := x.headers
  state := { x.state with ledger := x.state.ledger.recordAt number symbol pos .declaration }
  tracked := x.tracked
  numbered := by simp [x.numbered]

/-- The state after the current token was read and mentioned as a name. -/
def mentioned (name : String) : Node × ParserState :=
  { x.state with cursor := x.cursor.advance }.mentioned x.scope name x.cursor.pos

/-- Read a name and mention it. -/
def mention (name : String) : Journal stream where
  scope := x.scope
  names := x.names ++ [⟨x.cursor.position, name, x.cursor.pos,
    some ⟨x.scope, name, x.cursor.pos, x.table, (x.mentioned name).1⟩⟩]
  headers := x.headers
  state := (x.mentioned name).2
  tracked := by
    unfold mentioned
    rw [ParserState.mentioned_cursor]
    exact x.tracked.follows x.cursor.follows_advance
  numbered := by
    unfold mentioned
    rw [ParserState.mentioned_next]
    simp [x.numbered]

/-- Read a name and declare it. -/
def declare (name : String) (symbol : Symbol) (table : SymbolTable) : Journal stream :=
  ((x.hold name).setTable table).record x.state.ledger.next symbol x.cursor.pos

/-- Enter a header of a procedure under the number of its name. -/
def recordHeader (header : Header) (number : Nat) (verdict : Verdict) : Journal stream :=
  match verdict.named? with
  | some index => x.record number (.proc index) header.pos
  | none => x

/-- Merge a header into the table.  A body that it defines is read next. -/
def merge (header : Header) (number : Nat) : Journal stream :=
  let declared := x.table.declare header
  let merged := ((x.setTable declared.table).report declared.problems).recordHeader header number
    declared.verdict
  { merged with
    headers := x.headers ++ [⟨header, number, declared.verdict⟩]
    scope := match declared.verdict with
      | .define index => some (.proc index)
      | _ => none }

/-- A name that was read to declare something, and under whose number nothing is
entered. -/
structure Holds (number : Nat) (name : String) (pos : Position) : Prop where
  read : ∃ r, x.names[number]? = some r ∧ r.name = name ∧ r.pos = pos ∧ r.mention? = none
  free : number ∉ x.state.numbers

end Journal

variable {stream : TokenStream}

/-- What is done at a time while no procedure is opened or closed. -/
inductive InnerTurn : Journal stream → Journal stream → Prop where
  | move (x : Journal stream) (c : Cursor) (h : x.cursor.Follows c) : InnerTurn x (x.move c h)
  | report (x : Journal stream) (ds : List Diagnostic) : InnerTurn x (x.report ds)
  | intern (x : Journal stream) {text : String} {handle : Handle} {strings : Pool}
      (h : x.table.strings.intern text = .ok (handle, strings)) :
      InnerTurn x (x.setTable { x.table with strings := strings })
  | adjust (x : Journal stream) (symbol : Symbol) {f : Variable → Variable}
      (h : ∀ v, (f v).label = v.label) :
      InnerTurn x (x.setTable (x.table.modifyVariable symbol f))
  /-- The name of a procedure or parameter is read. -/
  | hold (x : Journal stream) {name : String} (h : x.cursor.kind = .ident name) :
      InnerTurn x (x.hold name)
  | mention (x : Journal stream) {name : String} (h : x.cursor.kind = .ident name) :
      InnerTurn x (x.mention name)
  /-- The name of a variable is read and declared. -/
  | declare (x : Journal stream) {name : String} {kind : VarScope} {symbol : Symbol}
      {table : SymbolTable} (h : x.cursor.kind = .ident name)
      (declared : x.table.declareIn x.scope kind name x.cursor.pos = .ok (symbol, table)) :
      InnerTurn x (x.declare name symbol table)

/-- What is done at a time while a unit is read. -/
inductive Turn : Journal stream → Journal stream → Prop where
  | inner {x y : Journal stream} (h : InnerTurn x y) : Turn x y
  | merge (x : Journal stream) (header : Header) {number : Nat} (hx : x.scope = none)
      (held : x.Holds number header.name header.pos) : Turn x (x.merge header number)
  /-- A parameter of a definition is entered. -/
  | param (x : Journal stream) {scope : ScopeId} {number : Nat} {name : String} {pos : Position}
      {symbol : Symbol} (hx : x.scope = some scope) (held : x.Holds number name pos)
      (found : x.table.lookupLocal scope name = some symbol) : Turn x (x.record number symbol pos)
  /-- A rejected header whose body comes next. -/
  | discard (x : Journal stream) (header : Header) {scope : ScopeId} {table : SymbolTable}
      {problems : List Diagnostic} (hx : x.scope = none)
      (declared : x.table.declareDiscarded header = .ok (scope, table, problems)) :
      Turn x (((x.setTable table).report problems).enter (some scope))
  /-- The end of a body. -/
  | attach (x : Journal stream) {scope : ScopeId} (code : Code) (first last : Position)
      (hx : x.scope = some scope) :
      Turn x ((x.setTable (x.table.modifyScope scope (·.withBody code first last))).enter none)

abbrev InnerTurns : Journal stream → Journal stream → Prop := Relation.ReflTransGen InnerTurn

abbrev Turns : Journal stream → Journal stream → Prop := Relation.ReflTransGen Turn

end


variable {stream : TokenStream} {x y : Journal stream}

namespace ParserState

/-- What is entered adds its number. -/
theorem numbers_entered {s t : ParserState} {number : Nat} {symbol : Symbol} {pos : Position}
    {mention : Mention} (h : ∀ i, symbol ≠ .builtin i)
    (hledger : t.ledger.entries = (s.ledger.recordAt number symbol pos mention).entries)
    (hpending : t.pending = s.pending) : t.numbers.Perm (number :: s.numbers) := by
  unfold numbers
  rw [hledger, hpending, Ledger.entries_recordAt _ _ _ _ _ h, List.map_append]
  simp only [List.map_cons, List.map_nil, List.append_assoc, List.singleton_append]
  exact List.perm_middle

/-- A mention takes the next number, and no other one. -/
theorem numbers_mentioned (s : ParserState) (scope : Option ScopeId) (name : String)
    (pos : Position) : List.Perm (s.mentioned scope name pos).2.numbers
      (s.ledger.next :: s.numbers) := by
  cases hl : s.table.lookupDeclared scope name with
  | some symbol =>
      rw [mentioned_of_some _ hl]
      exact numbers_entered (s := { s with ledger := s.ledger.reserve.2 })
        (SymbolTable.lookupDeclared_ne_builtin hl) rfl rfl
  | none =>
      rw [mentioned_of_none _ hl]
      have hpending := s.pending.numbers_mention name scope s.ledger.next pos
      exact (hpending.append_left _).trans List.perm_middle

end ParserState

/-! ## Turns inside -/

theorem InnerTurn.scope_eq (h : InnerTurn x y) : y.scope = x.scope := by
  cases h <;> rfl

theorem InnerTurns.scope_eq (h : InnerTurns x y) : y.scope = x.scope := by
  induction h with
  | refl => rfl
  | tail _ h ih => rw [h.scope_eq, ih]

theorem InnerTurn.headers_eq (h : InnerTurn x y) : y.headers = x.headers := by
  cases h <;> rfl

theorem InnerTurn.names_prefix (h : InnerTurn x y) : x.names <+: y.names := by
  cases h with
  | hold | mention | declare => exact List.prefix_append _ _
  | _ => exact List.prefix_rfl

theorem InnerTurns.names_prefix (h : InnerTurns x y) : x.names <+: y.names := by
  induction h with
  | refl => exact List.prefix_rfl
  | tail _ h ih => exact ih.trans h.names_prefix

/-- What is entered inside takes the number of the name that was read for it. -/
theorem InnerTurn.numbers (h : InnerTurn x y) : y.state.numbers.Perm x.state.numbers ∨
    (y.names.length = x.names.length + 1 ∧
      y.state.numbers.Perm (x.names.length :: x.state.numbers)) := by
  cases h with
  | @mention name hk =>
      refine .inr ⟨by simp [Journal.mention], ?_⟩
      rw [← x.numbered]
      exact ParserState.numbers_mentioned _ _ _ _
  | @declare name kind symbol table hk declared =>
      refine .inr ⟨by simp [Journal.declare, Journal.record, Journal.setTable, Journal.hold], ?_⟩
      rw [← x.numbered]
      exact ParserState.numbers_entered (s := (x.hold name).state)
        (SymbolTable.binds_of_declareIn declared).1.ne_builtin rfl rfl
  | _ => exact .inl (.refl _)

theorem InnerTurn.problems_prefix (h : InnerTurn x y) :
    x.state.problems.items <+: y.state.problems.items := by
  cases h with
  | report ds => exact List.prefix_append _ _
  | @mention name h =>
      have hsame : (x.mentioned name).2.problems = x.state.problems :=
        ParserState.mentioned_problems ..
      exact hsame ▸ List.prefix_rfl
  | _ => exact List.prefix_rfl

theorem Journal.start_numbers (stream : TokenStream) : (Journal.start stream).state.numbers = [] :=
  rfl

/-- Nothing is entered under a number that is not taken. -/
def Journal.Bounded (x : Journal stream) : Prop := ∀ n ∈ x.state.numbers, n < x.names.length

theorem Journal.Bounded.start (stream : TokenStream) : (Journal.start stream).Bounded :=
  fun n hn => by simp [Journal.start_numbers] at hn

namespace Journal.Holds

variable {number : Nat} {name : String} {pos : Position}

theorem lt (h : x.Holds number name pos) : number < x.names.length := by
  obtain ⟨r, hr, _⟩ := h.read
  exact (List.getElem?_eq_some_iff.mp hr).1

/-- A name that was just read holds its number. -/
theorem made (h : x.Bounded) (name : String) :
    (x.hold name).Holds x.names.length name x.cursor.pos where
  read := ⟨_, List.getElem?_concat_length, rfl, rfl, rfl⟩
  free hmem := Nat.lt_irrefl _ (h _ hmem)

theorem inner (h : x.Holds number name pos) (hxy : InnerTurn x y) : y.Holds number name pos where
  read := by
    obtain ⟨r, hr, hread⟩ := h.read
    exact ⟨r, SymbolTable.getElem?_of_prefix hxy.names_prefix hr, hread⟩
  free := by
    intro hmem
    rcases hxy.numbers with hsame | ⟨_, hmore⟩
    · exact h.free (hsame.mem_iff.mp hmem)
    · rcases List.mem_cons.mp (hmore.mem_iff.mp hmem) with heq | hold
      · exact absurd h.lt (by omega)
      · exact h.free hold

theorem later (h : x.Holds number name pos) (hs : InnerTurns x y) : y.Holds number name pos := by
  induction hs with
  | refl => exact h
  | tail _ hstep ih => exact ih.inner hstep

end Journal.Holds

/-! ## All turns -/

namespace Journal

variable {header : Header} {number : Nat}

theorem merge_state : (x.merge header number).state =
    { x.state with
      table := (x.table.declare header).table
      problems := ⟨x.state.problems.items ++ (x.table.declare header).problems⟩
      ledger := match (x.table.declare header).verdict.named? with
        | some index => x.state.ledger.recordAt number (.proc index) header.pos .declaration
        | none => x.state.ledger } := by
  unfold merge recordHeader
  simp only
  cases (x.table.declare header).verdict.named? <;> rfl

theorem merge_names : (x.merge header number).names = x.names := by
  unfold merge recordHeader
  simp only
  cases (x.table.declare header).verdict.named? <;> rfl

theorem merge_numbers : (x.merge header number).state.numbers.Perm x.state.numbers ∨
    (x.merge header number).state.numbers.Perm (number :: x.state.numbers) := by
  rw [merge_state]
  cases (x.table.declare header).verdict.named? with
  | none => exact .inl (.refl _)
  | some index =>
      have hne : ∀ i, Symbol.proc index ≠ .builtin i := nofun
      exact .inr (ParserState.numbers_entered hne rfl rfl)

theorem record_numbers {symbol : Symbol} {pos : Position} (h : ∀ i, symbol ≠ .builtin i) :
    (x.record number symbol pos).state.numbers.Perm (number :: x.state.numbers) :=
  ParserState.numbers_entered h rfl rfl

end Journal

theorem Turn.names_prefix (h : Turn x y) : x.names <+: y.names := by
  cases h with
  | inner h => exact h.names_prefix
  | merge header hx held => exact Journal.merge_names ▸ List.prefix_rfl
  | _ => exact List.prefix_rfl

/-- A turn enters at most one thing, under a number that is free. -/
theorem Turn.numbers (hx : x.Bounded) (h : Turn x y) : y.state.numbers.Perm x.state.numbers ∨
    ∃ number, number ∉ x.state.numbers ∧ number < y.names.length ∧
      y.state.numbers.Perm (number :: x.state.numbers) := by
  cases h with
  | inner h =>
      refine h.numbers.imp_right fun ⟨hlength, hperm⟩ => ⟨_, ?_, by omega, hperm⟩
      exact fun hmem => Nat.lt_irrefl _ (hx _ hmem)
  | merge header _ held =>
      refine Journal.merge_numbers.imp_right fun hperm => ⟨_, held.free, ?_, hperm⟩
      rw [Journal.merge_names]
      exact held.lt
  | param _ held found =>
      have hne := (SymbolTable.binds_of_lookupLocal found).1.ne_builtin
      exact .inr ⟨_, held.free, held.lt, Journal.record_numbers hne⟩
  | discard | attach => exact .inl (.refl _)

theorem Journal.Bounded.turn (h : x.Bounded) (hxy : Turn x y) : y.Bounded := by
  intro n hn
  have hle := hxy.names_prefix.length_le
  rcases hxy.numbers h with hsame | ⟨number, _, hlt, hmore⟩
  · exact Nat.lt_of_lt_of_le (h n (hsame.mem_iff.mp hn)) hle
  · rcases List.mem_cons.mp (hmore.mem_iff.mp hn) with rfl | hold
    · exact hlt
    · exact Nat.lt_of_lt_of_le (h n hold) hle

theorem Journal.Bounded.turns (h : x.Bounded) (hs : Turns x y) : y.Bounded := by
  induction hs with
  | refl => exact h
  | tail _ hstep ih => exact ih.turn hstep

/-- No number is taken twice. -/
theorem Turns.nodup (hb : x.Bounded) (h : x.state.numbers.Nodup) (hs : Turns x y) :
    y.state.numbers.Nodup := by
  induction hs with
  | refl => exact h
  | tail hfirst hstep ih =>
      rcases hstep.numbers (hb.turns hfirst) with hsame | ⟨number, hfree, _, hmore⟩
      · exact hsame.nodup_iff.mpr ih
      · exact hmore.nodup_iff.mpr (List.nodup_cons.mpr ⟨hfree, ih⟩)

theorem InnerTurns.turns (h : InnerTurns x y) : Turns x y :=
  Relation.ReflTransGen.mono (fun _ _ => Turn.inner) x y h

end SslFrontend
