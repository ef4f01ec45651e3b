import Mathlib.Logic.Relation
import SslFrontend.Proofs.Postfix.Shape
import SslFrontend.Proofs.Run.Reading
import SslFrontend.Proofs.Symbol.Declares

/-! # What a run keeps

A run of the parser goes through configurations: the parser's state, the
procedure whose body is being read, and a log of the mentions that were made,
each with the table as it stood.  `InnerStep` is what a production inside a body
or between procedures does at a time, and `Step` adds what a procedure's header
and the end of its body do.  A step carries what the grammar knows when it is
taken, such as the shape of the code that becomes a body.

Reading goes forward, the log and the reports get longer, and the table grows.
So code whose leaves are known at one time has known leaves ever after
(`Config.vocabulary_le`).
-/

namespace SslFrontend

/-! ## Runs of the parser -/

section

/-- A mention of a name in a context, with the table as it stood and the node
that was made for it. -/
structure Mentioned where
  scope : Option ScopeId
  name : String
  pos : Position
  table : SymbolTable
  node : Node

/-- The node for a name that is mentioned, and what it changes. -/
def ParserState.mentioned (s : ParserState) (scope : Option ScopeId) (name : String)
    (pos : Position) : Node × ParserState :=
  match s.table.lookupDeclared scope name with
  | some symbol => (symbol.toNode pos, { s with ledger := s.ledger.record symbol pos .use })
  | none =>
    let (number, ledger) := s.ledger.reserve
    let (place, pending) := s.pending.mention name scope number pos
    (Pending.node place pos, { s with ledger := ledger, pending := pending })

theorem ParserState.mentioned_cursor (s : ParserState) (scope : Option ScopeId) (name : String)
    (pos : Position) : (s.mentioned scope name pos).2.cursor = s.cursor := by
  unfold mentioned
  split <;> rfl

structure Config (stream : TokenStream) where
  /-- The procedure whose body is being read. -/
  scope : Option ScopeId
  /-- Every mention so far. -/
  log : List Mentioned
  state : ParserState
  tracked : stream.Tracks state.cursor

/-- A procedure whose body was read. -/
def Procedure.withBody (p : Procedure) (code : Code) (first last : Position) : Procedure :=
  { p with
    body := code ++ [⟨.ret, .int 0, last⟩]
    defined := true
    span := some (first, last) }

namespace Config

variable {stream : TokenStream} (x : Config stream)

/-- Before the first item. -/
def start (stream : TokenStream) : Config stream :=
  ⟨none, [], .start stream, .start stream⟩

abbrev cursor : Cursor := x.state.cursor

abbrev table : SymbolTable := x.state.table

def move (c : Cursor) (h : x.cursor.Follows c) : Config stream :=
  ⟨x.scope, x.log, { x.state with cursor := c }, x.tracked.follows h⟩

/-- Read the current token. -/
def advance : Config stream := x.move x.cursor.advance x.cursor.follows_advance

def report (ds : List Diagnostic) : Config stream :=
  ⟨x.scope, x.log, { x.state with problems := ⟨x.state.problems.items ++ ds⟩ }, x.tracked⟩

def setTable (table : SymbolTable) : Config stream :=
  ⟨x.scope, x.log, { x.state with table := table }, x.tracked⟩

def setLedger (ledger : Ledger) : Config stream :=
  ⟨x.scope, x.log, { x.state with ledger := ledger }, x.tracked⟩

def enter (scope : Option ScopeId) : Config stream := ⟨scope, x.log, x.state, x.tracked⟩

/-- Mention a name in the scope that is being read. -/
def mention (name : String) (pos : Position) : Config stream :=
  let made := x.state.mentioned x.scope name pos
  ⟨x.scope, x.log ++ [⟨x.scope, name, pos, x.table, made.1⟩], made.2,
    by rw [x.state.mentioned_cursor]; exact x.tracked⟩

/-- Something is known to be wrong with the input. -/
def Blamed : Prop :=
  (∃ d ∈ x.state.problems.items, d.isError = true) ∨
    ∃ token ∈ stream.tokens, token.kind = .invalid

/-- What the leaves of code that is read in a scope may be. -/
def vocabulary (scope : Option ScopeId) : Vocabulary where
  literal node :=
    stream.Has node.pos ∧ node.value.ResolvesIn x.table.strings ∧
      (node.kind = .string → ∃ handle, node.value = .string handle) ∧
      (node.kind = .error → x.Blamed)
  name node := ∃ e ∈ x.log, e.scope = scope ∧ e.node = node
  own node :=
    ∃ sc index pos, scope = some sc ∧ node = (Symbol.inner sc index).toNode pos ∧
      stream.Has pos ∧ x.table.siteOf? (.inner sc index) = some pos
  site := stream.Has
  limit := stream.tokens.length

/-- A header whose parts were read from the stream, before `x`. -/
structure HasRead (header : Header) : Prop where
  pos : stream.Has header.pos
  params : SymbolTable.ParamsKnown stream.Has x.table.strings header.params
  bound : header.params.length ≤ x.cursor.position
  condition : ∀ code, header.trigger = .conditional code → Values (x.vocabulary none) 1 code

end Config

variable {stream : TokenStream}

/-- What happens at a time while no procedure is opened or closed. -/
inductive InnerStep : Config stream → Config stream → Prop where
  | move (x : Config stream) (c : Cursor) (h : x.cursor.Follows c) : InnerStep x (x.move c h)
  | report (x : Config stream) (ds : List Diagnostic) : InnerStep x (x.report ds)
  | intern (x : Config stream) {text : String} {handle : Handle} {strings : Pool}
      (h : x.table.strings.intern text = .ok (handle, strings)) :
      InnerStep x (x.setTable { x.table with strings := strings })
  | reserve (x : Config stream) : InnerStep x (x.setLedger x.state.ledger.reserve.2)
  /-- A declaration is entered. -/
  | record (x : Config stream) (number : Nat) (symbol : Symbol) {pos : Position}
      (site : stream.Has pos) :
      InnerStep x (x.setLedger (x.state.ledger.recordAt number symbol pos .declaration))
  /-- A name is read and mentioned. -/
  | mention (x : Config stream) {name : String} (h : x.cursor.kind = .ident name) :
      InnerStep x (x.advance.mention name x.cursor.pos)
  /-- A name is read and declared. -/
  | declareVar (x : Config stream) {name : String} {scope : VarScope} {symbol : Symbol}
      {table : SymbolTable} (hx : x.scope = none) (h : x.cursor.kind = .ident name)
      (declared : x.table.declareVar name scope x.cursor.pos = .ok (symbol, table)) :
      InnerStep x (x.advance.setTable table)
  | declareLocal (x : Config stream) {name : String} {scope : ScopeId} {symbol : Symbol}
      {table : SymbolTable} (hx : x.scope = some scope) (h : x.cursor.kind = .ident name)
      (declared : x.table.declareLocal scope name x.cursor.pos = .ok (symbol, table)) :
      InnerStep x (x.advance.setTable table)
  | adjust (x : Config stream) (symbol : Symbol) {f : Variable → Variable}
      (h : Adjusts x.table.strings f) : InnerStep x (x.setTable (x.table.modifyVariable symbol f))

/-- What happens at a time while a unit is read. -/
inductive Step : Config stream → Config stream → Prop where
  | inner {x y : Config stream} (h : InnerStep x y) : Step x y
  /-- A header that no body follows, or none that counts. -/
  | announce (x : Config stream) (header : Header) (hx : x.scope = none)
      (room : x.table.procs.length < x.cursor.position) (read : x.HasRead header)
      (verdict : ∀ index, (x.table.declare header).verdict ≠ .define index) :
      Step x (x.setTable (x.table.declare header).table)
  /-- A header whose body comes next. -/
  | define (x : Config stream) (header : Header) {index : Nat} (hx : x.scope = none)
      (room : x.table.procs.length < x.cursor.position) (read : x.HasRead header)
      (verdict : (x.table.declare header).verdict = .define index) :
      Step x ((x.setTable (x.table.declare header).table).enter (some (.proc index)))
  /-- A rejected header whose body comes next. -/
  | discard (x : Config stream) (header : Header) {scope : ScopeId} {table : SymbolTable}
      {problems : List Diagnostic} (hx : x.scope = none) (read : x.HasRead header)
      (declared : x.table.declareDiscarded header = .ok (scope, table, problems)) :
      Step x ((x.setTable table).enter (some scope))
  /-- The end of a body. -/
  | attach (x : Config stream) (scope : ScopeId) (code : Code) {first last : Position}
      (hx : x.scope = some scope) (site : stream.Has first) (site' : stream.Has last)
      (shape : Statements (x.vocabulary (some scope)) false code) :
      Step x ((x.setTable (x.table.modifyScope scope (·.withBody code first last))).enter none)

/-- Any number of steps inside. -/
abbrev InnerSteps : Config stream → Config stream → Prop := Relation.ReflTransGen InnerStep

/-- Any number of steps. -/
abbrev Steps : Config stream → Config stream → Prop := Relation.ReflTransGen Step

end


variable {stream : TokenStream}

namespace ParserState

variable (s : ParserState) (scope : Option ScopeId) (name : String) (pos : Position)

theorem mentioned_table : (s.mentioned scope name pos).2.table = s.table := by
  unfold mentioned
  split <;> rfl

theorem mentioned_problems : (s.mentioned scope name pos).2.problems = s.problems := by
  unfold mentioned
  split <;> rfl

end ParserState

namespace Config

variable (x : Config stream) (name : String) (pos : Position)

@[simp] theorem mention_table : (x.mention name pos).table = x.table :=
  x.state.mentioned_table x.scope name pos

@[simp] theorem mention_cursor : (x.mention name pos).cursor = x.cursor :=
  x.state.mentioned_cursor x.scope name pos

@[simp] theorem mention_problems : (x.mention name pos).state.problems = x.state.problems :=
  x.state.mentioned_problems x.scope name pos

end Config

namespace Config

/-- The second configuration comes after the first one; the locals of scopes are
kept where `keep` says so. -/
structure Extends (keep : ScopeId → Prop) (x y : Config stream) : Prop where
  log : x.log <+: y.log
  cursor : x.cursor.Follows y.cursor
  problems : x.state.problems.items <+: y.state.problems.items
  table : x.table.Extends keep y.table

abbrev Grows (x y : Config stream) : Prop := x.Extends (fun _ => True) y

variable {keep : ScopeId → Prop} {x y z : Config stream}

namespace Extends

theorem refl (x : Config stream) : x.Extends keep x :=
  ⟨List.prefix_rfl, .refl _, List.prefix_rfl, .refl _⟩

theorem trans (h₁ : x.Extends keep y) (h₂ : y.Extends keep z) : x.Extends keep z :=
  ⟨h₁.log.trans h₂.log, h₁.cursor.trans h₂.cursor, h₁.problems.trans h₂.problems,
    h₁.table.trans h₂.table⟩

theorem weaken {keep' : ScopeId → Prop} (h : x.Extends keep y)
    (hk : ∀ sc, keep' sc → keep sc) : x.Extends keep' y :=
  ⟨h.log, h.cursor, h.problems, h.table.weaken hk⟩

theorem blamed (h : x.Extends keep y) (hx : x.Blamed) : y.Blamed :=
  hx.imp_left fun ⟨d, hd, herror⟩ => ⟨d, h.problems.subset hd, herror⟩

end Extends

theorem vocabulary_le (h : x.Extends keep y) {scope : Option ScopeId}
    (hk : ∀ sc, scope = some sc → keep sc) :
    (x.vocabulary scope).Le (y.vocabulary scope) where
  literal := fun ⟨hpos, hvalue, hstring, herror⟩ =>
    ⟨hpos, hvalue.grows h.table.strings, hstring, fun hk => h.blamed (herror hk)⟩
  name := fun ⟨e, he, hscope, hnode⟩ => ⟨e, h.log.subset he, hscope, hnode⟩
  own := by
    rintro node ⟨sc, index, pos, hscope, hnode, hpos, hsite⟩
    exact ⟨sc, index, pos, hscope, hnode, hpos, h.table.siteOf?_inner (hk sc hscope) hsite⟩
  site := id
  limit := Nat.le_refl _

theorem vocabulary_le_of_grows (h : x.Grows y) (scope : Option ScopeId) :
    (x.vocabulary scope).Le (y.vocabulary scope) :=
  vocabulary_le h fun _ _ => trivial

theorem HasRead.grows {header : Header} (hr : x.HasRead header) (h : x.Grows y) :
    y.HasRead header where
  pos := hr.pos
  params := hr.params.grows h.table.strings
  bound := Nat.le_trans hr.bound h.cursor.position_le
  condition code hcode := (hr.condition code hcode).mono (vocabulary_le_of_grows h none)

end Config

variable {x y : Config stream}

/-! ## Steps inside -/

theorem InnerStep.scope_eq (h : InnerStep x y) : y.scope = x.scope := by
  cases h <;> rfl

theorem InnerStep.edits (h : InnerStep x y) : x.table.Edits stream.Has y.table := by
  cases h with
  | move | report | reserve | record => exact .refl
  | intern h => exact .single (.intern h)
  | mention h =>
      rw [Config.mention_table]
      exact .refl
  | declareVar _ _ declared => exact .single (.declareVar x.tracked.has_pos declared)
  | declareLocal _ _ declared => exact .single (.declareLocal x.tracked.has_pos declared)
  | adjust symbol h => exact .single (.adjust symbol h)

theorem InnerStep.log_prefix (h : InnerStep x y) : x.log <+: y.log := by
  cases h with
  | mention h => exact List.prefix_append _ _
  | _ => exact List.prefix_rfl

theorem InnerStep.follows (h : InnerStep x y) : x.cursor.Follows y.cursor := by
  cases h with
  | move c h => exact h
  | declareVar | declareLocal => exact x.cursor.follows_advance
  | mention h =>
      rw [Config.mention_cursor]
      exact x.cursor.follows_advance
  | _ => exact .refl _

theorem InnerStep.problems_prefix (h : InnerStep x y) :
    x.state.problems.items <+: y.state.problems.items := by
  cases h with
  | report ds => exact List.prefix_append _ _
  | mention h =>
      rw [Config.mention_problems]
      exact List.prefix_rfl
  | _ => exact List.prefix_rfl

theorem InnerStep.grows (h : InnerStep x y) : x.Grows y :=
  ⟨h.log_prefix, h.follows, h.problems_prefix, h.edits.grows⟩

namespace InnerSteps

theorem scope_eq (h : InnerSteps x y) : y.scope = x.scope := by
  induction h with
  | refl => rfl
  | tail _ h ih => rw [h.scope_eq, ih]

theorem edits (h : InnerSteps x y) : x.table.Edits stream.Has y.table := by
  induction h with
  | refl => exact .refl
  | tail _ h ih => exact ih.trans h.edits

theorem grows (h : InnerSteps x y) : x.Grows y := by
  induction h with
  | refl => exact .refl x
  | tail _ h ih => exact ih.trans h.grows

theorem vocabulary_le (h : InnerSteps x y) (scope : Option ScopeId) :
    (x.vocabulary scope).Le (y.vocabulary scope) :=
  Config.vocabulary_le_of_grows h.grows scope

end InnerSteps

/-! ## All steps -/

/-- A scope whose locals are there to stay: its body is being read or was
read. -/
def Config.Settled (x : Config stream) (sc : ScopeId) : Prop :=
  ∃ p, x.table.scope? sc = some p ∧ (x.scope = some sc ∨ p.defined = true)

namespace Config.Settled

variable {header : Header} {sc : ScopeId}

theorem of_recoded (h : x.Settled sc) (hx : x.scope = none) {u : SymbolTable}
    (hkept : ∃ q, u.scope? sc = some q)
    (hcoding : ∀ q, u.scope? sc = some q →
      (∃ p, x.table.scope? sc = some p ∧ SymbolTable.Recoded header p q) ∨
        (x.table.scope? sc = none ∧ SymbolTable.Blank header q)) :
    ∃ q, u.scope? sc = some q ∧ q.defined = true := by
  obtain ⟨p, hp, hopen | hdefined⟩ := h
  · rw [hx] at hopen
    cases hopen
  · obtain ⟨q, hq⟩ := hkept
    rcases hcoding q hq with ⟨p', hp', hrecoded⟩ | ⟨hnone, _⟩
    · rw [hp] at hp'
      obtain rfl := Option.some.inj hp'
      exact ⟨q, hq, hrecoded.defined.trans hdefined⟩
    · rw [hp] at hnone
      cases hnone

/-- A header takes no locals away from a scope that is settled. -/
theorem extends_declare (hx : x.scope = none) (header : Header) :
    x.table.Extends x.Settled (x.table.declare header).table := by
  have hspec := SymbolTable.declare_spec x.table header
  refine hspec.extends.weaken ?_
  rintro sc ⟨p, hp, hsettled⟩ index hverdict rfl
  rw [hverdict] at hspec
  have hopen := hspec.open_of_define hp
  rcases hsettled with hscope | hdefined
  · rw [hx] at hscope
    cases hscope
  · rw [hopen] at hdefined
    cases hdefined

theorem declare (h : x.Settled sc) (hx : x.scope = none) (header : Header) :
    ∃ q, (x.table.declare header).table.scope? sc = some q ∧ q.defined = true := by
  obtain ⟨p, hp, _⟩ := id h
  obtain ⟨q, hq, _⟩ := (extends_declare hx header).scopes h hp
  exact h.of_recoded hx ⟨q, hq⟩ fun q hq => (SymbolTable.declare_spec _ header).coding hq

theorem discard (h : x.Settled sc) (hx : x.scope = none) {scope : ScopeId} {u : SymbolTable}
    {problems : List Diagnostic}
    (declared : x.table.declareDiscarded header = .ok (scope, u, problems)) :
    ∃ q, u.scope? sc = some q ∧ q.defined = true := by
  obtain ⟨p, hp, _⟩ := id h
  obtain ⟨q, hq, _⟩ := (SymbolTable.declareDiscarded_grows declared).1.scopes trivial hp
  exact h.of_recoded hx ⟨q, hq⟩ fun q hq => SymbolTable.declareDiscarded_coding declared hq

/-- When its body was read, the open scope is one of those that are defined. -/
theorem attach (h : x.Settled sc) {scope : ScopeId} (hx : x.scope = some scope) (code : Code)
    (first last : Position) :
    ∃ q, (x.table.modifyScope scope (·.withBody code first last)).scope? sc = some q ∧
      q.defined = true := by
  obtain ⟨p, hp, hsettled⟩ := h
  by_cases hsc : sc = scope
  · subst hsc
    exact ⟨_, by rw [SymbolTable.scope?_modifyScope_self, hp]; rfl, rfl⟩
  · refine ⟨p, by rw [SymbolTable.scope?_modifyScope_of_ne _ _ _ hsc, hp], ?_⟩
    rcases hsettled with hscope | hdefined
    · rw [hx] at hscope
      exact absurd (Option.some.inj hscope).symm hsc
    · exact hdefined

end Config.Settled

theorem SymbolTable.withBody_grows (t : SymbolTable) (scope : ScopeId) (code : Code)
    (first last : Position) :
    t.Grows (t.modifyScope scope (·.withBody code first last)) :=
  SymbolTable.extends_modifyScope (fun _ _ => rfl) fun _ _ _ => ⟨.refl _, List.prefix_rfl⟩

theorem Step.extends (h : Step x y) : x.Extends x.Settled y := by
  cases h with
  | inner h => exact h.grows.weaken fun _ _ => trivial
  | announce header hx room read verdict =>
      exact ⟨List.prefix_rfl, .refl _, List.prefix_rfl, Config.Settled.extends_declare hx header⟩
  | define header hx room read verdict =>
      exact ⟨List.prefix_rfl, .refl _, List.prefix_rfl, Config.Settled.extends_declare hx header⟩
  | discard header hx read declared =>
      refine ⟨List.prefix_rfl, .refl _, List.prefix_rfl, ?_⟩
      exact (SymbolTable.declareDiscarded_grows declared).1.weaken fun _ _ => trivial
  | attach scope code hx site site' shape =>
      refine ⟨List.prefix_rfl, .refl _, List.prefix_rfl, ?_⟩
      exact (x.table.withBody_grows scope code _ _).weaken fun _ _ => trivial

/-- A scope stays settled while no header is merged. -/
theorem Config.Settled.same {sc : ScopeId} (h : x.Settled sc) (hscope : y.scope = x.scope)
    (hcode : x.table.SameCode y.table) : y.Settled sc := by
  obtain ⟨p, hp, hsettled⟩ := h
  obtain ⟨q, hq, hcoding⟩ : ∃ q, y.table.scope? sc = some q ∧ q.coding = p.coding := by
    have hsc := hcode sc
    rw [hp] at hsc
    exact Option.map_eq_some_iff.mp hsc
  have hdefined : q.defined = p.defined := (Prod.mk.inj (Prod.mk.inj hcoding).2).1
  refine ⟨q, hq, ?_⟩
  rwa [hscope, hdefined]

theorem Step.settled (h : Step x y) {sc : ScopeId} (hs : x.Settled sc) : y.Settled sc := by
  cases h with
  | inner h => exact hs.same h.scope_eq h.edits.sameCode
  | announce header hx room read verdict =>
      obtain ⟨q, hq, hdefined⟩ := hs.declare hx header
      exact ⟨q, hq, .inr hdefined⟩
  | define header hx room read verdict =>
      obtain ⟨q, hq, hdefined⟩ := hs.declare hx header
      exact ⟨q, hq, .inr hdefined⟩
  | discard header hx read declared =>
      obtain ⟨q, hq, hdefined⟩ := hs.discard hx declared
      exact ⟨q, hq, .inr hdefined⟩
  | attach scope code hx site site' shape =>
      obtain ⟨q, hq, hdefined⟩ := hs.attach hx code _ _
      exact ⟨q, hq, .inr hdefined⟩

theorem Step.extends_any (h : Step x y) : x.Extends (fun _ => False) y :=
  h.extends.weaken fun _ => False.elim

theorem Steps.extends_any (h : Steps x y) : x.Extends (fun _ => False) y := by
  induction h with
  | refl => exact .refl x
  | tail _ h ih => exact ih.trans h.extends_any

theorem Steps.vocabulary_le (h : Steps x y) : (x.vocabulary none).Le (y.vocabulary none) :=
  Config.vocabulary_le h.extends_any fun _ hsc => nomatch hsc

end SslFrontend
