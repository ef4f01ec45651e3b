import SslFrontend.Proofs.Along.Productions
import SslFrontend.Proofs.Grammar.Exact
import SslFrontend.Proofs.Symbol.Binds
import SslFrontend.Proofs.Symbol.Early
import SslFrontend.Proofs.Twin.Seam

/-! # Comparing two runs

Two runs of the parser are compared that read the same tokens up to a seam.
`Likeness` says which records of the two are alike, and which of the things in
them; `Comparison` adds that likeness outlasts everything that is done to the
records at a time, if it is done in both runs.  The left run can get lost: it
reads beyond the seam, it fails where failures are not compared, or it declares
a name that is taken in the other run.  What it does from there on is not
compared any more.
-/

namespace SslFrontend

namespace Records

def report (r : Records) (ds : List Diagnostic) : Records :=
  { r with problems := ⟨r.problems.items ++ ds⟩ }

def adjust (r : Records) (symbol : Symbol) (f : Variable → Variable) : Records :=
  { r with table := r.table.modifyVariable symbol f }

def declared (r : Records) (table : SymbolTable) (symbol : Symbol) (pos : Position) : Records :=
  { r with table := table, ledger := r.ledger.record symbol pos .declaration }

end Records

namespace Seam

/-- Reports on the same thing at the same place.  Texts differ in the spelling
of delimiters only.  None is about the use of a symbol: uses are not checked
before all is read. -/
structure Alike (m : Seam) (d d' : Diagnostic) : Prop where
  early : d.Early
  cause : d'.cause = d.cause
  severity : d'.severity = d.severity
  pos : d'.pos = d.pos
  exact : m.braces = false → d' = d

/-- Errors about the same thing at the same place. -/
structure AlikeErrors (m : Seam) (e f : ParseError) : Prop where
  early : e.cause.isFinal = false
  cause : f.cause = e.cause
  pos : f.pos = e.pos
  exact : m.braces = false → f = e

variable {m : Seam} {c d : Cursor}

theorem Alike.refl {d : Diagnostic} (h : d.Early) : m.Alike d d :=
  ⟨h, rfl, rfl, rfl, fun _ => rfl⟩

theorem eq_of_alike (hb : m.braces = false) {ds ds' : List Diagnostic}
    (h : List.Forall₂ m.Alike ds ds') : ds' = ds := by
  induction h with
  | nil => rfl
  | cons h _ ih => rw [h.exact hb, ih]

theorem AlikeErrors.refl {e : ParseError} (h : e.cause.isFinal = false) :
    m.AlikeErrors e e :=
  ⟨h, rfl, rfl, fun _ => rfl⟩

theorem AlikeErrors.diagnostic {e f : ParseError} (h : m.AlikeErrors e f) :
    m.Alike e.diagnostic f.diagnostic where
  early := h.early
  cause := h.cause
  severity := rfl
  pos := by rw [ParseError.diagnostic_pos, ParseError.diagnostic_pos, h.pos]
  exact hb := by rw [h.exact hb]

/-- An error about the current token. -/
theorem Joins.alikeErrors (h : m.Joins c d) (hg : ¬m.Gone c) (f : Token → ParseError)
    (hearly : ∀ a, (f a).cause.isFinal = false)
    (hcause : ∀ a b, (f a).cause = (f b).cause) (hpos : ∀ a, (f a).pos = a.pos) :
    m.AlikeErrors (f c.current) (f d.current) where
  early := hearly _
  cause := hcause _ _
  pos := by rw [hpos, hpos, h.current hg, spell_pos]
  exact hb := by rw [h.current hg, spell_eq hb, id]

end Seam

/-! ## Likeness -/

/-- Which records of two runs are alike, and which of the things in them. -/
structure Likeness where
  data : Records → Records → Prop
  node : Records → Records → Node → Node → Prop
  symbol : Records → Records → Symbol → Symbol → Prop
  value : Records → Records → Value → Value → Prop
  number : Records → Records → Nat → Nat → Prop

namespace Likeness

/-- Records stay alike, with everything in them that is. -/
structure Grown (K : Likeness) (q q' r r' : Records) : Prop where
  data : K.data r r'
  node : ∀ {a b}, K.node q q' a b → K.node r r' a b
  symbol : ∀ {a b}, K.symbol q q' a b → K.symbol r r' a b
  value : ∀ {a b}, K.value q q' a b → K.value r r' a b
  number : ∀ {a b}, K.number q q' a b → K.number r r' a b

variable {K : Likeness} {q q' r r' u u' : Records}

theorem Grown.refl (h : K.data q q') : K.Grown q q' q q' := ⟨h, id, id, id, id⟩

theorem Grown.trans (h₁ : K.Grown q q' r r') (h₂ : K.Grown r r' u u') : K.Grown q q' u u' where
  data := h₂.data
  node h := h₂.node (h₁.node h)
  symbol h := h₂.symbol (h₁.symbol h)
  value h := h₂.value (h₁.value h)
  number h := h₂.number (h₁.number h)

/-- Code of the one run is alike that of the other. -/
def Codes (K : Likeness) (r r' : Records) : Code → Code → Prop := List.Forall₂ (K.node r r')

theorem Grown.codes (h : K.Grown q q' r r') {a b : Code} (hab : K.Codes q q' a b) :
    K.Codes r r' a b :=
  hab.imp fun _ _ => h.node

/-- Both runs make alike nodes and stay alike. -/
def Makes (K : Likeness) (m m' : Making Node) : Prop :=
  ∀ {r r'}, K.data r r' → K.Grown r r' (m r).2 (m' r').2 ∧
    K.node (m r).2 (m' r').2 (m r).1 (m' r').1

/-- Triggers with alike conditions. -/
inductive Triggers (K : Likeness) (r r' : Records) : Trigger → Trigger → Prop
  | none : Triggers K r r' .none .none
  | timed (time : Int32) : Triggers K r r' (.timed time) (.timed time)
  | conditional {a b : Code} (h : K.Codes r r' a b) :
      Triggers K r r' (.conditional a) (.conditional b)

theorem Grown.triggers (h : K.Grown q q' r r') {a b : Trigger} (hab : K.Triggers q q' a b) :
    K.Triggers r r' a b := by
  cases hab with
  | none => exact .none
  | timed time => exact .timed time
  | conditional hcodes => exact .conditional (h.codes hcodes)

/-- One and the same parameter in both runs. -/
structure Params (K : Likeness) (r r' : Records) (p p' : Param) : Prop where
  name : p'.name = p.name
  pos : p'.pos = p.pos
  default : Option.Rel (K.value r r') p.default p'.default

theorem Grown.params (h : K.Grown q q' r r') {p p' : Param} (hp : K.Params q q' p p') :
    K.Params r r' p p' where
  name := hp.name
  pos := hp.pos
  default := by
    obtain ⟨name, pos, default⟩ := p
    obtain ⟨name', pos', default'⟩ := p'
    cases hp.default with
    | none => exact .none
    | some hv => exact .some (h.value hv)

/-- One and the same header in both runs. -/
structure Headers (K : Likeness) (r r' : Records) (h h' : Header) : Prop where
  name : h'.name = h.name
  pos : h'.pos = h.pos
  modifiers : h'.modifiers = h.modifiers
  trigger : K.Triggers r r' h.trigger h'.trigger
  params : List.Forall₂ (K.Params r r') h.params h'.params
  hasBody : h'.hasBody = h.hasBody

theorem Grown.headers (h : K.Grown q q' r r') {a b : Header} (hab : K.Headers q q' a b) :
    K.Headers r r' a b where
  name := hab.name
  pos := hab.pos
  modifiers := hab.modifiers
  trigger := h.triggers hab.trigger
  params := hab.params.imp fun _ _ => h.params
  hasBody := hab.hasBody

end Likeness

/-- A node that neither names anything nor holds a text. -/
def Node.isPlain (node : Node) : Bool :=
  match node.kind, node.value with
  | .ident, _ | .globalVar, _ | .localVar, _ | .proc, _ | .builtin, _ | .string, _ => false
  | _, .string _ => false
  | _, _ => true

namespace SymbolTable

/-- The symbol that a parameter became. -/
def symbolOf? (t : SymbolTable) (scope : ScopeId) (param : Param) : Option Symbol :=
  (t.lookupLocal scope param.name).filter fun symbol => t.siteOf? symbol = some param.pos

end SymbolTable

namespace Parse

/-- The list of variables that is read goes on, after a malformed variable, at
an `end`. -/
inductive ListStrays (context : Context) (kind : VarScope) : ParserState → Prop
  | here {s s' : ParserState} {e : ParseError} (h : variableItem context kind s = .error e s')
      (hend : (s'.cursor.synchronize .declarationBoundary).kind = .keyword .kwEnd) :
      ListStrays context kind s
  | next {s s' : ParserState} {code : Code} (h : variableItem context kind s = .ok code s')
      (hcomma : s'.cursor.check (.mark .comma) = true) (hs : ListStrays context kind s'.skip) :
      ListStrays context kind s
  | recovered {s s' : ParserState} {e : ParseError}
      (h : variableItem context kind s = .error e s')
      (hcomma : (s'.cursor.synchronize .declarationBoundary).check (.mark .comma) = true)
      (hs : ListStrays context kind
        { s' with
          problems := s'.problems.push e.diagnostic
          cursor := (s'.cursor.synchronize .declarationBoundary).advance }) :
      ListStrays context kind s

end Parse

/-! ## Comparisons -/

/-- The unit is a scope of both runs where their scopes are the same. -/
theorem top_same : (none : Option ScopeId) = none := rfl

theorem isSome_same {σ τ : Option ScopeId} (h : τ = σ) : τ.isSome = σ.isSome := by rw [h]

/-- What is done to alike records in both runs leaves them alike. -/
structure Comparison extends Likeness where
  seam : Seam
  /-- Names that are declared elsewhere in the right run. -/
  taken : List String
  /-- A scope of the left run is this scope of the right run. -/
  scope : Option ScopeId → Option ScopeId → Prop
  top : scope none none
  nested : ∀ {σ τ}, scope σ τ → τ.isSome = σ.isSome
  /-- Both see an assignment or neither does, unless the left run does not even
  read an expression. -/
  ahead : ∀ {tokens}, tokens <:+ seam.shared →
    Assignment.isNext (tokens.map seam.spell ++ seam.right) =
        Assignment.isNext (tokens ++ seam.left) ∨
      seam.tolerant = true ∧ Assignment.isNext (tokens ++ seam.left) = false ∧
        ∀ scope (s : ParserState), s.cursor.rest = tokens ++ seam.left →
          ∃ e s', Parse.expression scope s = .error e s'
  /-- A list of variables goes on at no `end` that is spelled otherwise. -/
  lists : seam.braces = true → ∀ {context kind token s}, token.kind = .keyword .kwVariable →
    token :: s.cursor.rest <:+ seam.shared → ¬Parse.ListStrays context kind s
  plain : ∀ {r r' a}, a.isPlain = true → node r r' a a
  symbolNode : ∀ {r r' a b} pos, symbol r r' a b → node r r' (a.toNode pos) (b.toNode pos)
  constant : ∀ {r r'} {a b : Code}, List.Forall₂ (node r r') a b →
    Option.Rel (value r r') a.constant? b.constant?
  integer : ∀ {r r' v w}, value r r' v w → v.int? = w.int?
  literal : ∀ {r r' n}, value r r' (.int n) (.int n)
  report : ∀ {r r' ds ds'}, data r r' → List.Forall₂ seam.Alike ds ds' →
    toLikeness.Grown r r' (r.report ds) (r'.report ds')
  text : ∀ text pos, toLikeness.Makes (Making.text text pos) (Making.text text pos)
  mention : ∀ {σ τ} name pos, scope σ τ →
    toLikeness.Makes (Making.mention σ name pos) (Making.mention τ name pos)
  declared : ∀ {r r' σ τ kind name pos a t}, data r r' → scope σ τ →
    r.table.declareIn σ kind name pos = .ok (a, t) →
    (∃ n ∈ taken, t.HasGlobal n) ∨ ∃ b u, r'.table.declareIn τ kind name pos = .ok (b, u) ∧
      toLikeness.Grown r r' (r.declared t a pos) (r'.declared u b pos) ∧
      symbol (r.declared t a pos) (r'.declared u b pos) a b
  refused : ∀ {r r' σ τ kind name pos d}, data r r' → scope σ τ →
    r.table.declareIn σ kind name pos = .error d →
    seam.tolerant = true ∨ ∃ d', r'.table.declareIn τ kind name pos = .error d' ∧ seam.Alike d d'
  setLength : ∀ {r r' a b} length, data r r' → symbol r r' a b →
    toLikeness.Grown r r' (r.adjust a fun v => { v with arrayLength := length })
      (r'.adjust b fun v => { v with arrayLength := length })
  setInitialized : ∀ {r r' a b}, data r r' → symbol r r' a b →
    toLikeness.Grown r r' (r.adjust a fun v => { v with initialized := true })
      (r'.adjust b fun v => { v with initialized := true })
  setValue : ∀ {r r' a b v w}, data r r' → symbol r r' a b → value r r' v w →
    toLikeness.Grown r r' (r.adjust a (·.withValue (some v))) (r'.adjust b (·.withValue (some w)))

namespace Comparison

variable (C : Comparison)

/-- The runs stand at the same place with alike records. -/
structure Pair (s t : ParserState) : Prop where
  joins : C.seam.Joins s.cursor t.cursor
  data : C.data s.records t.records

/-- The left run has done what is not compared. -/
def Lost (s : ParserState) : Prop :=
  C.seam.Beyond s.cursor ∨
    (C.seam.Waived s.cursor ∧ ∃ d ∈ s.problems.items, d.isError = true) ∨
    ∃ n ∈ C.taken, s.table.HasGlobal n

/-- What follows an error of the left run here is not compared. -/
def Fails (s : ParserState) : Prop := C.seam.Waived s.cursor ∨ C.Lost s

/-- Both runs have gone on to the same place. -/
structure Later (s t s' t' : ParserState) : Prop where
  joins : C.seam.Joins s'.cursor t'.cursor
  grown : C.Grown s.records t.records s'.records t'.records
  left : s.cursor.Follows s'.cursor
  right : t.cursor.Follows t'.cursor

end Comparison

end SslFrontend
