import SslFrontend.Proofs.Journal.Growth

/-! # Passes of a run

Turns leave open what is entered for the parameters of a definition.  In a pass
the header of a definition is merged and every parameter that its procedure has
at the place of the text is entered with it, in the order of the text.  Every
other pass is a turn, so a run of passes is a run of turns that leaves no
parameter out.
-/

namespace SslFrontend

variable {stream : TokenStream} {x y : Journal stream}

/-! ## Names that are held -/

/-- Parameters whose numbers are held, in the order of the text. -/
structure Journal.HoldsParams (x : Journal stream) (least : Nat)
    (params : List Parse.NumberedParam) : Prop where
  ordered : params.Pairwise fun p q => p.number < q.number
  least_le : ∀ p ∈ params, least ≤ p.number
  held : ∀ p ∈ params, x.Holds p.number p.param.name p.param.pos

namespace Journal.HoldsParams

variable {least : Nat} {params : List Parse.NumberedParam}

theorem nil (x : Journal stream) (least : Nat) : x.HoldsParams least [] :=
  ⟨.nil, by simp, by simp⟩

theorem later (h : x.HoldsParams least params) (hs : InnerTurns x y) : y.HoldsParams least params :=
  ⟨h.ordered, h.least_le, fun p hp => (h.held p hp).later hs⟩

/-- A parameter that is read next. -/
theorem concat (h : x.HoldsParams least params) (hleast : least ≤ x.names.length)
    (hs : InnerTurns x y) {p : Parse.NumberedParam} (hlt : x.names.length ≤ p.number)
    (hp : y.Holds p.number p.param.name p.param.pos) : y.HoldsParams least (params ++ [p]) where
  ordered := by
    refine List.pairwise_append.mpr ⟨h.ordered, List.pairwise_singleton _ _, ?_⟩
    intro q hq r hr
    rw [List.mem_singleton.mp hr]
    exact Nat.lt_of_lt_of_le (h.held q hq).lt hlt
  least_le q hq := by
    rcases List.mem_append.mp hq with hold | hnew
    · exact h.least_le q hold
    · rw [List.mem_singleton.mp hnew]
      omega
  held q hq := by
    rcases List.mem_append.mp hq with hold | hnew
    · exact (h.held q hold).later hs
    · rw [List.mem_singleton.mp hnew]
      exact hp

end Journal.HoldsParams

namespace Journal.Holds

variable {number taken : Nat} {name : String} {pos : Position}

/-- What is entered under one number leaves the others. -/
theorem record {site : Position} {symbol : Symbol} (h : x.Holds number name pos)
    (hne : number ≠ taken) (hs : ∀ i, symbol ≠ .builtin i) :
    (x.record taken symbol site).Holds number name pos where
  read := h.read
  free hmem := by
    rcases List.mem_cons.mp ((Journal.record_numbers hs).mem_iff.mp hmem) with heq | hold
    · exact hne heq
    · exact h.free hold

/-- A name that is held stays held when a header of another number is merged. -/
theorem merge {header : Header} (h : x.Holds number name pos) (hne : number ≠ taken) :
    (x.merge header taken).Holds number name pos where
  read := by
    rw [Journal.merge_names]
    exact h.read
  free hmem := by
    rcases Journal.merge_numbers with hsame | hmore
    · exact h.free (hsame.mem_iff.mp hmem)
    · rcases List.mem_cons.mp (hmore.mem_iff.mp hmem) with heq | hold
      · exact hne heq
      · exact h.free hold

end Journal.Holds

/-! ## Parameters of a definition -/

namespace Journal

variable {scope : ScopeId}

/-- Enter a parameter, if it is the one its procedure has by that name. -/
def recordParam (scope : ScopeId) (x : Journal stream) (p : Parse.NumberedParam) :
    Journal stream :=
  match x.table.lookupLocal scope p.param.name with
  | some symbol =>
    if x.table.siteOf? symbol = some p.param.pos then x.record p.number symbol p.param.pos else x
  | none => x

def recordParams (x : Journal stream) (scope : ScopeId) (params : List Parse.NumberedParam) :
    Journal stream :=
  params.foldl (recordParam scope) x

/-- A parameter is entered, or everything stays. -/
theorem recordParam_cases (x : Journal stream) (scope : ScopeId) (p : Parse.NumberedParam) :
    x.recordParam scope p = x ∨ ∃ symbol, x.table.lookupLocal scope p.param.name = some symbol ∧
      x.recordParam scope p = x.record p.number symbol p.param.pos := by
  unfold recordParam
  cases x.table.lookupLocal scope p.param.name with
  | none => exact .inl rfl
  | some symbol =>
      dsimp only
      split
      · exact .inr ⟨symbol, rfl, rfl⟩
      · exact .inl rfl

/-- The parser enters parameters as the journal does. -/
theorem recordParams_run {α : Type} (x : Journal stream) (scope : ScopeId)
    (params : List Parse.NumberedParam) (next : Parse α) :
    (params.forM (Parse.recordParam scope) >>= fun _ => next) x.state =
      next (x.recordParams scope params).state := by
  have hparam : ∀ (y : Journal stream) (p : Parse.NumberedParam),
      Parse.recordParam scope p y.state = .ok ⟨⟩ (y.recordParam scope p).state := by
    intro y p
    show (match y.table.lookupLocal scope p.param.name with
      | some symbol =>
        if y.table.siteOf? symbol = some p.param.pos then
          Parse.recordAt p.number symbol p.param.pos .declaration
        else Pure.pure ()
      | none => Pure.pure () : Parse Unit) y.state = _
    unfold recordParam
    cases y.table.lookupLocal scope p.param.name with
    | none => rfl
    | some symbol =>
        dsimp only
        split <;> rfl
  have hall : params.forM (Parse.recordParam scope) x.state =
      .ok ⟨⟩ (x.recordParams scope params).state := by
    induction params generalizing x with
    | nil => rfl
    | cons p rest ih =>
        show EStateM.bind _ _ x.state = _
        simp only [EStateM.bind, hparam]
        exact ih _
  show EStateM.bind _ _ x.state = _
  simp only [EStateM.bind, hall]

theorem recordParams_turns {least : Nat} {params : List Parse.NumberedParam}
    (hx : x.scope = some scope) (hparams : x.HoldsParams least params) :
    Turns x (x.recordParams scope params) := by
  induction params generalizing x with
  | nil => exact .refl
  | cons p rest ih =>
      obtain ⟨hfirst, hordered⟩ := List.pairwise_cons.mp hparams.ordered
      obtain ⟨hp, hheld⟩ := List.forall_mem_cons.mp hparams.held
      have hleast := (List.forall_mem_cons.mp hparams.least_le).2
      show Turns x ((x.recordParam scope p).recordParams scope rest)
      obtain heq | ⟨symbol, hfound, heq⟩ := x.recordParam_cases scope p
      · rw [heq]
        exact ih hx ⟨hordered, hleast, hheld⟩
      · rw [heq]
        have hne := (SymbolTable.binds_of_lookupLocal hfound).1.ne_builtin
        refine .head (.param x hx hp hfound) (ih hx ⟨hordered, hleast, fun q hq => ?_⟩)
        exact (hheld q hq).record (Nat.ne_of_gt (hfirst q hq)) hne

/-- Only the ledger has the parameters. -/
theorem recordParams_eq (x : Journal stream) (scope : ScopeId)
    (params : List Parse.NumberedParam) : (x.recordParams scope params).scope = x.scope ∧
      (x.recordParams scope params).headers = x.headers ∧
      (x.recordParams scope params).names = x.names ∧
      (x.recordParams scope params).table = x.table := by
  induction params generalizing x with
  | nil => exact ⟨rfl, rfl, rfl, rfl⟩
  | cons p rest ih =>
      have hstep : x.recordParams scope (p :: rest) =
          (x.recordParam scope p).recordParams scope rest := rfl
      obtain heq | ⟨symbol, _, heq⟩ := x.recordParam_cases scope p
      · rw [hstep, heq]
        exact ih x
      · rw [hstep, heq]
        exact ih (x.record p.number symbol p.param.pos)

end Journal

/-! ## Passes -/

/-- What is done at a time while a unit is read, the parameters of a definition
with its header. -/
inductive Pass : Journal stream → Journal stream → Prop where
  | inner {x y : Journal stream} (h : InnerTurn x y) : Pass x y
  /-- A header that defines nothing. -/
  | merge (x : Journal stream) (header : Header) {number : Nat} (hx : x.scope = none)
      (held : x.Holds number header.name header.pos)
      (hv : ∀ index, (x.table.declare header).verdict ≠ .define index) :
      Pass x (x.merge header number)
  | define (x : Journal stream) (header : Header) {number index : Nat}
      {params : List Parse.NumberedParam} (hx : x.scope = none)
      (held : x.Holds number header.name header.pos) (hparams : x.HoldsParams (number + 1) params)
      (hheader : header.params = params.map Parse.NumberedParam.param)
      (hv : (x.table.declare header).verdict = .define index) :
      Pass x ((x.merge header number).recordParams (.proc index) params)
  /-- A rejected header whose body comes next. -/
  | discard (x : Journal stream) (header : Header) {scope : ScopeId} {table : SymbolTable}
      {problems : List Diagnostic} (hx : x.scope = none)
      (declared : x.table.declareDiscarded header = .ok (scope, table, problems)) :
      Pass x (((x.setTable table).report problems).enter (some scope))
  /-- The end of a body. -/
  | attach (x : Journal stream) {scope : ScopeId} (code : Code) (first last : Position)
      (hx : x.scope = some scope) :
      Pass x ((x.setTable (x.table.modifyScope scope (·.withBody code first last))).enter none)

abbrev Passes : Journal stream → Journal stream → Prop := Relation.ReflTransGen Pass

theorem Journal.merge_scope {header : Header} {number index : Nat}
    (hv : (x.table.declare header).verdict = .define index) :
    (x.merge header number).scope = some (.proc index) := by
  simp [merge, hv]

theorem Pass.turns (h : Pass x y) : Turns x y := by
  cases h with
  | inner h => exact .single (.inner h)
  | merge header hx held hv => exact .single (.merge x header hx held)
  | @define header number index params hx held hparams hheader hv =>
      have hlater : (x.merge header number).HoldsParams (number + 1) params :=
        ⟨hparams.ordered, hparams.least_le, fun p hp =>
          (hparams.held p hp).merge (by have := hparams.least_le p hp; omega)⟩
      exact .head (.merge x header hx held)
        (Journal.recordParams_turns (Journal.merge_scope hv) hlater)
  | discard header hx declared => exact .single (.discard x header hx declared)
  | attach code first last hx => exact .single (.attach x code first last hx)

theorem Passes.turns (h : Passes x y) : Turns x y := by
  induction h with
  | refl => exact .refl
  | tail _ hstep ih => exact ih.trans hstep.turns

theorem InnerTurns.passes (h : InnerTurns x y) : Passes x y :=
  Relation.ReflTransGen.mono (fun _ _ => Pass.inner) x y h

end SslFrontend
