import SslFrontend.Proofs.Symbol.Linkage
import SslFrontend.Proofs.Twin.Statement

/-! # Procedures side by side

Two runs read the same procedure.  `Comparison.OfUnits` says what headers and
bodies do to records that are alike; with it a procedure of the left run is one
of the right run.
-/

namespace SslFrontend

/-! ## What is done to the records of a unit -/

namespace Records

def reserved (r : Records) : Records := { r with ledger := r.ledger.reserve.2 }

def entered (r : Records) (number : Nat) (symbol : Symbol) (pos : Position) : Records :=
  { r with ledger := r.ledger.recordAt number symbol pos .declaration }

def headed (r : Records) (declared : Declared) : Records :=
  { r with
    table := declared.table
    problems := ⟨r.problems.items ++ declared.problems⟩ }

def disowned (r : Records) (table : SymbolTable) (problems : List Diagnostic) : Records :=
  { r with
    table := table
    problems := ⟨r.problems.items ++ problems⟩ }

def attached (r : Records) (scope : ScopeId) (start finish : Position) (code : Code) : Records :=
  { r with table := r.table.modifyScope scope fun p =>
      { p with
        body := code ++ [⟨.ret, .int 0, finish⟩]
        defined := true
        span := some (start, finish) } }

end Records

/-- The mention of a parameter is entered if its procedure has the parameter. -/
theorem Parse.recordParam_eq (scope : ScopeId) (p : NumberedParam) (s : ParserState) :
    recordParam scope p s =
      match s.table.symbolOf? scope p.param with
      | some symbol => recordAt p.number symbol p.param.pos .declaration s
      | none => .ok ⟨⟩ s := by
  have hlook : ∀ (k : SymbolTable → Parse Unit), (Parse.table >>= k) s = k s.table s :=
    fun _ => rfl
  unfold recordParam SymbolTable.symbolOf?
  rw [hlook]
  cases s.table.lookupLocal scope p.param.name with
  | none => rfl
  | some symbol =>
      by_cases hsite : s.table.siteOf? symbol = some p.param.pos
      · simp only [Option.filter_some, hsite, decide_true, ↓reduceIte]
      · simp only [Option.filter_some, hsite, decide_false, ↓reduceIte]
        rfl

namespace Comparison

/-! ## What a unit does to alike records -/

/-- Both verdicts ask for the same, about one and the same procedure. -/
inductive Verdicts (C : Comparison) (r r' : Records) : Verdict → Verdict → Prop
  | define {i j : Nat} (hs : C.scope (some (.proc i)) (some (.proc j)))
      (h : C.symbol r r' (.proc i) (.proc j)) : Verdicts C r r' (.define i) (.define j)
  | announce {i j : Nat} (h : C.symbol r r' (.proc i) (.proc j)) :
      Verdicts C r r' (.announce i) (.announce j)
  | unnamed (h : C.seam.tolerant = false) : Verdicts C r r' (.reject none) (.reject none)
  | named {i j : Nat} (h : C.seam.tolerant = false) (hs : C.symbol r r' (.proc i) (.proc j)) :
      Verdicts C r r' (.reject (some i)) (.reject (some j))

/-- Both open a scope for the body of a rejected header, or both fail alike. -/
inductive Disowns (C : Comparison) (r r' : Records) :
    Except Diagnostic (ScopeId × SymbolTable × List Diagnostic) →
    Except Diagnostic (ScopeId × SymbolTable × List Diagnostic) → Prop
  | scope {σ τ : ScopeId} {t u : SymbolTable} {ds ds' : List Diagnostic}
      (hs : C.scope (some σ) (some τ))
      (hg : C.Grown r r' (r.disowned t ds) (r'.disowned u ds')) :
      Disowns C r r' (.ok (σ, t, ds)) (.ok (τ, u, ds'))
  | refused {d d' : Diagnostic} (h : C.seam.Alike d d') : Disowns C r r' (.error d) (.error d')

/-- What headers and bodies do to alike records in both runs leaves them alike, if
the table of the left run is `ready` for a header. -/
structure OfUnits (C : Comparison) (ready : SymbolTable → Prop) : Prop where
  stays : HoldsInside none fun s s' => ready s.table → ready s'.table
  reserve : ∀ {r r'}, C.data r r' → C.Grown r r' r.reserved r'.reserved ∧
    C.number r.reserved r'.reserved r.ledger.next r'.ledger.next
  enter : ∀ {r r' n n' a b} pos, C.data r r' → C.number r r' n n' → C.symbol r r' a b →
    C.Grown r r' (r.entered n a pos) (r'.entered n' b pos)
  declare : ∀ {r r' h h'}, ready r.table → C.data r r' → C.Headers r r' h h' →
    (∃ n ∈ C.taken, (r.table.declare h).table.HasGlobal n) ∨
      (C.seam.tolerant = true ∧ ∃ d ∈ (r.table.declare h).problems, d.isError = true) ∨
      C.Grown r r' (r.headed (r.table.declare h)) (r'.headed (r'.table.declare h')) ∧
        C.Verdicts (r.headed (r.table.declare h)) (r'.headed (r'.table.declare h'))
          (r.table.declare h).verdict (r'.table.declare h').verdict
  param : ∀ {r r' σ τ p p'}, C.data r r' → C.scope (some σ) (some τ) → C.Params r r' p p' →
    Option.Rel (C.symbol r r') (r.table.symbolOf? σ p) (r'.table.symbolOf? τ p')
  attach : ∀ {r r' σ τ a b} start finish, C.data r r' → C.scope (some σ) (some τ) →
    C.Codes r r' a b → C.Grown r r' (r.attached σ start finish a) (r'.attached τ start finish b)
  disown : ∀ {r r' h h'}, C.seam.tolerant = false → C.data r r' → C.Headers r r' h h' →
    C.Disowns r r' (r.table.declareDiscarded h) (r'.table.declareDiscarded h')

variable {C : Comparison} {ready : SymbolTable → Prop} {s t s' t' : ParserState}

open Agree (less_of_check)
open Parse (Along)

/-! ## Parameters -/

/-- Both answer with a constant, alike, or with none. -/
def SameDefault (C : Comparison) (s t : ParserState) : Option Value → Option Value → Prop :=
  Option.Rel (C.value s.records t.records)

theorem paramDefault_agree (h : C.Pair s t) :
    C.Agree (Sure _) C.SameDefault Parse.paramDefault Parse.paramDefault s t := by
  refine (initializer_agree C.top h).next fun s₁ t₁ init init' h₁ hinit => ?_
  cases hinit with
  | none => exact .pure h₁.pair .none
  | @some found found' hfound =>
      obtain ⟨code, start⟩ := found
      obtain ⟨code', start'⟩ := found'
      obtain ⟨hcode, hstart⟩ := hfound
      dsimp only at hcode hstart ⊢
      subst hstart
      have hconstant := C.constant hcode
      generalize code.constant? = v, code'.constant? = w at hconstant
      cases hconstant with
      | some hvalue => exact .pure h₁.pair (.some hvalue)
      | none => exact .report h₁.pair (.refl rfl) fun h₂ => .pure h₂.pair (.some C.literal)

/-- One and the same parameter in both runs, with its number. -/
def SameParam (C : Comparison) (s t : ParserState) (p p' : Parse.NumberedParam) : Prop :=
  C.Params s.records t.records p.param p'.param ∧
    C.number s.records t.records p.number p'.number

theorem Later.param (h : C.Later s t s' t') {p p' : Parse.NumberedParam}
    (hp : C.SameParam s t p p') : C.SameParam s' t' p p' :=
  ⟨h.grown.params hp.1, h.grown.number hp.2⟩

def SameParams (C : Comparison) (s t : ParserState) :
    List Parse.NumberedParam → List Parse.NumberedParam → Prop :=
  List.Forall₂ (C.SameParam s t)

theorem Later.params (h : C.Later s t s' t') {a b : List Parse.NumberedParam}
    (hab : C.SameParams s t a b) : C.SameParams s' t' a b :=
  hab.imp fun _ _ => h.param

/-- Both take a number, alike. -/
def SameNumber (C : Comparison) (s t : ParserState) : Nat → Nat → Prop :=
  C.number s.records t.records

theorem reserve_agree (hu : C.OfUnits ready) (h : C.Pair s t) :
    C.Agree (Sure _) C.SameNumber Parse.reserve Parse.reserve s t := by
  obtain ⟨hgrown, hnumber⟩ := hu.reserve h.data
  exact .inr ⟨t.ledger.next, { t with ledger := t.ledger.reserve.2 }, rfl,
    h.records rfl rfl hgrown, hnumber⟩

theorem isNone_of_rel {α β : Type} {R : α → β → Prop} {a : Option α} {b : Option β}
    (h : Option.Rel R a b) : b.isNone = a.isNone := by
  cases h <;> rfl

/-- As many parameters have defaults. -/
theorem any_default {params params' : List Parse.NumberedParam}
    (h : C.SameParams s t params params') :
    params'.any (·.param.default.isSome) = params.any (·.param.default.isSome) := by
  induction h with
  | nil => rfl
  | @cons p p' _ _ hp _ ih =>
      have hnone := isNone_of_rel hp.1.default
      rw [List.any_cons, List.any_cons, ih]
      rw [← Option.not_isNone, ← Option.not_isNone, hnone]

/-- A parameter from its name on. -/
def namedParameter (before : List Parse.NumberedParam) : Parse Parse.NumberedParam := do
  let (name, pos) ← Parse.expectIdent
  let number ← Parse.reserve
  let default ← Parse.paramDefault
  if default.isNone && before.any (·.param.default.isSome) then
    Parse.report (.error .requiredAfterOptional
      s!"required parameter `{name}` follows an optional one" pos "needs a default value")
  return ⟨⟨name, pos, default⟩, number⟩

theorem parameter_agree (hu : C.OfUnits ready) {before before' : List Parse.NumberedParam}
    (h : C.Pair s t) (hb : C.SameParams s t before before') :
    C.Agree (Sure _) C.SameParam (Parse.parameter before) (Parse.parameter before') s t := by
  by_cases hg : C.seam.Gone s.cursor
  · -- there is no name at the seam
    have hvariable := h.check_gone_keyword hg .kwVariable (by simp)
    have hident : ∀ name, s.cursor.kind ≠ .ident name := by
      intro name hk
      rcases h.joins.gone_kind hg with ⟨hend, -⟩ | hend
      · rw [hk] at hend; cases hend
      · rw [hk] at hend; cases hend
    refine .gone (e := .noName s.cursor.current) (u := s) ?_ (.refl _) hg
    have heat : Parse.eat (.keyword .kwVariable) s = .ok false s := by
      rw [Parse.eat_eq, if_neg (by simp [hvariable])]
    unfold Parse.parameter
    rw [Parse.discard_bind, Parse.bind_ok heat]
    show EStateM.bind Parse.expectIdent _ s = _
    rw [EStateM.bind, ParserState.expectIdent_eq_error hident]
  have hname : ∀ {s₁ t₁ : ParserState}, C.Later s t s₁ t₁ → C.Agree (Sure _) C.SameParam
      (namedParameter before) (namedParameter before') s₁ t₁ := by
    intro s₁ t₁ h₁
    refine .expectIdent h₁.pair fun name _ h₂ => ?_
    refine (reserve_agree hu h₂.pair).next fun s₃ t₃ n n' h₃ hn => ?_
    refine (paramDefault_agree h₃.pair).next fun s₄ t₄ v w h₄ hvw => ?_
    have hsame : ∀ {s t : ParserState}, C.Later s₄ t₄ s t → C.SameParam s t
        ⟨⟨name, s₁.cursor.pos, v⟩, n⟩ ⟨⟨name, s₁.cursor.pos, w⟩, n'⟩ := fun h₅ =>
      h₅.param ⟨⟨rfl, rfl, hvw⟩, h₄.grown.number hn⟩
    have hdefaults : (w.isNone && before'.any (·.param.default.isSome)) =
        (v.isNone && before.any (·.param.default.isSome)) := by
      rw [isNone_of_rel hvw, any_default hb]
    rw [hdefaults]
    exact .ite Iff.rfl (fun _ => .report h₄.pair (.refl rfl) fun h₅ => .pure h₅.pair (hsame h₅))
      fun _ => .pure h₄.pair (hsame h₄.pair.refl)
  exact .discard (.eatAt h (h.check hg rfl) (fun _ => hg) (fun _ h₁ => hname h₁)
    fun _ => hname h.refl)

theorem parameters_agree (hu : C.OfUnits ready) (h : C.Pair s t) :
    C.Agree (Sure _) C.SameParams Parse.parameters Parse.parameters s t := by
  have hclose : ∀ {s t : ParserState} {a b : List Parse.NumberedParam}, C.Pair s t →
      C.SameParams s t a b → C.Agree (Sure _) C.SameParams
        (do
          discard <| Parse.expect (.mark .rparen)
          return a : Parse (List Parse.NumberedParam))
        (do
          discard <| Parse.expect (.mark .rparen)
          return b : Parse (List Parse.NumberedParam)) s t := fun hp hab =>
    .expected hp rfl fun _ h₁ => .pure h₁.pair (h₁.params hab)
  refine .eat h rfl (fun _ h₁ => .check rfl h₁.pair (.ite Iff.rfl (fun _ => ?_) fun _ => ?_))
    fun _ => .pure h .nil
  · exact hclose h₁.pair .nil
  · refine Agree.next (P := C.SameParams) ?_ fun _ _ _ _ h₂ hab => hclose h₂.pair hab
    refine .repeatSure (I := C.SameParams) (fun s₂ t₂ a b h₂ hab => ?_) h₁.pair .nil
    refine (parameter_agree hu h₂.pair hab).next fun s₃ t₃ p p' h₃ hp => ?_
    have hnext : C.SameParams s₃ t₃ (a ++ [p]) (b ++ [p']) :=
      List.rel_append (h₃.params hab) (.cons hp .nil)
    refine .eat h₃.pair rfl (fun hc h₄ => .pure h₄.pair ⟨h₄.params hnext, ?_⟩)
      fun _ => .pure h₃.pair hnext
    exact Nat.lt_of_lt_of_le (less_of_check hc rfl) h₃.rest_le

/-! ## Triggers -/

def SameTrigger (C : Comparison) (s t : ParserState) : Trigger → Trigger → Prop :=
  C.Triggers s.records t.records

/-- Both found a trigger, alike, or neither did. -/
def SameFound (C : Comparison) (s t : ParserState) : Option Trigger → Option Trigger → Prop :=
  Option.Rel (C.SameTrigger s t)

theorem Triggers.eq_none_iff {a b : Trigger} (h : C.SameTrigger s t a b) :
    b = .none ↔ a = .none := by
  cases h <;> simp

theorem timedTrigger_agree (pos : Position) (h : C.Pair s t) :
    C.Agree (Sure _) C.SameFound (Parse.timedTrigger pos) (Parse.timedTrigger pos) s t := by
  refine (expression_agree C.top h).next fun s₁ t₁ a b h₁ hab => ?_
  have hreport : C.Agree (Sure _) C.SameFound
      (do
        Parse.report (.error .badTriggerTime "trigger time must be a constant integer" pos
          "invalid trigger time")
        return none : Parse (Option Trigger))
      (do
        Parse.report (.error .badTriggerTime "trigger time must be a constant integer" pos
          "invalid trigger time")
        return none : Parse (Option Trigger)) s₁ t₁ :=
    .report h₁.pair (.refl rfl) fun h₂ => .pure h₂.pair .none
  have hconstant := C.constant hab
  generalize a.constant? = v, b.constant? = w at hconstant
  cases hconstant with
  | none => exact hreport
  | @some v w hvalue =>
      have hint := C.integer hvalue
      cases v with
      | int n =>
          cases w with
          | int m =>
              obtain rfl : n = m := by simpa [Value.int?] using hint
              exact .pure h₁.pair (.some (.timed n))
          | _ => cases hint
      | _ =>
          cases w with
          | int m => cases hint
          | _ => exact hreport

theorem keepFirst_agree {a b : Trigger} {found found' : Option Trigger} (pos : Position)
    (h : C.Pair s t) (hab : C.SameTrigger s t a b) (hfound : C.SameFound s t found found') :
    C.Agree (Sure _) C.SameTrigger (Parse.keepFirst a pos found) (Parse.keepFirst b pos found')
      s t := by
  cases hfound with
  | none => exact .pure h hab
  | some hnew =>
      refine .ite (Triggers.eq_none_iff hab) (fun _ => .pure h hnew) fun _ => ?_
      exact .report h (.refl rfl) fun h₁ => .pure h₁.pair (h₁.grown.triggers hab)

theorem trigger_agree (h : C.Pair s t) :
    C.Agree (Sure _) C.SameTrigger Parse.trigger Parse.trigger s t := by
  refine .repeatSure (I := C.SameTrigger) (fun s₁ t₁ a b h₁ hab => .pos (.kind ?_)) h .none
  by_cases hin : s₁.cursor.kind = .keyword .kwIn
  · obtain ⟨hg, -, hless⟩ := h₁.pair.reads hin rfl
    rw [h₁.joins.kind_eq hg (by rw [hin]; rfl), hin, h₁.joins.pos hg]
    refine .skip h₁.pair hg fun h₂ => (timedTrigger_agree _ h₂.pair).next
      fun s₃ t₃ x y h₃ hxy => ?_
    refine (keepFirst_agree _ h₃.pair ((h₂.trans h₃).grown.triggers hab) hxy).next
      fun s₄ t₄ x y h₄ hxy => .pure h₄.pair ⟨hxy, ?_⟩
    exact Nat.lt_of_le_of_lt (h₃.trans h₄).rest_le hless
  by_cases hwhen : s₁.cursor.kind = .keyword .kwWhen
  · obtain ⟨hg, -, hless⟩ := h₁.pair.reads hwhen rfl
    rw [h₁.joins.kind_eq hg (by rw [hwhen]; rfl), hwhen, h₁.joins.pos hg]
    refine .skip h₁.pair hg fun h₂ => (expression_agree C.top h₂.pair).next
      fun s₃ t₃ x y h₃ hxy => ?_
    refine (keepFirst_agree _ h₃.pair ((h₂.trans h₃).grown.triggers hab)
      (.some (.conditional hxy))).next fun s₄ t₄ x y h₄ hxy => .pure h₄.pair ⟨hxy, ?_⟩
    exact Nat.lt_of_le_of_lt (h₃.trans h₄).rest_le hless
  · have hright : t₁.cursor.kind ≠ .keyword .kwIn ∧ t₁.cursor.kind ≠ .keyword .kwWhen := by
      by_cases hg : C.seam.Gone s₁.cursor
      · rcases h₁.joins.gone_kind_right hg with hfront | heof
        · constructor <;> · intro hk; rw [hk] at hfront; cases hfront
        · rw [heof]
          exact ⟨(by simp), (by simp)⟩
      · exact ⟨fun hk => hin (h₁.joins.kind_of_right hg hk rfl),
          fun hk => hwhen (h₁.joins.kind_of_right hg hk rfl)⟩
    exact .via (f := Pure.pure (.inr a)) (g := Pure.pure (.inr b)) h₁.pair.refl
      (Parse.triggerRound_last a hin hwhen) (Parse.triggerRound_last b hright.1 hright.2)
      (.pure h₁.pair hab)

/-! ## Bodies -/

theorem attachBody_agree (hu : C.OfUnits ready) {σ τ : ScopeId} {a b : Code}
    (start finish : Position) (hs : C.scope (some σ) (some τ)) (h : C.Pair s t)
    (hab : C.SameCode s t a b) :
    C.Agree (Sure _) Done (Parse.attachBody σ start finish a) (Parse.attachBody τ start finish b)
      s t :=
  .inr ⟨⟨⟩, { t with table := (t.records.attached τ start finish b).table }, rfl,
    h.records rfl rfl (hu.attach start finish h.data hs hab), trivial⟩

theorem body_agree (hu : C.OfUnits ready) {σ τ : ScopeId} (hs : C.scope (some σ) (some τ))
    (hopens : Cursor.opens s.cursor.kind = true) (h : C.Pair s t) :
    C.Agree (C.MayLose _) Done (Parse.body σ) (Parse.body τ) s t := by
  have hon := ParserState.Onward.inside (some σ)
  have hg : ¬C.seam.Gone s.cursor :=
    h.not_gone (fun hk => by rw [hk] at hopens; cases hopens)
      fun hk => by rw [hk] at hopens; cases hopens
  have hless := skip_less (s := s) fun hk => by rw [hk] at hopens; cases hopens
  have hinside : C.Statements s.cursor.rest.length (Parse.statement ⟨some σ, false⟩)
      (Parse.statement ⟨some τ, false⟩) :=
    ⟨fun hp _ => statement_agree hs rfl hp, hon.statement_along rfl⟩
  refine .pos ?_
  rw [h.joins.pos hg]
  refine (openBlock_agree hinside hopens h).bind (fun s₁ t₁ a b hrun h₁ hab => .cursor ?_)
    fun a s₁ ha => ?_
  · have hread : s₁.cursor.rest.length < s.cursor.rest.length := by
      have hbehind : s.skip.cursor.Follows s₁.cursor := by
        have hafter := (hon.openBlock_behind hinside.along s).cursor
        unfold Parse.after at hafter
        rwa [hrun] at hafter
      have := hbehind.rest_length
      have := hbehind.position_le
      omega
    rw [h₁.previousPos h hread]
    refine (attachBody_agree hu s.cursor.pos s₁.cursor.previousPos hs h₁.pair hab.1).next
      fun s₂ t₂ _ _ h₂ _ => ?_
    obtain ⟨code, failure⟩ := a
    obtain ⟨code', failure'⟩ := b
    obtain ⟨-, hfailure⟩ := hab
    dsimp only at hfailure ⊢
    cases hfailure with
    | none => exact .pure h₂.pair trivial
    | some he => exact .raise h₂.pair he
  · have hattach : ∀ {finish : Position}, s₁.Onward
        ((Parse.attachBody σ s.cursor.pos finish a.code).after s₁) := fun {finish} =>
      ParserState.Onward.throughout.attachBody_along _ _ finish _ s₁
    obtain ⟨code, failure⟩ := a
    cases failure with
    | none =>
        rcases ha with hlost | ⟨hfail, -⟩
        · exact hlost.onward hattach
        · cases hfail
    | some e =>
        rcases ha with hlost | ⟨-, hw⟩
        · exact (hlost.onward hattach).fails
        · exact .inl hw

/-- Nothing is read. -/
def Still (s : ParserState) : ParserState → ParserState → Unit → Unit → Prop :=
  fun s' _ _ _ => s'.cursor = s.cursor

theorem recordAt_agree (hu : C.OfUnits ready) {n n' : Nat} {a b : Symbol} (pos : Position)
    (h : C.Pair s t) (hn : C.SameNumber s t n n') (hab : C.symbol s.records t.records a b) :
    C.Agree (Sure _) (Still s) (Parse.recordAt n a pos .declaration)
      (Parse.recordAt n' b pos .declaration) s t :=
  .inr ⟨⟨⟩, { t with ledger := t.ledger.recordAt n' b pos .declaration }, rfl,
    h.records rfl rfl (hu.enter pos h.data hn hab), rfl⟩

theorem recordParam_agree (hu : C.OfUnits ready) {σ τ : ScopeId} {p p' : Parse.NumberedParam}
    (hs : C.scope (some σ) (some τ)) (h : C.Pair s t) (hp : C.SameParam s t p p') :
    C.Agree (Sure _) (Still s) (Parse.recordParam σ p) (Parse.recordParam τ p') s t := by
  have hsymbol : Option.Rel (C.symbol s.records t.records) (s.table.symbolOf? σ p.param)
      (t.table.symbolOf? τ p'.param) := hu.param h.data hs hp.1
  have hleft := Parse.recordParam_eq σ p s
  have hright := Parse.recordParam_eq τ p' t
  generalize s.table.symbolOf? σ p.param = a at hleft hsymbol
  generalize t.table.symbolOf? τ p'.param = b at hright hsymbol
  cases hsymbol with
  | none => exact .via (f := pure ⟨⟩) (g := pure ⟨⟩) h.refl hleft hright (.pure h rfl)
  | @some a b hab =>
      rw [hp.1.pos] at hright
      exact .via h.refl hleft hright (recordAt_agree hu _ h hp.2 hab)

theorem recordParams_agree (hu : C.OfUnits ready) {σ τ : ScopeId}
    {params params' : List Parse.NumberedParam} (hs : C.scope (some σ) (some τ)) (h : C.Pair s t)
    (hp : C.SameParams s t params params') :
    C.Agree (Sure _) (Still s) (params.forM (Parse.recordParam σ))
      (params'.forM (Parse.recordParam τ)) s t := by
  induction params generalizing params' s t with
  | nil =>
      cases hp
      exact .pure h rfl
  | cons p rest ih =>
      cases hp with
      | cons hfirst hrest =>
          refine (recordParam_agree hu hs h hfirst).next fun s₁ t₁ _ _ h₁ hstill => ?_
          exact (ih h₁.pair (h₁.params hrest)).weaken (fun _ _ => id)
            fun _ _ _ _ _ hstill' => hstill'.trans hstill

/-! ## Verdicts -/

/-- Both stand in front of a body that is read in alike scopes, or there is none to
read. -/
def SameScope (C : Comparison) (s _ : ParserState) (σ τ : Option ScopeId) : Prop :=
  C.scope σ τ ∧ (σ.isSome = true → Cursor.opens s.cursor.kind = true)

theorem bodyIn_agree (hu : C.OfUnits ready) {σ τ : Option ScopeId} (hs : C.SameScope s t σ τ)
    (h : C.Pair s t) : C.Agree (C.MayLose _) Done (Parse.bodyIn σ) (Parse.bodyIn τ) s t := by
  have hsome := C.nested hs.1
  cases σ with
  | none => cases τ with
    | none => exact .pure h trivial
    | some τ => cases hsome
  | some σ => cases τ with
    | none => cases hsome
    | some τ => exact body_agree hu hs.1 (hs.2 rfl) h

theorem disown_agree (hu : C.OfUnits ready) {header header' : Header}
    (ht : C.seam.tolerant = false) (hopens : Cursor.opens s.cursor.kind = true)
    (hh : C.Headers s.records t.records header header') (h : C.Pair s t) :
    C.Agree (C.MayLose _) C.SameScope (Parse.disown header) (Parse.disown header') s t := by
  have hlook : ∀ (k : SymbolTable → Parse (Option ScopeId)) (s : ParserState),
      (Parse.table >>= k) s = k s.table s := fun _ _ => rfl
  have hdisown : C.Disowns s.records t.records (s.table.declareDiscarded header)
      (t.table.declareDiscarded header') := hu.disown ht h.data hh
  unfold Parse.disown
  refine .via h.refl (hlook _ s) (hlook _ t) ?_
  generalize ha : s.table.declareDiscarded header = a at hdisown
  generalize t.table.declareDiscarded header' = b at hdisown
  cases hdisown with
  | @scope σ τ table table' ds ds' hs hg =>
      have hlater : C.Later s t
          { s with table := table, problems := ⟨s.problems.items ++ ds⟩ }
          { t with table := table', problems := ⟨t.problems.items ++ ds'⟩ } :=
        h.records rfl rfl hg
      exact .inr ⟨some τ, _, rfl, hlater, hs, fun _ => hopens⟩
  | @refused d d' hd =>
      refine .report h hd fun h₁ => ?_
      by_cases hg : C.seam.Gone s.cursor.skipBlock
      · -- the block that is skipped ends behind the seam
        refine .escape (.inr (.inl ⟨.of_gone hg, d, ?_, SymbolTable.isError_of_declareDiscarded ha⟩))
        simp [Queue.push]
      · have hlater := h₁.pair.move s.cursor.follows_skipBlock t.cursor.follows_skipBlock
          (h.joins.skipBlock hg)
        exact .inr ⟨none, _, rfl, hlater, C.top, (by simp)⟩

/-- A header with a body stands in front of the body. -/
theorem heed_agree (hu : C.OfUnits ready) {header header' : Header} {verdict verdict' : Verdict}
    {params params' : List Parse.NumberedParam} {n n' : Nat}
    (hopens : header.hasBody = true → Cursor.opens s.cursor.kind = true)
    (hdefine : ∀ i, verdict = .define i → header.hasBody = true)
    (hv : C.Verdicts s.records t.records verdict verdict')
    (hh : C.Headers s.records t.records header header') (hp : C.SameParams s t params params')
    (hn : C.SameNumber s t n n') (h : C.Pair s t) :
    C.Agree (C.MayLose _) C.SameScope (Parse.heed header params n verdict)
      (Parse.heed header' params' n' verdict') s t := by
  have hnone : ∀ {s t : ParserState}, C.SameScope s t none none := ⟨C.top, nofun⟩
  have hbody : ∀ {s₁ t₁ : ParserState}, C.seam.tolerant = false → C.Later s t s₁ t₁ →
      s₁.cursor = s.cursor → C.Agree (C.MayLose _) C.SameScope
        (if header.hasBody then Parse.disown header else pure none)
        (if header'.hasBody then Parse.disown header' else pure none) s₁ t₁ := by
    intro s₁ t₁ ht h₁ hcursor
    rw [hh.hasBody]
    refine .ite Iff.rfl (fun hb => ?_) fun _ => .pure h₁.pair hnone
    refine disown_agree hu ht ?_ (h₁.grown.headers hh) h₁.pair
    rw [hcursor]
    exact hopens hb
  cases hv with
  | @define i j hs hsymbol =>
      have hopen := hopens (hdefine i rfl)
      unfold Parse.heed
      rw [hh.pos]
      refine (recordAt_agree hu _ h hn hsymbol).next fun s₁ t₁ _ _ h₁ hstill => ?_
      refine (recordParams_agree hu hs h₁.pair (h₁.params hp)).next fun s₂ t₂ _ _ h₂ hstill' => ?_
      refine .pure h₂.pair ⟨hs, fun _ => ?_⟩
      rw [hstill'.trans hstill]
      exact hopen
  | announce hsymbol =>
      unfold Parse.heed
      rw [hh.pos]
      exact (recordAt_agree hu _ h hn hsymbol).next fun _ _ _ _ h₁ _ => .pure h₁.pair hnone
  | unnamed ht =>
      unfold Parse.heed
      exact .pureBind (hbody ht h.refl rfl)
  | named ht hsymbol =>
      unfold Parse.heed
      rw [hh.pos]
      exact (recordAt_agree hu _ h hn hsymbol).next fun s₁ t₁ _ _ h₁ hstill => hbody ht h₁ hstill

/-- The header of a procedure, when all of it is read. -/
theorem enter_agree (hu : C.OfUnits ready) {header header' : Header}
    {params params' : List Parse.NumberedParam} {n n' : Nat} (hready : ready s.table)
    (hopens : header.hasBody = true → Cursor.opens s.cursor.kind = true)
    (hh : C.Headers s.records t.records header header') (hp : C.SameParams s t params params')
    (hn : C.SameNumber s t n n') (h : C.Pair s t) :
    C.Agree (C.MayLose _) C.SameScope (Parse.enter header params n)
      (Parse.enter header' params' n') s t := by
  have hrun : ∀ (header : Header) (params : List Parse.NumberedParam) (n : Nat) (s : ParserState),
      Parse.enter header params n s =
      Parse.heed header params n (s.table.declare header).verdict
        { s with
          table := (s.table.declare header).table
          problems := ⟨s.problems.items ++ (s.table.declare header).problems⟩ } :=
    fun _ _ _ _ => rfl
  have hlost : C.Lost { s with
        table := (s.table.declare header).table
        problems := ⟨s.problems.items ++ (s.table.declare header).problems⟩ } →
      C.Agree (C.MayLose _) C.SameScope (Parse.enter header params n)
        (Parse.enter header' params' n') s t := by
    intro hlost
    have hescape := hlost.escapes
      (ParserState.Onward.throughout.heed_along header params n (s.table.declare header).verdict)
    refine .escape ?_
    unfold Escapes at hescape ⊢
    rwa [hrun]
  rcases hu.declare hready h.data hh with htaken | ⟨htolerant, d, hd, he⟩ | ⟨hgrown, hverdict⟩
  · exact hlost (.inr (.inr htaken))
  · exact hlost (.inr (.inl ⟨.inl htolerant, d, List.mem_append_right _ hd, he⟩))
  · have hlater : C.Later s t
        { s with
          table := (s.table.declare header).table
          problems := ⟨s.problems.items ++ (s.table.declare header).problems⟩ }
        { t with
          table := (t.table.declare header').table
          problems := ⟨t.problems.items ++ (t.table.declare header').problems⟩ } :=
      h.records rfl rfl hgrown
    refine .via hlater (hrun header params n s) (hrun header' params' n' t) ?_
    exact heed_agree hu hopens (fun i hi => SymbolTable.hasBody_of_declare hi) hverdict
      (hlater.grown.headers hh) (hlater.params hp) (hlater.grown.number hn) hlater.pair

theorem entry_agree (hu : C.OfUnits ready) (q : Qualifiers) (hready : ready s.table)
    (hk : s.cursor.kind = .keyword .kwProcedure) (h : C.Pair s t) :
    C.Agree (C.MayLose _) C.SameScope (Parse.entry q) (Parse.entry q) s t := by
  obtain ⟨hg, -, -⟩ := h.reads hk rfl
  refine .skip h hg fun h₁ => .expectIdent h₁.pair fun name _ h₂ => ?_
  refine (reserve_agree hu h₂.pair).bind (fun s₃ t₃ n n' hreserve h₃ hn => ?_) fun _ _ h => h.elim
  have hready : ready s₃.table := by
    cases hreserve
    exact hready
  refine (parameters_agree hu h₃.pair).bind (fun s₄ t₄ params params' hparams h₄ hp => ?_)
    fun _ _ h => h.elim
  refine (trigger_agree h₄.pair).bind (fun s₅ t₅ trigger trigger' htrigger h₅ ht => .kind ?_)
    fun _ _ h => h.elim
  have hready : ready s₅.table := by
    have hreserve : Along (fun s s' => ready s.table → ready s'.table) Parse.reserve :=
      fun _ => id
    have hp := hu.stays.parameters_along hreserve s₃
    have ht := hu.stays.trigger_along s₄
    unfold Parse.after at hp ht
    rw [hparams] at hp
    rw [htrigger] at ht
    exact ht (hp hready)
  have hp := h₅.params hp
  have hn := (h₄.trans h₅).grown.number hn
  by_cases hg : C.seam.Gone s₅.cursor
  · -- a header that stops at the seam lacks its semicolon
    have hopens : Cursor.opens s₅.cursor.kind = false := by
      rcases h₅.joins.gone_kind hg with ⟨hk, -⟩ | hk <;> rw [hk] <;> rfl
    have hsemicolon : s₅.cursor.check (.mark .semicolon) = false :=
      (h₅.joins.check_gone hg rfl).1
    refine .gone (e := .expected s!"`{(TokenKind.mark .semicolon).friendlyName}`" s₅.cursor)
      (u := s₅) ?_ (.refl _) hg
    rw [hopens, Bool.not_false, if_pos rfl, Parse.discard_bind]
    show EStateM.bind (Parse.expect _) _ s₅ = _
    rw [EStateM.bind, Parse.expect_eq, if_neg (by simp [hsemicolon])]
  have hfinish : ∀ (hasBody : Bool) {s₆ t₆ : ParserState}, C.Later s₅ t₅ s₆ t₆ →
      s₆.table = s₅.table → (hasBody = true → Cursor.opens s₆.cursor.kind = true) →
      C.Agree (C.MayLose _) C.SameScope
        (Parse.enter ⟨name, s.skip.cursor.pos, q.modifiers, trigger,
          params.map Parse.NumberedParam.param, hasBody⟩ params n)
        (Parse.enter ⟨name, s.skip.cursor.pos, q.modifiers, trigger',
          params'.map Parse.NumberedParam.param, hasBody⟩ params' n') s₆ t₆ := by
    intro hasBody s₆ t₆ h₆ htable hopens
    have hheader : C.Headers s₆.records t₆.records
        ⟨name, s.skip.cursor.pos, q.modifiers, trigger, params.map Parse.NumberedParam.param,
          hasBody⟩
        ⟨name, s.skip.cursor.pos, q.modifiers, trigger', params'.map Parse.NumberedParam.param,
          hasBody⟩ :=
      ⟨rfl, rfl, rfl, h₆.grown.triggers ht, List.forall₂_map_left_iff.mpr
        (List.forall₂_map_right_iff.mpr ((h₆.params hp).imp fun _ _ h => h.1)), rfl⟩
    exact enter_agree hu (htable ▸ hready) hopens hheader (h₆.params hp) (h₆.grown.number hn)
      h₆.pair
  rw [h₅.joins.blind hg Cursor.opens rfl rfl]
  refine .ite Iff.rfl (fun hno => .expected h₅.pair rfl fun _ h₆ => ?_) fun _ => ?_
  · refine hfinish _ h₆ rfl fun hyes => ?_
    rw [hyes] at hno
    cases hno
  · exact hfinish _ h₅.pair.refl rfl id

theorem procedure_agree (hu : C.OfUnits ready) (q : Qualifiers) (hready : ready s.table)
    (hk : s.cursor.kind = .keyword .kwProcedure) (h : C.Pair s t) :
    C.Agree (C.MayLose _) Done (Parse.procedure q) (Parse.procedure q) s t := by
  rw [Parse.procedure_eq]
  exact (entry_agree hu q hready hk h).onward ParserState.Onward.throughout.bodyIn_along
    fun _ _ _ _ h₁ hs => bodyIn_agree hu hs h₁.pair

end Comparison

end SslFrontend
