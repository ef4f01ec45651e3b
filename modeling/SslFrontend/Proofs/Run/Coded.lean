import SslFrontend.Proofs.Run.Growth

/-! # The code of procedures

In every configuration of a run, each procedure that is defined has code of
whole statements with a `Return` behind it, each other one has no code, and each
condition is code of one value.  The leaves of a body are known in the scope of
its procedure, and those of a condition outside of procedures.
-/

namespace SslFrontend

variable {stream : TokenStream} {x y : Config stream}

/-- What is known of the code of a procedure. -/
structure Procedure.Coded (x : Config stream) (sc : ScopeId) (p : Procedure) : Prop where
  body : p.defined = true → ∃ code last, p.body = code ++ [⟨.ret, .int 0, last⟩] ∧
    stream.Has last ∧ Statements (x.vocabulary (some sc)) false code
  blank : p.defined = false → p.body = []
  span : ∀ first last, p.span = some (first, last) → stream.Has first ∧ stream.Has last
  condition : ∀ code, p.trigger = .conditional code → Values (x.vocabulary none) 1 code

namespace Procedure.Coded

variable {sc : ScopeId} {p q : Procedure}

/-- What is known of code stays known while the scope keeps its locals. -/
theorem later (h : p.Coded x sc) {keep : ScopeId → Prop} (hxy : x.Extends keep y)
    (hk : p.defined = true → keep sc) (hq : q.coding = p.coding) : q.Coded y sc := by
  simp only [Procedure.coding, Prod.mk.injEq] at hq
  obtain ⟨hbody, hdefined, htrigger, hspan⟩ := hq
  constructor
  · intro hd
    rw [hdefined] at hd
    obtain ⟨code, last, hcode, hlast, hshape⟩ := h.body hd
    refine ⟨code, last, hbody.trans hcode, hlast, hshape.mono (Config.vocabulary_le hxy ?_)⟩
    rintro _ ⟨⟩
    exact hk hd
  · exact fun hd => hbody.trans (h.blank (hdefined ▸ hd))
  · exact fun first last hs => h.span first last (hspan ▸ hs)
  · intro code hc
    exact (h.condition code (htrigger ▸ hc)).mono (Config.vocabulary_le hxy (by simp))

end Procedure.Coded

/-- What is known of all code in a table.  A procedure whose body is being read
is there, and has no code. -/
structure Config.Coded (x : Config stream) : Prop where
  procedure : ∀ {sc p}, x.table.scope? sc = some p → p.Coded x sc
  current : ∀ {sc}, x.scope = some sc →
    ∃ p, x.table.scope? sc = some p ∧ p.defined = false

namespace Config.Coded

theorem start (stream : TokenStream) : (Config.start stream).Coded := by
  constructor
  · intro sc p hp
    cases sc <;> cases hp
  · exact nofun

/-- A procedure that was there before a header, or is new. -/
theorem of_header {header : Header} (h : x.Coded) (hxy : x.Extends x.Settled y)
    (hread : x.HasRead header) {sc : ScopeId} {q : Procedure}
    (hq : (∃ p, x.table.scope? sc = some p ∧ SymbolTable.Recoded header p q) ∨
      (x.table.scope? sc = none ∧ SymbolTable.Blank header q)) : q.Coded y sc := by
  have hcondition : ∀ code, header.trigger = .conditional code →
      Values (y.vocabulary none) 1 code :=
    fun code hc => (hread.condition code hc).mono (Config.vocabulary_le hxy (by simp))
  rcases hq with ⟨p, hp, hrecoded⟩ | ⟨_, hblank⟩
  · have hcoded := (h.procedure hp).later (q := p) hxy (fun hd => ⟨p, hp, .inr hd⟩) rfl
    constructor
    · rw [hrecoded.defined, hrecoded.body]
      exact hcoded.body
    · rw [hrecoded.defined, hrecoded.body]
      exact hcoded.blank
    · rw [hrecoded.span]
      exact hcoded.span
    · rcases hrecoded.trigger with ht | ht <;> rw [ht]
      · exact hcoded.condition
      · exact hcondition
  · constructor
    · exact fun hd => absurd hd (by simp [hblank.defined])
    · exact fun _ => hblank.body
    · exact fun first last hs => absurd hs (by simp [hblank.span])
    · rcases hblank.trigger with ht | ht <;> rw [ht]
      · exact nofun
      · exact hcondition

theorem inner (h : x.Coded) (hs : InnerStep x y) : y.Coded where
  procedure := by
    intro sc q hq
    obtain ⟨p, hp, hcoding⟩ := hs.edits.sameCode.back hq
    exact (h.procedure hp).later hs.grows (fun _ => trivial) hcoding
  current := by
    intro sc hsc
    rw [hs.scope_eq] at hsc
    obtain ⟨p, hp, hdefined⟩ := h.current hsc
    obtain ⟨q, hq, _⟩ := hs.grows.table.scopes trivial hp
    obtain ⟨p', hp', hcoding⟩ := hs.edits.sameCode.back hq
    rw [hp] at hp'
    obtain rfl := Option.some.inj hp'
    exact ⟨q, hq, (Prod.mk.inj (Prod.mk.inj hcoding).2).1.trans hdefined⟩

/-- The procedure that was read has its body, and any other one what it had. -/
theorem attach (h : x.Coded) {scope : ScopeId} {code : Code} {first last : Position}
    (hx : x.scope = some scope) (site : stream.Has first) (site' : stream.Has last)
    (shape : Statements (x.vocabulary (some scope)) false code) :
    ((x.setTable (x.table.modifyScope scope (·.withBody code first last))).enter none).Coded := by
  -- The new code was read in a scope that is settled, whose locals stay.
  have hxy := (Step.attach x scope code hx site site' shape).extends
  constructor
  · intro sc q hq
    have hq : (x.table.modifyScope scope (·.withBody code first last)).scope? sc = some q := hq
    by_cases hsc : sc = scope
    · subst hsc
      rw [SymbolTable.scope?_modifyScope_self] at hq
      obtain ⟨p, hp, rfl⟩ := Option.map_eq_some_iff.mp hq
      constructor
      · refine fun _ => ⟨code, _, rfl, site', shape.mono (Config.vocabulary_le hxy ?_)⟩
        rintro _ ⟨⟩
        exact ⟨p, hp, .inl hx⟩
      · exact nofun
      · rintro first last ⟨⟩
        exact ⟨site, site'⟩
      · exact fun code hc => ((h.procedure hp).condition code hc).mono
          (Config.vocabulary_le hxy (by simp))
    · rw [SymbolTable.scope?_modifyScope_of_ne _ _ _ hsc] at hq
      exact (h.procedure hq).later hxy (fun hd => ⟨q, hq, .inr hd⟩) rfl
  · exact nofun

/-- One step keeps what is known of all code. -/
theorem step (h : x.Coded) (hstep : Step x y) : y.Coded := by
  have hxy := hstep.extends
  cases hstep with
  | inner hstep => exact h.inner hstep
  | announce header hx room read verdict =>
      constructor
      · exact fun hq => h.of_header hxy read
          ((SymbolTable.declare_spec _ header).coding hq)
      · intro sc hsc
        exact absurd (hx.symm.trans hsc) nofun
  | define header hx room read verdict =>
      have hspec := SymbolTable.declare_spec x.table header
      constructor
      · exact fun hq => h.of_header hxy read (hspec.coding hq)
      · rintro _ ⟨⟩
        rw [verdict] at hspec
        obtain ⟨q, hq⟩ := hspec.exists_of_define
        refine ⟨q, hq, ?_⟩
        rcases hspec.coding hq with ⟨p, hp, hrecoded⟩ | ⟨_, hblank⟩
        · exact hrecoded.defined.trans (hspec.open_of_define hp)
        · exact hblank.defined
  | discard header hx read declared =>
      constructor
      · exact fun hq => h.of_header hxy read
          (SymbolTable.declareDiscarded_coding declared hq)
      · rintro _ ⟨⟩
        obtain ⟨hnone, q, hq⟩ := SymbolTable.declareDiscarded_exists declared
        refine ⟨q, hq, ?_⟩
        rcases SymbolTable.declareDiscarded_coding declared hq with
          ⟨p, hp, _⟩ | ⟨_, hblank⟩
        · rw [hnone] at hp
          cases hp
        · exact hblank.defined
  | attach scope code hx site site' shape => exact h.attach hx site site' shape

/-- All code is known of after any number of steps. -/
theorem steps (h : x.Coded) (hs : Steps x y) : y.Coded := by
  induction hs with
  | refl => exact h
  | tail _ hstep ih => exact ih.step hstep

end Config.Coded

end SslFrontend
