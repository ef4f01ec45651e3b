import SslFrontend.Include.Splice
import SslFrontend.Proofs.Postfix.Resolved
import SslFrontend.Proofs.Run.Resolution

/-! # Well-formed code

Whatever the source text, all code of the parsed module can be run by a stack
machine: no node finds too little on the stack, nothing is left between
statements, and the frames of branches and loops are closed in the order in
which they were opened.  Main statement: `TokenStream.parse_wellFormed`.
-/

namespace SslFrontend

/-- Code that a stack machine can run. -/
structure Module.WellFormed (m : Module) : Prop where
  main : m.main.Balanced
  body : ∀ p ∈ m.procs, p.body.Balanced
  /-- A procedure that is defined returns at its end. -/
  returns : ∀ p ∈ m.procs, p.defined = true →
    ∃ code pos, p.body = code ++ [⟨.ret, .int 0, pos⟩]
  condition : ∀ p ∈ m.procs, ∀ code, p.trigger = .conditional code → code.Single

theorem TokenStream.Fits.vocabulary {stream : TokenStream} (h : stream.Fits)
    (x : Config stream) (scope : Option ScopeId) : (x.vocabulary scope).Fits := h

/-- For every stream of tokens, malformed ones included, the code of the main
part, of every body and of every condition is well formed. -/
theorem TokenStream.parse_wellFormed (stream : TokenStream) (h : stream.Fits) :
    stream.parse.module.WellFormed := by
  obtain ⟨x, hx⟩ := stream.completes
  have hproc : ∀ p ∈ stream.parse.module.procs, ∃ i q,
      stream.draft.Finished i p q ∧ q.Coded x (.proc i) := by
    intro p hp
    obtain ⟨i, hi⟩ := List.getElem?_of_mem hp
    obtain ⟨q, hq⟩ := Draft.finished hi
    exact ⟨i, q, hq, hx.finished_coded hq⟩
  constructor
  · exact hx.main.balanced_resolved stream.draft.found (h.vocabulary x none)
  · intro p hp
    obtain ⟨i, q, hq, hc⟩ := hproc p hp
    rw [hq.body]
    cases hd : q.defined with
    | false =>
        rw [hc.blank hd]
        rfl
    | true =>
        obtain ⟨code, last, hbody, hlast, hshape⟩ := hc.body hd
        rw [hbody]
        exact (hshape.append (.ret hlast)).balanced_resolved _ (h.vocabulary x _)
  · intro p hp hd
    obtain ⟨i, q, hq, _⟩ := hproc p hp
    exact hx.returns hq hd
  · intro p hp code hcode
    obtain ⟨i, q, hq, hc⟩ := hproc p hp
    obtain ⟨condition, hcondition, rfl⟩ := hq.condition hcode
    exact (hc.condition condition hcondition).single_resolved _ (h.vocabulary x none)

/-- A loop and a procedure that are never closed, with an assignment of nothing. -/
def TokenStream.unclosed : TokenStream :=
  .ofString .none .default "procedure p begin while a do begin b[1] := ; break; q; end" ⟨"a.ssl"⟩

theorem TokenStream.parse_wellFormed_unclosed :
    unclosed.Fits ∧ unclosed.parse.module.WellFormed := by
  have fits : unclosed.Fits := fits_ofText_none _ _ _ (by decide)
  exact ⟨fits, unclosed.parse_wellFormed fits⟩

end SslFrontend
