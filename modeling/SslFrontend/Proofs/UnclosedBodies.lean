import SslFrontend.Include.Splice
import SslFrontend.Proofs.Run.Reclosed
import SslFrontend.Proofs.Twin.Parted

/-! # Bodies without their `end`

A body that lacks its `end` ends where the next procedure starts.  What is in
front of it, what is in it and what is behind it is compiled as if the `end` were
there; the missing `end` is reported, and the body ends with the last token in
front of the procedure (`TokenStream.parse_unclosed`).  Qualifiers of that
procedure are read as part of the body, and are lost: the procedure is compiled
as if it had none (`TokenStream.unclosed_unqualified`).
-/

namespace SslFrontend

open Parse (Leads itemRound Enters ReadsStatements)

/-- A draft with further reports is finished alike, up to the reports. -/
theorem Draft.finish_reports {d : Draft} {problems : Queue} {added : List Diagnostic}
    (h : problems.items.Perm (d.problems.items ++ added)) (files : FileTable) :
    (({ d with problems := problems } : Draft).finish files).module = (d.finish files).module ∧
      ({ d with problems := problems } : Draft).reports.Perm (d.reports ++ added) := by
  refine ⟨rfl, ?_⟩
  have hreports : ∀ problems : Queue, ({ d with problems := problems } : Draft).reports =
      problems.items ++ (d.table.checkDefinitions.2 ++ d.pending.problems d.closed ++
        d.resolved.allUseProblems (d.main.resolved d.found)) := fun _ => rfl
  rw [hreports]
  refine (h.append_right _).trans ?_
  rw [List.append_assoc]
  refine (List.perm_append_comm.append_left d.problems.items).trans ?_
  rw [← List.append_assoc]
  rfl

namespace Parse

variable {α β : Type}

/-- Whether a production answers, and its answer is such. -/
def answers (p : Parse α) (s : ParserState) (accept : α → ParserState → Bool) : Bool :=
  match p s with
  | .ok a t => accept a t
  | .error _ _ => false

theorem answers_iff {p : Parse α} {s : ParserState} {accept : α → ParserState → Bool} :
    p.answers s accept = true ↔ ∃ a t, p s = .ok a t ∧ accept a t = true := by
  unfold answers
  cases p s <;> simp

/-- Whether rounds lead, one after the other, to something such. -/
def leads? (round : α → Parse (α ⊕ β)) : Nat → α → ParserState → (α → ParserState → Bool) → Bool
  | 0, a, s, accept => accept a s
  | n + 1, a, s, accept =>
    (round a).answers s fun r t =>
      match r with
      | .inl b => leads? round n b t accept
      | .inr _ => false

theorem exists_leads {round : α → Parse (α ⊕ β)} {n : Nat} {a : α} {s : ParserState}
    {accept : α → ParserState → Bool} (h : leads? round n a s accept = true) :
    ∃ b t, Leads round a s b t ∧ accept b t = true := by
  induction n generalizing a s with
  | zero => exact ⟨a, s, .refl a s, h⟩
  | succ n ih =>
      obtain ⟨r, t, hr, h⟩ := answers_iff.mp h
      cases r with
      | inl b =>
          obtain ⟨c, u, hleads, hc⟩ := ih h
          exact ⟨c, u, .next hr hleads, hc⟩
      | inr _ => cases h

end Parse

namespace TokenStream

/-- Drafts that tell apart at the end of one body are finished to modules that do. -/
theorem parse_of_reclosing {stream other : TokenStream} {shared : List Token} {scope : ScopeId}
    {finish : Position} {added : List Diagnostic} (hfiles : other.files = stream.files)
    (h : (Variation.reclosing shared scope finish added).Drafts stream.draft other.draft) :
    (other.parse.module = stream.parse.module ∨
      other.parse.module = stream.parse.module.reclosed scope finish) ∧
    other.parse.diagnostics.Perm (stream.parse.diagnostics ++ added) := by
  have hperm : other.draft.problems.items.Perm (stream.draft.problems.items ++ added) := h.problems
  have hfinished : ∀ d : Draft, other.draft = { d with problems := other.draft.problems } →
      d.problems = stream.draft.problems → d.reports = stream.draft.reports →
        other.parse.module = (d.finish stream.files).module ∧
          other.parse.diagnostics.Perm (stream.parse.diagnostics ++ added) := by
    intro d hother hproblems hreports
    obtain ⟨hmodule, hall⟩ := d.finish_reports (hproblems ▸ hperm) stream.files
    rw [← hother] at hmodule hall
    have hdiagnostics : other.parse.diagnostics.Perm other.draft.reports := Draft.diagnostics_perm
    refine ⟨?_, hdiagnostics.trans (hall.trans ?_)⟩
    · rw [← hmodule, ← hfiles]
      rfl
    · rw [hreports]
      exact (Draft.diagnostics_perm.symm).append_right added
  have hother : ∀ t : SymbolTable, other.draft.table = t →
      other.draft = { stream.draft with table := t, problems := other.draft.problems } := by
    rintro t rfl
    show other.draft = ⟨stream.draft.main, other.draft.table, stream.draft.ledger,
      stream.draft.pending, other.draft.problems⟩
    rw [← h.main, ← h.ledger, ← h.pending]
  rcases h.table with htable | ⟨end_, hend, htable⟩
  · obtain ⟨hmodule, hdiagnostics⟩ := hfinished stream.draft (hother _ htable) rfl rfl
    exact ⟨.inl hmodule, hdiagnostics⟩
  · obtain rfl : (scope, finish) = end_ := Option.some.inj hend
    have hreturning := stream.draft_returning
    obtain ⟨hmodule, hdiagnostics⟩ := hfinished (stream.draft.reclosed scope finish)
      (hother _ htable) rfl (Draft.reports_reclosed scope finish hreturning)
    exact ⟨.inr (hmodule.trans (Draft.finish_reclosed scope finish hreturning _)), hdiagnostics⟩

/-- The stream has items, a header, and a body up to its `end` in which there is
no error. -/
structure ReadsBody (stream : TokenStream) (items header : List Token) (opener : Token)
    (body : List Token) (closer : Token) (behind : List Token) (scope : ScopeId) : Prop where
  tokens : stream.tokens = items ++ header ++ opener :: body ++ closer :: behind
  run : ∃ main s u code ds v,
    Leads itemRound [] (.start stream) main s ∧
      s.cursor.rest = header ++ opener :: body ++ closer :: behind ∧
    Enters scope s u ∧ u.cursor.rest = opener :: body ++ closer :: behind ∧
    ReadsStatements scope u code ds v ∧ v.cursor.rest = closer :: behind

/-- Whether a stream has this many items, a header, and a body of this many
statements in which nothing is reported. -/
def readsBody? (stream : TokenStream) (header : List Token) (opener : Token) (body : List Token)
    (closer : Token) (behind : List Token) (scope : ScopeId) (items statements : Nat) : Bool :=
  Parse.leads? itemRound items [] (.start stream) fun _ s =>
    decide (s.cursor.rest = header ++ opener :: body ++ closer :: behind) &&
    Parse.qualifiers.answers s fun q t => decide (t.cursor.kind = .keyword .kwProcedure) &&
    (Parse.entry q).answers t fun entered u => decide (entered = some scope) &&
    decide (u.cursor.rest = opener :: body ++ closer :: behind) &&
    decide (u.cursor.kind = .keyword .kwBegin) &&
    Parse.leads? (Parse.blockRound (Parse.statement ⟨some scope, false⟩) u.cursor.current)
      statements [] u.skip fun _ v => decide (v.cursor.rest = closer :: behind) &&
    decide (v.cursor.kind = .keyword .kwEnd) &&
    decide (v.problems.items.length = u.problems.items.length)

variable {stream : TokenStream} {items header body between behind : List Token}
  {opener closer : Token} {scope : ScopeId}

theorem readsBody_of (n m : Nat)
    (htokens : stream.tokens = items ++ header ++ opener :: body ++ closer :: behind)
    (hrun : stream.readsBody? header opener body closer behind scope n m = true) :
    stream.ReadsBody items header opener body closer behind scope := by
  obtain ⟨main, s, hitems, hrun⟩ := Parse.exists_leads hrun
  simp only [Parse.answers_iff, Bool.and_eq_true, decide_eq_true_eq] at hrun
  obtain ⟨hs, q, t, hq, hk, entered, u, hentry, ⟨⟨hscope, hu⟩, hopens⟩, hrun⟩ := hrun
  subst hscope
  obtain ⟨code, v, hstatements, hrun⟩ := Parse.exists_leads hrun
  simp only [Bool.and_eq_true, decide_eq_true_eq] at hrun
  obtain ⟨⟨hv, hcloses⟩, hcount⟩ := hrun
  have hstatement : Parse.Along ParserState.Onward (Parse.statement ⟨some scope, false⟩) :=
    (ParserState.Onward.inside (some scope)).statement_along rfl
  have hon := (ParserState.Onward.inside none).blockRound_along hstatement u.cursor.current
  have hreports := (hstatements.onward hon).problems.eq_of_length hcount.symm
  exact ⟨htokens, main, s, u, code, [], v, hitems, hs, ⟨q, t, hq, hk, hentry⟩, hu,
    ⟨hopens, hstatements, hcloses, hreports.symm.trans (List.append_nil _).symm, nofun⟩, hv⟩

/-- The parse of a unit in which a body lacks its `end`, and in which the
qualifiers behind it are there or not. -/
theorem parse_unclosed (h : stream.ReadsBody items header opener body closer behind scope)
    (hbetween : ∀ token ∈ between, token.kind.isQualifier = true)
    (hbehind : Cursor.headKind behind = .keyword .kwProcedure) :
    ∃ last es, (opener :: body ++ between).getLast? = some last ∧ (between = [] → es = []) ∧
      let unclosed : TokenStream :=
        { stream with tokens := items ++ header ++ opener :: body ++ between ++ behind }
      (unclosed.parse.module = stream.parse.module ∨
        unclosed.parse.module = stream.parse.module.reclosed scope last.pos) ∧
      unclosed.parse.diagnostics.Perm (stream.parse.diagnostics ++
        (es ++ [(ParseError.unclosed opener "block").diagnostic])) := by
  obtain ⟨main, s, u, code, ds, v, hitems, hs, henters, hu, hread, hv⟩ := h.run
  have hcloser : closer.kind = .keyword .kwEnd := by
    rw [← hread.closes, Cursor.kind_of_rest hv]
  let P : Parting :=
    { shared := items ++ header ++ opener :: body
      closer := closer
      between := between
      behind := behind
      closes := hcloser
      qualifies := hbetween
      front := hbehind }
  have hopener : u.cursor.current = opener := Cursor.current_of_rest hu
  have hs' : s.cursor.rest = header ++ opener :: body ++ P.left := hs
  obtain ⟨last, es, hlast, hnone, hdrafts⟩ := P.drafts h.tokens hitems henters hread hv hs'
  rw [hopener] at hdrafts
  have htokens : P.shared ++ P.right = items ++ header ++ opener :: body ++ between ++ behind :=
    (List.append_assoc _ _ _).symm
  rw [htokens] at hdrafts
  refine ⟨last, es, ?_, hnone, ?_⟩
  · rw [List.append_assoc, List.getLast?_append_of_ne_nil _ (by simp)] at hlast
    exact hlast
  exact parse_of_reclosing rfl hdrafts

/-- A variable, and two procedures of which the first one changes it. -/
def counting : TokenStream :=
  .ofString .none .default "variable x; procedure p begin x := 1; end procedure q begin end" ⟨"a.ssl"⟩

theorem counting_readsBody : counting.ReadsBody (counting.tokens.take 3)
    ((counting.tokens.drop 3).take 2) (counting.tokens.getD 5 default)
    ((counting.tokens.drop 6).take 4) (counting.tokens.getD 10 default)
    (counting.tokens.drop 11) (.proc 0) :=
  readsBody_of 1 1 (by decide +kernel) (by decide +kernel)

theorem parse_unclosed_counting :
    let unclosed : TokenStream := { counting with tokens := counting.tokens.eraseIdx 10 }
    (unclosed.parse.module = counting.parse.module ∨
      unclosed.parse.module = counting.parse.module.reclosed (.proc 0)
        (counting.tokens.getD 9 default).pos) ∧
    unclosed.parse.diagnostics.Perm (counting.parse.diagnostics ++
      [(ParseError.unclosed (counting.tokens.getD 5 default) "block").diagnostic]) := by
  have hbetween : ∀ token ∈ ([] : List Token), token.kind.isQualifier = true := nofun
  obtain ⟨last, es, hlast, hnone, hparse⟩ :=
    parse_unclosed counting_readsBody hbetween (by decide +kernel)
  have htokens : counting.tokens.take 3 ++ (counting.tokens.drop 3).take 2 ++
        counting.tokens.getD 5 default :: (counting.tokens.drop 6).take 4 ++ [] ++
          counting.tokens.drop 11 = counting.tokens.eraseIdx 10 ∧
      (counting.tokens.getD 5 default :: (counting.tokens.drop 6).take 4 ++ []).getLast? =
        some (counting.tokens.getD 9 default) := by
    decide +kernel
  obtain rfl : counting.tokens.getD 9 default = last :=
    Option.some.inj (htokens.2.symm.trans hlast)
  rw [hnone rfl, List.nil_append, htokens.1] at hparse
  exact hparse

/-- Two procedures, the second of which is exported. -/
def exporting : TokenStream :=
  .ofString .none .default "procedure p begin end export procedure q begin end" ⟨"a.ssl"⟩

/-- Behind a body that lacks its `end` a procedure loses its qualifiers. -/
theorem unclosed_unqualified :
    exporting.ReadsBody [] (exporting.tokens.take 2) (exporting.tokens.getD 2 default) []
        (exporting.tokens.getD 3 default) (exporting.tokens.drop 4) (.proc 0) ∧
      ((exporting.tokens.drop 4).take 2).map Token.kind =
        [.keyword .kwExport, .keyword .kwProcedure] ∧
      let unclosed : TokenStream := { exporting with tokens := exporting.tokens.eraseIdx 3 }
      exporting.parse.module.procs.map (·.modifiers.exported) = [false, true] ∧
        unclosed.parse.module.procs.map (·.modifiers.exported) = [false, false] :=
  ⟨readsBody_of 0 0 (by decide +kernel) (by decide +kernel), by decide +kernel⟩

end TokenStream

end SslFrontend
