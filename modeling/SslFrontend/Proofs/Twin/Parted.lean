import SslFrontend.Proofs.Twin.Parting

/-! # Modules with and without an `end`

Up to an item whose body lacks its `end` on the right both runs read the same
items.  The left run reads that item, the right one reports it, and then both
read what is behind it from tables that tell apart at the end of its body only
(`Parting.drafts`).
-/

namespace SslFrontend

open Parse (Leads Along item itemRound entry blockRound statement)

namespace Parse

variable {scope : ScopeId} {s t u : ParserState} {q : Qualifiers}

/-- An item is a procedure whose header is read, and its body next. -/
def Enters (scope : ScopeId) (s u : ParserState) : Prop :=
  ∃ q t, qualifiers s = .ok q t ∧ t.cursor.kind = .keyword .kwProcedure ∧
    entry q t = .ok (some scope) u

namespace Enters

/-- What is left to read of the item is its body. -/
theorem item_eq (h : Enters scope s u) : item s = (body scope >>= fun _ => return []) u := by
  obtain ⟨q, t, hq, hk, hentry⟩ := h
  have hlook : ∀ k : TokenKind → Parse Code, (kind >>= k) t = k t.cursor.kind t := fun _ => rfl
  unfold item
  rw [bind_ok hq, hlook, hk]
  show (procedure q >>= fun _ => pure []) t = _
  rw [procedure_eq, bind_assoc, bind_ok hentry]
  rfl

theorem onward (h : Enters scope s u) : s.Onward u := by
  obtain ⟨q, t, hq, -, hentry⟩ := h
  exact (Along.of_ok (ParserState.Onward.inside none).qualifiers_along hq).trans
    (Along.of_ok (ParserState.Onward.throughout.entry_along q) hentry)

theorem rest_le (h : Enters scope s u) : u.cursor.rest.length ≤ s.cursor.rest.length := by
  have hread := h.onward.cursor.rest_length
  have hle := h.onward.cursor.position_le
  omega

theorem not_atEnd (h : Enters scope s u) : s.cursor.atEnd = false := by
  obtain ⟨q, t, hq, hk, -⟩ := h
  have hkind : s.cursor.kind ≠ .eof := by
    intro heof
    rw [qualifiers_stops (by rw [heof]; rfl)] at hq
    cases hq
    rw [heof] at hk
    cases hk
  simpa [Cursor.atEnd] using hkind

end Enters

end Parse

namespace Parting

variable {P : Parting} {scope : ScopeId} {s t u v : ParserState} {main code : Code}
  {ds : List Diagnostic}

/-- In front of where the streams part the left run is not lost. -/
theorem not_lost_before {before : List Diagnostic}
    (hrest : P.left.length < s.cursor.rest.length) :
    ¬(P.variation before).comparison.Lost s :=
  P.not_lost (Nat.le_of_lt hrest) fun heq => absurd heq (Nat.ne_of_gt hrest)

/-- Both runs read the items in front. -/
theorem items_lead (hp : (P.variation []).comparison.Pair s t)
    (hrest : P.left.length < u.cursor.rest.length) (h : Leads itemRound [] s main u) :
    ∃ w, Leads itemRound [] t main w ∧ (P.variation []).comparison.Later s t u w := by
  have hu := Variation.ofUnits (P.variation [])
  obtain ⟨main', w, hleads, hlater, hcodes⟩ := Comparison.leads_agree
    (I := Comparison.SameCode _) (Q := Comparison.SameCode _) (R := Comparison.MayLose _ _)
    (fun _ _ => id) ParserState.Onward.throughout.itemRound_along (not_lost_before hrest)
    (fun honward hp haa' => Comparison.itemRound_agree hu trivial
      (fun hg => absurd (hg.follows honward.cursor).2 (Nat.not_le.mpr hrest)) hp haa') h hp .nil
  cases Variation.codes_eq hcodes
  exact ⟨w, hleads, hlater⟩

/-- Both runs read the header of the procedure. -/
theorem enters_both (hp : (P.variation []).comparison.Pair s t)
    (hrest : P.left.length < u.cursor.rest.length) (h : Parse.Enters scope s u) :
    ∃ w, Parse.Enters scope t w ∧ (P.variation []).comparison.Later s t u w := by
  obtain ⟨q, s₁, hq, hk, hentry⟩ := h
  have hqualifiers := Comparison.qualifiers_agree hp
  unfold Comparison.Agree at hqualifiers
  rw [hq] at hqualifiers
  rcases hqualifiers with ⟨hg, t₁, hpair⟩ | ⟨q', t₁, hq', hlater, hsame⟩
  · exact absurd hg (hpair.reads hk rfl).1
  obtain rfl : q' = q := hsame
  have hagree := Comparison.entry_agree (Variation.ofUnits (P.variation [])) q' trivial hk
    hlater.pair
  unfold Comparison.Agree at hagree
  rw [hentry] at hagree
  rcases hagree with hlost | ⟨scope', w, hentry', hlater', hscope⟩
  · exact absurd hlost (not_lost_before hrest)
  · cases scope' with
    | none => exact absurd hscope nofun
    | some scope' =>
        obtain rfl : scope' = scope := Option.some.inj hscope.1
        have hk' : t₁.cursor.kind = .keyword .kwProcedure := by
          rw [hlater.joins.kind_eq (hlater.pair.reads hk rfl).1 (by rw [hk]; rfl), hk]
        exact ⟨w, ⟨q', t₁, hq', hk', hentry'⟩, hlater.trans hlater'⟩

/-! ## The item whose body is left open -/

end Parting

namespace Parse

/-- The statements of a body are read up to an `end`, without an error. -/
structure ReadsStatements (scope : ScopeId) (u : ParserState) (code : Code)
    (ds : List Diagnostic) (v : ParserState) : Prop where
  opens : u.cursor.kind = .keyword .kwBegin
  leads : Leads (blockRound (statement ⟨some scope, false⟩) u.cursor.current) [] u.skip code v
  closes : v.cursor.kind = .keyword .kwEnd
  reported : v.problems.items = u.problems.items ++ ds
  sound : ∀ d ∈ ds, d.isError = false

namespace ReadsStatements

variable {code : Code} {ds : List Diagnostic} {v : ParserState}

theorem onward (h : ReadsStatements scope u code ds v) : u.skip.Onward v :=
  h.leads.onward fun code => (ParserState.Onward.inside none).blockRound_along
    ((ParserState.Onward.inside (some scope)).statement_along rfl) _ code

theorem position_lt (h : ReadsStatements scope u code ds v) :
    u.cursor.position < v.cursor.position := by
  have hskip : u.skip.cursor.position = u.cursor.position + 1 :=
    Cursor.advance_position (by rw [h.opens]; nofun)
  have hle := h.onward.cursor.position_le
  omega

theorem rest_lt (h : ReadsStatements scope u code ds v) :
    v.cursor.rest.length < u.cursor.rest.length := by
  have hread := (u.cursor.follows_advance.trans h.onward.cursor).rest_length
  have hlt := h.position_lt
  omega

end ReadsStatements

end Parse

theorem Procedure.reclosed_withBody (p : Procedure) (code : Code)
    (start first second : Position) :
    (p.withBody code start first).reclosed second = p.withBody code start second := by
  unfold reclosed withBody
  simp

theorem ParserState.attached_reclosed (s : ParserState) (scope : ScopeId) (code : Code)
    (start first second : Position) :
    (s.attached scope code start second).table =
      (s.attached scope code start first).table.reclosed scope second := by
  have hover : ∀ (l : List Procedure) (i : Nat),
      l.modify i (·.withBody code start second) =
        (l.modify i (·.withBody code start first)).modify i (·.reclosed second) := by
    intro l i
    rw [List.modify_modify_eq]
    congr 1
    funext p
    exact (p.reclosed_withBody code start first second).symm
  unfold attached SymbolTable.reclosed SymbolTable.modifyScope
  cases scope with
  | proc i => simp only [hover s.table.procs i]
  | discarded i => simp only [hover s.table.discarded i]

namespace Parting

/-- The runs behind the item that the right one leaves open: the body ends there
in front of the next procedure, and this is reported. -/
structure Rejoins (P : Parting) (scope : ScopeId) (opener : Token) (t x y : ParserState) :
    Prop where
  left : x.cursor.rest = P.behind
  right : y.cursor.rest = P.behind
  read : t.cursor.Follows y.cursor
  table : y.table = x.table.reclosed scope y.cursor.previousPos
  ledger : y.ledger = x.ledger
  pending : y.pending = x.pending
  problems : ∃ es, y.problems.items =
      x.problems.items ++ es ++ [(ParseError.unclosed opener "block").diagnostic] ∧
    (P.between = [] → es = [])

variable {P : Parting} {scope : ScopeId} {s t u v : ParserState} {code : Code}
  {ds : List Diagnostic}

/-- The left run reads the item, the right one reports it. -/
theorem rejoins (main : Code) (hp : (P.variation []).comparison.Pair s t)
    (henters : Parse.Enters scope s u) (hread : Parse.ReadsStatements scope u code ds v)
    (hrest : v.cursor.rest = P.left) :
    ∃ x y, itemRound main s = .ok (.inl main) x ∧ itemRound main t = .ok (.inl main) y ∧
      P.Rejoins scope u.cursor.current t x y := by
  have hahead : P.left.length < u.cursor.rest.length := by
    rw [← hrest]
    exact hread.rest_lt
  obtain ⟨w, henters', hlater⟩ := enters_both hp hahead henters
  obtain ⟨hbody, es, y, hbody', hfollows, hposition, hbehind, htable, hledger, hpending,
    hproblems, hnone⟩ := body_parts hlater.pair hread.opens hread.leads hrest hread.reported
      hread.sound
  have hcloser : v.cursor.Reads [v.cursor.current] v.skip.cursor :=
    Cursor.reads_advance (by rw [hread.closes]; nofun)
  let e := ParseError.unclosed u.cursor.current "block"
  let x := v.skip.attached scope code u.cursor.pos v.cursor.pos
  let y' := y.attached scope code u.cursor.pos y.cursor.previousPos
  have hleft : itemRound main s = .ok (.inl main) x := by
    have hitem : item s = .ok [] x := by
      rw [henters.item_eq, Parse.bind_ok hbody]
      rfl
    have hmoved : x.cursor.position ≠ s.cursor.position := by
      have hs := henters.onward.cursor.position_le
      have hv := hread.position_lt
      have hskip := hcloser.position
      show v.skip.cursor.position ≠ s.cursor.position
      rw [List.length_singleton] at hskip
      omega
    rw [Parse.itemRound_ok main henters.not_atEnd hitem, if_neg hmoved, List.append_nil]
  have hright : itemRound main t =
      .ok (.inl main) { y' with problems := y'.problems.push e.diagnostic } := by
    have hitem : item t = .error e y' := by
      rw [henters'.item_eq]
      show EStateM.bind (Parse.body scope) _ w = _
      rw [EStateM.bind, hbody']
    have hle := henters'.onward.cursor.position_le
    refine Parse.itemRound_unclosed main hitem henters'.not_atEnd ?_ ?_
    · show y.cursor.position ≠ t.cursor.position
      omega
    · exact (Cursor.kind_eq_headKind hbehind).trans P.front
  refine ⟨x, _, hleft, hright, ?_, hbehind, henters'.onward.cursor.trans hfollows, ?_, hledger,
    hpending, es, ?_, hnone⟩
  · refine hcloser.rest_eq ?_
    rw [Cursor.current_of_rest hrest]
    exact hrest
  · show (y.table.modifyScope scope _) = _
    rw [htable]
    exact v.skip.attached_reclosed scope code u.cursor.pos v.cursor.pos y.cursor.previousPos
  · show y.problems.items ++ [e.diagnostic] = v.problems.items ++ es ++ [e.diagnostic]
    rw [hproblems]

/-- On the right the body ends with the last token in front of the procedure. -/
theorem Rejoins.finish {opener : Token} {x y : ParserState} {tokens : List Token}
    (h : P.Rejoins scope opener t x y) (hp : (P.variation []).comparison.Pair s t)
    (hs : s.cursor.rest = tokens ++ P.left) (hsome : tokens ≠ []) :
    ∃ last, (tokens ++ P.between).getLast? = some last ∧ y.cursor.previousPos = last.pos := by
  obtain ⟨read, hread, heof, hposition, hlast⟩ := h.read
  obtain ⟨tokens', hjoins⟩ := hp.joins
  obtain rfl : tokens' = tokens := List.append_cancel_right (hjoins.left.symm.trans hs)
  have ht : t.cursor.rest = tokens' ++ P.between ++ P.behind := by
    rw [hjoins.right, Seam.spell_eq rfl, List.map_id, List.append_assoc]
    rfl
  rw [h.right, ht] at hread
  obtain rfl := List.append_cancel_right hread
  have hlast' := List.getLast?_eq_some_getLast
    (List.append_ne_nil_of_left_ne_nil hsome P.between)
  refine ⟨_, hlast', ?_⟩
  unfold Cursor.previousPos
  rw [hlast, hlast']
  rfl

end Parting

/-! ## Drafts -/

/-- Runs from one place on whose tables tell apart at the end of one body, where
one of them has reported more. -/
def Variation.reclosing (shared : List Token) (scope : ScopeId) (finish : Position)
    (added : List Diagnostic) : Variation where
  seam := .none shared
  closed := some (scope, finish)
  reports a b := b.Perm (a ++ added)
  extend {a b c d} hab hcd := by
    rw [Seam.eq_of_alike rfl hcd]
    refine (hab.append_right c).trans ?_
    rw [List.append_assoc, List.append_assoc]
    exact List.perm_append_comm.append_left a
  strict := none_strict shared
  ahead := @none_ahead shared
  lists := none_lists shared

namespace Parting

variable {P : Parting} {scope : ScopeId} {s u v : ParserState} {main code : Code}
  {ds : List Diagnostic} {stream : TokenStream} {tokens : List Token}

/-- Without the `end` the draft is the same but for the end of the body, and for
what is reported. -/
theorem drafts (hstream : stream.tokens = P.shared ++ P.left)
    (hitems : Leads itemRound [] (.start stream) main s) (henters : Parse.Enters scope s u)
    (hread : Parse.ReadsStatements scope u code ds v) (hrest : v.cursor.rest = P.left)
    (hs : s.cursor.rest = tokens ++ P.left) :
    ∃ last es, (tokens ++ P.between).getLast? = some last ∧ (P.between = [] → es = []) ∧
      (Variation.reclosing P.behind scope last.pos
        (es ++ [(ParseError.unclosed u.cursor.current "block").diagnostic])).Drafts stream.draft
          ({ stream with tokens := P.shared ++ P.right } : TokenStream).draft := by
  let other : TokenStream := { stream with tokens := P.shared ++ P.right }
  have hpair : (P.variation []).comparison.Pair (.start stream) (.start other) := by
    refine ⟨⟨P.shared, hstream, ?_, List.suffix_rfl, nofun, fun h => absurd rfl h⟩,
      ⟨.inl rfl, rfl, rfl, rfl⟩⟩
    rw [Seam.spell_eq rfl, List.map_id]
    rfl
  have hlt : P.left.length < s.cursor.rest.length := by
    rw [← hrest]
    exact Nat.lt_of_lt_of_le hread.rest_lt henters.rest_le
  have hsome : tokens ≠ [] := by
    rintro rfl
    rw [hs] at hlt
    exact Nat.lt_irrefl _ hlt
  obtain ⟨t, hitems', hlater⟩ := items_lead hpair hlt hitems
  obtain ⟨x, y, hx, hy, hrejoins⟩ := rejoins main hlater.pair henters hread hrest
  obtain ⟨last, hlast, hfinish⟩ := hrejoins.finish hlater.pair hs hsome
  obtain ⟨es, hproblems, hnone⟩ := hrejoins.problems
  refine ⟨last, es, hlast, hnone, ?_⟩
  let V := Variation.reclosing P.behind scope last.pos
    (es ++ [(ParseError.unclosed u.cursor.current "block").diagnostic])
  have hon := fun code => ParserState.Onward.throughout.itemRound_along code
  have heof : ∀ {stream : TokenStream} {s x : ParserState},
      Leads itemRound [] (.start stream) main s → itemRound main s = .ok (.inl main) x →
        x.cursor.eof = stream.eof := by
    intro stream s x hitems hx
    obtain ⟨_, -, heof, -⟩ := ((hitems.trans (.next hx (.refl _ _))).onward hon).cursor
    exact heof
  have hpair' : V.comparison.Pair x y := by
    refine ⟨⟨P.behind, ?_, ?_, List.suffix_rfl, fun _ => ?_, fun h => absurd rfl h⟩, ?_⟩
    · rw [hrejoins.left]
      exact (List.append_nil _).symm
    · rw [Seam.spell_eq rfl, List.map_id, hrejoins.right]
      exact (List.append_nil _).symm
    · exact (heof hitems' hy).trans (heof hitems hx).symm
    · refine ⟨.inr ⟨_, rfl, ?_⟩, hrejoins.ledger, hrejoins.pending, ?_⟩
      · rw [← hfinish]
        exact hrejoins.table
      · show y.problems.items.Perm (x.problems.items ++ _)
        rw [hproblems, List.append_assoc]
  have hrun : ∀ {stream : TokenStream} {s x : ParserState},
      Leads itemRound [] (.start stream) main s → itemRound main s = .ok (.inl main) x →
        stream.draft = .ofRun (Parse.repeatRounds itemRound main x) :=
    fun hitems hx => TokenStream.draft_of_leads (hitems.trans (.next hx (.refl _ _)))
  rw [hrun hitems hx, hrun hitems' hy]
  exact Variation.drafts rfl (Comparison.itemRounds_agree (Variation.ofUnits V) (fun _ => trivial)
    rfl hpair' (List.forall₂_same.mpr fun _ _ => rfl))

end Parting

end SslFrontend
