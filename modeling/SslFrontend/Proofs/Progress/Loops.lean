import SslFrontend.Proofs.Along.Units
import SslFrontend.Proofs.Grammar.Exact

/-! # Every loop reads

`Parse.repeatRounds` stops a repetition that has run more rounds than there are
tokens.  `Repeats` is the repetition without that bound: it holds of a result
only if the rounds come to an end.  When every round that is not the last reads
a token, both are the same, so the bound is never met.

`Loop` lists the loops of the grammar.  Whatever it meets, a round of one of
them reads a token or is the last: most read a token of their own, an item and a
statement of a block are made to read one.
-/

namespace SslFrontend

namespace Parse

variable {α β : Type}

/-- A production only reads forward. -/
abbrev Forward (p : Parse α) : Prop := Along (fun s t => s.cursor.Follows t.cursor) p

theorem Along.forward {p : Parse α} (h : Along ParserState.Onward p) : Forward p :=
  fun s => (h s).cursor

theorem Forward.of_ok {p : Parse α} (h : Forward p) {s t : ParserState} {a : α}
    (hp : p s = .ok a t) : s.cursor.Follows t.cursor := by
  have hs := h s
  unfold after at hs
  rwa [hp] at hs

/-- Rounds that are repeated until one is the last, or fails. -/
inductive Repeats (round : α → Parse (α ⊕ β)) :
    α → ParserState → EStateM.Result ParseError ParserState β → Prop
  | last {a : α} {b : β} {s t : ParserState} (h : round a s = .ok (.inr b) t) :
      Repeats round a s (.ok b t)
  | fails {a : α} {e : ParseError} {s t : ParserState} (h : round a s = .error e t) :
      Repeats round a s (.error e t)
  | next {a a' : α} {s t : ParserState} {result : EStateM.Result ParseError ParserState β}
      (h : round a s = .ok (.inl a') t) (rest : Repeats round a' t result) :
      Repeats round a s result

/-- Rounds have one result at most. -/
theorem Repeats.unique {round : α → Parse (α ⊕ β)} {a : α} {s : ParserState}
    {r₁ r₂ : EStateM.Result ParseError ParserState β} (h₁ : Repeats round a s r₁)
    (h₂ : Repeats round a s r₂) : r₁ = r₂ := by
  induction h₁ with
  | last h =>
      cases h₂ with
      | last h' => cases h.symm.trans h'; rfl
      | fails h' => cases h.symm.trans h'
      | next h' _ => cases h.symm.trans h'
  | fails h =>
      cases h₂ with
      | last h' => cases h.symm.trans h'
      | fails h' => cases h.symm.trans h'; rfl
      | next h' _ => cases h.symm.trans h'
  | next h _ ih =>
      cases h₂ with
      | last h' => cases h.symm.trans h'
      | fails h' => cases h.symm.trans h'
      | next h' rest' =>
          cases h.symm.trans h'
          exact ih rest'

/-- A round that another one follows has read a token. -/
def Consumes (round : α → Parse (α ⊕ β)) : Prop :=
  ∀ a s a' t, round a s = .ok (.inl a') t → s.cursor.position < t.cursor.position

theorem rounds_repeats {round : α → Parse (α ⊕ β)} (hc : Consumes round)
    (hf : ∀ a, Forward (round a)) (bound : Nat) (a : α) (s : ParserState)
    (hs : s.cursor.rest.length < bound) : Repeats round a s (rounds round bound a s) := by
  induction bound generalizing a s with
  | zero => exact absurd hs (Nat.not_lt_zero _)
  | succ bound ih =>
      rw [rounds_succ]
      cases hr : round a s with
      | error e t => exact .fails hr
      | ok r t =>
          cases r with
          | inr last => exact .last hr
          | inl next =>
              have hless := hc a s next t hr
              have hlength := ((hf a).of_ok hr).rest_length
              exact .next hr (ih next t (by omega))

/-- Rounds that read tokens end before the bound. -/
theorem repeatRounds_repeats {round : α → Parse (α ⊕ β)} (hc : Consumes round)
    (hf : ∀ a, Forward (round a)) (a : α) (s : ParserState) :
    Repeats round a s (repeatRounds round a s) :=
  rounds_repeats hc hf _ a s (Nat.lt_succ_self _)

/-- More rounds than there are tokens are enough. -/
theorem rounds_eq_repeatRounds {round : α → Parse (α ⊕ β)} (hc : Consumes round)
    (hf : ∀ a, Forward (round a)) {bound : Nat} {s : ParserState}
    (hs : s.cursor.rest.length < bound) (a : α) :
    rounds round bound a s = repeatRounds round a s :=
  (rounds_repeats hc hf bound a s hs).unique (repeatRounds_repeats hc hf a s)

/-- A round, and then all the others. -/
theorem repeatRounds_eq {round : α → Parse (α ⊕ β)} (hc : Consumes round)
    (hf : ∀ a, Forward (round a)) (a : α) :
    repeatRounds round a = do
      match ← round a with
      | .inl next => repeatRounds round next
      | .inr last => return last := by
  funext s
  have hwhole := repeatRounds_repeats hc hf a s
  have hbind : ∀ k : α ⊕ β → Parse β, (round a >>= k) s = EStateM.bind (round a) k s :=
    fun _ => rfl
  rw [hbind]
  unfold EStateM.bind
  cases hr : round a s with
  | error e t => exact hwhole.unique (.fails hr)
  | ok r t =>
      cases r with
      | inr last => exact hwhole.unique (.last hr)
      | inl next => exact hwhole.unique (.next hr (repeatRounds_repeats hc hf next t))

/-- Rounds, each of which another one follows, lead from one state to another. -/
inductive Leads (round : α → Parse (α ⊕ β)) : α → ParserState → α → ParserState → Prop
  | refl (a : α) (s : ParserState) : Leads round a s a s
  | next {a a' b : α} {s s' t : ParserState} (h : round a s = .ok (.inl a') s')
      (rest : Leads round a' s' b t) : Leads round a s b t

namespace Leads

variable {round : α → Parse (α ⊕ β)} {a b c : α} {s t u : ParserState}

theorem trans (h₁ : Leads round a s b t) (h₂ : Leads round b t c u) : Leads round a s c u := by
  induction h₁ with
  | refl => exact h₂
  | next h _ ih => exact .next h (ih h₂)

theorem onward (hon : ∀ a, Along ParserState.Onward (round a)) (h : Leads round a s b t) :
    s.Onward t := by
  induction h with
  | refl a s => exact .refl s
  | next h _ ih => exact (Along.of_ok (hon _) h).trans ih

/-- The repetition goes on where the rounds lead to. -/
theorem repeatRounds_eq (hc : Consumes round) (hf : ∀ a, Forward (round a))
    (h : Leads round a s b t) : repeatRounds round a s = repeatRounds round b t := by
  refine (repeatRounds_repeats hc hf a s).unique ?_
  have hlast := repeatRounds_repeats hc hf b t
  generalize repeatRounds round b t = result at hlast ⊢
  induction h with
  | refl a s => exact hlast
  | next h _ ih => exact .next h (ih hlast)

end Leads

end Parse

/-! ## Recovery -/

/-- Behind a malformed piece of text and its semicolon. -/
def ParserState.recovered (s : ParserState) (boundary : KindSet) : ParserState :=
  let t := { s with cursor := s.cursor.synchronize boundary }
  if t.cursor.check (.mark .semicolon) then t.skip else t

namespace Parse

theorem recover_eq (boundary : KindSet) (s : ParserState) :
    recover boundary s = .ok ⟨⟩ (s.recovered boundary) := by
  have hmove : moveCursor (·.synchronize boundary) s =
      .ok ⟨⟩ { s with cursor := s.cursor.synchronize boundary } := rfl
  unfold recover ParserState.recovered
  rw [bind_ok hmove]
  show EStateM.map _ (eat (.mark .semicolon)) _ = _
  unfold EStateM.map
  rw [eat_eq]
  by_cases hc : (s.cursor.synchronize boundary).check (.mark .semicolon) = true
  · simp only [if_pos hc]
  · simp only [if_neg hc]

/-! ## Reading -/

variable {α β : Type} {Q : α → Prop} {P : β → Prop} {s : ParserState}

/-- From a state, a production that gives one of these answers reads a token. -/
def ReadsAt (Q : α → Prop) (p : Parse α) (s : ParserState) : Prop :=
  ∀ a t, p s = .ok a t → Q a → s.cursor.position < t.cursor.position

/-- Any answer. -/
abbrev Any (α : Type) : α → Prop := fun _ => True

/-- Another round follows. -/
def GoesOn : α ⊕ β → Prop
  | .inl _ => True
  | .inr _ => False

namespace ReadsAt

theorem consumes {round : α → Parse (α ⊕ β)} (h : ∀ a s, ReadsAt GoesOn (round a) s) :
    Consumes round :=
  fun a s a' t hr => h a s (.inl a') t hr trivial

/-- What comes first reads. -/
theorem first {p : Parse α} {k : α → Parse β} (hp : ReadsAt (Any α) p s)
    (hk : ∀ a, Forward (k a)) : ReadsAt P (p >>= k) s := by
  intro b t hb _
  obtain ⟨a, s₁, ha, hb⟩ := of_bind_ok hb
  exact Nat.lt_of_lt_of_le (hp a s₁ ha trivial) ((hk a).of_ok hb).position_le

/-- What comes behind reads. -/
theorem behind {p : Parse α} {k : α → Parse β} (hp : Forward p)
    (hk : ∀ a t, p s = .ok a t → ReadsAt P (k a) t) : ReadsAt P (p >>= k) s := by
  intro b t hb hP
  obtain ⟨a, s₁, ha, hb⟩ := of_bind_ok hb
  exact Nat.lt_of_le_of_lt (hp.of_ok ha).position_le (hk a s₁ ha b t hb hP)

theorem pure {a : α} (h : ¬Q a) : ReadsAt Q (pure a) s := by
  intro a' t ha hQ
  obtain ⟨rfl, -⟩ := of_pure_ok ha
  exact absurd hQ h

theorem throw (e : ParseError) : ReadsAt Q (throw e : Parse α) s := by
  intro a t h
  cases h

theorem ite {c : Prop} [Decidable c] {p q : Parse α} (hp : c → ReadsAt Q p s)
    (hq : ¬c → ReadsAt Q q s) : ReadsAt Q (if c then p else q) s := by
  by_cases h : c
  · rw [if_pos h]
    exact hp h
  · rw [if_neg h]
    exact hq h

/-- A token that is not the end of file is read. -/
theorem advance (h : s.cursor.kind ≠ .eof) : ReadsAt (Any _) Parse.advance s := by
  intro token t ht _
  cases ht
  show s.cursor.position < s.cursor.advance.position
  rw [Cursor.advance_position h]
  exact Nat.lt_succ_self _

theorem expectIdent : ReadsAt (Any _) Parse.expectIdent s := by
  intro found t ht _
  obtain ⟨hkind, -, rfl⟩ := of_expectIdent_ok ht
  show s.cursor.position < s.cursor.advance.position
  rw [Cursor.advance_position (by rw [hkind]; nofun)]
  exact Nat.lt_succ_self _

/-- A mark that is there is read; without it another branch is taken. -/
theorem eatMark {sign : Mark} {k : Bool → Parse β} (yes : Forward (k true))
    (no : ReadsAt P (k false) s) : ReadsAt P (eat (.mark sign) >>= k) s := by
  intro b t hb hP
  obtain ⟨eaten, s₁, heat, hb⟩ := of_bind_ok hb
  rcases of_eat_ok heat with ⟨rfl, hcheck, rfl⟩ | ⟨rfl, hsame⟩
  · have hmark := Cursor.kind_of_check_mark hcheck
    have hread := Cursor.advance_position (c := s.cursor) (by rw [hmark]; nofun)
    have hle : s.skip.cursor.position ≤ t.cursor.position := (yes.of_ok hb).position_le
    have hskip : s.skip.cursor.position = s.cursor.position + 1 := hread
    omega
  · exact no b t (hsame ▸ hb) hP

end ReadsAt

/-! ## Rounds -/

variable {scope : Option ScopeId} {inner : Parse Code} {context : Context}

/-- Whatever happens inside a scope, it goes on. -/
theorem inside_forward (scope : Option ScopeId) : HoldsInside scope fun s t =>
    s.cursor.Follows t.cursor where
  refl s := .refl _
  trans h₁ h₂ := h₁.trans h₂
  move _ _ h := h
  report _ _ := .refl _
  intern _ _ _ _ _ := .refl _
  adjust _ _ _ _ _ _ := .refl _
  mention s name _ := by
    rw [ParserState.mentioned_cursor]
    exact s.cursor.follows_advance
  declare _ s _ _ _ _ _ _ := s.cursor.follows_advance

/-- A round that ends with an optional comma: if there is one, another round
follows. -/
theorem ReadsAt.comma {a : α} {b : β} : ReadsAt GoesOn (do
    if ← eat (.mark .comma) then return .inl a else return .inr b : Parse (α ⊕ β)) s := by
  have h := inside_forward none
  exact .eatMark (.ite (.pure h _) (.pure h _)) (.ite (fun h => nomatch h) fun _ => .pure id)

theorem argumentRound_consumes (hi : Forward inner) : Consumes (argumentRound inner) :=
  ReadsAt.consumes fun _ _ => .behind hi fun _ _ _ => .comma

theorem indexRound_consumes (hi : Forward inner) : Consumes (indexRound inner) := by
  have h := inside_forward none
  refine ReadsAt.consumes fun code s => .behind (h.check _) fun found t hcheck => ?_
  cases hcheck
  refine .ite (fun hfound => ?_) fun _ => .pure id
  have hmark := Cursor.kind_of_check_mark hfound
  refine .first (.advance (by rw [hmark]; nofun)) fun _ => .bind h hi fun _ => ?_
  exact .bind h (.discard (h.expect _)) fun _ => .pure h _

theorem linkRound_consumes (hi : Forward inner) : Consumes (linkRound scope inner) := by
  have h := inside_forward scope
  refine ReadsAt.consumes fun links s => .behind h.kind fun found t hkind => ?_
  cases hkind
  cases hop : Operator.binary? s.cursor.kind with
  | none => exact .pure id
  | some found =>
      refine .first (.advance fun heof => ?_) fun _ => .bind h (h.operand_along hi) fun _ =>
        .pure h _
      rw [heof] at hop
      cases hop

theorem qualifierRound_consumes : Consumes qualifierRound := by
  have h := inside_forward none
  refine ReadsAt.consumes fun q s => .behind h.kind fun found t hkind => ?_
  cases hkind
  split
  · rename_i word hword
    split
    · refine .first (.advance (by rw [hword]; nofun)) fun _ => ?_
      split
      · exact .bind h (h.reported _) fun _ => .pure h _
      · exact .pure h _
    · exact .pure id
  · exact .pure id

theorem variableItem_reads (context : Context) (kind : VarScope) :
    ReadsAt (Any _) (variableItem context kind) s := by
  have h := inside_forward context.scope
  have hset : ∀ table, Forward (setTable table) := fun _ _ => .refl _
  have hrecord : ∀ symbol pos how, Forward (record symbol pos how) := fun _ _ _ _ => .refl _
  refine .first .expectIdent fun found => ?_
  refine .bind h ?_ fun declared =>
    .forward (ParserState.Onward.declaredItem_along context kind _ _ declared)
  refine .bind h (fun _ => .refl _) fun table => ?_
  split
  · exact .bind h (hset _) fun _ => .bind h (hrecord _ _ _) fun _ => .pure h _
  · exact .bind h (h.reported _) fun _ => .pure h _

theorem variableBlockRound_consumes (context : Context) (kind : VarScope) (opener : Token) :
    Consumes (variableBlockRound context kind opener) := by
  have h := inside_forward context.scope
  refine ReadsAt.consumes fun code s => .behind (h.eat _) fun eaten t _ => ?_
  refine .ite (fun _ => .pure id) fun _ => .behind h.cursor fun c t _ => ?_
  refine .ite (fun _ => .behind (.throw h _) fun _ _ h => nomatch h) fun _ => ?_
  refine .first (variableItem_reads context kind) fun _ => ?_
  exact .bind h (.discard (h.expect _)) fun _ => .pure h _

theorem variableListRound_consumes (context : Context) (kind : VarScope) :
    Consumes (variableListRound context kind) := by
  have h := inside_forward context.scope
  refine ReadsAt.consumes fun code s =>
    .behind (h.variableItem_along rfl kind).attempt fun found t _ => ?_
  cases found with
  | ok item => exact .comma
  | error e =>
      refine .behind (h.reported _) fun _ _ _ => ?_
      exact .behind (h.moveCursor fun c => c.follows_synchronize _) fun _ _ _ => .comma

theorem parameterRound_consumes : Consumes parameterRound := by
  have h := inside_forward none
  have hreserve : Forward reserve := fun _ => .refl _
  exact ReadsAt.consumes fun params s => .behind (h.parameter_along hreserve params) fun _ _ _ =>
    .comma

theorem triggerRound_consumes : Consumes triggerRound := by
  have h := inside_forward none
  refine ReadsAt.consumes fun trigger s => .behind h.pos fun pos t hpos => ?_
  cases hpos
  refine .behind h.kind fun found t hkind => ?_
  cases hkind
  split
  · rename_i hword
    refine .first (p := discard advance) ?_ fun _ => ?_
    · exact .first (.advance (by rw [hword]; nofun)) fun _ => .pure h _
    · exact .bind h (h.timedTrigger_along _) fun _ => .bind h (h.keepFirst_along _ _ _) fun _ =>
        .pure h _
  · rename_i hword
    refine .first (p := discard advance) ?_ fun _ => ?_
    · exact .first (.advance (by rw [hword]; nofun)) fun _ => .pure h _
    · exact .bind h h.expression_along fun _ => .bind h (h.keepFirst_along _ _ _) fun _ =>
        .pure h _
  · exact .pure id

/-! ## Rounds that are made to read -/

/-- Where nothing was read but more is there, a token is read. -/
theorem skip_reads {start : Cursor} {t : ParserState} (hstart : start.kind ≠ .eof)
    (ht : start.Follows t.cursor) :
    start.position < (if t.cursor.position = start.position then t.skip else t).cursor.position := by
  have hle := ht.position_le
  by_cases hsame : t.cursor.position = start.position
  · rw [if_pos hsame]
    have hkind : t.cursor.kind ≠ .eof := by rwa [ht.eq_of_position_eq hsame]
    show start.position < t.cursor.advance.position
    rw [Cursor.advance_position hkind]
    omega
  · rw [if_neg hsame]
    omega

theorem forceProgress_eq (start : Nat) (t : ParserState) :
    blockStatement.forceProgress start t =
      .ok ⟨⟩ (if t.cursor.position = start then t.skip else t) := by
  show (if t.cursor.position = start then discard advance else pure ⟨⟩ : Parse PUnit) t = _
  split <;> rfl

theorem blockStatement_reads (hi : Forward inner) (hs : s.cursor.kind ≠ .eof) (code : Code) :
    ReadsAt GoesOn (blockStatement inner code) s := by
  have h := inside_forward none
  have hforced : ∀ {t u : ParserState} {r : PUnit}, s.cursor.Follows t.cursor →
      blockStatement.forceProgress s.cursor.position t = .ok r u →
      s.cursor.position < u.cursor.position := by
    intro t u r ht hu
    rw [forceProgress_eq] at hu
    cases hu
    exact skip_reads hs ht
  intro r u hr hgoes
  obtain ⟨c, s₁, hc, hr⟩ := of_bind_ok hr
  cases hc
  obtain ⟨found, s₂, hfound, hr⟩ := of_bind_ok hr
  have hread : s.cursor.Follows s₂.cursor := Forward.of_ok (.attempt hi) hfound
  cases found with
  | ok more =>
      obtain ⟨_, s₃, hforce, hr⟩ := of_bind_ok hr
      obtain ⟨-, rfl⟩ := of_pure_ok hr
      exact hforced hread hforce
  | error e =>
      by_cases hunclosed : e.cause = .unclosedBlock
      · simp only [hunclosed, if_true] at hr
        obtain ⟨rfl, -⟩ := of_pure_ok hr
        exact hgoes.elim
      · simp only [hunclosed, if_false] at hr
        obtain ⟨_, s₃, hreport, hr⟩ := of_bind_ok hr
        obtain ⟨_, s₄, hrecover, hr⟩ := of_bind_ok hr
        obtain ⟨_, s₅, hforce, hr⟩ := of_bind_ok hr
        obtain ⟨-, rfl⟩ := of_pure_ok hr
        have hreport' := Forward.of_ok (h.reported e.diagnostic) hreport
        have hrecover' := Forward.of_ok (h.recover_along .statementBoundary) hrecover
        exact hforced (hread.trans (hreport'.trans hrecover')) hforce

theorem blockRound_consumes (hi : Forward inner) (opener : Token) :
    Consumes (blockRound inner opener) := by
  have h := inside_forward none
  refine ReadsAt.consumes fun code s => .behind h.kind fun found t hkind => ?_
  cases hkind
  refine .ite (fun _ => .behind h.advance fun closer _ _ => ?_) fun _ => .ite (fun _ => .pure id)
    fun hopen => blockStatement_reads hi (fun heof => hopen (.inl heof)) code
  exact .behind (.ite (h.reported _) (.pure h _)) fun _ _ _ => .pure id

theorem item_forward : Forward item := Along.forward ParserState.Onward.throughout.item_along

theorem itemRound_end (start : Nat) (code : Code) (t : ParserState) : (do
      if (← cursor).position = start then discard advance
      return .inl code : Parse (Code ⊕ Code)) t =
    .ok (.inl code) (if t.cursor.position = start then t.skip else t) := by
  show (if t.cursor.position = start then discard advance >>= fun _ => pure _
    else pure _ : Parse (Code ⊕ Code)) t = _
  split <;> rfl

theorem itemRound_ok {more : Code} (code : Code) (hs : s.cursor.atEnd = false)
    (h : item s = .ok more t) : itemRound code s = .ok (.inl (code ++ more))
      (if t.cursor.position = s.cursor.position then t.skip else t) := by
  have hcursor : cursor s = .ok s.cursor s := rfl
  have hattempt : attempt item s = .ok (.ok more) t := by simp only [attempt, h]
  unfold itemRound
  rw [bind_ok hcursor]
  simp only [hs, Bool.false_eq_true, if_false]
  rw [bind_ok hattempt]
  exact itemRound_end _ _ t

/-- The state behind a malformed item. -/
def itemReported (e : ParseError) (t : ParserState) : ParserState :=
  ParserState.recovered { t with problems := t.problems.push e.diagnostic }
    (KindSet.statementBoundary.union .itemStart)

theorem itemRound_error {e : ParseError} (code : Code) (hs : s.cursor.atEnd = false)
    (h : item s = .error e t) : itemRound code s = .ok (.inl code)
      (if (itemReported e t).cursor.position = s.cursor.position then (itemReported e t).skip
        else itemReported e t) := by
  have hcursor : cursor s = .ok s.cursor s := rfl
  have hattempt : attempt item s = .ok (.error e) t := by simp only [attempt, h]
  have hreport : report e.diagnostic t =
      .ok ⟨⟩ { t with problems := t.problems.push e.diagnostic } := rfl
  unfold itemRound
  rw [bind_ok hcursor]
  simp only [hs, Bool.false_eq_true, if_false]
  rw [bind_ok hattempt]
  show (report e.diagnostic >>= fun _ => _) t = _
  rw [bind_ok hreport, bind_ok (recover_eq _ _)]
  exact itemRound_end _ _ _

/-- A round that reads an item never fails, and another one follows. -/
theorem itemRound_goes (code : Code) (hs : s.cursor.atEnd = false) :
    ∃ more t, s.cursor.Follows t.cursor ∧ itemRound code s =
      .ok (.inl more) (if t.cursor.position = s.cursor.position then t.skip else t) := by
  have h := inside_forward none
  cases hitem : item s with
  | ok more t => exact ⟨code ++ more, t, item_forward.of_ok hitem, itemRound_ok code hs hitem⟩
  | error e t =>
      have hattempt : attempt item s = .ok (.error e) t := by simp only [attempt, hitem]
      have hread : s.cursor.Follows t.cursor := Forward.of_ok (.attempt item_forward) hattempt
      have hskipped : t.cursor.Follows (itemReported e t).cursor :=
        Forward.of_ok (s := { t with problems := t.problems.push e.diagnostic })
          (h.recover_along _) (recover_eq _ _)
      exact ⟨code, itemReported e t, hread.trans hskipped, itemRound_error code hs hitem⟩

theorem itemRound_last (code : Code) (hs : s.cursor.atEnd = true) :
    itemRound code s = .ok (.inr code) s := by
  have hcursor : cursor s = .ok s.cursor s := rfl
  unfold itemRound
  rw [bind_ok hcursor]
  simp only [hs, if_true]
  rfl

theorem itemRound_consumes : Consumes itemRound := by
  intro code s more u hr
  cases hend : s.cursor.atEnd with
  | true =>
      rw [itemRound_last code hend] at hr
      cases hr
  | false =>
      obtain ⟨more', t, hread, ht⟩ := itemRound_goes code hend
      rw [ht] at hr
      cases hr
      exact skip_reads (by simpa [Cursor.atEnd] using hend) hread

end Parse

end SslFrontend
