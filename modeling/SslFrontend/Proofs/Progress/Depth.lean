import Mathlib.Logic.Function.Iterate
import SslFrontend.Proofs.Progress.Loops

/-! # Depth

Expressions and statements hold others, to a depth that is the number of tokens
that are left.  It is never used up: whatever stands at the bottom, and however
much deeper it lies, the answer is the same.  So both are productions that hold
themselves (`expression_eq`, `statement_eq`).
-/

namespace SslFrontend.Parse

variable {α β : Type} {n : Nat} {s : ParserState}

/-- With less than so many tokens left, both do the same. -/
def Below (n : Nat) (p q : Parse α) : Prop := ∀ s, s.cursor.rest.length < n → p s = q s

namespace Below

theorem refl (p : Parse α) : Below n p p := fun _ _ => rfl

theorem mono {m : Nat} {p q : Parse α} (h : Below n p q) (hm : m ≤ n) : Below m p q :=
  fun s hs => h s (Nat.lt_of_lt_of_le hs hm)

theorem bind {p q : Parse α} {k k' : α → Parse β} (hp : Below n p q) (hq : Forward q)
    (hk : ∀ a, Below n (k a) (k' a)) : Below n (p >>= k) (q >>= k') := by
  intro s hs
  show EStateM.bind p k s = EStateM.bind q k' s
  unfold EStateM.bind
  rw [hp s hs]
  cases hr : q s with
  | error e t => rfl
  | ok a t =>
      have hread := hq.of_ok hr
      have hle := hread.position_le
      have hlength := hread.rest_length
      exact hk a t (by omega)

/-- What comes first is the same. -/
theorem same {p : Parse α} {k k' : α → Parse β} (hp : Forward p)
    (hk : ∀ a, Below n (k a) (k' a)) : Below n (p >>= k) (p >>= k') :=
  .bind (.refl p) hp hk

theorem ite {c : Prop} [Decidable c] {p p' q q' : Parse α} (hp : Below n p p')
    (hq : Below n q q') : Below n (if c then p else q) (if c then p' else q') := by
  split
  · exact hp
  · exact hq

/-- What follows both branches is run after either of them. -/
theorem join {c : Prop} [Decidable c] {p q : Parse α} {k k' : α → Parse β}
    (h : Below n ((if c then p else q) >>= k) ((if c then p else q) >>= k')) :
    Below n (if c then p >>= k else q >>= k) (if c then p >>= k' else q >>= k') := by
  split
  · rwa [if_pos ‹c›] at h
  · rwa [if_neg ‹¬c›] at h

/-- Behind a token there are fewer. -/
theorem token {k k' : Token → Parse β} (hs : s.cursor.rest.length < n + 1)
    (hkind : s.cursor.kind ≠ .eof) (hk : ∀ token, Below n (k token) (k' token)) :
    (advance >>= k) s = (advance >>= k') s := by
  rw [advance_bind, advance_bind]
  have hless := Cursor.advance_rest_length_lt (c := s.cursor) (by simpa [Cursor.atEnd] using hkind)
  refine hk _ s.skip ?_
  show s.cursor.advance.rest.length < n
  omega

/-- The token is not looked at. -/
theorem skip {p p' : Parse β} (hs : s.cursor.rest.length < n + 1) (hkind : s.cursor.kind ≠ .eof)
    (hp : Below n p p') : (discard advance >>= fun _ => p) s = (discard advance >>= fun _ => p') s := by
  rw [discard_bind, discard_bind]
  exact token hs hkind fun _ => hp

theorem rounds {round round' : α → Parse (α ⊕ β)} (hr : ∀ a, Below n (round a) (round' a))
    (hf : ∀ a, Forward (round' a)) (bound : Nat) (a : α) :
    Below n (Parse.rounds round bound a) (Parse.rounds round' bound a) := by
  induction bound generalizing a with
  | zero => exact .refl _
  | succ bound ih =>
      refine .bind (hr a) (hf a) fun r => ?_
      cases r with
      | inl next => exact ih next
      | inr last => exact .refl _

theorem repeatRounds {round round' : α → Parse (α ⊕ β)} (hr : ∀ a, Below n (round a) (round' a))
    (hf : ∀ a, Forward (round' a)) (a : α) :
    Below n (Parse.repeatRounds round a) (Parse.repeatRounds round' a) :=
  fun s hs => rounds hr hf _ a s hs

end Below

/-! ## Productions that hold themselves -/

/-- Productions that hold one another, and what they are to a depth. -/
structure Nested {κ : Type} (step : (κ → Parse α) → κ → Parse α) (deep : Nat → κ → Parse α) :
    Prop where
  /-- What is held stands behind a token. -/
  below : ∀ {n p q}, (∀ k, Below n (p k) (q k)) → (∀ k, Forward (q k)) →
    ∀ k, Below (n + 1) (step p k) (step q k)
  more : ∀ n, deep (n + 1) = step (deep n)
  forward : ∀ n k, Forward (deep n k)

namespace Nested

variable {κ : Type} {step : (κ → Parse α) → κ → Parse α} {deep : Nat → κ → Parse α}

/-- As deep as there are tokens. -/
def whole (deep : Nat → κ → Parse α) (k : κ) : Parse α :=
  fun s => deep (s.cursor.rest.length + 1) k s

/-- Whatever stands at the bottom, and however deep. -/
theorem below_deep (h : Nested step deep) (bottom : κ → Parse α) (n extra : Nat) (k : κ) :
    Below n (step^[n] bottom k) (deep (n + extra) k) := by
  induction n generalizing k with
  | zero => exact fun s hs => absurd hs (Nat.not_lt_zero _)
  | succ n ih =>
      rw [Function.iterate_succ_apply', Nat.add_right_comm, h.more]
      exact h.below ih (h.forward _) k

theorem deep_eq (h : Nested step deep) (n : Nat) : step^[n] (deep 0) = deep n := by
  induction n with
  | zero => rfl
  | succ n ih => rw [Function.iterate_succ_apply', ih, h.more]

/-- The depth is never used up. -/
theorem below_whole (h : Nested step deep) (bottom : κ → Parse α) (n : Nat) (k : κ) :
    Below n (step^[n] bottom k) (whole deep k) := by
  intro s hs
  obtain ⟨extra, rfl⟩ : ∃ extra, n = s.cursor.rest.length + 1 + extra :=
    ⟨n - (s.cursor.rest.length + 1), by omega⟩
  have hself := h.below_deep (deep 0) _ extra k s (Nat.lt_succ_self _)
  rw [h.deep_eq] at hself
  exact (h.below_deep bottom _ 0 k s hs).trans hself.symm

theorem deep_below_whole (h : Nested step deep) (n : Nat) (k : κ) :
    Below n (deep n k) (whole deep k) := by
  rw [← h.deep_eq]
  exact h.below_whole (deep 0) n k

theorem whole_eq (h : Nested step deep) (k : κ) : whole deep k = step (whole deep) k := by
  funext s
  have hbelow := h.below (h.below_whole (deep 0) s.cursor.rest.length)
    (fun k t => h.forward _ k t) k s (Nat.lt_succ_self _)
  rw [← hbelow, ← Function.iterate_succ_apply' step]
  exact (h.below_whole _ _ k s (Nat.lt_succ_self _)).symm

end Nested

/-! ## Expressions -/

variable {scope : Option ScopeId} {inner inner' : Parse Code}

theorem arguments_below (hi : Below n inner inner') (hf : Forward inner') :
    Below n (arguments inner) (arguments inner') := by
  have h := inside_forward none
  have hrun : Below n (argumentRun inner) (argumentRun inner') :=
    .repeatRounds (fun _ => .bind hi hf fun _ => .refl _) (h.argumentRound_along hf) _
  refine .same (h.check _) fun _ => .ite (.refl _) ?_
  exact .bind hrun (h.argumentRun_along hf) fun _ => .refl _

theorem primary_below (hi : Below n inner inner') (hf : Forward inner') :
    Below (n + 1) (primary scope inner) (primary scope inner') := by
  intro s hs
  have h := inside_forward scope
  have hmention : ∀ name pos, Forward (mention scope name pos) := by
    intro name pos s
    unfold after
    rw [s.mention_eq, s.mentioned_cursor]
    exact .refl _
  have hlook : ∀ {k k' : Cursor → Parse Code}, k s.cursor s = k' s.cursor s →
      (cursor >>= k) s = (cursor >>= k') s := fun hk => hk
  refine hlook ?_
  cases hkind : s.cursor.current.kind with
  | ident name =>
      have hne : s.cursor.kind ≠ .eof := fun heof => by cases hkind.symm.trans heof
      refine Below.skip hs hne (.same (hmention name _) fun callee => .same (h.eat _) fun _ => ?_)
      exact .ite (.bind (arguments_below hi hf) (h.arguments_along hf) fun _ => .refl _)
        (.refl _)
  | mark sign =>
      cases sign with
      | lparen =>
          have hne : s.cursor.kind ≠ .eof := fun heof => by cases hkind.symm.trans heof
          exact Below.skip hs hne (.bind hi hf fun _ => .refl _)
      | _ => rfl
  | keyword word => cases word <;> rfl
  | _ => rfl

theorem indices_below (hi : Below n inner inner') (hf : Forward inner') (code : Code) :
    Below (n + 1) (indices inner code) (indices inner' code) := by
  have h := inside_forward none
  refine .repeatRounds (fun code => ?_) (h.indexRound_along hf) code
  intro s hs
  have hlook : ∀ {k k' : Bool → Parse (Code ⊕ Code)},
      k (s.cursor.check (.mark .lbracket)) s = k' (s.cursor.check (.mark .lbracket)) s →
      (check (.mark .lbracket) >>= k) s = (check (.mark .lbracket) >>= k') s := fun hk => hk
  refine hlook ?_
  by_cases hc : s.cursor.check (.mark .lbracket) = true
  · rw [if_pos hc, if_pos hc]
    have hmark := Cursor.kind_of_check_mark hc
    exact Below.token hs (by rw [hmark]; nofun) fun _ => .bind hi hf fun _ => .refl _
  · rw [if_neg hc, if_neg hc]

theorem operand_below (hi : Below n inner inner') (hf : Forward inner') :
    Below (n + 1) (operand scope inner) (operand scope inner') := by
  have h := inside_forward scope
  refine .same h.unaryRun_along fun _ => .bind (primary_below hi hf) (h.primary_along hf) fun _ => ?_
  exact .bind (indices_below hi hf _) (h.indices_along hf _) fun _ => .refl _

theorem chainRun_below (hi : Below n inner inner') (hf : Forward inner') :
    Below (n + 1) (chainRun scope inner) (chainRun scope inner') := by
  have h := inside_forward scope
  refine .repeatRounds (fun links => ?_) (h.linkRound_along hf) _
  refine .same h.kind fun found => ?_
  cases Operator.binary? found with
  | none => exact .refl _
  | some _ =>
      exact .same h.advance fun _ => .bind (operand_below hi hf) (h.operand_along hf) fun _ =>
        .refl _

theorem expressionWith_below (hi : Below n inner inner') (hf : Forward inner') :
    Below (n + 1) (expressionWith scope inner) (expressionWith scope inner') := by
  have h := inside_forward scope
  refine .bind (operand_below hi hf) (h.operand_along hf) fun _ => ?_
  exact .bind (chainRun_below hi hf) (h.chainRun_along hf) fun _ => .refl _

/-- An expression that holds others. -/
def holdingExpressions (inner : Option ScopeId → Parse Code) (scope : Option ScopeId) :
    Parse Code :=
  expressionWith scope (inner scope)

theorem expressions_nested : Nested holdingExpressions fun depth scope => expressionTo scope depth where
  below hi hf scope := expressionWith_below (hi scope) (hf scope)
  more _ := rfl
  forward depth scope := (inside_forward scope).expressionTo_along depth

/-- An expression holds others. -/
theorem expression_eq (scope : Option ScopeId) :
    expression scope = expressionWith scope (expression scope) :=
  expressions_nested.whole_eq scope

/-! ## Statements -/

theorem blockStatement_below (hi : Below n inner inner') (hf : Forward inner') (code : Code) :
    Below n (blockStatement inner code) (blockStatement inner' code) := by
  have h := inside_forward none
  have hattempt : Below n (attempt inner) (attempt inner') := by
    intro s hs
    unfold attempt
    rw [hi s hs]
  exact .same h.cursor fun _ => .bind hattempt (.attempt hf) fun _ => .refl _

theorem blockRound_below (hi : Below n inner inner') (hf : Forward inner') (opener : Token)
    (code : Code) : Below n (blockRound inner opener code) (blockRound inner' opener code) := by
  have h := inside_forward none
  exact .same h.kind fun _ => .ite (.refl _) (.ite (.refl _) (blockStatement_below hi hf code))

theorem block_below (hi : Below n inner inner') (hf : Forward inner')
    (hs : s.cursor.rest.length < n + 1) (hkind : s.cursor.kind ≠ .eof) :
    block inner s = block inner' s := by
  have h := inside_forward none
  have hopen : openBlock inner s = openBlock inner' s := Below.token hs hkind fun opener =>
    .repeatRounds (blockRound_below hi hf opener) (h.blockRound_along hf opener) _
  show EStateM.bind (openBlock inner) _ s = EStateM.bind (openBlock inner') _ s
  unfold EStateM.bind
  rw [hopen]

theorem ifStatement_below (hi : Below n inner inner') (hf : Forward inner')
    (hs : s.cursor.rest.length < n + 1) (hkind : s.cursor.kind ≠ .eof) :
    ifStatement scope inner s = ifStatement scope inner' s := by
  have h := inside_forward scope
  refine Below.token hs hkind fun _ => .same h.expression_along fun _ => ?_
  refine .same (.discard (h.expect _)) fun _ => .bind hi hf fun _ => ?_
  refine .same (h.check _) fun _ => .ite ?_ (.refl _)
  exact .same h.advance fun _ => .bind hi hf fun _ => .refl _

theorem whileStatement_below (hi : Below n inner inner') (hf : Forward inner')
    (hs : s.cursor.rest.length < n + 1) (hkind : s.cursor.kind ≠ .eof) :
    whileStatement scope inner s = whileStatement scope inner' s := by
  have h := inside_forward scope
  refine Below.token hs hkind fun _ => .same h.expression_along fun _ => ?_
  exact .same (.discard (h.expect _)) fun _ => .bind hi hf fun _ => .refl _

theorem forStatement_below (hi : Below n inner inner') (hf : Forward inner')
    (hs : s.cursor.rest.length < n + 1) (hkind : s.cursor.kind ≠ .eof) :
    forStatement scope inner s = forStatement scope inner' s := by
  have h := inside_forward scope
  have hsimple : ∀ skip : Bool, Forward (if skip = true then pure [] else simple scope) :=
    fun _ => .ite (.pure h _) h.simple_along
  refine Below.token hs hkind fun _ => .same (.discard (h.expect _)) fun _ => ?_
  refine .same (h.check _) fun _ => .join (.same (hsimple _) fun _ => ?_)
  refine .same (.discard (h.expect _)) fun _ => .same (h.check _) fun _ => .join ?_
  refine .same (.ite (.pure h _) h.expression_along) fun _ => ?_
  refine .same (.discard (h.expect _)) fun _ => .same (h.check _) fun _ => .join ?_
  refine .same (hsimple _) fun _ => .same (.discard (h.expect _)) fun _ => ?_
  exact .bind hi hf fun _ => .refl _

variable {context : Context} {body body' : Context → Parse Code}

theorem statementWith_below (hi : ∀ context, Below n (body context) (body' context))
    (hf : ∀ context, Forward (body' context)) :
    Below (n + 1) (statementWith body context) (statementWith body' context) := by
  intro s hs
  have hlook : ∀ {k k' : TokenKind → Parse Code}, k s.cursor.kind s = k' s.cursor.kind s →
      (kind >>= k) s = (kind >>= k') s := fun hk => hk
  refine hlook ?_
  have hne : ∀ {kind : TokenKind}, s.cursor.kind = kind → kind ≠ .eof → s.cursor.kind ≠ .eof :=
    fun hk hkind => hk ▸ hkind
  cases hkind : s.cursor.kind with
  | keyword word =>
      cases word with
      | kwBegin => exact block_below (hi _) (hf _) hs (hne hkind nofun)
      | kwIf => exact ifStatement_below (hi _) (hf _) hs (hne hkind nofun)
      | kwWhile => exact whileStatement_below (hi _) (hf _) hs (hne hkind nofun)
      | kwFor => exact forStatement_below (hi _) (hf _) hs (hne hkind nofun)
      | _ => rfl
  | mark sign =>
      cases sign with
      | lbrace => exact block_below (hi _) (hf _) hs (hne hkind nofun)
      | _ => rfl
  | _ => rfl

theorem statements_nested : Nested statementWith statementTo where
  below hi hf _ := statementWith_below hi hf
  more _ := rfl
  forward depth context := (inside_forward context.scope).statementTo_along depth rfl

/-- A statement holds others. -/
theorem statement_eq (context : Context) : statement context = statementWith statement context :=
  statements_nested.whole_eq context

end SslFrontend.Parse
