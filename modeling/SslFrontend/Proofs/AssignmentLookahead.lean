import SslFrontend.Proofs.Recovery.Statement

/-! # The look ahead for an assignment agrees with its production

Whether a statement is an assignment is decided before any of it is read: the look
ahead counts brackets among the tokens in front, where the production reads a name
and a whole expression between brackets.  What an expression reads has its brackets
in pairs and no semicolon, so both come to the same token behind the target.

Main statement: where the look ahead finds an assignment operator, the production
never stops at the operator, and where it finds none, the production never gets past
it (`assignment_foretold`).
-/

namespace SslFrontend

open Assignment (afterBrackets? afterTarget? isNext ofKind?)

/-! ## Looking at tokens by their distance -/

namespace Cursor

/-- A look at the token so many places ahead while so many brackets are open: how many
are open behind it, or the distance of what is behind the bracket that closes the
last one.  A semicolon and the end of file end the search. -/
def lookBracket (c : Cursor) (depth offset : Nat) : Nat ⊕ Option Nat :=
  match c.peek offset with
  | .mark .lbracket => .inl (depth + 1)
  | .mark .rbracket => if depth = 1 then .inr (some (offset + 1)) else .inl (depth - 1)
  | .mark .semicolon | .eof => .inr none
  | _ => .inl depth

/-- The search for the bracket that closes the first one comes to an end. -/
inductive FindsClosing (c : Cursor) : Nat → Nat → Option Nat → Prop
  | stop {depth offset : Nat} {found : Option Nat} (h : c.lookBracket depth offset = .inr found) :
      FindsClosing c depth offset found
  | next {depth offset inside : Nat} {found : Option Nat}
      (h : c.lookBracket depth offset = .inl inside)
      (hrest : FindsClosing c inside (offset + 1) found) : FindsClosing c depth offset found

/-- Whether a token of this kind assigns. -/
def assigns (kind : TokenKind) : Bool := (ofKind? kind).isSome

/-- What the look ahead for an assignment says. -/
inductive Foresees (c : Cursor) : Bool → Prop
  | noName (h : c.kind.isIdent = false) : Foresees c false
  | scalar (h : c.kind.isIdent = true) (hopen : c.peek 1 ≠ .mark .lbracket) :
      Foresees c (assigns (c.peek 1))
  | element {behind : Nat} (h : c.kind.isIdent = true) (hopen : c.peek 1 = .mark .lbracket)
      (hclosed : c.FindsClosing 0 1 (some behind)) : Foresees c (assigns (c.peek behind))
  | unclosed (h : c.kind.isIdent = true) (hopen : c.peek 1 = .mark .lbracket)
      (hnone : c.FindsClosing 0 1 none) : Foresees c false

variable {c : Cursor}

theorem FindsClosing.unique {depth offset : Nat} {found found' : Option Nat}
    (h : c.FindsClosing depth offset found) (h' : c.FindsClosing depth offset found') :
    found = found' := by
  induction h with
  | stop h =>
      cases h' with
      | stop h' => exact Sum.inr.inj (h.symm.trans h')
      | next h' _ => cases h.symm.trans h'
  | next h _ ih =>
      cases h' with
      | stop h' => cases h.symm.trans h'
      | next h' hrest' =>
          obtain rfl := Sum.inl.inj (h.symm.trans h')
          exact ih hrest'

theorem Foresees.unique {answer answer' : Bool} (h : c.Foresees answer)
    (h' : c.Foresees answer') : answer = answer' := by
  cases h with
  | noName h =>
      cases h' with
      | noName => rfl
      | scalar h' | element h' | unclosed h' => cases h.symm.trans h'
  | scalar h hopen =>
      cases h' with
      | noName h' => cases h.symm.trans h'
      | scalar => rfl
      | element _ hopen' | unclosed _ hopen' => exact absurd hopen' hopen
  | element h hopen hclosed =>
      cases h' with
      | noName h' => cases h.symm.trans h'
      | scalar _ hopen' => exact absurd hopen hopen'
      | element _ _ hclosed' => rw [Option.some.inj (hclosed.unique hclosed')]
      | unclosed _ _ hnone => cases hclosed.unique hnone
  | unclosed h hopen hnone =>
      cases h' with
      | noName h' => cases h.symm.trans h'
      | scalar _ hopen' => exact absurd hopen hopen'
      | element _ _ hclosed => cases hnone.unique hclosed
      | unclosed => rfl

theorem peek_eq_headKind (c : Cursor) (offset : Nat) :
    c.peek offset = headKind (c.rest.drop offset) := by
  rw [peek, headKind, List.head?_drop]

/-- The search ends where the tokens say that the brackets close. -/
theorem exists_findsClosing (c : Cursor) (depth offset : Nat) : ∃ found,
    c.FindsClosing (depth + 1) offset found ∧
      afterBrackets? depth (c.rest.drop offset) = found.map c.rest.drop := by
  generalize htokens : c.rest.drop offset = tokens
  induction tokens generalizing depth offset with
  | nil =>
      refine ⟨none, .stop ?_, rfl⟩
      rw [lookBracket, peek_eq_headKind, htokens]
      rfl
  | cons token tokens ih =>
      have hbehind : c.rest.drop (offset + 1) = tokens := by
        rw [← List.tail_drop, htokens]
        rfl
      have hkind : c.peek offset = token.kind := by
        rw [peek_eq_headKind, htokens]
        rfl
      -- the search goes on with the brackets that are open behind the token
      have onward : ∀ inside, c.lookBracket (depth + 1) offset = .inl (inside + 1) →
          afterBrackets? depth (token :: tokens) = afterBrackets? inside tokens →
          ∃ found, c.FindsClosing (depth + 1) offset found ∧
            afterBrackets? depth (token :: tokens) = found.map c.rest.drop := by
        intro inside hlook hsame
        obtain ⟨found, hfound, heq⟩ := ih inside (offset + 1) hbehind
        exact ⟨found, .next hlook hfound, hsame.trans heq⟩
      obtain ⟨kind, pos⟩ := token
      cases hpass : Assignment.passes kind with
      | true =>
          refine onward depth ?_ (Assignment.afterBrackets?_cons hpass depth tokens)
          rw [lookBracket, hkind]
          cases kind with
          | mark sign => cases sign <;> first | rfl | cases hpass
          | eof => cases hpass
          | _ => rfl
      | false =>
          cases kind with
          | eof =>
              refine ⟨none, .stop ?_, rfl⟩
              rw [lookBracket, hkind]
          | mark sign =>
              cases sign with
              | semicolon =>
                  refine ⟨none, .stop ?_, rfl⟩
                  rw [lookBracket, hkind]
              | lbracket =>
                  refine onward (depth + 1) ?_ rfl
                  rw [lookBracket, hkind]
              | rbracket =>
                  cases depth with
                  | zero =>
                      refine ⟨some (offset + 1), .stop ?_, ?_⟩
                      · rw [lookBracket, hkind]
                        rfl
                      · rw [Option.map_some, hbehind]
                        rfl
                  | succ outer =>
                      refine onward outer ?_ rfl
                      rw [lookBracket, hkind]
                      rfl
              | _ => cases hpass
          | _ => cases hpass

theorem assigns_headKind (tokens : List Token) : assigns (headKind tokens) =
    tokens.head?.any fun token => (ofKind? token.kind).isSome := by
  cases tokens <;> rfl

/-- The look ahead comes to an end, and says whether a target and an assignment
operator come next. -/
theorem foresees_isNext (c : Cursor) : c.Foresees (isNext c.rest) := by
  cases hident : c.kind.isIdent with
  | false =>
      cases hrest : c.rest with
      | nil => exact .noName hident
      | cons token tokens =>
          rw [kind_of_rest hrest] at hident
          rw [not_isNext_of_kind hident]
          exact .noName (by rwa [kind_of_rest hrest])
  | true =>
      obtain ⟨⟨kind, pos⟩, tokens, hrest⟩ : ∃ token tokens, c.rest = token :: tokens := by
        cases hrest : c.rest with
        | nil =>
            rw [kind_eq_headKind hrest] at hident
            cases hident
        | cons token tokens => exact ⟨token, tokens, rfl⟩
      obtain ⟨name, rfl⟩ : ∃ name, kind = .ident name := by
        rw [kind_of_rest hrest] at hident
        cases kind <;> first | exact ⟨_, rfl⟩ | cases hident
      have hpeek : ∀ offset, c.peek (offset + 1) = headKind (tokens.drop offset) := by
        intro offset
        rw [peek_eq_headKind, hrest, List.drop_succ_cons]
      by_cases hopen : c.peek 1 = .mark .lbracket
      · obtain ⟨found, hfound, heq⟩ := c.exists_findsClosing 0 2
        have hfirst : c.FindsClosing 0 1 found := .next (by rw [lookBracket, hopen]) hfound
        obtain ⟨opened, inside, rfl⟩ : ∃ opened inside,
            tokens = ⟨.mark .lbracket, opened⟩ :: inside := by
          rw [hpeek 0, List.drop_zero] at hopen
          cases tokens with
          | nil => cases hopen
          | cons token inside => exact ⟨token.pos, inside, by rw [← hopen]; rfl⟩
        have hafter : afterTarget? c.rest = found.map c.rest.drop := by
          rw [← heq, hrest]
          rfl
        cases found with
        | none =>
            have hnone : isNext c.rest = false := by
              unfold isNext
              rw [hafter]
              rfl
            rw [hnone]
            exact .unclosed hident hopen hfirst
        | some behind =>
            rw [Assignment.isNext_of_after hafter, ← assigns_headKind, ← peek_eq_headKind]
            exact .element hident hopen hfirst
      · have hafter : afterTarget? c.rest = some tokens := by
          rw [hrest]
          cases tokens with
          | nil => rfl
          | cons token tokens => exact Assignment.afterTarget?_scalar fun h => hopen (by rwa [hpeek 0])
        have hone : c.peek 1 = headKind tokens := hpeek 0
        rw [Assignment.isNext_of_after hafter, ← assigns_headKind, ← hone]
        exact .scalar hident hopen

end Cursor

/-! ## Where an assignment ends -/

namespace Parse

/-- The front of an assignment: a name, and an index if a bracket opens one. -/
def target (scope : Option ScopeId) : Parse (Node × Option Code) := do
  let (name, pos) ← expectIdent
  let node ← mention scope name pos
  if ← eat (.mark .lbracket) then
    let code ← expression scope
    discard <| expect (.mark .rbracket)
    return (node, some code)
  else return (node, none)

/-- Where an assignment ends. -/
inductive Stage where
  /-- In front of a name. -/
  | name
  /-- Inside the expression between the brackets. -/
  | index
  /-- In front of the bracket that closes them. -/
  | bracket
  /-- At a token behind the target that does not assign. -/
  | operator
  /-- Inside the expression that is assigned. -/
  | value
  /-- Behind everything, without an error. -/
  | complete
deriving DecidableEq, Repr

/-- Run from a state, an assignment ends at a stage with a result. -/
inductive AssignmentEnds (scope : Option ScopeId) (s : ParserState) :
    Stage → EStateM.Result ParseError ParserState Code → Prop
  | name {e : ParseError} {s' : ParserState} (h : expectIdent s = .error e s') :
      AssignmentEnds scope s .name (.error e s')
  | index {name : String × Position} {node : Node} {s₁ s₂ s' : ParserState} {e : ParseError}
      (hname : expectIdent s = .ok name s₁) (hnode : mention scope name.1 name.2 s₁ = .ok node s₂)
      (hopen : eat (.mark .lbracket) s₂ = .ok true s₂.skip)
      (h : expression scope s₂.skip = .error e s') : AssignmentEnds scope s .index (.error e s')
  | bracket {name : String × Position} {node : Node} {s₁ s₂ s₃ s' : ParserState} {code : Code}
      {e : ParseError} (hname : expectIdent s = .ok name s₁)
      (hnode : mention scope name.1 name.2 s₁ = .ok node s₂)
      (hopen : eat (.mark .lbracket) s₂ = .ok true s₂.skip)
      (hindex : expression scope s₂.skip = .ok code s₃)
      (h : expect (.mark .rbracket) s₃ = .error e s') :
      AssignmentEnds scope s .bracket (.error e s')
  | operator {x : Node × Option Code} {s₁ : ParserState} (htarget : target scope s = .ok x s₁)
      (hop : ofKind? s₁.cursor.kind = none) :
      AssignmentEnds scope s .operator (.error ⟨.unexpectedToken,
        s!"expected assignment operator, found `{s₁.cursor.kind.friendlyName}`", s₁.cursor.pos,
        none, []⟩ s₁.skip)
  | value {x : Node × Option Code} {s₁ s' : ParserState} {op : Assignment} {e : ParseError}
      (htarget : target scope s = .ok x s₁) (hop : ofKind? s₁.cursor.kind = some op)
      (h : expression scope s₁.skip = .error e s') (hassign : assign scope x.1 x.2 s₁ = .error e s') :
      AssignmentEnds scope s .value (.error e s')
  | complete {x : Node × Option Code} {s₁ s' : ParserState} {op : Assignment} {code : Code}
      (htarget : target scope s = .ok x s₁) (hop : ofKind? s₁.cursor.kind = some op)
      (hassign : assign scope x.1 x.2 s₁ = .ok code s') :
      AssignmentEnds scope s .complete (.ok code s')

variable {scope : Option ScopeId} {s s₁ : ParserState}

/-- An assignment is a target, and an operator with what it assigns. -/
theorem assignment_eq (scope : Option ScopeId) :
    assignment scope = target scope >>= fun x => assign scope x.1 x.2 := by
  unfold assignment target
  simp only [bind_assoc]
  congr 1
  funext name
  congr 1
  funext node
  congr 1
  funext opened
  cases opened <;> simp [bind_assoc]

/-- The look ahead finds the token that comes behind a target. -/
theorem isNext_of_target {x : Node × Option Code} (h : target scope s = .ok x s₁) :
    isNext s.cursor.rest = (ofKind? s₁.cursor.kind).isSome := by
  obtain ⟨⟨name, pos⟩, s₂, hname, h⟩ := of_bind_ok h
  obtain ⟨hkind, rfl, rfl⟩ := of_expectIdent_ok hname
  obtain ⟨node, s₃, hnode, hmention⟩ := mention_ok scope name s.cursor.pos s.skip
  obtain ⟨node', s₄, hnode', h⟩ := of_bind_ok h
  cases hnode.symm.trans hnode'
  have hfront : s.cursor.rest = ⟨.ident name, s.cursor.pos⟩ :: s₃.cursor.rest := by
    have hread := (Cursor.reads_advance (c := s.cursor) (by rw [hkind]; nofun)).trans hmention.reads
    rw [hread.rest, Cursor.current_of_kind hkind]
    rfl
  -- the token behind the target is the first one that is left
  have hbehind : ∀ {behind : List Token}, afterTarget? s.cursor.rest = some behind →
      s₁.cursor.rest = behind → isNext s.cursor.rest = (ofKind? s₁.cursor.kind).isSome := by
    rintro behind hafter rfl
    rw [Assignment.isNext_of_after hafter, ← Cursor.assigns_headKind, Cursor.kind_eq_headKind rfl]
    rfl
  obtain ⟨opened, s₄, hopen, hlast⟩ := of_bind_ok h
  rcases of_eat_ok hopen with ⟨rfl, hcheck, rfl⟩ | ⟨rfl, rfl⟩
  · obtain ⟨code, s₅, hcode, hclose⟩ := of_bind_ok hlast
    obtain ⟨-, hclosed, rfl⟩ := of_expect_last hclose
    refine hbehind ?_ rfl
    have hinside : s₃.cursor.rest = ⟨.mark .lbracket, s₃.cursor.pos⟩ :: s₃.skip.cursor.rest := by
      have hbracket := Cursor.kind_of_check_mark hcheck
      have hread := Cursor.reads_advance (c := s₃.cursor) (by rw [hbracket]; nofun)
      rw [hread.rest, Cursor.current_of_kind hbracket]
      rfl
    rw [hfront, hinside]
    exact afterBrackets?_of_expression hcode hclosed
  · cases hlast
    refine hbehind ?_ rfl
    rw [hfront]
    cases hrest : s₁.cursor.rest with
    | nil => rfl
    | cons token more =>
        refine Assignment.afterTarget?_scalar fun hbracket => ?_
        rw [eat_eq, if_pos (Cursor.check_of_kind
          ((Cursor.kind_of_rest hrest).trans hbracket))] at hopen
        cases hopen

theorem bind_error {α β : Type} {p : Parse α} {k : α → Parse β} {e : ParseError}
    (h : p s = .error e s₁) : (p >>= k) s = .error e s₁ := by
  show EStateM.bind p k s = _
  simp [EStateM.bind, h]

/-- Behind a target, an operator that does not assign ends the assignment. -/
theorem assign_of_none (x : Node × Option Code) (hop : ofKind? s.cursor.kind = none) :
    assign scope x.1 x.2 s = .error ⟨.unexpectedToken,
      s!"expected assignment operator, found `{s.cursor.kind.friendlyName}`", s.cursor.pos, none,
      []⟩ s.skip := by
  unfold assign
  rw [advance_bind]
  have hcurrent : ofKind? s.cursor.current.kind = none := hop
  simp only [hcurrent]
  rfl

/-- Behind an operator that assigns, only the expression that is assigned can be
malformed. -/
theorem assign_of_some (scope : Option ScopeId) (x : Node × Option Code) {op : Assignment}
    (hop : ofKind? s.cursor.kind = some op) :
    (∃ code s', assign scope x.1 x.2 s = .ok code s') ∨
      ∃ e s', expression scope s.skip = .error e s' ∧ assign scope x.1 x.2 s = .error e s' := by
  have hcurrent : ofKind? s.cursor.current.kind = some op := hop
  unfold assign
  rw [advance_bind]
  cases op with
  | step kind =>
      simp only [hcurrent]
      exact .inl ⟨_, _, rfl⟩
  | store | compound kind =>
      simp only [hcurrent]
      cases hvalue : expression scope s.skip with
      | ok code s' => exact .inl ⟨_, _, by rw [bind_ok hvalue]; rfl⟩
      | error e s' => exact .inr ⟨e, s', rfl, bind_error hvalue⟩

/-- Behind a name and a bracket, the rest of a target is its index. -/
theorem target_of_bracket {name : String × Position} {node : Node} {s₂ : ParserState}
    (hname : expectIdent s = .ok name s₁) (hnode : mention scope name.1 name.2 s₁ = .ok node s₂)
    (hopen : eat (.mark .lbracket) s₂ = .ok true s₂.skip) :
    target scope s = (do
      let code ← expression scope
      discard <| expect (.mark .rbracket)
      return (node, some code) : Parse (Node × Option Code)) s₂.skip := by
  unfold target
  rw [bind_ok hname]
  refine (bind_ok hnode).trans ?_
  rw [bind_ok hopen]
  rfl

/-- Every assignment ends at some stage. -/
theorem exists_assignmentEnds (scope : Option ScopeId) (s : ParserState) :
    ∃ stage, AssignmentEnds scope s stage (assignment scope s) := by
  have hassign : ∀ x s₁, target scope s = .ok x s₁ →
      ∃ stage, AssignmentEnds scope s stage (assignment scope s) := by
    intro x s₁ htarget
    rw [assignment_eq, bind_ok htarget]
    cases hop : ofKind? s₁.cursor.kind with
    | none =>
        rw [assign_of_none x hop]
        exact ⟨.operator, .operator htarget hop⟩
    | some op =>
        rcases assign_of_some scope x hop with ⟨code, s', hok⟩ | ⟨e, s', hvalue, herror⟩
        · rw [hok]
          exact ⟨.complete, .complete htarget hop hok⟩
        · rw [herror]
          exact ⟨.value, .value htarget hop hvalue herror⟩
  cases hname : expectIdent s with
  | error e s' =>
      have herror : assignment scope s = .error e s' := bind_error hname
      rw [herror]
      exact ⟨.name, .name hname⟩
  | ok found s₁ =>
      obtain ⟨node, s₂, hnode, -⟩ := mention_ok scope found.1 found.2 s₁
      cases hcheck : s₂.cursor.check (.mark .lbracket) with
      | false =>
          have hclosed : eat (.mark .lbracket) s₂ = .ok false s₂ := by
            rw [eat_eq, hcheck]
            rfl
          refine hassign (node, none) s₂ ?_
          unfold target
          rw [bind_ok hname]
          refine (bind_ok hnode).trans ?_
          rw [bind_ok hclosed]
          rfl
      | true =>
          have hopen : eat (.mark .lbracket) s₂ = .ok true s₂.skip := by rw [eat_eq, if_pos hcheck]
          have hfront := target_of_bracket hname hnode hopen
          cases hindex : expression scope s₂.skip with
          | error e s' =>
              rw [bind_error hindex] at hfront
              rw [assignment_eq, bind_error hfront]
              exact ⟨.index, .index hname hnode hopen hindex⟩
          | ok code s₃ =>
              rw [bind_ok hindex, discard_bind] at hfront
              cases hclose : expect (.mark .rbracket) s₃ with
              | error e s' =>
                  rw [bind_error hclose] at hfront
                  rw [assignment_eq, bind_error hfront]
                  exact ⟨.bracket, .bracket hname hnode hopen hindex hclose⟩
              | ok closed s₄ =>
                  rw [bind_ok hclose] at hfront
                  exact hassign (node, some code) s₄ hfront

/-- No assignment is found where no name comes next. -/
theorem not_isNext_of_expectIdent {e : ParseError} {s' : ParserState}
    (h : expectIdent s = .error e s') : isNext s.cursor.rest = false := by
  cases hrest : s.cursor.rest with
  | nil => rfl
  | cons token more =>
      refine not_isNext_of_kind ?_
      cases hk : token.kind with
      | ident name =>
          have hname := ParserState.expectIdent_of_ident ((Cursor.kind_of_rest hrest).trans hk)
          cases hname.symm.trans h
      | _ => rfl

/-- The stages at which an assignment can end, where the look ahead finds one and
where it finds none. -/
def foretold (found : Bool) : List Stage :=
  if found then [.index, .bracket, .value, .complete] else [.name, .index, .bracket, .operator]

theorem AssignmentEnds.foretold {stage : Stage}
    {result : EStateM.Result ParseError ParserState Code}
    (h : AssignmentEnds scope s stage result) : result = assignment scope s ∧
      stage ∈ Parse.foretold (isNext s.cursor.rest) := by
  rw [assignment_eq]
  cases h with
  | name h =>
      refine ⟨(bind_error (bind_error h)).symm, ?_⟩
      rw [not_isNext_of_expectIdent h]
      decide
  | index hname hnode hopen h =>
      have hfront := target_of_bracket hname hnode hopen
      rw [bind_error h] at hfront
      refine ⟨(bind_error hfront).symm, ?_⟩
      cases isNext s.cursor.rest <;> decide
  | bracket hname hnode hopen hindex h =>
      have hfront := target_of_bracket hname hnode hopen
      rw [bind_ok hindex, discard_bind, bind_error h] at hfront
      refine ⟨(bind_error hfront).symm, ?_⟩
      cases isNext s.cursor.rest <;> decide
  | operator htarget hop =>
      refine ⟨((bind_ok htarget).trans (assign_of_none _ hop)).symm, ?_⟩
      rw [isNext_of_target htarget, hop]
      decide
  | value htarget hop h hassign =>
      refine ⟨((bind_ok htarget).trans hassign).symm, ?_⟩
      rw [isNext_of_target htarget, hop, Option.isSome_some]
      decide
  | complete htarget hop hassign =>
      refine ⟨((bind_ok htarget).trans hassign).symm, ?_⟩
      rw [isNext_of_target htarget, hop, Option.isSome_some]
      decide

/-- The look ahead comes to an end with one answer, and reads nothing: what it chooses
starts where it stood.  Every assignment ends at a stage.  Where the look ahead finds an
assignment, the production does not stop at the operator; where it finds none, the
production does not get past it, and so no assignment is read as an expression. -/
theorem assignment_foretold (scope : Option ScopeId) (s : ParserState) :
    (∀ answer, s.cursor.Foresees answer ↔ answer = isNext s.cursor.rest) ∧
    simple scope s = (if isNext s.cursor.rest then assignment scope else do
      let code ← expression scope
      return code ++ [Node.op .pop s.cursor.pos]) s ∧
    (∃ stage, AssignmentEnds scope s stage (assignment scope s)) ∧
    (∀ stage result, AssignmentEnds scope s stage result →
      result = assignment scope s ∧ stage ∈ foretold (isNext s.cursor.rest)) ∧
    ∀ code s', assignment scope s = .ok code s' → simple scope s = .ok code s' := by
  have hsimple : simple scope s = (if isNext s.cursor.rest then assignment scope else do
      let code ← expression scope
      return code ++ [Node.op .pop s.cursor.pos]) s := rfl
  refine ⟨fun answer => ⟨fun h => h.unique s.cursor.foresees_isNext, ?_⟩, hsimple,
    exists_assignmentEnds scope s, fun _ _ h => h.foretold, fun code s' h => ?_⟩
  · rintro rfl
    exact s.cursor.foresees_isNext
  · obtain ⟨stage, hstage⟩ := exists_assignmentEnds scope s
    have hnext : isNext s.cursor.rest = true := by
      have hmem := hstage.foretold.2
      rw [h] at hstage
      cases hstage
      cases hfound : isNext s.cursor.rest with
      | true => rfl
      | false =>
          rw [hfound] at hmem
          revert hmem
          decide
    rw [hsimple, if_pos hnext, h]

end Parse

end SslFrontend
