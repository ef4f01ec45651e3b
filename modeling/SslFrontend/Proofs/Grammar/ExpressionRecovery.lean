import SslFrontend.Proofs.Grammar.OperatorChain

/-! # What is read is a written expression

Whenever the production of an expression answers, what it read is a way to write
some tree and its answer is the code of that tree (`expression_recovers`).
-/

namespace SslFrontend

open SslFrontend.Expr (Prints)

/-- What a production reads when it answers is an expression as written. -/
def Recovers (scope : Option ScopeId) (inner : Parse Code) : Prop :=
  ∀ s code s', inner s = .ok code s' →
    ∃ e tokens, Prints 1 e tokens ∧ Exactly (Expr.emit scope e) s tokens code s'

variable {scope : Option ScopeId} {inner : Parse Code} {s s' : ParserState} {code : Code}

/-! ## Arguments -/

theorem argumentRun_recovers (hi : Recovers scope inner) {found : Code × Nat}
    (h : Parse.argumentRun inner s = .ok found s') :
    ∃ (args : List (Expr × List Token)) (tokens : List Token),
      (∀ a ∈ args, Prints 1 a.1 a.2) ∧ Expr.Separated (args.map Prod.snd) tokens ∧
      Exactly (do return (← Expr.emitAll scope (args.map Prod.fst), args.length)) s tokens
        found s' := by
  suffices hrun : ∃ (args : List (Expr × List Token)) (tokens : List Token), args ≠ [] ∧
      (∀ a ∈ args, Prints 1 a.1 a.2) ∧ Expr.Separated (args.map Prod.snd) tokens ∧
      Exactly (do return ([] ++ (← Expr.emitAll scope (args.map Prod.fst)), 0 + args.length))
        s tokens found s' by
    obtain ⟨args, tokens, -, each, all, hdone⟩ := hrun
    exact ⟨args, tokens, each, all, by simpa using hdone⟩
  refine Parse.of_repeatRounds_ok (P := fun start s found s' =>
    ∃ (args : List (Expr × List Token)) (tokens : List Token), args ≠ [] ∧
      (∀ a ∈ args, Prints 1 a.1 a.2) ∧ Expr.Separated (args.map Prod.snd) tokens ∧
      Exactly (do return (start.1 ++ (← Expr.emitAll scope (args.map Prod.fst)),
        start.2 + args.length)) s tokens found s') ?_ ?_ h
  · rintro ⟨code, count⟩ s found s' hround
    obtain ⟨more, s₁, hinner, hbehind⟩ := Parse.of_bind_ok hround
    obtain ⟨e, tokens, hprints, hdone⟩ := hi s more s₁ hinner
    obtain ⟨eaten, s₂, heat, hlast⟩ := Parse.of_bind_ok hbehind
    rcases Parse.of_eat_ok heat with ⟨rfl, -, rfl⟩ | ⟨rfl, rfl⟩
    · cases hlast
    · cases hlast
      refine ⟨[(e, tokens)], tokens, nofun, by simpa using hprints, .one tokens, ?_⟩
      simpa [Expr.emitAll] using hdone.pure_bind fun more => (code ++ more, count + 1)
  · rintro ⟨code, count⟩ s start s₂ found s' hround ⟨args, tokens, hnone, each, all, hrest⟩
    obtain ⟨more, s₁, hinner, hbehind⟩ := Parse.of_bind_ok hround
    obtain ⟨e, front, hprints, hdone⟩ := hi s more s₁ hinner
    obtain ⟨eaten, s₂', heat, hnext⟩ := Parse.of_bind_ok hbehind
    rcases Parse.of_eat_ok heat with ⟨rfl, hcomma, rfl⟩ | ⟨rfl, rfl⟩
    · cases hnext
      obtain ⟨comma, hread⟩ := hdone.mark hcomma
      obtain ⟨b, rest, rfl⟩ := List.exists_cons_of_ne_nil hnone
      refine ⟨(e, front) :: b :: rest, _, nofun, ?_, .more front comma all, ?_⟩
      · intro a ha
        rcases List.mem_cons.mp ha with rfl | ha
        · exact hprints
        · exact each a ha
      · have hall := (hread.pure_bind fun more => (code ++ more, count + 1)).bind
          (fun start => do return (start.1 ++ (← Expr.emitAll scope ((b :: rest).map Prod.fst)),
            start.2 + (b :: rest).length)) hrest
        simpa [Expr.emitAll, Nat.add_assoc, Nat.add_comm] using hall
    · cases hnext

theorem arguments_recovers (hi : Recovers scope inner) {found : Code × Nat}
    (h : Parse.arguments inner s = .ok found s') :
    ∃ (args : List (Expr × List Token)) (tokens : List Token) (closed : Position),
      (∀ a ∈ args, Prints 1 a.1 a.2) ∧ Expr.Separated (args.map Prod.snd) tokens ∧
      Exactly (do return (← Expr.emitAll scope (args.map Prod.fst), args.length)) s
        (tokens ++ [⟨.mark .rparen, closed⟩]) found s' := by
  obtain ⟨none, s₁, hnone, h⟩ := Parse.of_bind_ok h
  cases hnone
  by_cases hparen : s.cursor.check (.mark .rparen) = true
  · rw [if_pos hparen] at h
    obtain ⟨rfl, -, rfl⟩ := Parse.of_expect_last h
    obtain ⟨closed, hread⟩ := (Exactly.pure ([], 0) s).mark hparen
    exact ⟨[], [], closed, nofun, .none, by simpa [Expr.emitAll] using hread⟩
  · rw [if_neg hparen] at h
    obtain ⟨found', s₂, hargs, hbehind⟩ := Parse.of_bind_ok h
    obtain ⟨rfl, hcheck, rfl⟩ := Parse.of_expect_last hbehind
    obtain ⟨args, tokens, each, all, hdone⟩ := argumentRun_recovers hi hargs
    obtain ⟨closed, hread⟩ := hdone.mark hcheck
    exact ⟨args, tokens, closed, each, all, hread⟩

/-! ## Operands -/

/-- A name that was read is mentioned, or called. -/
theorem name_recovers (hi : Recovers scope inner) {n : String}
    (hk : s.cursor.kind = .ident n)
    (h : (do
      let callee ← Parse.mention scope n s.cursor.pos
      if ← Parse.eat (.mark .lparen) then
        let (args, count) ← Parse.arguments inner
        return Parse.callCode args callee count s.cursor.pos
      else
        return [callee] : Parse Code) s.skip = .ok code s') :
    ∃ e tokens, Primary e tokens ∧ Exactly (Expr.emit scope e) s tokens code s' := by
  obtain ⟨callee, s₁, hcallee, hbehind⟩ := Parse.of_bind_ok h
  obtain ⟨node, s₂, hnode, hmention⟩ := Parse.mention_ok scope n s.cursor.pos s.skip
  cases hnode.symm.trans hcallee
  obtain ⟨opened, s₃, heat, hrest⟩ := Parse.of_bind_ok hbehind
  rcases Parse.of_eat_ok heat with ⟨rfl, hopen, rfl⟩ | ⟨rfl, rfl⟩
  · obtain ⟨found, s₄, hargs, hpure⟩ := Parse.of_bind_ok hrest
    obtain ⟨rfl, rfl⟩ := Parse.of_pure_ok hpure
    obtain ⟨args, tokens, closed, each, all, hdone⟩ := arguments_recovers hi hargs
    obtain ⟨opened, hread⟩ := hmention.mark hopen
    refine ⟨_, _, .call n s.cursor.pos opened closed each all, ?_⟩
    have hcall := hread.bind
      (fun node => (do return (← Expr.emitAll scope (args.map Prod.fst), args.length)) >>=
        fun found => pure (Parse.callCode found.1 node found.2 s.cursor.pos))
      (hdone.pure_bind _)
    simpa [Expr.emit, Parse.callCode, Expr.parenthesized, Cursor.pos] using hcall.skip hk (by simp)
  · cases hrest
    exact ⟨_, _, .name n s.cursor.pos, (hmention.pure_bind _).skip hk (by simp)⟩

theorem address_recovers (hk : s.cursor.kind = .mark .atSign)
    (h : (do
      let (name, namePos) ← Parse.expectIdent
      return [← Parse.mention scope name namePos, Node.op .procAddr s.cursor.pos] : Parse Code)
        s.skip = .ok code s') :
    ∃ e tokens, Primary e tokens ∧ Exactly (Expr.emit scope e) s tokens code s' := by
  obtain ⟨⟨n, namePos⟩, s₁, hident, hbehind⟩ := Parse.of_bind_ok h
  obtain ⟨hname, rfl, rfl⟩ := Parse.of_expectIdent_ok hident
  obtain ⟨node, s₂, hnode, hpure⟩ := Parse.of_bind_ok hbehind
  obtain ⟨node', s₃, hnode', hmention⟩ :=
    Parse.mention_ok scope n s.skip.cursor.pos s.skip.skip
  cases hnode'.symm.trans hnode
  obtain ⟨rfl, rfl⟩ := Parse.of_pure_ok hpure
  have hread := (hmention.pure_bind fun node => [node, Node.op .procAddr s.cursor.pos]).skip
    hname nofun
  exact ⟨_, _, .address s.cursor.pos n s.skip.cursor.pos, hread.skip hk nofun⟩

theorem primary_recovers (hi : Recovers scope inner)
    (h : Parse.primary scope inner s = .ok code s') :
    ∃ e tokens, Primary e tokens ∧ Exactly (Expr.emit scope e) s tokens code s' := by
  have literal : ∀ (value : Literal) {node : Node}, s.cursor.kind = value.kind →
      Exactly (value.emit s.cursor.pos) s.skip [] node s' → code = [node] →
      ∃ e tokens, Primary e tokens ∧ Exactly (Expr.emit scope e) s tokens code s' := by
    rintro value node hk hdone rfl
    have hne : value.kind ≠ .eof := by
      cases value with
      | truth b => cases b <;> nofun
      | _ => nofun
    refine ⟨_, _, .literal value s.cursor.pos, (hdone.pure_bind _).skip hk hne⟩
  unfold Parse.primary at h
  obtain ⟨c, s₁, hc, h⟩ := Parse.of_bind_ok h
  cases hc
  cases hk : s.cursor.current.kind with
  | int n =>
      simp only [hk, Parse.discard_advance_bind] at h
      cases h
      exact literal (.int n) hk (.pure _ _) rfl
  | float x =>
      simp only [hk, Parse.discard_advance_bind] at h
      cases h
      exact literal (.float x) hk (.pure _ _) rfl
  | str t =>
      simp only [hk, Parse.discard_advance_bind] at h
      obtain ⟨node, s₂, hnode, hdone⟩ := Parse.stringOperand_ok t s.cursor.pos s.skip
      cases hnode.symm.trans h
      exact literal (.text t) hk hdone rfl
  | invalid =>
      simp only [hk, Parse.discard_advance_bind] at h
      cases h
      exact literal .invalid hk (.pure _ _) rfl
  | keyword word =>
      cases word with
      | kwTrue =>
          simp only [hk, Parse.discard_advance_bind] at h
          cases h
          exact literal (.truth true) hk (.pure _ _) rfl
      | kwFalse =>
          simp only [hk, Parse.discard_advance_bind] at h
          cases h
          exact literal (.truth false) hk (.pure _ _) rfl
      | _ => simp only [hk] at h; cases h
  | ident n =>
      simp only [hk, Parse.discard_advance_bind] at h
      exact name_recovers hi hk h
  | mark sign =>
      cases sign with
      | atSign =>
          simp only [hk, Parse.discard_advance_bind] at h
          exact address_recovers hk h
      | lparen =>
          simp only [hk, Parse.discard_advance_bind] at h
          obtain ⟨code', s₂, hinner, hbehind⟩ := Parse.of_bind_ok h
          obtain ⟨e, tokens, hprints, hdone⟩ := hi _ _ _ hinner
          obtain ⟨rfl, hcheck, rfl⟩ := Parse.of_expect_last hbehind
          obtain ⟨closed, hread⟩ := hdone.mark hcheck
          exact ⟨e, _, .parens s.cursor.pos closed hprints, hread.skip hk nofun⟩
      | _ => simp only [hk] at h; cases h
  | _ => simp only [hk] at h; cases h

theorem index_recovers {γ : Type} (hi : Recovers scope inner) (f : Position → Code → γ) {r : γ}
    (hopen : s.cursor.check (.mark .lbracket) = true)
    (h : (do
      let pos := (← Parse.advance).pos
      let index ← inner
      discard <| Parse.expect (.mark .rbracket)
      return f pos index : Parse γ) s = .ok r s') :
    ∃ (x : Suffix) (index : Code), x.Proper ∧ r = f x.pos index ∧
      Exactly (x.inside.emit scope) s x.printed index s' := by
  obtain ⟨index, s₁, hinner, hclose⟩ := Parse.of_bind_ok (p := inner) h
  obtain ⟨e, tokens, hprints, hdone⟩ := hi _ _ _ hinner
  obtain ⟨rfl, hcheck, rfl⟩ := Parse.of_expect_last hclose
  obtain ⟨closed, hread⟩ := hdone.mark hcheck
  exact ⟨⟨s.cursor.pos, closed, e, tokens⟩, index, hprints, rfl,
    hread.skip (Cursor.kind_of_check_mark hopen) nofun⟩

theorem indices_recovers (hi : Recovers scope inner) {front : Code}
    (h : Parse.indices inner front s = .ok code s') :
    ∃ suffixes : List Suffix, (∀ x ∈ suffixes, Suffix.Proper x) ∧
      Exactly (Suffix.emitAll scope front suffixes) s (suffixes.flatMap Suffix.printed) code
        s' := by
  refine Parse.of_repeatRounds_ok (P := fun front s code s' =>
    ∃ suffixes : List Suffix, (∀ x ∈ suffixes, Suffix.Proper x) ∧
      Exactly (Suffix.emitAll scope front suffixes) s (suffixes.flatMap Suffix.printed) code s')
    ?_ ?_ h
  · rintro front s code s' hround
    obtain ⟨opened, s₁, hopen, hround⟩ := Parse.of_bind_ok hround
    cases hopen
    by_cases hcheck : s.cursor.check (.mark .lbracket) = true
    · rw [if_pos hcheck] at hround
      obtain ⟨x, index, -, hnext, -⟩ := index_recovers hi
        (fun pos index => (Sum.inl (front ++ index ++ [Node.op .index pos]) : Code ⊕ Code))
        hcheck hround
      cases hnext
    · rw [if_neg hcheck] at hround
      cases hround
      exact ⟨[], nofun, .pure _ _⟩
  · rintro front s next s₁ code s' hround ⟨suffixes, each, hrest⟩
    obtain ⟨opened, s₁, hopen, hround⟩ := Parse.of_bind_ok hround
    cases hopen
    by_cases hcheck : s.cursor.check (.mark .lbracket) = true
    · rw [if_pos hcheck] at hround
      obtain ⟨x, index, hx, hnext, hdone⟩ := index_recovers hi
        (fun pos index => (Sum.inl (front ++ index ++ [Node.op .index pos]) : Code ⊕ Code))
        hcheck hround
      cases hnext
      refine ⟨x :: suffixes, ?_, ?_⟩
      · intro y hy
        rcases List.mem_cons.mp hy with rfl | hy
        · exact hx
        · exact each y hy
      · exact hdone.bind (fun index => Suffix.emitAll scope
          (front ++ index ++ [Node.op .index x.pos]) suffixes) hrest
    · rw [if_neg hcheck] at hround
      cases hround

/-- The tokens that a run of unary operators reads are unary operators. -/
theorem exists_signs {tokens : List Token}
    (h : ∀ token ∈ tokens, (Operator.unary? token.kind).isSome = true) :
    ∃ signs : List Sign, signs.map Sign.printed = tokens := by
  induction tokens with
  | nil => exact ⟨[], rfl⟩
  | cons token rest ih =>
      obtain ⟨signs, hsigns⟩ := ih fun other hother => h other (List.mem_cons_of_mem _ hother)
      obtain ⟨node, hnode⟩ := Option.isSome_iff_exists.mp (h token List.mem_cons_self)
      exact ⟨⟨⟨token.kind, node, hnode⟩, token.pos⟩ :: signs, by rw [List.map_cons, hsigns]; rfl⟩

theorem unaryRun_recovers (h : Parse.unaryRun s = .ok code s') :
    ∃ signs : List Sign, code = signs.map Sign.node ∧
      s.cursor.Reads (signs.map Sign.printed) s'.cursor ∧ s'.records = s.records := by
  have hunary : ∀ token ∈ s.cursor.rest.takeWhile
      (fun token => (Operator.unary? token.kind).isSome), (Operator.unary? token.kind).isSome :=
    List.all_eq_true.mp List.all_takeWhile
  obtain ⟨signs, hsigns⟩ := exists_signs hunary
  have hread := s.cursor.reads_skipWhile fun token => (Operator.unary? token.kind).isSome
  rw [← hsigns] at hread
  obtain ⟨c, s₁, hc, hbehind⟩ := Parse.of_bind_ok h
  cases hc
  obtain ⟨_, s₂, hmove, hpure⟩ := Parse.of_bind_ok hbehind
  cases hmove
  obtain ⟨rfl, rfl⟩ := Parse.of_pure_ok hpure
  refine ⟨signs, ?_, hread, rfl⟩
  rw [← Sign.nodes_printed, hsigns]

theorem operand_recovers (hi : Recovers scope inner)
    (h : Parse.operand scope inner s = .ok code s') :
    ∃ e tokens, Operand e tokens ∧ Exactly (Expr.emit scope e) s tokens code s' := by
  obtain ⟨unaries, s₁, hunaries, h⟩ := Parse.of_bind_ok h
  obtain ⟨front, s₂, hprimary, h⟩ := Parse.of_bind_ok h
  obtain ⟨code', s₃, hindices, h⟩ := Parse.of_bind_ok h
  obtain ⟨rfl, rfl⟩ := Parse.of_pure_ok h
  obtain ⟨signs, rfl, hread, hrecords⟩ := unaryRun_recovers hunaries
  obtain ⟨base, tokens, hbase, hdone⟩ := primary_recovers hi hprimary
  obtain ⟨suffixes, each, hrest⟩ := indices_recovers hi hindices
  refine ⟨_, _, .mk signs (.mk suffixes hbase each), ?_⟩
  rw [Expr.emit_signs, Expr.emit_indices]
  have hindexed := hdone.bind (fun front => Suffix.emitAll scope front suffixes) hrest
  have hall := hindexed.pure_bind fun code => code ++ (signs.map Sign.node).reverse
  have hmade := hall.made
  rw [hrecords] at hmade
  exact ⟨hread.trans hall.reads, hmade⟩

/-! ## Expressions -/

theorem chainRun_recovers (hi : Recovers scope inner) {found : List (Operator × Code)}
    (h : Parse.chainRun scope inner s = .ok found s') :
    ∃ links : List Link, (∀ link ∈ links, Link.Proper link) ∧
      Exactly (Link.emitAll scope links) s (links.flatMap Link.printed) found s' := by
  suffices hrun : ∃ links : List Link, (∀ link ∈ links, Link.Proper link) ∧
      Exactly (do return [] ++ (← Link.emitAll scope links)) s (links.flatMap Link.printed)
        found s' by
    obtain ⟨links, each, hdone⟩ := hrun
    exact ⟨links, each, by simpa using hdone⟩
  refine Parse.of_repeatRounds_ok (P := fun start s found s' =>
    ∃ links : List Link, (∀ link ∈ links, Link.Proper link) ∧
      Exactly (do return start ++ (← Link.emitAll scope links)) s (links.flatMap Link.printed)
        found s') ?_ ?_ h
  · rintro start s found s' hround
    obtain ⟨kind, s₁, hkind, hbehind⟩ := Parse.of_bind_ok hround
    cases hkind
    cases hop : Operator.binary? s.cursor.kind with
    | none =>
        simp only [hop] at hbehind
        cases hbehind
        exact ⟨[], by simp, by simpa [Link.emitAll] using Exactly.pure start s⟩
    | some op =>
        simp only [hop, Parse.advance_bind] at hbehind
        obtain ⟨code, s₂, hoperand, hnext⟩ := Parse.of_bind_ok hbehind
        cases hnext
  · rintro start s next s₁ found s' hround ⟨links, each, hrest⟩
    obtain ⟨kind, s₂, hkind, hbehind⟩ := Parse.of_bind_ok hround
    cases hkind
    cases hop : Operator.binary? s.cursor.kind with
    | none =>
        simp only [hop] at hbehind
        cases hbehind
    | some op =>
        obtain ⟨level, node⟩ := op
        simp only [hop, Parse.advance_bind] at hbehind
        obtain ⟨code, s₃, hoperand, hnext⟩ := Parse.of_bind_ok hbehind
        cases hnext
        obtain ⟨e, tokens, hproper, hdone⟩ := operand_recovers hi hoperand
        have hne : s.cursor.kind ≠ .eof := by
          intro heof
          rw [heof] at hop
          cases hop
        let link : Link := ⟨⟨s.cursor.kind, level, node, hop⟩, s.cursor.pos, e, tokens⟩
        refine ⟨link :: links, ?_, ?_⟩
        · intro other hother
          rcases List.mem_cons.mp hother with rfl | hother
          · exact hproper.prints
          · exact each other hother
        · have hlink := (hdone.pure_bind fun code => start ++ [(link.operator, code)]).skip rfl hne
          have hall := hlink.bind (fun next => do return next ++ (← Link.emitAll scope links)) hrest
          simp only [bind_assoc, pure_bind, List.append_assoc, List.cons_append,
            List.nil_append] at hall
          simp only [Link.emitAll, bind_assoc, pure_bind]
          exact hall

theorem expressionWith_recovers (hi : Recovers scope inner) :
    Recovers scope (Parse.expressionWith scope inner) := by
  intro s code s' h
  obtain ⟨front, s₁, hfirst, h⟩ := Parse.of_bind_ok h
  obtain ⟨found, s₂, hlinks, h⟩ := Parse.of_bind_ok h
  obtain ⟨rfl, rfl⟩ := Parse.of_pure_ok h
  obtain ⟨first, tokens, hproper, hdone⟩ := operand_recovers hi hfirst
  obtain ⟨links, each, hrest⟩ := chainRun_recovers hi hlinks
  obtain ⟨e, hchain⟩ := exists_chain first links
  refine ⟨e, _, hchain.prints (by decide) hproper.prints each, ?_⟩
  rw [hchain.emit_eq]
  exact hdone.bind _ (hrest.pure_bind _)

theorem expressionTo_recovers (scope : Option ScopeId) (depth : Nat) :
    Recovers scope (Parse.expressionTo scope depth) := by
  induction depth with
  | zero => rintro s code s' h; cases h
  | succ depth ih => exact expressionWith_recovers ih

/-- What an expression reads is a way to write some tree. -/
theorem expression_recovers (scope : Option ScopeId) :
    Recovers scope (Parse.expression scope) := by
  intro s code s' h
  obtain ⟨c, s₁, hc, h⟩ := Parse.of_bind_ok h
  cases hc
  exact expressionTo_recovers scope _ s code s' h

end SslFrontend
