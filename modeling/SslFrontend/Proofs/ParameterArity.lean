import SslFrontend.Proofs.Along.Locals
import SslFrontend.Proofs.Grammar.Headers
import SslFrontend.Proofs.Run.Finish

/-! # Parameters and arity

In a module without an error every procedure has the parameters of one header: that
of its definition or, if it is never defined, the first one that announces it.  They
are its first locals, with their places and defaults, and its numbers of arguments
count them; what locals it has behind them are declared in its body.

Headers are recognized in the tokens.  An item without an error holds a `procedure` only
where a header begins, so that headers of procedures are where `procedure` stands in
front of a name, and a body belongs to the last header in front of it.
-/

namespace SslFrontend

/-- `procedure` and the name stand at the index. -/
def Heads (tokens : List Token) (name : String) (k : Nat) : Prop :=
  (∃ pos, tokens[k]? = some ⟨.keyword .kwProcedure, pos⟩) ∧
    ∃ pos, tokens[k + 1]? = some ⟨.ident name, pos⟩

/-- Among tokens without headers stands none. -/
theorem Headless.not_heads {tokens : List Token} (h : Headless tokens) (name : String) (k : Nat) :
    ¬Heads tokens name k := by
  rintro ⟨⟨pos, hk⟩, -⟩
  exact h _ (List.mem_of_getElem? hk) rfl

namespace Heads

variable {tokens more : List Token} {name : String} {k : Nat}

/-- A header stands among the first tokens or among those behind, unless it could begin
with the last of the first. -/
theorem of_append (hlast : ∀ token ∈ tokens.getLast?, token.kind ≠ .keyword .kwProcedure)
    (h : Heads (tokens ++ more) name k) :
    Heads tokens name k ∨ ∃ j, k = tokens.length + j ∧ Heads more name j := by
  obtain ⟨⟨word, hword⟩, pos, hpos⟩ := h
  rcases Nat.lt_trichotomy (k + 1) tokens.length with hlt | heq | hgt
  · rw [List.getElem?_append_left (by omega)] at hword hpos
    exact .inl ⟨⟨word, hword⟩, pos, hpos⟩
  · rw [List.getElem?_append_left (by omega)] at hword
    have hmem : tokens.getLast? = some ⟨.keyword .kwProcedure, word⟩ := by
      rw [List.getLast?_eq_getElem?, ← heq]
      exact hword
    exact absurd rfl (hlast _ hmem)
  · rw [List.getElem?_append_right (by omega)] at hword hpos
    refine .inr ⟨k - tokens.length, by omega, ⟨word, hword⟩, pos, ?_⟩
    rwa [Nat.sub_add_comm (by omega)] at hpos

/-- A header in front of others stands at the same place. -/
theorem of_append_left (hk : k + 1 < tokens.length) (h : Heads (tokens ++ more) name k) :
    Heads tokens name k := by
  obtain ⟨⟨word, hword⟩, pos, hpos⟩ := h
  rw [List.getElem?_append_left (by omega)] at hword hpos
  exact ⟨⟨word, hword⟩, pos, hpos⟩

/-- In front of tokens without headers stands only the one. -/
theorem of_cons {first second : Token} (h : Heads (first :: second :: tokens) name k)
    (hsecond : ∃ found pos, second = ⟨.ident found, pos⟩) (htokens : Headless tokens) :
    k = 0 ∧ ∃ pos, second = ⟨.ident name, pos⟩ := by
  obtain ⟨found, pos, rfl⟩ := hsecond
  obtain ⟨⟨word, hword⟩, pos', hpos'⟩ := h
  match k with
  | 0 => exact ⟨rfl, pos', Option.some.inj hpos'⟩
  | 1 => cases hword
  | k + 2 => exact absurd rfl (htokens _ (List.mem_of_getElem? hword))

end Heads

/-! ## Where parameters come from -/

/-- Where among the tokens the procedure gets its parameters. -/
inductive Procedure.Origin (pool : Pool) (tokens : List Token) (name : String)
    (params : List Param) (p : Procedure) : Prop
  /-- The procedure is defined.  Its body is a block, and all its other locals are
  declared in it; the header is the last one in front of the body. -/
  | definition (before header between body after : List Token) {opener closer : Token}
      (defined : p.defined = true) (whole : tokens = before ++ header ++ between ++ body ++ after)
      (written : Header.Written pool name params header (between ++ body ++ after))
      (apart : Headless (between ++ body)) (opens : body.head? = some opener)
      (opening : Cursor.opens opener.kind = true) (closes : body.getLast? = some closer)
      (span : p.span = some (opener.pos, closer.pos))
      (locals : ∀ v ∈ p.locals.drop params.length, v.DeclaredAt p.namelist body)
  /-- The procedure is only announced, and has no other locals; the header is the first
  one of its name. -/
  | announcement (before header after : List Token) (open_ : p.defined = false)
      (whole : tokens = before ++ header ++ after)
      (written : Header.Written pool name params header after)
      (first : ∀ k < before.length, ¬Heads tokens name k)
      (locals : p.locals.length = params.length)

/-- The procedure has the parameters of a header among the tokens. -/
def Procedure.Rolled (pool : Pool) (tokens : List Token) (p : Procedure) : Prop :=
  ∃ name params, pool.resolve p.name = .ok name ∧ Param.Orderly params ∧ p.Takes params ∧
    p.Origin pool tokens name params

theorem Procedure.Rolled.extend {pool grown : Pool} {tokens : List Token} {p : Procedure}
    (h : p.Rolled pool tokens) (hg : pool.Grows grown) (more : List Token) :
    p.Rolled grown (tokens ++ more) := by
  obtain ⟨name, params, hname, hordered, htakes, horigin⟩ := h
  refine ⟨name, params, hg.resolve hname, hordered, htakes, ?_⟩
  cases horigin with
  | definition before header between body after defined whole written apart opens opening closes
      span locals =>
      refine .definition before header between body (after ++ more) defined (by simp [whole]) ?_
        apart opens opening closes span locals
      simpa using written.grows hg more
  | announcement before header after open_ whole written first locals =>
      refine .announcement before header (after ++ more) open_ (by simp [whole])
        (written.grows hg more)
        (fun k hk hheads => first k hk (hheads.of_append_left ?_)) locals
      obtain ⟨word, pos, printed, hwhole⟩ := written
      rw [whole]
      simp
      omega

/-- A later header without a body changes nothing about parameters. -/
theorem Procedure.Rolled.announced {pool : Pool} {tokens : List Token} {p : Procedure}
    (h : p.Rolled pool tokens) (trigger : Trigger) (modifiers : Modifiers) :
    { p with trigger := trigger, modifiers := modifiers }.Rolled pool tokens := by
  obtain ⟨name, params, hname, hordered, htakes, horigin⟩ := h
  refine ⟨name, params, hname, hordered, ⟨htakes.numArgs, htakes.minArgs, htakes.given⟩, ?_⟩
  cases horigin with
  | definition before header between body after defined whole written apart opens opening closes
      span locals =>
      exact .definition before header between body after defined whole written apart opens opening
        closes span locals
  | announcement before header after open_ whole written first locals =>
      exact .announcement before header after open_ whole written first locals

/-- What is known of the headers in the tokens that were read. -/
structure Roll (tokens : List Token) (t : SymbolTable) : Prop where
  procs : ∀ {i : Nat} {p : Procedure}, t.procs[i]? = some p → p.Rolled t.strings tokens
  heads : ∀ {name : String} {k : Nat}, Heads tokens name k →
    ∃ p ∈ t.procs, t.strings.resolve p.name = .ok name
  ends : ∀ token ∈ tokens.getLast?, token.kind ≠ .keyword .kwProcedure

theorem Roll.nil {t : SymbolTable} (h : t.procs = []) : Roll [] t where
  procs hp := by simp [h] at hp
  heads hheads := by simp [Heads] at hheads
  ends := by simp

/-- A header is read and merged, and maybe a body behind it: what is known of the other
procedures stays known, and something has to be known of the one it names. -/
theorem Roll.add {read rest : List Token} {t u : SymbolTable} {word pos : Position} {name : String}
    {i : Nat} {q : Procedure} (h : Roll read t) (hrest : Headless rest)
    (hlabels : t.procs.map Procedure.label <+: u.procs.map Procedure.label)
    (hstrings : t.strings.Grows u.strings) (here : u.procs[i]? = some q)
    (named : u.strings.resolve q.name = .ok name)
    (rolled : q.Rolled u.strings
      (read ++ ⟨.keyword .kwProcedure, word⟩ :: ⟨.ident name, pos⟩ :: rest))
    (others : ∀ j, j ≠ i → u.procs[j]? = t.procs[j]?) :
    Roll (read ++ ⟨.keyword .kwProcedure, word⟩ :: ⟨.ident name, pos⟩ :: rest) u where
  procs {j p} hp := by
    by_cases hj : j = i
    · subst hj
      obtain rfl : q = p := Option.some.inj (here.symm.trans hp)
      exact rolled
    · rw [others j hj] at hp
      exact (h.procs hp).extend hstrings _
  heads {found k} hheads := by
    rcases hheads.of_append h.ends with hold | ⟨j, -, hnew⟩
    · obtain ⟨p, hp, hname⟩ := h.heads hold
      -- A procedure keeps its name.
      have hmem : p.label ∈ u.procs.map Procedure.label :=
        hlabels.subset (List.mem_map_of_mem hp)
      obtain ⟨p', hp', hlabel⟩ := List.mem_map.mp hmem
      have hsame : p'.name = p.name := congrArg Prod.fst hlabel
      exact ⟨p', hp', hsame ▸ hstrings.resolve hname⟩
    · obtain ⟨-, pos', hpos'⟩ := hnew.of_cons ⟨name, pos, rfl⟩ hrest
      cases hpos'
      exact ⟨q, List.mem_of_getElem? here, named⟩
  ends token ht := by
    rw [List.getLast?_append_of_ne_nil _ (List.cons_ne_nil _ _), List.getLast?_cons_cons] at ht
    rcases List.mem_cons.mp (List.mem_of_getLast? ht) with rfl | hmem
    · exact nofun
    · exact hrest token hmem

/-- Tokens are read, and what is known of headers is known of them too. -/
def ParserState.Rolls (s s' : ParserState) : Prop :=
  ∃ tokens, s.cursor.Reads tokens s'.cursor ∧
    ∀ read, Roll read s.table → Roll (read ++ tokens) s'.table

namespace ParserState.Rolls

variable {s s' t : ParserState} {α : Type}

theorem refl (s : ParserState) : s.Rolls s :=
  ⟨[], .refl _, fun read h => by rwa [List.append_nil]⟩

theorem trans (h₁ : s.Rolls t) (h₂ : t.Rolls s') : s.Rolls s' := by
  obtain ⟨first, hfirst, hroll⟩ := h₁
  obtain ⟨second, hsecond, hroll'⟩ := h₂
  refine ⟨first ++ second, hfirst.trans hsecond, fun read h => ?_⟩
  rw [← List.append_assoc]
  exact hroll' _ (hroll read h)

theorem ends_append {read tokens : List Token}
    (hread : ∀ token ∈ read.getLast?, token.kind ≠ .keyword .kwProcedure)
    (htokens : ∀ token ∈ tokens.getLast?, token.kind ≠ .keyword .kwProcedure) :
    ∀ token ∈ (read ++ tokens).getLast?, token.kind ≠ .keyword .kwProcedure := by
  intro token ht
  rw [List.getLast?_append, Option.mem_def, Option.or_eq_some_iff] at ht
  exact ht.elim (htokens token) fun h => hread token h.2

theorem ends_of_headless {tokens : List Token} (h : Headless tokens) :
    ∀ token ∈ tokens.getLast?, token.kind ≠ .keyword .kwProcedure :=
  fun token ht => h token (List.mem_of_getLast? ht)

/-- Outside of procedures nothing is known of new headers, and there are none. -/
theorem plain {tokens : List Token} (hreads : s.cursor.Reads tokens t.cursor)
    (hheadless : Headless tokens) (hprocs : t.table.procs = s.table.procs)
    (hstrings : s.table.strings.Grows t.table.strings) : s.Rolls t := by
  refine ⟨tokens, hreads, fun read h => ⟨fun hp => ?_, fun hheads => ?_, ?_⟩⟩
  · rw [hprocs] at hp
    exact (h.procs hp).extend hstrings tokens
  · rcases hheads.of_append h.ends with hold | ⟨j, -, hnew⟩
    · obtain ⟨p, hp, hname⟩ := h.heads hold
      exact ⟨p, hprocs ▸ hp, hstrings.resolve hname⟩
    · exact absurd hnew (hheadless.not_heads _ j)
  · exact ends_append h.ends (ends_of_headless hheadless)

/-- A production that stays outside of procedures. -/
theorem outside {p : Parse α} {a : α} (hC : Conduct.headless.Keeps p s)
    (hprocs : Parse.Along (fun s t => t.table.procs = s.table.procs) p)
    (hon : Parse.Along ParserState.Onward p) (h : p s = .ok a t) (hclean : t.Clean) :
    s.Rolls t := by
  obtain ⟨tokens, hreads, hheadless⟩ := hclean.headless hC h
  exact plain hreads hheadless (hprocs.of_ok h) (hon.of_ok h).table.strings

end ParserState.Rolls

namespace Parse

open Parse (Along)

variable {s s' : ParserState} {u : Unit}

/-! ## Bodies -/

/-- A body that is read without an error: a block that adds locals to the scope, and is
attached to it. -/
structure ReadsBody (scope : ScopeId) (s : ParserState) (p : Procedure) (s' : ParserState)
    (tokens : List Token) (opener closer : Token) (q : Procedure) : Prop where
  reads : s.cursor.Reads tokens s'.cursor
  headless : Headless tokens
  opens : tokens.head? = some opener
  closes : tokens.getLast? = some closer
  adds : p.Adds tokens q
  here : ∃ code, s'.table.scope? scope = some (q.withBody code opener.pos closer.pos)
  others : ∀ sc, sc ≠ scope → s'.table.scope? sc = s.table.scope? sc
  strings : s.table.strings.Grows s'.table.strings

theorem body_recovers {scope : ScopeId} {p : Procedure} (h : body scope s = .ok u s')
    (hclean : s'.Clean) (hopens : Cursor.opens s.cursor.kind = true)
    (there : s.table.scope? scope = some p) :
    ∃ tokens closer q, ReadsBody scope s p s' tokens s.cursor.current closer q := by
  obtain ⟨start, s₁, hstart, h⟩ := of_bind_ok h
  cases hstart
  obtain ⟨found, s₁, hblock, h⟩ := of_bind_ok h
  obtain ⟨c, s₂, hc, h⟩ := of_bind_ok h
  cases hc
  obtain ⟨_, s₃, hattach, h⟩ := of_bind_ok h
  have hfailure : found.failure = none ∧ s' = s₃ := by
    cases hf : found.failure with
    | none =>
        rw [hf] at h
        cases h
        exact ⟨rfl, rfl⟩
    | some e =>
        rw [hf] at h
        cases h
  obtain ⟨hfailure, rfl⟩ := hfailure
  cases hattach
  have hbefore : s₁.Clean := hclean
  have hinner : Along (ParserState.AddsLocals scope) (statement ⟨some scope, false⟩) :=
    (ParserState.AddsLocals.items scope).statement_along rfl
  obtain ⟨hothers, tokens, hreads, hhere⟩ :=
    ((ParserState.AddsLocals.within scope).openBlock_along hinner).of_ok hblock
  obtain ⟨q, hq, hadds⟩ := hhere p there
  have hplain : s.cursor.kind.isPlain = true :=
    TokenKind.isPlain_of (P := fun kind => Cursor.opens kind = true) nofun nofun hopens
  have hforward : Forward (statement ⟨some scope, false⟩) :=
    (inside_forward (some scope)).statement_along rfl
  -- The block is closed, so that what was read of it holds no header.
  have hheadless : Headless tokens := by
    have hkept := (Conduct.headless_inside (some scope)).openBlock hplain hforward
      (statement_passes _) fun _ => (Conduct.headless_inside (some scope)).statement rfl
    unfold Conduct.Comes at hkept
    rw [hblock] at hkept
    unfold Conduct.Inside.blockPost at hkept
    dsimp only at hkept
    rw [hfailure] at hkept
    obtain ⟨-, tokens', hreads', hheadless⟩ := hkept
    obtain rfl := hreads.unique hreads'
    exact hheadless.resolve_left hbefore.not_erred
  obtain ⟨rest, rfl⟩ : ∃ rest, tokens = s.cursor.current :: rest := by
    have hskip := (inside_forward (some scope)).openBlock_behind hforward s
    unfold after at hskip
    rw [hblock] at hskip
    have hle : s.cursor.advance.position ≤ s₁.cursor.position := hskip.position_le
    have heof : s.cursor.kind ≠ .eof := fun heof => by
      rw [heof] at hopens
      cases hopens
    rw [Cursor.advance_position heof, hreads.position] at hle
    cases tokens with
    | nil => exact absurd hle (Nat.not_succ_le_self _)
    | cons first rest => exact ⟨rest, by rw [hreads.head]⟩
  obtain ⟨closer, hcloser⟩ : ∃ closer, (s.cursor.current :: rest).getLast? = some closer :=
    ⟨_, List.getLast?_cons ..⟩
  refine ⟨_, closer, q, hreads, hheadless, rfl, hcloser, hadds, ⟨found.code, ?_⟩, fun sc hsc => ?_,
    ?_⟩
  · show (s₁.table.modifyScope scope _).scope? scope = _
    rw [SymbolTable.scope?_modifyScope_self, hq, ← hreads.previousPos hcloser]
    rfl
  · exact (SymbolTable.scope?_modifyScope_of_ne _ _ _ hsc).trans (hothers sc hsc)
  · have honward := ((ParserState.Onward.inside (some scope)).openBlock_along
      ((ParserState.Onward.inside (some scope)).statement_along rfl)).of_ok hblock
    show s.table.strings.Grows (s₁.table.modifyScope scope _).strings
    rw [SymbolTable.strings_modifyScope]
    exact honward.table.strings

/-! ## Procedures -/

/-- A body makes its procedure one with the parameters of the header in front of it. -/
theorem ReadsBody.rolled {header : Header} {t s₂ : ParserState} {pos : Position}
    {listed between tokens : List Token} {i : Nat} {p₀ p : Procedure} {opener closer : Token}
    (word : Position) (code : Code) (read : List Token)
    (hread : ReadsHeading s header t pos listed between)
    (hbody : ReadsBody (.proc i) s₂ p₀ s' tokens opener closer p)
    (hopens : Cursor.opens opener.kind = true)
    (hstrings : t.table.strings.Grows s'.table.strings)
    (hname : s'.table.strings.resolve p₀.name = .ok header.name) (htakes : p₀.Takes header.params)
    (hlength : p₀.locals.length = header.params.length) :
    (p.withBody code opener.pos closer.pos).Rolled s'.table.strings
      (read ++ ⟨.keyword .kwProcedure, word⟩ :: ⟨.ident header.name, pos⟩ ::
        (listed ++ between ++ tokens)) := by
  obtain ⟨more, hmore, hdeclared⟩ := hbody.adds.locals
  have hextended : p.Takes header.params :=
    htakes.extend hbody.adds.numArgs hbody.adds.minArgs hbody.adds.namelist ⟨more, hmore.symm⟩
  have hsame : p.name = p₀.name := congrArg (·.name) hbody.adds.shell
  refine ⟨header.name, header.params, hsame ▸ hname, hread.ordered,
    ⟨hextended.numArgs, hextended.minArgs, hextended.given⟩, ?_⟩
  have hbehind : (between ++ tokens).head? = between.head?.or (some opener) := by
    rw [List.head?_append, hbody.opens]
  refine .definition read (⟨.keyword .kwProcedure, word⟩ :: ⟨.ident header.name, pos⟩ :: listed)
    between tokens [] rfl (by simp)
    (.of_behind (hread.printed.grows hstrings) ?_ fun hnone next hnext => ?_)
    (hread.betweenHeadless.append hbody.headless) hbody.opens hopens hbody.closes rfl fun v hv => ?_
  · intro hempty
    rw [List.append_nil] at hempty
    rw [hempty] at hbehind
    cases hb : between.head? <;> rw [hb] at hbehind <;> cases hbehind
  · rw [List.append_nil, hbehind] at hnext
    rcases Option.or_eq_some_iff.mp hnext with hfirst | ⟨-, hopener⟩
    · exact hread.whole hnone next hfirst
    · cases hopener
      intro hkind
      rw [hkind] at hopens
      cases hopens
  · refine hdeclared v ?_
    have hdrop : p.locals.drop header.params.length = more := by
      rw [hmore, ← hlength, List.drop_left]
    exact hdrop ▸ hv

/-- The header of a definition, and its body. -/
theorem definition_rolls {header : Header} {t s₂ : ParserState} {word pos : Position}
    {listed between : List Token} {i : Nat} (hread : ReadsHeading s header t pos listed between)
    (hcursor : s₂.cursor = t.cursor) (honward : s.table.Extends (fun _ => False) s'.table)
    (haccepts : t.table.Accepts header (.define i) s₂.table)
    (h : body (.proc i) s₂ = .ok u s') (hclean : s'.Clean) :
    ∃ tokens, s.cursor.Reads tokens s'.cursor ∧ ∀ read, Roll read s.table →
      Roll (read ++ ⟨.keyword .kwProcedure, word⟩ :: tokens) s'.table := by
  obtain ⟨hhas, hgets⟩ := haccepts.define_gets
  obtain ⟨p₀, hp₀, hname, -, htakes, hlength⟩ := hgets.here
  have hopens := hread.ends
  rw [if_pos hhas, ← hcursor] at hopens
  obtain ⟨tokens, closer, p, hbody⟩ := body_recovers h hclean hopens hp₀
  obtain ⟨code, hhere⟩ := hbody.here
  have hmerged : t.table.strings.Grows s₂.table.strings := haccepts.strings
  have hsame : p.name = p₀.name := congrArg (·.name) hbody.adds.shell
  have hrest : Headless (listed ++ between ++ tokens) :=
    (hread.listedHeadless.append hread.betweenHeadless).append hbody.headless
  refine ⟨_, hread.reads.trans (hcursor ▸ hbody.reads), fun read hroll => ?_⟩
  have hrolled := hbody.rolled word code read hread hopens (hmerged.trans hbody.strings)
    (hbody.strings.resolve hname) htakes hlength
  refine hroll.add hrest honward.procs honward.strings hhere
    (hsame ▸ hbody.strings.resolve hname) hrolled fun j hj => ?_
  rw [← hread.procs, ← hgets.others j hj]
  exact hbody.others (.proc j) fun heq => hj (ScopeId.proc.inj heq)

/-- A header without a body: the first one of its name, or a later one. -/
theorem announcement_rolls {header : Header} {t : ParserState} {word pos : Position}
    {listed between : List Token} {i : Nat} (hread : ReadsHeading s header t pos listed between)
    (hcursor : s'.cursor = t.cursor) (honward : s.table.Extends (fun _ => False) s'.table)
    (haccepts : t.table.Accepts header (.announce i) s'.table) :
    ∃ tokens, s.cursor.Reads tokens s'.cursor ∧ ∀ read, Roll read s.table →
      Roll (read ++ ⟨.keyword .kwProcedure, word⟩ :: tokens) s'.table := by
  obtain ⟨hhas, hcases⟩ := haccepts.announce_cases
  have hends := hread.ends
  rw [if_neg (by rw [hhas]; nofun)] at hends
  have hmerged : t.table.strings.Grows s'.table.strings := haccepts.strings
  have hrest : Headless (listed ++ between) := hread.listedHeadless.append hread.betweenHeadless
  refine ⟨_, hcursor ▸ hread.reads, fun read hroll => ?_⟩
  rcases hcases with ⟨hfresh, hgets⟩ | ⟨p, trigger, modifiers, hnamed, hp, htable⟩
  · obtain ⟨p₀, hp₀, hname, hopen, htakes, hlength⟩ := hgets.here
    refine hroll.add hrest honward.procs honward.strings hp₀ hname ?_ fun j hj => ?_
    · refine ⟨header.name, header.params, hname, hread.ordered, htakes, .announcement read
        (⟨.keyword .kwProcedure, word⟩ :: ⟨.ident header.name, pos⟩ :: listed) between hopen
        (by simp) (.of_behind (hread.printed.grows hmerged) hends hread.whole)
        (fun k hk hheads => ?_) hlength⟩
      -- No header of the name was read before, since the name was not taken.
      rcases hheads.of_append hroll.ends with hold | ⟨j, rfl, -⟩
      · obtain ⟨p, hmem, hresolve⟩ := hroll.heads hold
        rw [← hread.procs] at hmem
        exact SymbolTable.lookupGlobal_ne_none hmem (hread.strings.resolve hresolve) hfresh
      · omega
    · rw [← hread.procs, ← hgets.others j hj]
  · have hold : s.table.procs[i]? = some p := hread.procs ▸ hp
    have hthere : t.table.scope? (.proc i) = some p := hp
    have hhere : s'.table.scope? (.proc i) =
        some { p with trigger := trigger, modifiers := modifiers } := by
      rw [htable, SymbolTable.scope?_modifyScope_self, hthere]
      rfl
    have hname := SymbolTable.resolve_of_lookupGlobal hnamed hp
    refine hroll.add hrest honward.procs honward.strings hhere (hmerged.resolve hname)
      (((hroll.procs hold).extend honward.strings _).announced trigger modifiers) fun j hj => ?_
    rw [htable, ← hread.procs]
    exact SymbolTable.procs_modifyScope_of_ne _ hj

theorem procedure_rolls {q : Qualifiers} (h : procedure q s = .ok u s')
    (hk : s.cursor.kind = .keyword .kwProcedure) (hclean : s'.Clean) : s.Rolls s' := by
  have honward := (ParserState.Onward.throughout.procedure_along q).of_ok h
  rw [procedure_eq] at h
  obtain ⟨found, s₂, hentry, hbody⟩ := of_bind_ok h
  rw [entry_eq, discard_advance_bind] at hentry
  have hbefore := hclean.back ((ParserState.Onward.throughout.bodyIn_along found).of_ok hbody)
  obtain ⟨header, t, pos, listed, between, hread, hadmits⟩ := heading_recovers hentry hbefore
  have hword := Cursor.reads_advance (hk ▸ nofun : s.cursor.kind ≠ .eof)
  rw [Cursor.current_of_kind hk] at hword
  have haccepts := SymbolTable.declare_accepts hadmits.quiet
  rw [← hadmits.table] at haccepts
  suffices hbehind : ∃ tokens, s.skip.cursor.Reads tokens s'.cursor ∧ ∀ read, Roll read s.table →
      Roll (read ++ ⟨.keyword .kwProcedure, s.cursor.pos⟩ :: tokens) s'.table by
    obtain ⟨tokens, hreads, hroll⟩ := hbehind
    exact ⟨_, hword.trans hreads, hroll⟩
  rcases hadmits.verdict with ⟨i, hverdict, rfl⟩ | ⟨i, hverdict, rfl⟩
  · rw [hverdict] at haccepts
    exact definition_rolls hread hadmits.cursor honward.table haccepts hbody hclean
  · rw [hverdict] at haccepts
    obtain ⟨-, rfl⟩ := of_pure_ok hbody
    exact announcement_rolls hread hadmits.cursor honward.table haccepts

/-! ## Items -/

theorem item_rolls {code : Code} (h : item s = .ok code s') (hclean : s'.Clean) : s.Rolls s' := by
  have hinside := Conduct.headless_inside none
  have hon := ParserState.Onward.inside none
  obtain ⟨q, s₁, hq, h⟩ := of_bind_ok h
  have hqualified : s₁.Clean → s.Rolls s₁ :=
    .outside hinside.qualifiers ParserState.keepsProcs.qualifiers_along hon.qualifiers_along hq
  obtain ⟨kind, s₂, hkind, h⟩ := of_bind_ok h
  obtain ⟨hk, rfl⟩ : s₁.cursor.kind = kind ∧ s₁ = s₂ := EStateM.Result.ok.inj hkind
  split at h
  · obtain ⟨_, s₂, hprocedure, hlast⟩ := of_bind_ok h
    obtain ⟨-, rfl⟩ := of_pure_ok hlast
    have honward := (ParserState.Onward.throughout.procedure_along q).of_ok hprocedure
    exact (hqualified (hclean.back honward)).trans (procedure_rolls hprocedure hk hclean)
  · have hon' : Along ParserState.Onward (variableDeclaration .top q) :=
      hon.variableDeclaration_along rfl q
    have honward := hon'.of_ok h
    have hplain : s₁.cursor.kind.isPlain = true := by
      rw [hk]
      rfl
    exact (hqualified (hclean.back honward)).trans <| .outside
      (hinside.variableDeclaration rfl q hplain)
      (ParserState.keepsProcs.variableDeclaration_along rfl q)
      hon' h hclean
  · split at h
    · have hon' : Along ParserState.Onward (statement .top) := hon.statement_along rfl
      have honward := hon'.of_ok h
      exact (hqualified (hclean.back honward)).trans <| .outside (hinside.statement rfl)
        (ParserState.keepsProcs.statement_along rfl) hon' h hclean
    · obtain ⟨c, s₂, hc, hthrow⟩ := of_bind_ok h
      cases hthrow

theorem itemRound_rolls {code : Code} {r : Code ⊕ Code} (h : itemRound code s = .ok r s')
    (hclean : s'.Clean) : s.Rolls s' := by
  cases hend : s.cursor.atEnd with
  | true =>
      rw [itemRound_last code hend] at h
      cases h
      exact .refl s
  | false =>
      cases hr : item s with
      | ok more t =>
          rw [itemRound_ok code hend hr] at h
          have hforced : blockStatement.forceProgress s.cursor.position t = .ok ⟨⟩ s' := by
            rw [forceProgress_eq, (EStateM.Result.ok.inj h).2]
          have hon := ParserState.Onward.inside none
          have honward := (hon.forceProgress_along _).of_ok hforced
          exact (item_rolls hr (hclean.back honward)).trans <| .outside
            ((Conduct.headless_inside none).forced_behind item_forward item_passes hr)
            (ParserState.keepsProcs.forceProgress_along _) (hon.forceProgress_along _) hforced
            hclean
      | error e t =>
          rw [itemRound_error code hend hr] at h
          have herred : ({ t with problems := t.problems.push e.diagnostic } : ParserState).Erred :=
            ⟨e.diagnostic, by simp [Queue.push], rfl⟩
          have hlast : s'.Erred := by
            rw [← (EStateM.Result.ok.inj h).2]
            split
            · exact herred.recovered _
            · exact herred.recovered _
          exact absurd hlast hclean.not_erred

theorem items_rolls {code : Code} (h : items s = .ok code s') (hclean : s'.Clean) :
    s.Rolls s' := by
  refine (of_repeatRounds_ok (P := fun _ s _ s' => s.Onward s' ∧ (s'.Clean → s.Rolls s')) ?_ ?_ h).2
    hclean
  · intro code s last s' hround
    exact ⟨(ParserState.Onward.throughout.itemRound_along code).of_ok hround,
      itemRound_rolls hround⟩
  · intro code s next s₁ last s' hround hrest
    have honward := (ParserState.Onward.throughout.itemRound_along code).of_ok hround
    exact ⟨honward.trans hrest.1, fun hclean =>
      (itemRound_rolls hround (hclean.back hrest.1)).trans (hrest.2 hclean)⟩

end Parse

/-! ## The module -/

/-- The parameters of a procedure agree with its numbers of arguments: they are its
first locals, and those with a default are initialized with it. -/
structure Procedure.Agrees (pool : Pool) (tokens : List Token) (name : String)
    (params : List Param) (p : Procedure) : Prop where
  named : pool.resolve p.name = .ok name
  origin : p.Origin pool tokens name params
  bounds : p.minArgs ≤ p.numArgs ∧ p.numArgs ≤ p.locals.length
  numArgs : p.numArgs = params.length
  parameter : ∀ {k : Nat} {param : Param}, params[k]? = some param → ∃ v, p.locals[k]? = some v ∧
    p.namelist.resolve v.name = .ok param.name ∧ v.declared = param.pos ∧
    (v.initialized = true ↔ p.minArgs ≤ k) ∧ (p.minArgs ≤ k → param.default = some v.value)

theorem Procedure.Rolled.agrees {pool : Pool} {tokens : List Token} {p : Procedure}
    (h : p.Rolled pool tokens) : ∃ name params, p.Agrees pool tokens name params := by
  obtain ⟨name, params, hname, hordered, htakes, horigin⟩ := h
  refine ⟨name, params, hname, horigin, ?_, htakes.numArgs, fun {k param} hk => ?_⟩
  · rw [htakes.minArgs, htakes.numArgs]
    exact ⟨Param.required_le params, htakes.le_length⟩
  · obtain ⟨v, hv, hgives⟩ := htakes.exists_local hk
    have hdefault : p.minArgs ≤ k ↔ param.default.isSome = true := by
      rw [htakes.minArgs]
      exact hordered.required_le_iff hk
    refine ⟨v, hv, hgives.name, hgives.declared, by rw [hgives.initialized, hdefault],
      fun hle => ?_⟩
    obtain ⟨value, hvalue⟩ := Option.isSome_iff_exists.mp (hdefault.mp hle)
    rw [hvalue, hgives.value value hvalue]

namespace Draft.Finished

variable {draft : Draft} {i : Nat} {p q : Procedure}

/-- A local that is finished keeps what was declared of it. -/
theorem getElem?_locals (h : draft.Finished i p q) (k : Nat) : p.locals[k]? =
    (q.locals[k]?).map (Ledger.settleVariable draft.entries (.inner (.proc i) k)) := by
  rw [h.locals, List.getElem?_mapIdx]

theorem locals_length (h : draft.Finished i p q) : p.locals.length = q.locals.length := by
  rw [h.locals, List.length_mapIdx]

theorem origin {pool : Pool} {tokens : List Token} {name : String} {params : List Param}
    (h : draft.Finished i p q) (ho : q.Origin pool tokens name params) :
    p.Origin pool tokens name params := by
  cases ho with
  | definition before header between body after defined whole written apart opens opening closes
      span locals =>
      refine .definition before header between body after (h.defined.trans defined) whole written
        apart opens opening closes (h.span.trans span) fun v hv => ?_
      obtain ⟨k, hk⟩ := List.getElem?_of_mem hv
      rw [List.getElem?_drop, h.getElem?_locals] at hk
      obtain ⟨w, hw, rfl⟩ := Option.map_eq_some_iff.mp hk
      have hmem : w ∈ q.locals.drop params.length :=
        List.mem_of_getElem? (List.getElem?_drop.trans hw)
      rw [h.namelist]
      exact locals w hmem
  | announcement before header after open_ whole written first locals =>
      exact .announcement before header after (h.defined.trans open_) whole written first
        (h.locals_length.trans locals)

theorem agrees {pool : Pool} {tokens : List Token} {name : String} {params : List Param}
    (h : draft.Finished i p q) (ha : q.Agrees pool tokens name params) :
    p.Agrees pool tokens name params where
  named := h.name ▸ ha.named
  origin := h.origin ha.origin
  bounds := by
    rw [h.minArgs, h.numArgs, h.locals_length]
    exact ha.bounds
  numArgs := h.numArgs.trans ha.numArgs
  parameter hk := by
    obtain ⟨v, hv, hdeclared⟩ := ha.parameter hk
    refine ⟨_, by rw [h.getElem?_locals, hv]; rfl, ?_⟩
    rw [h.namelist, h.minArgs]
    exact hdeclared

end Draft.Finished

namespace TokenStream

/-- Reading a stream without an error reads all its tokens, and what is known of headers
is known of the draft. -/
theorem roll_draft {stream : TokenStream}
    (hclean : ∀ d ∈ stream.parse.diagnostics, d.isError = false) :
    ∃ read rest, stream.tokens = read ++ rest ∧ Roll read stream.draft.table := by
  have hproblems : ∀ d ∈ stream.draft.problems.items, d.isError = false := fun d hd =>
    hclean d (Draft.mem_diagnostics.mpr (.inl hd))
  unfold TokenStream.draft at hproblems ⊢
  cases hr : Parse.items (.start stream) with
  | error e s =>
      rw [hr] at hproblems
      have hlast : e.diagnostic.isError = false := hproblems _ (by simp [Queue.push])
      cases hlast
  | ok main s =>
      rw [hr] at hproblems
      obtain ⟨read, hreads, hroll⟩ := Parse.items_rolls hr hproblems
      exact ⟨read, s.cursor.rest, hreads.rest, hroll [] (.nil rfl)⟩

/-- In a module without an error each procedure has the parameters of its header. -/
theorem parse_parametersAgree {stream : TokenStream}
    (hclean : ∀ d ∈ stream.parse.diagnostics, d.isError = false) :
    ∀ p ∈ stream.parse.module.procs, ∃ name params,
      p.Agrees stream.parse.module.strings stream.tokens name params := by
  intro p hp
  obtain ⟨i, hi⟩ := List.getElem?_of_mem hp
  obtain ⟨q, hq⟩ := Draft.finished hi
  obtain ⟨read, rest, hwhole, hroll⟩ := roll_draft hclean
  obtain ⟨name, params, hagrees⟩ := ((hroll.procs hq.there).extend (.refl _) rest).agrees
  rw [← hwhole] at hagrees
  exact ⟨name, params, hq.agrees hagrees⟩

/-- A procedure that is announced with other parameters than it is defined with. -/
def definedLater : TokenStream :=
  .ofString .none .default
    "procedure p(a, b = 1); procedure p(variable a, variable c = 1 + 2) begin variable d; end"
    ⟨"test.ssl"⟩

/-- Its parse, computed: the procedure has the parameters of the definition, and no list
of problems holds one. -/
theorem definedLater_computed :
    (definedLater.parse.module.procs.map fun p =>
        (p.minArgs, p.numArgs, p.locals.map fun v => (v.declared.column, v.initialized, v.value))) =
      [(1, 2, [(45, false, .int 0), (57, true, .int 3), (83, false, .int 0)])] ∧
      definedLater.draft.problems.items ++
        (definedLater.draft.table.checkDefinitions.2 ++
          definedLater.draft.pending.problems definedLater.draft.closed ++
          definedLater.draft.resolved.allUseProblems
            (definedLater.draft.main.resolved definedLater.draft.found)) = [] := by
  decide +kernel

theorem definedLater_unreported : definedLater.parse.diagnostics = [] := by
  unfold parse
  rw [Draft.finish_diagnostics, definedLater_computed.2]
  exact Queue.sorted_of_pairwise .nil

theorem parse_parametersAgree_definedLater :
    (∀ d ∈ definedLater.parse.diagnostics, d.isError = false) ∧
      (definedLater.parse.module.procs.map fun p => (p.minArgs, p.numArgs)) = [(1, 2)] ∧
      ∀ p ∈ definedLater.parse.module.procs, ∃ name params,
        p.Agrees definedLater.parse.module.strings definedLater.tokens name params := by
  have hclean : ∀ d ∈ definedLater.parse.diagnostics, d.isError = false := by
    rw [definedLater_unreported]
    exact nofun
  refine ⟨hclean, ?_, parse_parametersAgree hclean⟩
  have hcounts := congrArg (List.map fun row => (row.1, row.2.1)) definedLater_computed.1
  rwa [List.map_map] at hcounts

end TokenStream

end SslFrontend
