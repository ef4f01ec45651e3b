import SslFrontend.Include.Splice
import SslFrontend.Proofs.Recovery.Block
import SslFrontend.Proofs.Twin.Renumbered

/-! # Panic-mode recovery

A malformed statement of a block costs its own text and nothing else: the round
that meets it reads up to its semicolon, keeps the code of the statements before
it, declares nothing, and reports it, but no unclosed block.  The statements
behind it are compiled as if it were not there (`blockRounds_recover`), up to the
places of names in the string space and among the pending names, where what the
malformed statement mentions stays.
-/

namespace SslFrontend

namespace SymbolTable

variable {known : Position → Prop} {t : SymbolTable}

/-- More texts change nothing that is declared. -/
theorem Sound.alike (h : t.Sound known) {strings : Pool} (hg : t.strings.Grows strings) :
    Alike { t with strings := strings } t where
  vars := by
    refine List.forall₂_same.mpr fun label hlabel => ⟨?_, rfl⟩
    obtain ⟨v, hv, rfl⟩ := List.mem_map.mp hlabel
    obtain ⟨text, htext⟩ := h.vars.names v hv
    exact ⟨text, hg.find? htext, htext⟩
  procs := by
    refine List.forall₂_same.mpr fun label hlabel => ⟨?_, rfl⟩
    obtain ⟨p, hp, rfl⟩ := List.mem_map.mp hlabel
    obtain ⟨text, htext⟩ := h.procs_named p hp
    exact ⟨text, hg.find? htext, htext⟩
  scopes scope := by cases scope <;> rfl

end SymbolTable

namespace ParserState

/-- A malformed statement comes next, with the semicolon behind it: what ends a
statement, opens a block or declares something is not in it, and read by itself
it is an error. -/
structure Malformed (s : ParserState) (context : Context) (bad : List Token) (semicolon : Token)
    (rest : List Token) : Prop where
  some : bad ≠ []
  inner : ∀ token ∈ bad, token.kind.isInner = true
  ends : semicolon.kind = .mark .semicolon
  next : s.cursor.rest = bad ++ semicolon :: rest
  fails : ∃ eof e t, Parse.statement context
    { s with cursor := { s.cursor with rest := bad ++ [semicolon], eof := eof } } = .error e t

/-- The state with other tokens to read. -/
def behind (s : ParserState) (rest : List Token) : ParserState :=
  { s with cursor := { s.cursor with rest := rest } }

end ParserState

namespace Parse

variable {context : Context} {opener : Token} {s s₀ t : ParserState}

/-- A block goes on alike from states at the same tokens whose tables declare the
same. -/
theorem blockRounds_renumbered (hrest : s₀.cursor.rest = s.cursor.rest)
    (heof : s₀.cursor.eof = s.cursor.eof) (htable : s.table.Alike s₀.table) {found : Block}
    (h : repeatRounds (blockRound (statement context) opener) [] s = .ok found t) :
    ∃ found₀ t₀, repeatRounds (blockRound (statement context) opener) [] s₀ = .ok found₀ t₀ ∧
      found₀.failure = found.failure ∧
      List.Forall₂ (t.records.SameNode t₀.records) found.code found₀.code := by
  let C := Comparison.ofNumbering s.cursor.rest
  have hjoins : C.seam.Joins s.cursor s₀.cursor := by
    refine ⟨s.cursor.rest, ?_, ?_, List.suffix_rfl, fun _ => heof, fun h => absurd rfl h⟩
    · exact (List.append_nil _).symm
    · rw [hrest, Seam.spell_eq rfl, List.map_id]
      exact (List.append_nil _).symm
  have hpair : C.Pair s s₀ := ⟨hjoins, htable⟩
  have hstatements : C.Statements (s.cursor.rest.length + 1) (statement context)
      (statement context) :=
    ⟨fun hp _ => Comparison.statement_agree rfl rfl hp,
      (ParserState.Onward.inside context.scope).statement_along rfl⟩
  have hlost : ∀ s : ParserState, ¬C.Lost s := by
    rintro s (hbeyond | ⟨hwaived | hgone, -⟩ | ⟨n, hn, -⟩)
    · exact Nat.not_lt_zero _ hbeyond
    · cases hwaived
    · cases hgone.1
    · cases hn
  have hagree : C.Agree C.LosesBlock C.SameBlock
      (repeatRounds (blockRound (statement context) opener) [])
      (repeatRounds (blockRound (statement context) opener) []) s s₀ :=
    Comparison.blockRounds_agree hstatements nofun hpair .nil
  unfold Comparison.Agree at hagree
  rw [h] at hagree
  rcases hagree with (hlosesLost | ⟨-, hwaived | hgone⟩) | ⟨found₀, t₀, h₀, hlater, hcodes, hfailure⟩
  · exact absurd hlosesLost (hlost t)
  · cases hwaived
  · cases hgone.1
  · obtain ⟨more, failure⟩ := found
    obtain ⟨more₀, failure₀⟩ := found₀
    refine ⟨⟨more₀, failure₀⟩, t₀, h₀, ?_, hcodes⟩
    dsimp only at hfailure ⊢
    cases hfailure with
    | none => rfl
    | some he => rw [he.exact rfl]

/-- A malformed statement in front of a semicolon is skipped with it, and the
rest of the block is compiled as if it were not there.  The table is sound in
every state that a run reaches (`Config.Known.table`). -/
theorem blockRounds_recover {known : Position → Prop} {bad rest : List Token} {semicolon : Token}
    (opener : Token) (code : Code) (hsound : s.table.Sound known)
    (h : s.Malformed context bad semicolon rest) :
    (∃ s', blockRound (statement context) opener code s = .ok (.inl code) s' ∧
      s'.cursor = ⟨rest, s.cursor.eof, s.cursor.position + bad.length + 1, some semicolon.pos⟩ ∧
      s.Quiet s' ∧ s.problems.items.length < s'.problems.items.length) ∧
    ∃ more more₀ failure t t₀,
      repeatRounds (blockRound (statement context) opener) code s = .ok ⟨code ++ more, failure⟩ t ∧
      repeatRounds (blockRound (statement context) opener) code (s.behind rest) =
        .ok ⟨code ++ more₀, failure⟩ t₀ ∧
      List.Forall₂ (t.records.SameNode t₀.records) more more₀ := by
  obtain ⟨hbad, hinner, hsemicolon, hrest, eof, e, u, hfails⟩ := h
  obtain ⟨s', hround, hread, hquiet, hreports⟩ :=
    blockRound_recovers opener code hbad hinner hsemicolon hrest hfails
  have hleft : s'.cursor.rest = rest := by
    refine hread.rest_eq ?_
    rw [hrest, List.append_assoc]
    rfl
  constructor
  · refine ⟨s', hround, ?_, hquiet, hreports⟩
    have heof := hread.eof
    have hposition := hread.position
    have hlast := hread.last
    rw [List.length_append, List.length_singleton, ← Nat.add_assoc] at hposition
    rw [List.getLast?_concat] at hlast
    obtain ⟨⟨rest', eof', position, last⟩, table, ledger, pending, problems⟩ := s'
    dsimp only at hleft heof hposition hlast ⊢
    rw [hleft, heof, hposition, hlast]
    rfl
  · have hforward : Forward (statement context) :=
      (inside_forward context.scope).statement_along rfl
    have halike : s'.table.Alike (s.behind rest).table := by
      rw [hquiet.table]
      exact hsound.alike hquiet.strings
    have hsame : (s.behind rest).cursor.rest = s'.cursor.rest := hleft.symm
    obtain ⟨found, t, hblock⟩ := blockRounds_answer hforward opener [] s'
    obtain ⟨found₀, t₀, hblock₀, hfailure, hcodes⟩ :=
      blockRounds_renumbered hsame hread.eof.symm halike hblock
    have hfirst := blockRounds_behind hforward code hblock
    have hfirst₀ := blockRounds_behind hforward code hblock₀
    rw [List.append_nil] at hfirst hfirst₀
    refine ⟨found.code, found₀.code, found.failure, t, t₀, ?_, ?_, hcodes⟩
    · rw [repeatRounds_eq (blockRound_consumes hforward opener)
        ((inside_forward none).blockRound_along hforward opener), bind_ok hround]
      exact hfirst
    · rw [← hfailure]
      exact hfirst₀

/-- The code of a block that has an answer. -/
def codeOf : EStateM.Result ParseError ParserState Block → Code
  | .ok found _ => found.code
  | .error _ _ => []

theorem exists_error {α : Type} {p : Parse α}
    (h : (match p s with | .ok _ _ => false | .error _ _ => true) = true) :
    ∃ e t, p s = .error e t := by
  cases hp : p s with
  | ok a t =>
      rw [hp] at h
      cases h
  | error e t => exact ⟨e, t, rfl⟩

/-- Two mentions of names that nothing declares, the first one in a malformed
statement. -/
def misnamed : ParserState :=
  .start (.ofString .none .default "foo bar; baz; end" ⟨"a.ssl"⟩)

theorem misnamed_malformed : misnamed.Malformed .top (misnamed.cursor.rest.take 2)
    (misnamed.cursor.rest.getD 2 default) (misnamed.cursor.rest.drop 3) := by
  have hfront : misnamed.cursor.rest.take 2 ≠ [] ∧
      (∀ token ∈ misnamed.cursor.rest.take 2, token.kind.isInner = true) ∧
      (misnamed.cursor.rest.getD 2 default).kind = .mark .semicolon ∧
      misnamed.cursor.rest = misnamed.cursor.rest.take 2 ++
        misnamed.cursor.rest.getD 2 default :: misnamed.cursor.rest.drop 3 := by
    decide +kernel
  obtain ⟨hsome, hinner, hends, hnext⟩ := hfront
  exact ⟨hsome, hinner, hends, hnext, misnamed.cursor.eof, exists_error (by decide +kernel)⟩

theorem blockRounds_recover_misnamed : ∃ s', blockRound (statement .top)
      ⟨.keyword .kwBegin, .unknown⟩ [] misnamed = .ok (.inl []) s' ∧
    s'.cursor.rest = misnamed.cursor.rest.drop 3 := by
  obtain ⟨⟨s', hround, hcursor, -⟩, -⟩ :=
    blockRounds_recover ⟨.keyword .kwBegin, .unknown⟩ [] (.empty fun _ => True) misnamed_malformed
  exact ⟨s', hround, by rw [hcursor]⟩

/-- The second name stands for the same, at another place. -/
theorem blockRounds_shift : misnamed.Malformed .top (misnamed.cursor.rest.take 2)
      (misnamed.cursor.rest.getD 2 default) (misnamed.cursor.rest.drop 3) ∧
    ∃ found found₀ t t₀,
      repeatRounds (blockRound (statement .top) ⟨.keyword .kwBegin, .unknown⟩) [] misnamed =
        .ok found t ∧
      repeatRounds (blockRound (statement .top) ⟨.keyword .kwBegin, .unknown⟩) []
        (misnamed.behind (misnamed.cursor.rest.drop 3)) = .ok found₀ t₀ ∧
      ¬List.Forall₂ (fun a b : Node => b.kind = a.kind ∧ (a.kind ≠ .string → b.value = a.value))
        found.code found₀.code := by
  have hforward : Forward (statement .top) := (inside_forward none).statement_along rfl
  obtain ⟨found, t, hfound⟩ := blockRounds_answer hforward ⟨.keyword .kwBegin, .unknown⟩ [] misnamed
  obtain ⟨found₀, t₀, hfound₀⟩ := blockRounds_answer hforward ⟨.keyword .kwBegin, .unknown⟩ []
    (misnamed.behind (misnamed.cursor.rest.drop 3))
  refine ⟨misnamed_malformed, found, found₀, t, t₀, hfound, hfound₀, fun hsame => ?_⟩
  have hcodes : ((codeOf (repeatRounds (blockRound (statement .top)
        ⟨.keyword .kwBegin, .unknown⟩) [] misnamed)).map fun node => (node.kind, node.value)) =
        [(.ident, .int 1), (.pop, .int 0)] ∧
      ((codeOf (repeatRounds (blockRound (statement .top) ⟨.keyword .kwBegin, .unknown⟩) []
        (misnamed.behind (misnamed.cursor.rest.drop 3)))).map fun node => (node.kind, node.value)) =
        [(.ident, .int 0), (.pop, .int 0)] := by
    decide +kernel
  rw [hfound, hfound₀] at hcodes
  obtain ⟨hcode, hcode₀⟩ := hcodes
  obtain ⟨code, failure⟩ := found
  obtain ⟨code₀, failure₀⟩ := found₀
  dsimp only [codeOf] at hsame hcode hcode₀
  cases hsame with
  | nil => cases hcode
  | cons hnode _ =>
      obtain ⟨hfirst, -⟩ := List.cons.inj hcode
      obtain ⟨hfirst₀, -⟩ := List.cons.inj hcode₀
      obtain ⟨hkind, hvalue⟩ := Prod.mk.inj hfirst
      have hsame := hnode.2 (by rw [hkind]; nofun)
      rw [hvalue, (Prod.mk.inj hfirst₀).2] at hsame
      exact absurd hsame (by decide)

end Parse

end SslFrontend
