import Mathlib.Data.List.Chain
import Mathlib.Data.List.Infix
import SslFrontend.Include.Splice
import SslFrontend.Proofs.Run.Finish
import SslFrontend.Proofs.Twin.Same

/-! # Block delimiters

A block is written with `begin` and `end` or with braces.  A stream that is
rewritten from words to braces has the same module and the same diagnostics at
the same places, well-formed or not (`TokenStream.parse_braced`).  There is one
exception: recovery from a malformed variable of a list stops at an `end`, but
not at a brace (`TokenStream.straying_misread`).
-/

namespace SslFrontend

open Assignment (afterBrackets? afterTarget? isNext)

namespace Assignment

theorem isSome_ofKind?_braced (kind : TokenKind) :
    (ofKind? kind.braced).isSome = (ofKind? kind).isSome :=
  TokenKind.blind (fun kind => (ofKind? kind).isSome) rfl rfl kind

theorem afterBrackets?_braced (depth : Nat) (tokens : List Token) :
    afterBrackets? depth (tokens.map Token.braced) =
      (afterBrackets? depth tokens).map (·.map Token.braced) := by
  induction tokens generalizing depth with
  | nil => rfl
  | cons token rest ih =>
      obtain ⟨kind, pos⟩ := token
      cases kind with
      | mark sign =>
          cases sign with
          | lbracket => exact ih (depth + 1)
          | rbracket => cases depth with
            | zero => rfl
            | succ outer => exact ih outer
          | semicolon => rfl
          | _ => exact ih depth
      | keyword word => cases word <;> exact ih depth
      | eof => rfl
      | _ => exact ih depth

theorem afterTarget?_braced (tokens : List Token) :
    afterTarget? (tokens.map Token.braced) = (afterTarget? tokens).map (·.map Token.braced) := by
  cases tokens with
  | nil => rfl
  | cons token rest =>
      obtain ⟨kind, pos⟩ := token
      cases kind with
      | keyword word => cases word <;> rfl
      | ident name =>
          cases rest with
          | nil => rfl
          | cons token rest =>
              obtain ⟨kind, pos'⟩ := token
              cases kind with
              | mark sign =>
                  cases sign with
                  | lbracket => exact afterBrackets?_braced 0 rest
                  | _ => rfl
              | keyword word => cases word <;> rfl
              | _ => rfl
      | _ => rfl

/-- The look ahead for an assignment does not see how blocks are delimited. -/
theorem isNext_braced (tokens : List Token) :
    isNext (tokens.map Token.braced) = isNext tokens := by
  unfold isNext
  rw [afterTarget?_braced]
  cases afterTarget? tokens with
  | none => rfl
  | some behind =>
      cases behind with
      | nil => rfl
      | cons token rest => exact isSome_ofKind?_braced token.kind

end Assignment

theorem wordy_iff (tokens : List Token) : Wordy tokens ↔
    (∀ token ∈ tokens, token.kind ≠ .mark .lbrace ∧ token.kind ≠ .mark .rbrace) ∧
      tokens.IsChain fun first second =>
        first.kind = .keyword .kwVariable → second.kind ≠ .keyword .kwBegin := by
  rw [List.isChain_iff_forall_rel_of_append_cons_cons]
  constructor
  · intro h
    refine ⟨h.noBrace, fun first second before behind heq => h.noVariables first second ?_⟩
    exact ⟨before, behind, by simp [heq]⟩
  · rintro ⟨hbrace, hchain⟩
    refine ⟨hbrace, fun first second ⟨before, behind, heq⟩ => ?_⟩
    exact @hchain first second before behind (by simp [← heq])

instance (tokens : List Token) : Decidable (Wordy tokens) :=
  decidable_of_iff _ (wordy_iff tokens).symm

namespace Diagnostic

/-- What a diagnostic says without its texts. -/
def site (d : Diagnostic) : Cause × Severity × Position := (d.cause, d.severity, d.pos)

end Diagnostic

/-- Diagnostics that say the same leave the queue in the same order. -/
theorem Queue.sorted_sites {q q' : Queue}
    (h : q'.items.map Diagnostic.site = q.items.map Diagnostic.site) :
    q'.sorted.map Diagnostic.site = q.sorted.map Diagnostic.site := by
  have hmap : ∀ queue : Queue, queue.sorted.map Diagnostic.site =
      (queue.items.map Diagnostic.site).mergeSort fun a b => a.2.2.le b.2.2 := by
    intro queue
    rw [queue.sorted_eq]
    exact List.map_mergeSort fun _ _ _ _ => rfl
  rw [hmap, hmap, h]

theorem Cursor.kind_of_head? {c : Cursor} {kind : TokenKind}
    (h : c.rest.head?.map Token.kind = some kind) : c.kind = kind := by
  obtain ⟨token, htoken, rfl⟩ := Option.map_eq_some_iff.mp h
  rw [Cursor.kind, Cursor.current, List.headD_eq_head?_getD, htoken, Option.getD_some]

/-- A list that starts with no name stays where recovery from that neither ends
it nor goes on with it. -/
theorem Parse.not_listStrays {context : Context} {kind : VarScope} {s : ParserState}
    (hname : ∀ name, s.cursor.kind ≠ .ident name)
    (hend : (s.cursor.synchronize .declarationBoundary).kind ≠ .keyword .kwEnd)
    (hcomma : (s.cursor.synchronize .declarationBoundary).check (.mark .comma) ≠ true) :
    ¬ListStrays context kind s := by
  have hitem : ∃ e, variableItem context kind s = .error e s := by
    have he := ParserState.expectIdent_eq_error hname
    refine ⟨.noName s.cursor.current, ?_⟩
    unfold variableItem
    show EStateM.bind expectIdent _ s = _
    rw [EStateM.bind, he]
  obtain ⟨e, he⟩ := hitem
  intro hstrays
  cases hstrays with
  | here h hat =>
      cases he.symm.trans h
      exact hend hat
  | next h => cases he.symm.trans h
  | recovered h hat =>
      cases he.symm.trans h
      exact hcomma hat

/-- Drafts with the same records are finished alike. -/
theorem Draft.finish_sites {d d' : Draft} {files : FileTable} (hmain : d'.main = d.main)
    (htable : d'.table = d.table) (hledger : d'.ledger = d.ledger)
    (hpending : d'.pending = d.pending)
    (hsites : d'.problems.items.map Diagnostic.site = d.problems.items.map Diagnostic.site) :
    (d'.finish files).module = (d.finish files).module ∧
      (d'.finish files).diagnostics.map Diagnostic.site =
        (d.finish files).diagnostics.map Diagnostic.site := by
  obtain ⟨main, table, ledger, pending, problems⟩ := d
  obtain ⟨main', table', ledger', pending', problems'⟩ := d'
  cases hmain
  cases htable
  cases hledger
  cases hpending
  refine ⟨rfl, ?_⟩
  rw [finish_diagnostics, finish_diagnostics]
  refine Queue.sorted_sites (List.map_append.trans (.trans ?_ List.map_append.symm))
  exact congrArg (· ++ _) hsites

namespace TokenStream

variable (stream : TokenStream)

/-- The stream with its blocks in braces. -/
def braced : TokenStream := { stream with tokens := stream.tokens.map Token.braced }

/-- Recovery from a malformed variable of a list never ends at an `end`. -/
def ListsStay : Prop :=
  ∀ {context kind token s}, token.kind = .keyword .kwVariable →
    token :: s.cursor.rest <:+ stream.tokens → ¬Parse.ListStrays context kind s

variable {stream}

/-- The runs on words and on braces. -/
def spelling (hw : Wordy stream.tokens) (hl : stream.ListsStay) : Variation where
  seam :=
    { shared := stream.tokens
      left := []
      right := []
      braces := true
      gap := false
      tolerant := false
      wordy := fun _ => ⟨rfl, hw⟩
      joined := Seam.joined_nil
      closer := Seam.closer_nil
      front := Seam.front_nil }
  closed := none
  reports a b := b.map Diagnostic.site = a.map Diagnostic.site
  extend hab hcd := by
    rw [List.map_append, List.map_append, hab]
    refine congrArg _ ?_
    induction hcd with
    | nil => rfl
    | cons h _ ih =>
        rw [List.map_cons, List.map_cons, ih]
        exact congrArg (· :: _) (Prod.ext h.cause (Prod.ext h.severity h.pos))
  strict := rfl
  ahead {tokens} _ := by
    rw [List.append_nil, List.append_nil]
    exact Assignment.isNext_braced tokens
  lists _ := hl

/-- Words and braces delimit blocks alike, on malformed input, too. -/
theorem parse_braced (hw : Wordy stream.tokens) (hl : stream.ListsStay) :
    stream.braced.parse.module = stream.parse.module ∧
      stream.braced.parse.diagnostics.map Diagnostic.site =
        stream.parse.diagnostics.map Diagnostic.site := by
  have hpair : (spelling hw hl).comparison.Pair (.start stream) (.start stream.braced) := by
    refine ⟨⟨stream.tokens, ?_, ?_, List.suffix_rfl, fun _ => rfl, fun h => absurd rfl h⟩,
      ⟨.inl rfl, rfl, rfl, rfl⟩⟩
    · exact (List.append_nil _).symm
    · exact (List.append_nil _).symm
  have hdrafts : (spelling hw hl).Drafts stream.draft stream.braced.draft := by
    rw [draft_eq, draft_eq]
    exact Variation.drafts rfl
      (Comparison.items_agree (Variation.ofUnits _) (fun _ => trivial) rfl hpair)
  have htable : stream.braced.draft.table = stream.draft.table := by
    rcases hdrafts.table with h | ⟨end_, hmem, -⟩
    · exact h
    · cases hmem
  have hsites : stream.braced.draft.problems.items.map Diagnostic.site =
      stream.draft.problems.items.map Diagnostic.site := hdrafts.problems
  exact Draft.finish_sites hdrafts.main htable hdrafts.ledger hdrafts.pending hsites

/-- A malformed list of variables that goes up to its `;`, in a block without
its `end`. -/
def unending : TokenStream :=
  .ofString .none .default "procedure p begin variable 1; begin a; end" ⟨"a.ssl"⟩

theorem unending_listsStay : unending.ListsStay := by
  intro context kind token s htoken hsuffix
  have htails : ∀ rest ∈ unending.tokens.tails,
      rest.head?.map Token.kind = some (.keyword .kwVariable) →
        rest.tail.head?.map Token.kind = some (.int 1) ∧
          (rest.tail.dropWhile (Cursor.passes .declarationBoundary)).head?.map Token.kind =
            some (.mark .semicolon) := by
    decide +kernel
  obtain ⟨hfirst, hstop⟩ := htails _ ((List.mem_tails _ _).mpr hsuffix) (by simp [htoken])
  have hrest : (s.cursor.synchronize .declarationBoundary).rest =
      s.cursor.rest.dropWhile (Cursor.passes .declarationBoundary) :=
    Cursor.drop_takeWhile _ _
  have hkind := Cursor.kind_of_head? hfirst
  have hsemicolon := Cursor.kind_of_head? ((congrArg (·.head?.map Token.kind) hrest).trans hstop)
  refine Parse.not_listStrays (by simp [hkind]) (by simp [hsemicolon]) ?_
  rw [Cursor.check, hsemicolon]
  decide

theorem parse_braced_unending :
    unending.braced.parse.module = unending.parse.module ∧
      unending.braced.parse.diagnostics.map Diagnostic.site =
        unending.parse.diagnostics.map Diagnostic.site :=
  parse_braced (by decide +kernel) unending_listsStay

/-- Two procedures, and a malformed list of variables that goes up to the `end`
of the first one. -/
def straying : TokenStream :=
  .ofString .none .default "procedure p begin variable 1 end procedure q begin end" ⟨"a.ssl"⟩

/-- With braces recovery goes beyond the block. -/
theorem straying_misread : Wordy straying.tokens ∧
    straying.braced.parse.diagnostics.map Diagnostic.site ≠
      straying.parse.diagnostics.map Diagnostic.site := by
  refine ⟨by decide +kernel, fun hsites => ?_⟩
  have hreports : straying.braced.draft.reports.length = 3 ∧ straying.draft.reports.length = 2 := by
    decide +kernel
  have hperm : ∀ stream : TokenStream, stream.parse.diagnostics.length =
      stream.draft.reports.length := fun stream => Draft.diagnostics_perm.length_eq
  have hlength := congrArg List.length hsites
  rw [List.length_map, List.length_map, hperm, hperm, hreports.1, hreports.2] at hlength
  exact absurd hlength (by decide)

end TokenStream

end SslFrontend
