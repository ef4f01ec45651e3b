import SslFrontend.Include.Splice
import SslFrontend.Proofs.Journal.Accounts
import SslFrontend.Proofs.Journal.Settled
import SslFrontend.Proofs.Journal.Run
import SslFrontend.Proofs.Run.Resolution

/-! # References

The references of a variable or procedure are identifiers of the stream that have
its name, each of them once, in the order of the text.  Its uses are those that
were read as mentions, and no mention is lost, wherever it was read.  Main
statement: `TokenStream.parse_references`, for every stream and every journal of
its run.
-/

namespace SslFrontend

variable {stream : TokenStream} {x : Journal stream}

namespace Journal

/-- The token at a place was read as a mention. -/
def mentionsAt (x : Journal stream) (place : Nat) : Bool :=
  x.names.any fun r => r.token == place && r.mention?.isSome

/-- References and uses of something with a name are those of the tokens at some
places. -/
structure Cites (x : Journal stream) (name : String) (places : List Nat)
    (references : List Site) (uses : Nat) : Prop where
  ordered : places.Pairwise (· < ·)
  tokens : List.Forall₂ (fun place site => ∃ pos,
    stream.tokens[place]? = some ⟨.ident name, pos⟩ ∧ site = pos.site) places references
  uses : uses = places.countP x.mentionsAt

end Journal

/-- All references of a module stand at places of their own. -/
structure Module.Refers (m : Module) (x : Journal stream) (places : Symbol → List Nat) :
    Prop where
  vars : ∀ i v, m.vars[i]? = some v →
    x.Cites (m.strings.lookup v.name) (places (.global i)) v.references v.uses
  procs : ∀ i p, m.procs[i]? = some p →
    x.Cites (m.strings.lookup p.name) (places (.proc i)) p.references p.uses
  locals : ∀ i p k v, m.procs[i]? = some p → p.locals[k]? = some v →
    x.Cites (p.namelist.lookup v.name) (places (.inner (.proc i) k)) v.references v.uses
  /-- Every place is that of a name that was read. -/
  read : ∀ symbol, ∀ place ∈ places symbol, ∃ r ∈ x.names, r.token = place
  /-- No token stands for two things. -/
  apart : ∀ symbol other, ∀ place ∈ places symbol, place ∈ places other → symbol = other
  /-- Whatever was mentioned, in a statement that was dropped or in a body of a
  rejected header, refers to what it is bound to. -/
  complete : ∀ r ∈ x.names, ∀ e, r.mention? = some e → ∀ symbol,
    stream.draft.binding? e = some symbol → (∀ i, symbol ≠ .builtin i) →
    r.token ∈ places symbol

namespace Journal.Ends

theorem reads (h : x.Ends) : x.Reads := (Reads.start stream).turns h.turns

theorem accounts (h : x.Ends) : x.Accounts := (Accounts.start stream).turns h.turns

theorem nodup (h : x.Ends) : x.state.numbers.Nodup :=
  Turns.nodup (.start stream) List.nodup_nil h.turns

theorem entries_perm (h : x.Ends) : stream.draft.entries.Perm
    (x.state.ledger.entries ++
      x.state.pending.names.flatMap (Pending.uses stream.draft.closed)) := by
  rw [← h.leaves.ledger, ← h.leaves.pending, ← Pending.settleAll_entries]
  exact Ledger.ordered_perm _

/-- Entries stand in the order of the text. -/
theorem ordered (h : x.Ends) :
    stream.draft.entries.Pairwise fun e later => e.number < later.number := by
  refine Ledger.ordered_lt ?_
  have hsublist := stream.draft.pending.numbers_settleAll stream.draft.closed stream.draft.ledger
  rw [h.leaves.ledger, h.leaves.pending] at hsublist ⊢
  exact hsublist.nodup h.nodup

/-- Every entry at the end stands for the name with its number. -/
theorem read (h : x.Ends) {e : Entry} (he : e ∈ stream.draft.entries) :
    ∃ r, x.names[e.number]? = some r ∧ e.site = r.pos.site ∧
      (e.mention = .use ↔ r.mention?.isSome = true) ∧
      stream.draft.table.Binds r.name e.symbol := by
  rcases List.mem_append.mp (h.entries_perm.mem_iff.mp he) with hledger | hpending
  · rw [h.leaves.table]
    exact (h.accounts.entered e hledger).read
  · obtain ⟨name, context, pos, symbol, hwaits, hl, hne, heq⟩ :=
      Pending.mem_flatMap_uses.mp hpending
    obtain ⟨r, m, hr, hm, rfl, rfl, _⟩ := h.accounts.waiting _ _ _ _ hwaits
    rw [Draft.closed_lookup] at hl
    rw [heq]
    refine ⟨r, hr, rfl, by simp [hm], ?_⟩
    rcases (SymbolTable.offers_of_lookup hl).2 with hbinds | ⟨i, hbuiltin, _⟩
    · exact hbinds
    · exact absurd hbuiltin (hne i)

/-- Every mention that is bound is entered at the end. -/
theorem counted (h : x.Ends) {number : Nat} {r : NameRead} {m : Mentioned}
    (hr : x.names[number]? = some r) (hm : r.mention? = some m) {symbol : Symbol}
    (hb : stream.draft.binding? m = some symbol) (hne : ∀ i, symbol ≠ .builtin i) :
    ⟨number, symbol, m.pos.site, .use⟩ ∈ stream.draft.entries := by
  have hcounts := h.accounts.counted number r m hr hm
  rw [h.entries_perm.mem_iff, List.mem_append]
  rw [Draft.binding?_eq] at hb
  rcases Option.or_eq_some_iff.mp hb with hdeclared | ⟨hnone, hlater⟩
  · exact .inl (hcounts.early symbol hdeclared)
  · exact .inr (Pending.mem_flatMap_uses.mpr
      ⟨m.name, m.scope, m.pos, symbol, hcounts.late hnone, hlater, hne, rfl⟩)

end Journal.Ends

/-! ## Places -/

namespace Journal

/-- The place of the token whose name has a number. -/
def placeOf (x : Journal stream) (number : Nat) : Nat :=
  ((x.names[number]?).map NameRead.token).getD 0

/-- The places of all references to a symbol. -/
def places (x : Journal stream) (symbol : Symbol) : List Nat :=
  (stream.draft.entries.filter (·.symbol == symbol)).map fun e => x.placeOf e.number

theorem placeOf_eq {number : Nat} {r : NameRead} (hr : x.names[number]? = some r) :
    x.placeOf number = r.token := by
  simp [placeOf, hr]

theorem mem_places {symbol : Symbol} {place : Nat} : place ∈ x.places symbol ↔
    ∃ e ∈ stream.draft.entries, e.symbol = symbol ∧ x.placeOf e.number = place := by
  simp [places, and_assoc]

/-- A token was read as a mention if the name with its place is one. -/
theorem Reads.mentionsAt_eq (h : x.Reads) {number : Nat} {r : NameRead}
    (hr : x.names[number]? = some r) : x.mentionsAt r.token = r.mention?.isSome := by
  rw [Bool.eq_iff_iff]
  simp only [mentionsAt, List.any_eq_true, Bool.and_eq_true, beq_iff_eq]
  constructor
  · rintro ⟨r', hmem, htoken, hsome⟩
    obtain ⟨other, hother⟩ := List.getElem?_of_mem hmem
    obtain rfl := h.token_inj hother hr htoken
    rw [hr] at hother
    cases hother
    exact hsome
  · exact fun hsome => ⟨r, List.mem_of_getElem? hr, rfl, hsome⟩

namespace Ends

/-- Numbers of entries lead to tokens in the same order. -/
theorem placeOf_lt (h : x.Ends) {e later : Entry} (he : e ∈ stream.draft.entries)
    (hlater : later ∈ stream.draft.entries) (hlt : e.number < later.number) :
    x.placeOf e.number < x.placeOf later.number := by
  obtain ⟨r, hr, _⟩ := h.read he
  obtain ⟨r', hr', _⟩ := h.read hlater
  rw [placeOf_eq hr, placeOf_eq hr']
  obtain ⟨hi, rfl⟩ := List.getElem?_eq_some_iff.mp hr
  obtain ⟨hj, rfl⟩ := List.getElem?_eq_some_iff.mp hr'
  exact List.pairwise_iff_getElem.mp h.reads.ordered _ _ hi hj hlt

theorem places_ordered (h : x.Ends) (symbol : Symbol) :
    (x.places symbol).Pairwise (· < ·) := by
  refine List.pairwise_map.mpr ((h.ordered.filter _).imp_of_mem ?_)
  intro e later he hlater hlt
  exact h.placeOf_lt (List.mem_of_mem_filter he) (List.mem_of_mem_filter hlater) hlt

theorem places_apart (h : x.Ends) {symbol other : Symbol} {place : Nat}
    (hs : place ∈ x.places symbol) (ho : place ∈ x.places other) : symbol = other := by
  obtain ⟨e, he, rfl, hplace⟩ := mem_places.mp hs
  obtain ⟨e', he', rfl, hplace'⟩ := mem_places.mp ho
  obtain ⟨i, hi⟩ := List.getElem?_of_mem he
  obtain ⟨j, hj⟩ := List.getElem?_of_mem he'
  obtain ⟨hilt, rfl⟩ := List.getElem?_eq_some_iff.mp hi
  obtain ⟨hjlt, rfl⟩ := List.getElem?_eq_some_iff.mp hj
  have hordered := List.pairwise_iff_getElem.mp h.ordered
  rcases Nat.lt_trichotomy i j with hij | rfl | hij
  · have hlt := h.placeOf_lt he he' (hordered i j hilt hjlt hij)
    omega
  · rfl
  · have hlt := h.placeOf_lt he' he (hordered j i hjlt hilt hij)
    omega

/-- The references of a symbol stand at its places, and have its name. -/
theorem cites (h : x.Ends) (symbol : Symbol) :
    x.Cites (stream.draft.table.nameOf symbol) (x.places symbol)
      (Ledger.referencesIn stream.draft.entries symbol)
      (Ledger.usesIn stream.draft.entries symbol) where
  ordered := h.places_ordered symbol
  tokens := by
    unfold places Ledger.referencesIn
    rw [List.forall₂_map_left_iff, List.forall₂_map_right_iff, List.forall₂_same]
    intro e he
    obtain ⟨hmem, hsymbol⟩ := List.mem_filter.mp he
    obtain rfl : e.symbol = symbol := by simpa using hsymbol
    obtain ⟨r, hr, hsite, _, hbinds⟩ := h.read hmem
    have htoken := (h.reads.genuine r (List.mem_of_getElem? hr)).token
    exact ⟨r.pos, by rw [placeOf_eq hr, hbinds.nameOf, htoken], hsite⟩
  uses := by
    unfold places Ledger.usesIn
    rw [List.countP_map, List.countP_filter]
    refine List.countP_congr fun e he => ?_
    obtain ⟨r, hr, _, huse, _⟩ := h.read he
    have hmentions := h.reads.mentionsAt_eq hr
    simp only [Function.comp_apply, placeOf_eq hr, hmentions, Bool.and_eq_true, beq_iff_eq, huse]
    exact and_comm

end Ends

end Journal

/-- For every stream of tokens the parser's run has a journal, and in every such
journal the references of the module are identifiers of the stream, each used
once, in the order of the text. -/
theorem TokenStream.parse_references (stream : TokenStream) :
    (∃ x : Journal stream, x.Ends) ∧
      ∀ x : Journal stream, x.Ends → ∃ places, stream.parse.module.Refers x places := by
  constructor
  · exact stream.journaled
  · intro x hx
    refine ⟨x.places, ?_, ?_, ?_, ?_, fun _ _ _ => hx.places_apart, ?_⟩
    · intro i v hv
      obtain ⟨w, hw, rfl⟩ := Draft.finish_var hv
      have hname : stream.draft.table.nameOf (.global i) =
          stream.draft.table.strings.lookup w.name := by
        simp [SymbolTable.nameOf, hw]
      exact hname ▸ hx.cites (.global i)
    · intro i p hp
      obtain ⟨q, hq⟩ := Draft.finished hp
      have hname : stream.draft.table.nameOf (.proc i) =
          stream.draft.table.strings.lookup p.name := by
        have hthere : stream.draft.table.procs[i]? = some q := hq.there
        simp [SymbolTable.nameOf, hthere, hq.name]
      rw [hq.references, hq.uses]
      exact hname ▸ hx.cites (.proc i)
    · intro i p k v hp hv
      obtain ⟨q, hq⟩ := Draft.finished hp
      rw [hq.locals, List.getElem?_mapIdx] at hv
      obtain ⟨w, hw, rfl⟩ := Option.map_eq_some_iff.mp hv
      have hname : stream.draft.table.nameOf (.inner (.proc i) k) =
          p.namelist.lookup w.name := by
        simp [SymbolTable.nameOf, hq.there, Procedure.localName?, hw, hq.namelist]
      exact hname ▸ hx.cites (.inner (.proc i) k)
    · intro symbol place hplace
      obtain ⟨e, he, _, rfl⟩ := Journal.mem_places.mp hplace
      obtain ⟨r, hr, _⟩ := hx.read he
      exact ⟨r, List.mem_of_getElem? hr, (Journal.placeOf_eq hr).symm⟩
    · intro r hmem e he symbol hb hne
      obtain ⟨number, hr⟩ := List.getElem?_of_mem hmem
      exact Journal.mem_places.mpr ⟨_, hx.counted hr he hb hne, rfl, Journal.placeOf_eq hr⟩

/-- A variable that is used in a statement that is dropped and in the body of a
header that is rejected. -/
def TokenStream.dropping : TokenStream :=
  .ofString .none .default
    "variable g; procedure p begin g := g + ; end procedure p begin g := 1; end" ⟨"a.ssl"⟩

theorem TokenStream.parse_references_dropping :
    Ledger.usesIn dropping.draft.ledger.entries (.global 0) = 3 ∧
      ∃ x : Journal dropping, x.Ends ∧ ∃ places, dropping.parse.module.Refers x places := by
  obtain ⟨⟨x, hx⟩, hall⟩ := dropping.parse_references
  exact ⟨by decide +kernel, x, hx, hall x hx⟩

end SslFrontend
