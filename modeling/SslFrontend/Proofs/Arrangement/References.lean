import SslFrontend.Proofs.Arrangement.Code

/-! # References to declarations in another order

Whatever is mentioned in a declaration is entered for one and the same symbol,
whether the symbol was known when it was read or not.  So each symbol has the same
references, in another order, and is used as often.
-/

namespace SslFrontend

theorem Multiset.filterMap_rel {α β γ : Type} {R : α → β → Prop} {s : Multiset α}
    {t : Multiset β} {f : α → Option γ} {g : β → Option γ} (h : Multiset.Rel R s t)
    (hfg : ∀ a ∈ s, ∀ b ∈ t, R a b → f a = g b) : s.filterMap f = t.filterMap g := by
  have hmap : s.map f = t.map g := Multiset.rel_eq.mp (Multiset.rel_map.mpr (h.mono hfg))
  have hid : ∀ {δ : Type} (e : δ → Option γ) (u : Multiset δ),
      u.filterMap e = (u.map e).filterMap id := fun e u => (Multiset.filterMap_map e id u).symm
  rw [hid, hmap, ← hid]

/-! ## What is entered -/

/-- What an entry says, without its number. -/
def Entry.noted (e : Entry) : Symbol × Site × Mention := (e.symbol, e.site, e.mention)

def Symbol.isBuiltin : Symbol → Bool
  | .builtin _ => true
  | _ => false

/-- What a mention is entered as at the end, if at all. -/
def Citation.settled (t : SymbolTable) (m : Citation) : Option (Symbol × Site × Mention) :=
  ((m.referent.meaning t).filter (!·.isBuiltin)).map fun symbol => (symbol, m.site, m.mention)

def Renumbering.noted (σ : Renumbering) (e : Symbol × Site × Mention) : Symbol × Site × Mention :=
  (σ.symbol e.1, e.2)

theorem Symbol.isBuiltin_eq_false {symbol : Symbol} (h : ∀ i, symbol ≠ .builtin i) :
    symbol.isBuiltin = false := by
  cases symbol with
  | builtin i => exact absurd rfl (h i)
  | _ => rfl

/-- What means the same with other numbers is entered with other numbers. -/
theorem Citation.settled_renumbered {t u : SymbolTable} {m m' : Citation} {σ : Renumbering}
    (hmeaning : m'.referent.meaning u = (m.referent.meaning t).map σ.symbol)
    (hsite : m'.site = m.site) (hmention : m'.mention = m.mention) :
    m'.settled u = (m.settled t).map σ.noted := by
  unfold settled
  rw [hmeaning, hsite, hmention]
  cases m.referent.meaning t with
  | none => rfl
  | some symbol => cases symbol <;> rfl

/-- The mentions of a pending name are entered for what it turns out to be. -/
theorem PendingName.noted_uses (t : SymbolTable) (p : PendingName) :
    (p.sites.map fun s => (⟨.name p.name p.context, s.2.site, .use⟩ : Citation)).filterMap
      (Citation.settled t) = (Pending.uses t p).map Entry.noted := by
  rw [List.filterMap_map]
  unfold Pending.uses
  have hsettled : ∀ s : Nat × Position,
      Citation.settled t ⟨.name p.name p.context, s.2.site, .use⟩ =
        ((t.lookup p.context p.name).filter (!·.isBuiltin)).map fun symbol =>
          (symbol, s.2.site, .use) := fun _ => rfl
  simp only [Function.comp_def, hsettled]
  cases t.lookup p.context p.name with
  | none => exact List.filterMap_none _
  | some symbol =>
      cases symbol with
      | builtin i => exact List.filterMap_none _
      | _ =>
          rw [List.map_map]
          exact congrFun List.filterMap_eq_map p.sites

/-- At the end that is entered which was mentioned. -/
theorem TokenStream.noted_eq (stream : TokenStream) :
    ((stream.draft.entries.map Entry.noted : List _) : Multiset (Symbol × Site × Mention)) =
      stream.draft.records.citations.filterMap (Citation.settled stream.draft.table) := by
  obtain ⟨x, hx⟩ := stream.concluded
  have hends := hx.ends
  have hperm := hends.entries_perm.map Entry.noted
  rw [← hends.leaves.pending, ← hends.leaves.ledger, List.map_append] at hperm
  have hledger : (stream.draft.ledger.entries.map Entry.citation).filterMap
      (Citation.settled stream.draft.table) = stream.draft.ledger.entries.map Entry.noted := by
    rw [List.filterMap_map, ← List.filterMap_eq_map]
    refine List.filterMap_congr fun e he => ?_
    rw [hends.leaves.ledger] at he
    obtain ⟨r, -, -, -, hbinds⟩ := (hends.accounts.entered e he).read
    have hdeclared : e.symbol.isBuiltin = false :=
      Symbol.isBuiltin_eq_false hbinds.ne_builtin
    show ((some e.symbol).filter _).map _ = _
    rw [Option.filter_some, hdeclared]
    rfl
  have hpending : (stream.draft.pending.names.flatMap fun p => p.sites.map fun s =>
      (⟨.name p.name p.context, s.2.site, .use⟩ : Citation)).filterMap
        (Citation.settled stream.draft.table) =
      (stream.draft.pending.names.flatMap (Pending.uses stream.draft.closed)).map Entry.noted := by
    rw [List.filterMap_flatMap, List.map_flatMap]
    refine congrArg (stream.draft.pending.names.flatMap ·) (funext fun p => ?_)
    rw [p.noted_uses]
    unfold Pending.uses
    rw [Draft.closed_lookup]
  rw [Multiset.coe_eq_coe.mpr hperm, ← Multiset.coe_add]
  unfold Records.citations
  rw [Multiset.filterMap_add]
  refine congrArg₂ (· + ·) ?_ ?_
  · exact (congrArg Multiset.ofList hledger).symm
  · show _ = Multiset.filterMap _ stream.draft.pending.citations
    rw [Pending.citations_eq]
    exact (congrArg Multiset.ofList hpending).symm

/-! ## The same references -/

namespace TokenStream.Rearranges

variable {stream other : TokenStream} {items : List (List Token)} {tokens : List Token}

/-- A mention in a declaration, seen from where that stands. -/
def moved (E : Surroundings) (m : Citation) : Citation := { m with referent := E.moved m.referent }

/-- What is entered for a mention is entered for it wherever it stands. -/
theorem filterMap_moved {E : Surroundings} {t : SymbolTable} {known : Position → Prop}
    {s part : Multiset Citation} (h : Multiset.Rel (E.SameCitation t) s part) (hs : t.Sound known)
    (hu : t.Unshadowed) :
    part.filterMap (Citation.settled t) = s.filterMap fun m => (moved E m).settled t := by
  refine (Multiset.filterMap_rel h fun m _ m' _ hm => ?_).symm
  unfold Citation.settled
  rw [hm.referent.meaning hs hu, hm.site, hm.mention]
  rfl

theorem Piece.noted {E E' : Surroundings} (hpiece : Piece stream other tokens E E')
    (h : Rearranges stream other items) (hleft : stream.draft.table.Unshadowed)
    {part part' : Multiset Citation}
    (hpart : Multiset.Rel (E.SameCitation stream.draft.table)
      (stream.readAlone tokens).records.citations part)
    (hpart' : Multiset.Rel (E'.SameCitation other.draft.table)
      (stream.readAlone tokens).records.citations part') :
    part'.filterMap (Citation.settled other.draft.table) =
      (part.filterMap (Citation.settled stream.draft.table)).map h.numbers.noted := by
  rw [filterMap_moved hpart stream.draft_sound hleft,
    filterMap_moved hpart' other.draft_sound (h.unshadowed hleft), Multiset.map_filterMap]
  refine Multiset.filterMap_rel Multiset.rel_eq_refl fun m hm m' _ hsame => ?_
  cases hsame
  exact Citation.settled_renumbered
    (hpiece.meaning h ((stream.only tokens).isOf_of_mem_citations hm)) rfl rfl

/-- What is entered in the one unit is entered in the other, with other numbers. -/
theorem noted (h : Rearranges stream other items) (hleft : stream.draft.table.Unshadowed) :
    (other.draft.entries.map Entry.noted).Perm
      ((stream.draft.entries.map Entry.noted).map h.numbers.noted) := by
  obtain ⟨parts, hsum, hparts⟩ := h.left.parts
  obtain ⟨parts', hsum', hparts'⟩ := h.right.parts
  have hnoted := rel_through (N := fun part part' : Multiset Citation =>
      part'.filterMap (Citation.settled other.draft.table) =
        (part.filterMap (Citation.settled stream.draft.table)).map h.numbers.noted)
    hparts hparts' (by
      rintro tokens hmem part part' ⟨E, hE⟩ ⟨E', hE'⟩
      have hdeclares := h.declares tokens hmem
      exact Piece.noted ⟨hdeclares.1, hdeclares.2, hE.toStands, hE'.toStands⟩ h hleft hE.cited
        hE'.cited)
  refine Multiset.coe_eq_coe.mp (other.noted_eq.trans (Eq.trans ?_
    (congrArg (Multiset.map h.numbers.noted) stream.noted_eq.symm)))
  rw [hsum, hsum']
  clear hsum hsum' hparts hparts'
  induction hnoted with
  | nil => rfl
  | cons hpart _ ih =>
      rw [List.sum_cons, List.sum_cons, Multiset.filterMap_add, Multiset.filterMap_add,
        Multiset.map_add, hpart, ih]

/-- A symbol has the same references in both units, and is used as often. -/
theorem references (h : Rearranges stream other items) (hleft : stream.draft.table.Unshadowed)
    {name : String} {a : Symbol} (hb : stream.draft.table.Binds name a) :
    (Ledger.referencesIn other.draft.entries (h.numbers.symbol a)).Perm
        (Ledger.referencesIn stream.draft.entries a) ∧
      Ledger.usesIn other.draft.entries (h.numbers.symbol a) =
        Ledger.usesIn stream.draft.entries a := by
  have hperm := h.noted hleft
  have hsame : ∀ e ∈ stream.draft.entries,
      (h.numbers.symbol e.symbol == h.numbers.symbol a) = (e.symbol == a) := by
    intro e he
    obtain ⟨x, hx⟩ := stream.concluded
    obtain ⟨r, -, -, -, hbinds⟩ := hx.ends.read he
    rw [Bool.eq_iff_iff, beq_iff_eq, beq_iff_eq]
    constructor
    · intro heq
      rw [← h.symbol_inverse hbinds, heq, h.symbol_inverse hb]
    · exact congrArg _
  constructor
  · have hsites := (hperm.filter (·.1 == h.numbers.symbol a)).map fun e => e.2.1
    rw [List.filter_map, List.filter_map, List.filter_map, List.map_map, List.map_map,
      List.map_map] at hsites
    have hfilter : stream.draft.entries.filter
        (fun e => h.numbers.symbol e.symbol == h.numbers.symbol a) =
          stream.draft.entries.filter (·.symbol == a) := List.filter_congr hsame
    exact hsites.trans (.of_eq (congrArg (List.map Entry.site) hfilter))
  · have hcount := hperm.countP_eq fun e => e.1 == h.numbers.symbol a && e.2.2 == .use
    rw [List.countP_map, List.countP_map, List.countP_map] at hcount
    refine hcount.trans (List.countP_congr fun e he => ?_)
    show ((h.numbers.symbol e.symbol == h.numbers.symbol a && e.mention == .use) = true) ↔
      (e.symbol == a && e.mention == .use) = true
    rw [hsame e he]

end TokenStream.Rearranges

end SslFrontend
