import SslFrontend.Proofs.Arrangement.Ahead
import SslFrontend.Proofs.Arrangement.Piece

/-! # Declarations one behind the other

When a stream is made of declarations, each of which declares names that the others do
not, what each of them leaves by itself stands in what they leave together.
-/

namespace SslFrontend

open Parse (Leads itemRound)

/-- The text of a handle is found as the handle. -/
theorem Pool.find?_lookup {P : Pool} {handle : Handle}
    (h : ∃ text, P.find? text = some handle) : P.find? (P.lookup handle) = some handle := by
  obtain ⟨text, hfound⟩ := h
  rwa [lookup_of_find? hfound]

/-- The names of the variables and procedures of a table. -/
def SymbolTable.globalNames (t : SymbolTable) : List String :=
  (t.vars.map fun v => t.strings.lookup v.name) ++ t.procs.map fun p => t.strings.lookup p.name

theorem SymbolTable.Sound.mem_globalNames {t : SymbolTable} {known : Position → Prop}
    (h : t.Sound known) {name : String} : name ∈ t.globalNames ↔ t.HasGlobal name := by
  constructor
  · intro hmem
    rcases List.mem_append.mp hmem with hv | hp
    · obtain ⟨v, hthere, rfl⟩ := List.mem_map.mp hv
      obtain ⟨i, hi⟩ := List.getElem?_of_mem hthere
      refine ⟨.global i, ⟨_, v.name, v.declared, ?_, Pool.find?_lookup (h.vars.names v hthere)⟩,
        fun _ _ h => Symbol.noConfusion h⟩
      simp [SymbolTable.declaration?, hi, Variable.label]
    · obtain ⟨p, hthere, rfl⟩ := List.mem_map.mp hp
      obtain ⟨i, hi⟩ := List.getElem?_of_mem hthere
      refine ⟨.proc i, ⟨_, p.name, p.declared, ?_, Pool.find?_lookup (h.procs_named p hthere)⟩,
        fun _ _ h => Symbol.noConfusion h⟩
      simp [SymbolTable.declaration?, hi, Procedure.label]
  · rintro ⟨symbol, ⟨pool, handle, pos, hentry, hfound⟩, houter⟩
    cases symbol with
    | global i =>
        obtain ⟨v, hv, heq⟩ := Option.map_eq_some_iff.mp hentry
        cases heq
        exact List.mem_append_left _ (List.mem_map.mpr
          ⟨v, List.mem_of_getElem? hv, Pool.lookup_of_find? hfound⟩)
    | proc i =>
        obtain ⟨p, hp, heq⟩ := Option.map_eq_some_iff.mp hentry
        cases heq
        exact List.mem_append_right _ (List.mem_map.mpr
          ⟨p, List.mem_of_getElem? hp, Pool.lookup_of_find? hfound⟩)
    | inner scope i => exact absurd rfl (houter scope i)
    | builtin i => cases hentry

/-! ## One declaration more -/

/-- What is there when the next declaration is read. -/
def Surroundings.before (r : Records) : Surroundings where
  vars := r.table.vars
  procs := r.table.procs
  kept := 0
  dropped := r.table.discarded.length
  taken := r.table.globalNames
  citations := some r.citations
  problems := r.problems.items

namespace Surroundings

variable {stream : TokenStream} {tokens : List Token} {r R : Records}
  {known : Position → Prop}

/-- Nothing stands in what is there. -/
theorem before_start (hs : r.table.Sound known) :
    (before r).Hold (ParserState.start (stream.only tokens)).records r where
  table := by
    constructor
    · exact ⟨[], (List.append_nil _).symm, .nil⟩
    · exact ⟨[], (List.append_nil _).symm, .nil⟩
    · intro i
      have hnone : r.table.discarded[(before r).discarded i]? = none :=
        List.getElem?_eq_none (Nat.le_add_right _ _)
      rw [hnone]
      exact .none
    · exact Nat.le_refl _
    · rfl
    · exact fun v hv => ⟨_, List.mem_append_left _ (List.mem_map_of_mem hv),
        Pool.find?_lookup (hs.vars.names v hv)⟩
    · exact fun p hp => ⟨_, List.mem_append_right _ (List.mem_map_of_mem hp),
        Pool.find?_lookup (hs.procs_named p hp)⟩
  free _ _ := rfl
  citations before hbefore := by
    cases hbefore
    exact ⟨0, (add_zero _).symm, .zero⟩
  problems := List.subset_append_left _ _


end Surroundings

/-- A declaration is read in front of other items as it is by itself. -/
theorem TokenStream.Declares.item {stream : TokenStream} {tokens more : List Token}
    {u : ParserState} {known : Position → Prop} (h : stream.Declares tokens)
    (hs : u.table.Sound known) (hrest : u.cursor.rest = tokens ++ more)
    (hmore : ∀ token ∈ more.head?, token.kind.startsItem = true)
    (hfresh : ∀ name, (stream.readAlone tokens).table.HasGlobal name → ¬u.table.HasGlobal name) :
    ∃ v, Parse.item u = .ok [] v ∧ v.cursor.rest = more ∧
      (Surroundings.before u.records).Hold (stream.readAlone tokens).records v.records := by
  obtain ⟨s, hitem, hend, hsane⟩ := h.reads
  have halone := TokenStream.readAlone_of_item h.starts hitem hend
  let E := Surroundings.before u.records
  let S : Parted E :=
    { seam :=
        { shared := tokens
          left := []
          right := more
          braces := false
          gap := true
          tolerant := true
          wordy := fun h => absurd h Bool.false_ne_true
          joined := fun h => absurd h.symm Bool.false_ne_true
          closer := Seam.closer_nil
          front := hmore }
      words := rfl
      ahead := fun _ => by
        rw [List.append_nil]
        exact (Assignment.isNext_alone hmore).imp_right fun h => ⟨rfl, h⟩ }
  let C := Comparison.ofPlacement E S
  have hpair : C.Pair (.start (stream.only tokens)) u := by
    refine ⟨⟨tokens, (List.append_nil _).symm, ?_, List.suffix_rfl,
      fun h => absurd h.symm Bool.false_ne_true, fun h => absurd rfl h⟩, Surroundings.before_start hs⟩
    rw [Seam.spell_eq rfl, List.map_id]
    exact hrest
  have hagree := Comparison.item_agree (Comparison.ofPlacement_ofUnits E S) trivial hpair
  unfold Comparison.Agree at hagree
  rw [hitem] at hagree
  rcases hagree with hlost | ⟨code, v, hv, hlater, hcode⟩
  · exfalso
    rcases hlost with hbeyond | ⟨-, d, hd, herror⟩ | ⟨name, hname, hglobal⟩
    · exact absurd hbeyond (Nat.not_lt_zero _)
    · exact absurd (herror.symm.trans (hsane d hd)) (by simp)
    · refine hfresh name ?_ (hs.mem_globalNames.mp hname)
      rw [halone]
      exact hglobal
  · cases hcode
    refine ⟨v, hv, ?_, ?_⟩
    · obtain ⟨tokens', hjoins⟩ := hlater.joins
      have hnil : tokens' ++ [] = [] := hjoins.left.symm.trans hend
      rw [List.append_nil] at hnil
      rw [hjoins.right, hnil]
      rfl
    · rw [halone]
      exact hlater.grown.data

/-! ## Many declarations -/

/-- What one run has left stands in what another one leaves, and this part of the
mentions there is what was mentioned in it. -/
structure Surroundings.Keeps (E : Surroundings) (r R : Records) (part : Multiset Citation) :
    Prop extends E.Stands r R where
  cited : Multiset.Rel (E.SameCitation R.table) r.citations part

namespace Surroundings

variable {E : Surroundings} {r R R' : Records} {part : Multiset Citation}

theorem Keeps.later (h : E.Keeps r R part) (hvars : R.table.vars <+: R'.table.vars)
    (hprocs : R.table.procs <+: R'.table.procs) (hp : R.pending.Grows R'.pending)
    (ht : R.table.Extends (fun _ => False) R'.table) : E.Keeps r R' part where
  toStands := h.toStands.later hvars hprocs hp ht
  cited := h.cited.mono fun _ _ _ _ hm => hm.later ht

/-- What was there is still there. -/
theorem Hold.prefixes (h : E.Hold r R) :
    E.vars <+: R.table.vars ∧ E.procs <+: R.table.procs := by
  obtain ⟨vars, hvars, -⟩ := h.table.vars
  obtain ⟨procs, hprocs, -⟩ := h.table.procs
  exact ⟨⟨vars, hvars.symm⟩, ⟨procs, hprocs.symm⟩⟩

theorem Hold.stands (h : E.Hold r R) : E.Stands r R where
  vars i v hv := by
    have hvw := h.table.vars.getElem? i
    rw [hv] at hvw
    generalize R.table.vars[E.vars.length + i]? = found at hvw
    cases hvw with
    | some hvw => exact ⟨_, rfl, hvw⟩
  procs i p hp := by
    have hpq := h.table.procs.getElem? i
    rw [hp] at hpq
    generalize R.table.procs[E.procs.length + i]? = found at hpq
    cases hpq with
    | some hpq => exact ⟨_, rfl, hpq⟩

/-- A name is one of those that were there, or of those that stand behind them. -/
theorem Hold.globals {known : Position → Prop} {r₀ : Records} (h : (before r₀).Hold r R)
    (hs : r₀.table.Sound known) (hg : r₀.table.strings.Grows R.table.strings) {name : String}
    (hname : R.table.HasGlobal name) : r₀.table.HasGlobal name ∨ r.table.HasGlobal name := by
  obtain ⟨symbol, hbinds, houter⟩ := hname
  have hold : ∀ {handle : Handle}, (∃ text, r₀.table.strings.find? text = some handle) →
      R.table.strings.find? name = some handle → r₀.table.strings.find? name = some handle := by
    rintro handle ⟨text, htext⟩ hfound
    obtain rfl := Pool.find?_inj (hg.find? htext) hfound
    exact htext
  have hbinds' := hbinds
  obtain ⟨pool, handle, pos, hentry, hfound⟩ := hbinds
  cases symbol with
  | global i =>
      obtain ⟨w, hw, heq⟩ := Option.map_eq_some_iff.mp hentry
      cases heq
      by_cases hi : i < r₀.table.vars.length
      · have hv := SymbolTable.getElem?_of_prefix h.prefixes.1 (List.getElem?_eq_getElem hi)
        cases hw.symm.trans hv
        refine .inl ⟨.global i, ⟨_, _, r₀.table.vars[i].declared, ?_,
          hold (hs.vars.names _ (List.getElem_mem hi)) hfound⟩, houter⟩
        simp [SymbolTable.declaration?, hi, Variable.label]
      · obtain ⟨k, rfl⟩ := Nat.exists_eq_add_of_le (Nat.not_lt.mp hi)
        have hk : k < r.table.vars.length := by
          have hlt := (List.getElem?_eq_some_iff.mp hw).1
          have hlength : R.table.vars.length = r₀.table.vars.length + r.table.vars.length :=
            h.table.vars.length
          omega
        exact .inr ⟨.global k, h.stands.binds_var hk hbinds', fun _ _ h => Symbol.noConfusion h⟩
  | proc i =>
      obtain ⟨w, hw, heq⟩ := Option.map_eq_some_iff.mp hentry
      cases heq
      by_cases hi : i < r₀.table.procs.length
      · have hv := SymbolTable.getElem?_of_prefix h.prefixes.2 (List.getElem?_eq_getElem hi)
        cases hw.symm.trans hv
        refine .inl ⟨.proc i, ⟨_, _, r₀.table.procs[i].declared, ?_,
          hold (hs.procs_named _ (List.getElem_mem hi)) hfound⟩, houter⟩
        simp [SymbolTable.declaration?, hi, Procedure.label]
      · obtain ⟨k, rfl⟩ := Nat.exists_eq_add_of_le (Nat.not_lt.mp hi)
        have hk : k < r.table.procs.length := by
          have hlt := (List.getElem?_eq_some_iff.mp hw).1
          have hlength : R.table.procs.length = r₀.table.procs.length + r.table.procs.length :=
            h.table.procs.length
          omega
        exact .inr ⟨.proc k, h.stands.binds_proc hk hbinds', fun _ _ h => Symbol.noConfusion h⟩
  | inner scope i => exact absurd rfl (houter scope i)
  | builtin i => cases hentry

end Surroundings

namespace TokenStream

variable {stream : TokenStream}

/-- What these declarations left stands in what there is, and there is nothing else. -/
structure Assembled (stream : TokenStream) (done : List (List Token)) (R : Records) : Prop where
  parts : ∃ parts : List (Multiset Citation), R.citations = parts.sum ∧
    List.Forall₂ (fun tokens part => ∃ E : Surroundings,
      E.Keeps (stream.readAlone tokens).records R part) done parts
  names : ∀ name, R.table.HasGlobal name →
    ∃ tokens ∈ done, (stream.readAlone tokens).table.HasGlobal name
  discarded : R.table.discarded = []
  problems : ∀ d ∈ R.problems.items, d.isError = false

/-- A stream is made of declarations, and what one of them declares, no other one does. -/
structure Arranges (stream : TokenStream) (items : List (List Token)) : Prop where
  tokens : stream.tokens = items.flatten
  declares : ∀ tokens ∈ items, stream.Declares tokens
  distinct : items.Pairwise fun a b => ∀ name, (stream.readAlone a).table.HasGlobal name →
    ¬(stream.readAlone b).table.HasGlobal name

/-- With one declaration more, what was left before stays where it stands. -/
theorem Assembled.item {done : List (List Token)} {tokens more : List Token} {x : Config stream}
    (h : stream.Assembled done x.state.records) (hx : x.Idle) (hknown : x.Known)
    (hdeclares : stream.Declares tokens) (hrest : x.cursor.rest = tokens ++ more)
    (hmore : ∀ token ∈ more.head?, token.kind.startsItem = true)
    (hdistinct : ∀ item ∈ done, ∀ name, (stream.readAlone item).table.HasGlobal name →
      ¬(stream.readAlone tokens).table.HasGlobal name) :
    ∃ y : Config stream, y.Idle ∧ Steps x y ∧ itemRound [] x.state = .ok (.inl []) y.state ∧
      y.cursor.rest = more ∧ stream.Assembled (done ++ [tokens]) y.state.records := by
  have hfresh : ∀ name, (stream.readAlone tokens).table.HasGlobal name → ¬x.table.HasGlobal name := by
    intro name hnew hname
    obtain ⟨item, hitem, hitem'⟩ := h.names name hname
    exact hdistinct item hitem name hitem' hnew
  obtain ⟨v, hitem, hv, hhold⟩ := hdeclares.item hknown.table hrest hmore hfresh
  have hyields := item_yields hx
  unfold Yields at hyields
  have hstate : HasState.state x = x.state := rfl
  rw [hstate, hitem] at hyields
  obtain ⟨y, hy, hsteps, hidle, -⟩ := hyields
  obtain rfl : y.state = v := hy
  have hpending : x.state.pending.Grows y.state.pending := by
    clear hitem hv hhold hidle
    induction hsteps with
    | refl => exact .refl _
    | tail _ hs ih => exact ih.trans hs.pending_grows
  have htable := (Steps.extends_any hsteps).table
  obtain ⟨hvars, hprocs⟩ := hhold.prefixes
  refine ⟨y, hidle, hsteps, Parse.itemRound_declaration hdeclares.starts hrest hitem hv, hv, ?_⟩
  constructor
  · obtain ⟨parts, hsum, hparts⟩ := h.parts
    obtain ⟨part, hpart, hcited⟩ := hhold.citations _ rfl
    refine ⟨parts ++ [part], ?_, List.rel_append (hparts.imp ?_) (.cons ?_ .nil)⟩
    · rw [List.sum_append, List.sum_singleton, ← hsum]
      exact hpart
    · rintro _ _ ⟨E, hE⟩
      exact ⟨E, hE.later hvars hprocs hpending htable⟩
    · exact ⟨_, hhold.stands, hcited⟩
  · intro name hname
    rcases hhold.globals hknown.table htable.strings hname with hold | hnew
    · obtain ⟨item, hitem, hitem'⟩ := h.names name hold
      exact ⟨item, List.mem_append_left _ hitem, hitem'⟩
    · exact ⟨tokens, List.mem_append_right _ (List.mem_singleton_self _), hnew⟩
  · have hbefore : x.table.discarded = [] := h.discarded
    have hcount : y.table.discarded.length = x.table.discarded.length +
        (stream.readAlone tokens).table.discarded.length := hhold.table.count
    rw [hdeclares.discarded, hbefore] at hcount
    exact List.eq_nil_of_length_eq_zero hcount
  · intro d hd
    rcases List.mem_append.mp (hhold.problems hd) with hold | hnew
    · exact h.problems d hold
    · exact hdeclares.problems d hnew

/-- A run over declarations leaves what each of them leaves, and nothing else. -/
theorem Assembled.items {done items : List (List Token)} {x : Config stream}
    (h : stream.Assembled done x.state.records) (hx : x.Idle) (hknown : x.Known)
    (hrest : x.cursor.rest = items.flatten)
    (hdeclares : ∀ tokens ∈ items, stream.Declares tokens)
    (hdistinct : (done ++ items).Pairwise fun a b => ∀ name,
      (stream.readAlone a).table.HasGlobal name → ¬(stream.readAlone b).table.HasGlobal name) :
    ∃ s, Leads itemRound [] x.state [] s ∧ s.cursor.rest = [] ∧
      stream.Assembled (done ++ items) s.records := by
  induction items generalizing done x with
  | nil =>
      rw [List.append_nil]
      exact ⟨x.state, .refl _ _, hrest, h⟩
  | cons tokens items ih =>
      have hmore : ∀ token ∈ items.flatten.head?, token.kind.startsItem = true := by
        cases items with
        | nil => exact fun token htoken => absurd htoken (by simp)
        | cons next items =>
            obtain ⟨token, rest, rfl, hstarts⟩ := (hdeclares next (by simp)).head
            intro token' htoken
            cases htoken
            exact hstarts
      obtain ⟨y, hy, hsteps, hround, hrest', hassembled⟩ := h.item hx hknown
        (hdeclares tokens List.mem_cons_self) hrest hmore fun item hitem =>
          (List.pairwise_append.mp hdistinct).2.2 item hitem tokens List.mem_cons_self
      obtain ⟨s, hleads, hend, hall⟩ := ih hassembled hy (hknown.steps hsteps) hrest'
        (fun tokens htokens => hdeclares tokens (List.mem_cons_of_mem _ htokens))
        (by rwa [List.append_assoc])
      rw [List.append_assoc] at hall
      exact ⟨s, .next hround hleads, hend, hall⟩

/-- What a stream of declarations leaves is what each of them leaves. -/
theorem Arranges.assembled {items : List (List Token)} (h : stream.Arranges items)
    (hproblems : ∀ d ∈ stream.problems.items, d.isError = false) :
    stream.Assembled items stream.draft.records ∧ stream.draft.main = [] := by
  have hstart : stream.Assembled [] (Config.start stream).state.records := by
    refine ⟨⟨[], rfl, .nil⟩, ?_, rfl, hproblems⟩
    rintro name ⟨symbol, ⟨pool, handle, pos, hentry, -⟩, houter⟩
    cases symbol with
    | inner scope i => exact absurd rfl (houter scope i)
    | _ => cases hentry
  obtain ⟨s, hleads, hend, hall⟩ := hstart.items ⟨rfl, Nat.zero_le _⟩ (.start stream) h.tokens
    h.declares h.distinct
  have hlast : s.cursor.atEnd = true := by
    simp [Cursor.atEnd, Cursor.kind, Cursor.current, hend]
  rw [draft_of_leads hleads, Parse.itemRounds_last [] hlast]
  exact ⟨hall, rfl⟩

end TokenStream

end SslFrontend
