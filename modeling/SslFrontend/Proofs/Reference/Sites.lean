import SslFrontend.Reference.Pending

/-! # Mentions in the ledger and in the pending names

Every mention of a name is entered once: as a use in the ledger, or as a site of
a pending name.  A pending name keeps its place, so that the node for a mention
stands for the same name ever after.
-/

namespace SslFrontend

variable {known : Position → Prop}

namespace Ledger

/-- Every entry stands on a line of a known position. -/
def SitesIn (known : Position → Prop) (ledger : Ledger) : Prop :=
  ∀ entry ∈ ledger.entries, ∃ pos, known pos ∧ entry.site = pos.site

/-- Number of uses that are entered. -/
def uses (ledger : Ledger) : Nat := ledger.entries.countP (·.mention == .use)

variable {ledger : Ledger} {symbol : Symbol} {pos : Position}

theorem SitesIn.empty (known : Position → Prop) : Ledger.empty.SitesIn known :=
  fun _ h => absurd h List.not_mem_nil

theorem SitesIn.recordAt (h : ledger.SitesIn known) (number : Nat) (symbol : Symbol)
    (mention : Mention) (site : known pos) :
    (ledger.recordAt number symbol pos mention).SitesIn known := by
  have hmore : ∀ entry ∈ ledger.entries ++ [⟨number, symbol, pos.site, mention⟩],
      ∃ pos, known pos ∧ entry.site = pos.site := by
    intro entry hentry
    rcases List.mem_append.mp hentry with hold | hnew
    · exact h entry hold
    · rw [List.mem_singleton.mp hnew]
      exact ⟨pos, site, rfl⟩
  cases symbol with
  | builtin i => exact h
  | global i => exact hmore
  | inner scope i => exact hmore
  | proc i => exact hmore

theorem SitesIn.reserve (h : ledger.SitesIn known) : ledger.reserve.2.SitesIn known := h

theorem SitesIn.record (h : ledger.SitesIn known) (symbol : Symbol) (mention : Mention)
    (site : known pos) : (ledger.record symbol pos mention).SitesIn known :=
  h.reserve.recordAt _ symbol mention site

theorem uses_recordAt_declaration (number : Nat) :
    (ledger.recordAt number symbol pos .declaration).uses = ledger.uses := by
  cases symbol <;> simp [Ledger.recordAt, uses]

/-- A use of anything but a built-in is entered. -/
theorem uses_record_use (h : ∀ i, symbol ≠ .builtin i) :
    (ledger.record symbol pos .use).uses = ledger.uses + 1 := by
  cases symbol with
  | builtin i => exact absurd rfl (h i)
  | _ => simp [Ledger.record, Ledger.reserve, Ledger.recordAt, uses]

end Ledger

namespace Pending

/-- Every pending name is mentioned, and only at known positions. -/
def SitesIn (known : Position → Prop) (pending : Pending) : Prop :=
  ∀ p ∈ pending.names, p.sites ≠ [] ∧ ∀ site ∈ p.sites, known site.2

/-- Number of mentions of all pending names. -/
def mentions (pending : Pending) : Nat := (pending.names.flatMap PendingName.sites).length

/-- Names keep their places, and their mentions. -/
def Grows (pending grown : Pending) : Prop :=
  ∀ (place : Nat) (p : PendingName), pending.names[place]? = some p →
    ∃ q, grown.names[place]? = some q ∧ q.name = p.name ∧ q.context = p.context ∧
      p.sites ⊆ q.sites

namespace Grows

variable {p q r : Pending}

theorem refl (p : Pending) : p.Grows p :=
  fun _ name h => ⟨name, h, rfl, rfl, List.Subset.refl _⟩

theorem trans (h₁ : p.Grows q) (h₂ : q.Grows r) : p.Grows r := by
  intro place name h
  obtain ⟨b, hb, hname, hcontext, hsites⟩ := h₁ place name h
  obtain ⟨c, hc, hname', hcontext', hsites'⟩ := h₂ place b hb
  exact ⟨c, hc, hname'.trans hname, hcontext'.trans hcontext,
    List.Subset.trans hsites hsites'⟩

end Grows

/-- What a mention of a name does to the pending names. -/
structure Mentions (pending : Pending) (name : String) (context : Option ScopeId) (number : Nat)
    (pos : Position) (place : Nat) (grown : Pending) : Prop where
  there : ∃ p, grown.names[place]? = some p ∧ p.name = name ∧ p.context = context ∧
    (number, pos) ∈ p.sites
  grows : pending.Grows grown
  length : grown.names.length ≤ pending.names.length + 1
  count : grown.mentions = pending.mentions + 1
  sites : ∀ {known : Position → Prop}, known pos → pending.SitesIn known → grown.SitesIn known

theorem sites_modify {names : List PendingName} {place number : Nat} {pos : Position}
    (h : place < names.length) :
    ((names.modify place (addSite number pos)).flatMap PendingName.sites).length =
      (names.flatMap PendingName.sites).length + 1 := by
  induction names generalizing place with
  | nil => simp at h
  | cons p rest ih =>
      cases place with
      | zero =>
          simp only [List.modify_zero_cons, List.flatMap_cons, addSite, List.length_append,
            List.length_singleton]
          omega
      | succ place =>
          have hrest := ih (Nat.lt_of_succ_lt_succ h)
          simp only [List.modify_succ_cons, List.flatMap_cons, List.length_append, hrest]
          omega

/-- The first mention of a name gives it a place behind the others. -/
theorem mentions_first (pending : Pending) (name : String) (context : Option ScopeId)
    (number : Nat) (pos : Position) :
    pending.Mentions name context number pos pending.names.length
      ⟨pending.names ++ [⟨name, context, [(number, pos)]⟩]⟩ := by
  constructor
  · exact ⟨_, List.getElem?_concat_length, rfl, rfl, List.mem_singleton.mpr rfl⟩
  · intro place p hp
    refine ⟨p, ?_, rfl, rfl, List.Subset.refl _⟩
    rw [List.getElem?_append_left (List.getElem?_eq_some_iff.mp hp).1, hp]
  · simp
  · simp [mentions]
  · intro known site h p hp
    rcases List.mem_append.mp hp with hold | hnew
    · exact h p hold
    · rw [List.mem_singleton.mp hnew]
      simpa using site

theorem addSite_known {p : PendingName} {number : Nat} {pos : Position} (site : known pos)
    (h : ∀ s ∈ p.sites, known s.2) : ∀ s ∈ (addSite number pos p).sites, known s.2 := by
  intro s hs
  rcases List.mem_append.mp hs with hold | hnew
  · exact h s hold
  · rw [List.mem_singleton.mp hnew]
    exact site

/-- Any other mention is added where the name has its place. -/
theorem mentions_again (pending : Pending) {place : Nat} {p : PendingName}
    (there : pending.names[place]? = some p) (number : Nat) (pos : Position) :
    pending.Mentions p.name p.context number pos place
      ⟨pending.names.modify place (addSite number pos)⟩ := by
  constructor
  · refine ⟨addSite number pos p, ?_, rfl, rfl, by simp [addSite]⟩
    simp [there]
  · intro j q hq
    by_cases hj : place = j
    · subst hj
      refine ⟨addSite number pos q, ?_, rfl, rfl, List.subset_append_left _ _⟩
      simp [hq]
    · refine ⟨q, ?_, rfl, rfl, List.Subset.refl _⟩
      simp [hq, hj]
  · simp
  · exact sites_modify (List.getElem?_eq_some_iff.mp there).1
  · intro known site h q hq
    obtain ⟨j, hj⟩ := List.getElem?_of_mem hq
    rw [List.getElem?_modify] at hj
    obtain ⟨r, hr, rfl⟩ := Option.map_eq_some_iff.mp hj
    obtain ⟨hne, hknown⟩ := h r (List.mem_of_getElem? hr)
    split
    · exact ⟨by simp [addSite], addSite_known site hknown⟩
    · exact ⟨hne, hknown⟩

theorem mention_spec (pending : Pending) (name : String) (context : Option ScopeId)
    (number : Nat) (pos : Position) :
    pending.Mentions name context number pos (pending.mention name context number pos).1
      (pending.mention name context number pos).2 := by
  unfold mention
  cases hf : pending.names.findIdx? (matchesKey name context) with
  | none => exact pending.mentions_first name context number pos
  | some place =>
      obtain ⟨hlt, hkey, _⟩ := List.findIdx?_eq_some_iff_getElem.mp hf
      obtain ⟨rfl, rfl⟩ : pending.names[place].name = name ∧
          pending.names[place].context = context := by
        simpa [matchesKey] using hkey
      exact pending.mentions_again (List.getElem?_eq_getElem hlt) number pos

/-- What is entered for pending names at the end stands at their sites. -/
theorem settleAll_sitesIn {pending : Pending} {table : SymbolTable} {ledger : Ledger}
    (hp : pending.SitesIn known) (hl : ledger.SitesIn known) :
    (pending.settleAll table ledger).SitesIn known := by
  have hsite : ∀ (symbol : Symbol) (sites : List (Nat × Position)) (l : Ledger),
      (∀ site ∈ sites, known site.2) → l.SitesIn known →
      (sites.foldl (fun l site => l.recordAt site.1 symbol site.2 .use) l).SitesIn known := by
    intro symbol sites
    induction sites with
    | nil => exact fun l _ h => h
    | cons site rest ih =>
        intro l hsites h
        obtain ⟨hfirst, hrest⟩ := List.forall_mem_cons.mp hsites
        exact ih _ hrest (h.recordAt site.1 symbol .use hfirst)
  have hname : ∀ (names : List PendingName) (l : Ledger),
      (∀ p ∈ names, ∀ site ∈ p.sites, known site.2) → l.SitesIn known →
      (names.foldl (settle table) l).SitesIn known := by
    intro names
    induction names with
    | nil => exact fun l _ h => h
    | cons p rest ih =>
        intro l hnames h
        obtain ⟨hfirst, hrest⟩ := List.forall_mem_cons.mp hnames
        refine ih _ hrest ?_
        unfold settle
        split
        · exact hsite _ _ _ hfirst h
        · exact h
  exact hname pending.names ledger (fun p hmem => (hp p hmem).2) hl

end Pending

end SslFrontend
