import SslFrontend.Proofs.Symbol.Declares

/-! # Linkage of procedures

What a header does to the modifiers of its procedure.  A body never leaves the
procedure imported: where the body or an earlier header imports it, an error is
among the problems.  A header without a body adds its import, or an error says
why it does not.
-/

namespace SslFrontend

/-- An error about a procedure with a name that is imported and has a body, or is
imported and exported. -/
structure Diagnostic.BlamesLinkage (d : Diagnostic) (name : String) (pos : Position) : Prop where
  error : d.isError = true
  site : d.pos = pos
  cause : (d.cause = .importWithBody ∧
      d.message = s!"imported procedure `{name}` cannot have a body") ∨
    (d.cause = .scopeConflict ∧ d.message = s!"`{name}` is declared both import and export")

namespace Header

/-- Written with `import` and without `export`. -/
def imports (header : Header) : Bool := header.modifiers.imported && !header.modifiers.exported

/-- Some problem is an error about the linkage of the header. -/
def BlamedIn (header : Header) (problems : List Diagnostic) : Prop :=
  ∃ d ∈ problems, d.BlamesLinkage header.name header.pos

theorem BlamedIn.subset {header : Header} {ds es : List Diagnostic} (h : header.BlamedIn ds)
    (hs : ds ⊆ es) : header.BlamedIn es := by
  obtain ⟨d, hd, hblames⟩ := h
  exact ⟨d, hs hd, hblames⟩

theorem blames_importWithBody (header : Header) :
    header.importWithBody.BlamesLinkage header.name header.pos :=
  ⟨rfl, rfl, .inl ⟨rfl, rfl⟩⟩

/-- What the rules that need only the header do to it. -/
structure Settles (header settled : Header) (problems : List Diagnostic) : Prop where
  name : settled.name = header.name
  pos : settled.pos = header.pos
  hasBody : settled.hasBody = header.hasBody
  body : header.hasBody = true → settled.modifiers.imported = false
  kept : settled.modifiers.imported = true → header.modifiers.imported = true
  imports : header.imports = true → settled.imports = true ∨ header.BlamedIn problems
  sober : settled.modifiers.conflicts = false

theorem settle_of_imports {header : Header} (hb : header.hasBody = true)
    (hi : header.imports = true) : header.importWithBody ∈ header.settle.2 := by
  obtain ⟨himported, hexported⟩ : header.modifiers.imported = true ∧
      header.modifiers.exported = false := by simpa [imports] using hi
  simp [settle, settleScope, settleImport, Modifiers.conflicts, hb, himported, hexported]

theorem settles (header : Header) : header.Settles header.settle.1 header.settle.2 := by
  obtain ⟨modifiers, hm⟩ := SymbolTable.settle_spec header
  constructor
  · rw [hm]
  · rw [hm]
  · rw [hm]
  · intro hb
    cases hi : header.modifiers.imported <;> cases he : header.modifiers.exported <;>
      simp [settle, settleScope, settleImport, Modifiers.conflicts, Modifiers.withoutImport,
        hb, hi, he]
  · cases hb : header.hasBody <;> cases hi : header.modifiers.imported <;>
      cases he : header.modifiers.exported <;>
      simp [settle, settleScope, settleImport, Modifiers.conflicts, Modifiers.withoutImport,
        Modifiers.withoutExport, hb, hi, he]
  · intro hi
    cases hb : header.hasBody with
    | true => exact .inr ⟨_, settle_of_imports hb hi, header.blames_importWithBody⟩
    | false =>
        obtain ⟨himported, hexported⟩ : header.modifiers.imported = true ∧
            header.modifiers.exported = false := by simpa [imports] using hi
        left
        simp [settle, settleScope, settleImport, Modifiers.conflicts, Header.imports, hb,
          himported, hexported]
  · cases hb : header.hasBody <;> cases hi : header.modifiers.imported <;>
      cases he : header.modifiers.exported <;>
      simp [settle, settleScope, settleImport, Modifiers.conflicts, Modifiers.withoutImport,
        Modifiers.withoutExport, hb, hi, he]

end Header

/-- A procedure is announced or defined. -/
def Verdict.Accepts (verdict : Verdict) (index : Nat) : Prop :=
  verdict = .define index ∨ verdict = .announce index

/-- What of a procedure its linkage depends on. -/
structure Linkage where
  modifiers : Modifiers
  defined : Bool

def Procedure.linkage (p : Procedure) : Linkage := ⟨p.modifiers, p.defined⟩

namespace SymbolTable

variable {t u : SymbolTable} {header : Header}

def linkage? (t : SymbolTable) (index : Nat) : Option Linkage :=
  t.procs[index]?.map Procedure.linkage

/-- A procedure that is imported so far. -/
def ImportedAt (t : SymbolTable) (index : Nat) : Prop :=
  ∃ l, t.linkage? index = some l ∧ l.modifiers.imported = true

theorem linkage?_of_scope? {index : Nat} {p : Procedure} (h : t.scope? (.proc index) = some p) :
    t.linkage? index = some p.linkage := by
  have hp : t.procs[index]? = some p := h
  simp [linkage?, hp]

theorem SameShells.linkage? (h : t.SameShells u) (index : Nat) :
    u.linkage? index = t.linkage? index := by
  have hshell : (u.procs[index]?).map Procedure.shell = (t.procs[index]?).map Procedure.shell :=
    h (.proc index)
  have hlinkage := congrArg (Option.map Procedure.linkage) hshell
  rw [Option.map_map, Option.map_map] at hlinkage
  exact hlinkage

theorem linkage?_modifyScope {index : Nat} {f : Procedure → Procedure} {p : Procedure}
    (h : t.scope? (.proc index) = some p) (other : Nat) :
    (t.modifyScope (.proc index) f).linkage? other =
      if other = index then some (f p).linkage else t.linkage? other := by
  split
  · subst other
    exact linkage?_of_scope? (by rw [scope?_modifyScope_self, h]; rfl)
  · rename_i hne
    have hscope : (t.modifyScope (.proc index) f).scope? (.proc other) = t.scope? (.proc other) :=
      scope?_modifyScope_of_ne _ _ _ (by simpa using hne)
    show ((t.modifyScope (.proc index) f).scope? (.proc other)).map Procedure.linkage = _
    rw [hscope]
    rfl

theorem linkage?_cleared {index : Nat} {trigger : Trigger} {modifiers : Modifiers} {p : Procedure}
    (h : t.scope? (.proc index) = some p) (other : Nat) :
    (t.cleared index trigger modifiers).linkage? other =
      if other = index then some ⟨modifiers, p.defined⟩ else t.linkage? other :=
  linkage?_modifyScope h other

theorem linkage?_opened {handle : Handle} {strings : Pool} {modifiers : Modifiers} (other : Nat) :
    (t.opened header handle strings modifiers).linkage? other =
      if other = t.procs.length then some ⟨modifiers, false⟩ else t.linkage? other := by
  unfold linkage? opened
  split
  · subst other
    simp [Procedure.linkage, Procedure.fresh]
  · rename_i hne
    rcases Nat.lt_or_gt_of_ne hne with hlt | hgt
    · rw [List.getElem?_append_left hlt]
    · rw [List.getElem?_eq_none (by simp; omega), List.getElem?_eq_none (Nat.le_of_lt hgt)]

/-- The body of a procedure changes no modifier. -/
theorem linkage?_withBody (scope : ScopeId) (f : Procedure → Procedure)
    (hf : ∀ p, (f p).linkage = ⟨p.modifiers, true⟩) (index : Nat) :
    (t.modifyScope scope f).linkage? index =
      if scope = .proc index then (t.linkage? index).map fun l => ⟨l.modifiers, true⟩
      else t.linkage? index := by
  show ((t.modifyScope scope f).scope? (.proc index)).map Procedure.linkage = _
  split
  · subst scope
    rw [scope?_modifyScope_self, Option.map_map]
    show _ = ((t.scope? (.proc index)).map Procedure.linkage).map _
    rw [Option.map_map]
    exact congrArg (fun g => (t.scope? (.proc index)).map g) (funext hf)
  · rename_i hne
    rw [scope?_modifyScope_of_ne _ _ _ (Ne.symm hne)]
    rfl

theorem declareDiscarded_linkage? {scope : ScopeId} {problems : List Diagnostic}
    (h : t.declareDiscarded header = .ok (scope, u, problems)) (index : Nat) :
    scope ≠ .proc index ∧ u.linkage? index = t.linkage? index := by
  obtain ⟨handle, namelist, rfl, rfl⟩ := declareDiscarded_spec h
  exact ⟨nofun, setParams_shells.linkage? index⟩

/-- What an accepted header does to the linkage of its procedure, and to no other
one. -/
structure Joins (t : SymbolTable) (header : Header) (declared : Declared) (index : Nat)
    (linkage : Linkage) : Prop where
  accepts : declared.verdict.Accepts index
  there : ∀ other, declared.table.linkage? other =
    if other = index then some linkage else t.linkage? other
  adds : header.imports = true ∨ t.ImportedAt index →
    linkage.modifiers.imported = true ∨ header.BlamedIn declared.problems
  only : linkage.modifiers.imported = true →
    header.modifiers.imported = true ∨ t.ImportedAt index
  kept : linkage.defined = true → ∃ old, t.linkage? index = some old ∧ old.defined = true
  body : declared.verdict = .define index → linkage.modifiers.imported = false
  sober : (∀ old, t.linkage? index = some old → old.modifiers.conflicts = false) →
    linkage.modifiers.conflicts = false

/-- A header is rejected and leaves the table, or joins its procedure. -/
def Links (t : SymbolTable) (header : Header) (declared : Declared) : Prop :=
  (∃ named, declared.verdict = .reject named ∧ declared.table = t) ∨
    ∃ index linkage, t.Joins header declared index linkage

theorem importedAt_congr {index : Nat} (h : u.linkage? index = t.linkage? index) :
    u.ImportedAt index ↔ t.ImportedAt index := by
  unfold ImportedAt
  rw [h]

namespace Joins

variable {declared : Declared} {index : Nat} {linkage : Linkage}

theorem own (h : t.Joins header declared index linkage) :
    declared.table.linkage? index = some linkage := by
  rw [h.there, if_pos rfl]

/-- A header joins one procedure. -/
theorem eq_of_accepts (h : t.Joins header declared index linkage) {other : Nat}
    (ha : declared.verdict.Accepts other) : other = index := by
  rcases h.accepts with hown | hown <;> rcases ha with hother | hother <;>
    cases hown.symm.trans hother <;> rfl

end Joins

theorem Links.joins {declared : Declared} {index : Nat} (h : t.Links header declared)
    (ha : declared.verdict.Accepts index) : ∃ linkage, t.Joins header declared index linkage := by
  rcases h with ⟨named, hverdict, _⟩ | ⟨own, linkage, hjoins⟩
  · simp [Verdict.Accepts, hverdict] at ha
  · rw [hjoins.eq_of_accepts ha]
    exact ⟨linkage, hjoins⟩

/-- A header does nothing to a procedure that is not its own. -/
theorem Links.apart {declared : Declared} {index : Nat} (h : t.Links header declared)
    (ha : ¬declared.verdict.Accepts index) :
    declared.table.linkage? index = t.linkage? index := by
  rcases h with ⟨_, _, htable⟩ | ⟨own, linkage, hjoins⟩
  · rw [htable]
  · rw [hjoins.there, if_neg]
    rintro rfl
    exact ha hjoins.accepts

theorem Links.reject (named : Option Nat) (problems : List Diagnostic) :
    t.Links header ⟨.reject named, t, problems⟩ :=
  .inl ⟨named, rfl, rfl⟩

/-- Import is added to what a procedure has, or an error says why not. -/
theorem mergeModifiers_adds (p : Procedure) (header : Header)
    (h : p.modifiers.imported = true ∨ header.modifiers.imported = true) :
    (mergeModifiers p header).1.imported = true ∨
      header.BlamedIn (mergeModifiers p header).2 := by
  unfold mergeModifiers
  by_cases hc : (p.modifiers.union header.modifiers).conflicts = true
  · simp only [if_pos hc]
    exact .inr ⟨_, List.mem_cons_self, rfl, rfl, .inr ⟨rfl, rfl⟩⟩
  · simp only [if_neg hc]
    left
    simpa [Modifiers.union] using h

theorem mergeModifiers_only {p : Procedure} {header : Header}
    (h : (mergeModifiers p header).1.imported = true) :
    p.modifiers.imported = true ∨ header.modifiers.imported = true := by
  unfold mergeModifiers at h
  by_cases hc : (p.modifiers.union header.modifiers).conflicts = true
  · simp only [if_pos hc] at h
    exact .inl h
  · simp only [if_neg hc] at h
    simpa [Modifiers.union] using h

/-- Import and export do not meet in what a header is merged to. -/
theorem mergeModifiers_sober {p : Procedure} (header : Header)
    (h : p.modifiers.conflicts = false) : (mergeModifiers p header).1.conflicts = false := by
  unfold mergeModifiers
  by_cases hc : (p.modifiers.union header.modifiers).conflicts = true
  · simp only [if_pos hc]
    exact h
  · simp only [if_neg hc]
    exact Bool.eq_false_iff.mpr hc

theorem declareAgain_links {index : Nat} {p : Procedure}
    (hp : t.scope? (.proc index) = some p) :
    t.Links header (t.declareAgain index p header) := by
  have himported : t.ImportedAt index → p.modifiers.imported = true := by
    rintro ⟨l, hl, h⟩
    rw [linkage?_of_scope? hp] at hl
    obtain rfl := Option.some.inj hl
    exact h
  have hadds : header.imports = true ∨ t.ImportedAt index →
      (mergeModifiers p header).1.imported = true ∨
        header.BlamedIn (mergeModifiers p header).2 := by
    intro h
    refine mergeModifiers_adds p header (h.symm.imp himported fun h => ?_)
    exact (Bool.and_eq_true_iff.mp h).1
  unfold declareAgain
  by_cases hdefined : (header.hasBody && p.defined) = true
  · rw [if_pos hdefined]
    exact .reject _ _
  · rw [if_neg hdefined]
    cases hb : header.hasBody with
    | false =>
        refine .inr ⟨index, _, .inr rfl, linkage?_modifyScope hp, ?_, ?_, ?_, nofun, fun hold =>
          mergeModifiers_sober header (hold _ (linkage?_of_scope? hp))⟩
        · intro h
          exact (hadds h).imp_right fun h => h.subset (List.subset_append_right _ _)
        · intro h
          exact (mergeModifiers_only h).symm.imp_right fun h => ⟨_, linkage?_of_scope? hp, h⟩
        · exact fun h => ⟨_, linkage?_of_scope? hp, h⟩
    | true =>
        have hopen : p.defined = false := by simpa [hb] using hdefined
        refine .inr ⟨index, _, .inl rfl, fun other => (setParams_shells.linkage? other).trans
          (linkage?_cleared hp other), fun h => .inr ?_, nofun, ?_, fun _ => rfl, fun _ => rfl⟩
        · rcases hadds h with himport | hblamed
          · refine ⟨header.importWithBody, ?_, header.blames_importWithBody⟩
            simp [himport]
          · refine hblamed.subset fun d hd => ?_
            simp [hd]
        · rw [hopen]
          exact nofun

/-- A header whose own rules are settled. -/
theorem declareSettled_links (t : SymbolTable) (header : Header)
    (hbody : header.hasBody = true → header.modifiers.imported = false)
    (hsober : header.modifiers.conflicts = false) :
    t.Links header (t.declareSettled header) := by
  unfold declareSettled
  cases hl : t.lookupGlobal header.name with
  | none =>
      simp only [declareFirst]
      cases hi : t.strings.intern header.name with
      | error e => exact .reject _ _
      | ok found =>
          obtain ⟨handle, strings⟩ := found
          have hnew : ¬t.ImportedAt t.procs.length := by
            rintro ⟨l, hl, _⟩
            simp [linkage?] at hl
          refine .inr ⟨t.procs.length, ⟨header.modifiers, false⟩, ?_, ?_, ?_, .inl, (by simp), ?_,
            fun _ => hsober⟩
          · by_cases hb : header.hasBody <;> simp [Verdict.Accepts, hb]
          · exact fun other => (setParams_shells.linkage? other).trans (linkage?_opened other)
          · rintro (himports | himported)
            · exact .inl (Bool.and_eq_true_iff.mp himports).1
            · exact absurd himported hnew
          · intro hdefine
            cases hb : header.hasBody with
            | true => exact hbody hb
            | false => simp [hb] at hdefine
  | some existing =>
      cases existing with
      | proc index =>
          cases hp : t.procs[index]? with
          | none =>
              simp only [hp]
              exact .reject _ _
          | some p =>
              simp only [hp]
              exact declareAgain_links hp
      | global i => exact .reject _ _
      | inner scope i => exact .reject _ _
      | builtin i => exact .reject _ _

theorem declare_links (t : SymbolTable) (header : Header) :
    t.Links header (t.declare header) := by
  have hsettles := header.settles
  have hlinks := t.declareSettled_links header.settle.1
    (fun hb => hsettles.body (hsettles.hasBody ▸ hb)) hsettles.sober
  -- What the settled header is blamed for, the header is.
  have hblamed : ∀ ds, header.settle.1.BlamedIn ds → header.BlamedIn (header.settle.2 ++ ds) := by
    rintro ds ⟨d, hd, hblames⟩
    rw [hsettles.name, hsettles.pos] at hblames
    exact ⟨d, List.mem_append_right _ hd, hblames⟩
  refine hlinks.imp id ?_
  rintro ⟨index, linkage, h⟩
  refine ⟨index, linkage, h.accepts, h.there, ?_, ?_, h.kept, h.body, h.sober⟩
  · rintro (himports | himported)
    · rcases hsettles.imports himports with hkept | hsettled
      · exact (h.adds (.inl hkept)).imp_right (hblamed _)
      · exact .inr (hsettled.subset (List.subset_append_left _ _))
    · exact (h.adds (.inr himported)).imp_right (hblamed _)
  · exact fun himported => (h.only himported).imp_left hsettles.kept

/-- Where a verdict lets a body define a procedure, the header has the body. -/
theorem hasBody_of_declareSettled {header : Header} {i : Nat}
    (h : (t.declareSettled header).verdict = .define i) : header.hasBody = true := by
  cases hb : header.hasBody with
  | true => rfl
  | false =>
      unfold declareSettled at h
      split at h
      · split at h
        · unfold declareAgain at h
          simp [hb] at h
        · cases h
      · cases h
      · unfold declareFirst at h
        split at h
        · cases h
        · simp [hb] at h

theorem hasBody_of_declare {header : Header} {i : Nat}
    (h : (t.declare header).verdict = .define i) : header.hasBody = true := by
  rw [← header.settles.hasBody]
  exact hasBody_of_declareSettled h

end SymbolTable

end SslFrontend
