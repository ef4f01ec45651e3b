import SslFrontend.Proofs.Symbol.Sound
import SslFrontend.Reference.Usage

/-! # What a symbol stands for

A symbol is an index into a table, and stands for the declaration at that index.
Since tables only grow at the end, it stands for the same declaration ever
after.  In a sound table a look-up gives the one symbol with the name, so
looking up a name and reading the name of a symbol are inverse.
-/

namespace SslFrontend

/-- Whether a symbol can be named in a context. -/
def Symbol.FitsIn (context : Option ScopeId) : Symbol → Prop
  | .inner scope _ => context = some scope
  | _ => True

theorem Symbol.symbol?_toNode {context : Option ScopeId} {symbol : Symbol}
    (h : symbol.FitsIn context) (hi : symbol.index ≤ Value.maxIndex) (pos : Position) :
    (symbol.toNode pos).symbol? context = some symbol := by
  have hindex := Value.index?_ofIndex hi
  cases symbol with
  | inner scope i =>
      obtain rfl : context = some scope := h
      simp only [Node.symbol?, toNode, hindex]
      rfl
  | _ =>
      simp only [Node.symbol?, toNode, hindex]
      rfl

namespace SymbolTable

/-- A symbol can be named in a context, and its index is within its table. -/
def Holds (t : SymbolTable) (context : Option ScopeId) (symbol : Symbol) : Prop :=
  symbol.FitsIn context ∧
    match symbol with
    | .global i => i < t.vars.length
    | .inner scope i => ∃ p, t.scope? scope = some p ∧ i < p.locals.length
    | .proc i => i < t.procs.length
    | .builtin i => i < Builtin.all.length

variable {t u : SymbolTable} {name : String} {symbol : Symbol}

/-- The declaration of a symbol: its name with the pool of the name, and its
place. -/
def declaration? (t : SymbolTable) : Symbol → Option (Pool × Handle × Position)
  | .global i => t.vars[i]?.map fun v => (t.strings, v.label)
  | .proc i => t.procs[i]?.map fun p => (t.strings, p.label)
  | .inner scope i =>
    (t.scope? scope).bind fun p => p.locals[i]?.map fun v => (p.namelist, v.label)
  | .builtin _ => none

/-- A symbol is a declaration of a name. -/
def Binds (t : SymbolTable) (name : String) (symbol : Symbol) : Prop :=
  ∃ pool handle pos, t.declaration? symbol = some (pool, handle, pos) ∧
    pool.find? name = some handle

theorem siteOf?_eq (t : SymbolTable) (symbol : Symbol) :
    t.siteOf? symbol = (t.declaration? symbol).map fun e => e.2.2 := by
  cases symbol with
  | global i | proc i =>
      simp only [siteOf?, declaration?, Option.map_map]
      rfl
  | inner scope i =>
      cases hp : t.scope? scope with
      | none => simp [siteOf?, declaration?, hp]
      | some p =>
          simp only [siteOf?, declaration?, hp, Option.bind_some, Option.map_map]
          rfl
  | builtin i => rfl

theorem siteOf?_of_declaration? {pool : Pool} {handle : Handle} {pos : Position}
    (h : t.declaration? symbol = some (pool, handle, pos)) : t.siteOf? symbol = some pos := by
  rw [siteOf?_eq, h]
  rfl

theorem nameOf_of_declaration? {pool : Pool} {handle : Handle} {pos : Position}
    (h : t.declaration? symbol = some (pool, handle, pos)) :
    t.nameOf symbol = pool.lookup handle := by
  cases symbol with
  | global i =>
      obtain ⟨v, hv, heq⟩ := Option.map_eq_some_iff.mp h
      cases heq
      simp [nameOf, hv]
  | proc i =>
      obtain ⟨p, hp, heq⟩ := Option.map_eq_some_iff.mp h
      cases heq
      simp [nameOf, hp]
  | inner scope i =>
      obtain ⟨p, hp, hlocal⟩ := Option.bind_eq_some_iff.mp h
      obtain ⟨v, hv, heq⟩ := Option.map_eq_some_iff.mp hlocal
      cases heq
      simp [nameOf, hp, Procedure.localName?, hv]
  | builtin i => cases h

theorem getElem?_of_prefix {α : Type} {first second : List α} (h : first <+: second) {i : Nat}
    {a : α} (hi : first[i]? = some a) : second[i]? = some a := by
  obtain ⟨more, rfl⟩ := h
  rw [List.getElem?_append_left (List.getElem?_eq_some_iff.mp hi).1, hi]

theorem Extends.declaration? {keep : ScopeId → Prop} (h : t.Extends keep u)
    (hk : ∀ scope i, symbol = .inner scope i → keep scope) {pool : Pool} {handle : Handle}
    {pos : Position} (ht : t.declaration? symbol = some (pool, handle, pos)) :
    ∃ grown, u.declaration? symbol = some (grown, handle, pos) ∧ pool.Grows grown := by
  have hlabel : ∀ {α : Type} {label : α → Handle × Position} {first second : List α} {i : Nat}
      {a : α}, first.map label <+: second.map label → first[i]? = some a →
      ∃ b, second[i]? = some b ∧ label b = label a := by
    intro α label first second i a hprefix ha
    have hget : (first.map label)[i]? = some (label a) := by rw [List.getElem?_map, ha]; rfl
    have hgrown := getElem?_of_prefix hprefix hget
    rw [List.getElem?_map] at hgrown
    exact Option.map_eq_some_iff.mp hgrown
  cases symbol with
  | global i =>
      obtain ⟨v, hv, heq⟩ := Option.map_eq_some_iff.mp ht
      obtain ⟨w, hw, hsame⟩ := hlabel h.vars hv
      cases heq
      refine ⟨u.strings, ?_, h.strings⟩
      simp only [SymbolTable.declaration?, hw, Option.map_some, hsame]
      rfl
  | proc i =>
      obtain ⟨p, hp, heq⟩ := Option.map_eq_some_iff.mp ht
      obtain ⟨q, hq, hsame⟩ := hlabel h.procs hp
      cases heq
      refine ⟨u.strings, ?_, h.strings⟩
      simp only [SymbolTable.declaration?, hq, Option.map_some, hsame]
      rfl
  | inner scope i =>
      obtain ⟨p, hp, hlocal⟩ := Option.bind_eq_some_iff.mp ht
      obtain ⟨v, hv, heq⟩ := Option.map_eq_some_iff.mp hlocal
      obtain ⟨q, hq, hpq⟩ := h.scopes (hk scope i rfl) hp
      obtain ⟨w, hw, hsame⟩ := hlabel hpq.locals hv
      cases heq
      refine ⟨q.namelist, ?_, hpq.namelist⟩
      simp only [SymbolTable.declaration?, hq, Option.bind_some, hw, Option.map_some, hsame]
      rfl
  | builtin i => cases ht

namespace Binds

theorem nameOf (h : t.Binds name symbol) : t.nameOf symbol = name := by
  obtain ⟨pool, handle, pos, hentry, hfound⟩ := h
  rw [nameOf_of_declaration? hentry, Pool.lookup_of_find? hfound]

/-- A symbol names the same declaration when the table has grown. -/
theorem grows {keep : ScopeId → Prop} (h : t.Binds name symbol) (hg : t.Extends keep u)
    (hk : ∀ scope i, symbol = .inner scope i → keep scope) :
    u.Binds name symbol ∧ u.siteOf? symbol = t.siteOf? symbol := by
  obtain ⟨pool, handle, pos, hentry, hfound⟩ := h
  obtain ⟨grown, hgrown, hpool⟩ := hg.declaration? hk hentry
  refine ⟨⟨grown, handle, pos, hgrown, hpool.find? hfound⟩, ?_⟩
  rw [siteOf?_of_declaration? hgrown, siteOf?_of_declaration? hentry]

/-- Only the declaration itself counts. -/
theorem congr (h : t.Binds name symbol) (he : u.declaration? symbol = t.declaration? symbol) :
    u.Binds name symbol ∧ u.siteOf? symbol = t.siteOf? symbol := by
  obtain ⟨pool, handle, pos, hentry, hfound⟩ := h
  rw [hentry] at he
  exact ⟨⟨pool, handle, pos, he, hfound⟩,
    (siteOf?_of_declaration? he).trans (siteOf?_of_declaration? hentry).symm⟩

theorem holds (h : t.Binds name symbol) {context : Option ScopeId} (hf : symbol.FitsIn context) :
    t.Holds context symbol := by
  obtain ⟨_, _, _, hentry, _⟩ := h
  refine ⟨hf, ?_⟩
  cases symbol with
  | global i =>
      obtain ⟨v, hv, _⟩ := Option.map_eq_some_iff.mp hentry
      exact (List.getElem?_eq_some_iff.mp hv).1
  | proc i =>
      obtain ⟨p, hp, _⟩ := Option.map_eq_some_iff.mp hentry
      exact (List.getElem?_eq_some_iff.mp hp).1
  | inner scope i =>
      obtain ⟨p, hp, hlocal⟩ := Option.bind_eq_some_iff.mp hentry
      obtain ⟨v, hv, _⟩ := Option.map_eq_some_iff.mp hlocal
      exact ⟨p, hp, (List.getElem?_eq_some_iff.mp hv).1⟩
  | builtin i => cases hentry

end Binds

/-- The unit has a variable or a procedure of a name. -/
def HasGlobal (t : SymbolTable) (name : String) : Prop :=
  ∃ symbol, t.Binds name symbol ∧ ∀ scope i, symbol ≠ .inner scope i

theorem HasGlobal.extends (h : t.HasGlobal name) {keep : ScopeId → Prop}
    (hg : t.Extends keep u) : u.HasGlobal name := by
  obtain ⟨symbol, hbinds, houter⟩ := h
  exact ⟨symbol, (hbinds.grows hg fun scope i hs => absurd hs (houter scope i)).1, houter⟩

/-! ## Look-up -/

/-- The first element with a label that a test finds. -/
theorem getElem?_of_findIdx? {α : Type} {label : α → Handle} {handle : Handle} {l : List α}
    {i : Nat} (h : l.findIdx? (label · == handle) = some i) :
    ∃ a, l[i]? = some a ∧ label a = handle := by
  obtain ⟨hlt, htest, _⟩ := List.findIdx?_eq_some_iff_getElem.mp h
  exact ⟨l[i], List.getElem?_eq_getElem hlt, by simpa using htest⟩

/-- Where labels differ, a test for a label finds the one element that has it. -/
theorem findIdx?_of_nodup {α : Type} {label : α → Handle} {l : List α} {i : Nat} {a : α}
    (h : (l.map label).Nodup) (hi : l[i]? = some a) :
    l.findIdx? (label · == label a) = some i := by
  obtain ⟨hlt, rfl⟩ := List.getElem?_eq_some_iff.mp hi
  rw [List.findIdx?_eq_some_iff_getElem]
  refine ⟨hlt, by simp, ?_⟩
  intro j hj hsame
  have hlabel : label l[j] = label l[i] := by simpa using hsame
  have hmap : (l.map label)[j]? = (l.map label)[i]? := by
    rw [List.getElem?_map, List.getElem?_map, List.getElem?_eq_getElem (by omega),
      List.getElem?_eq_getElem hlt, Option.map_some, Option.map_some, hlabel]
  have heq : j = i := (List.getElem?_inj (by rw [List.length_map]; omega) h).mp hmap
  omega

theorem lookupLocal_eq_some {scope : ScopeId} :
    t.lookupLocal scope name = some symbol ↔ ∃ p handle i, t.scope? scope = some p ∧
      p.namelist.find? name = some handle ∧
      p.locals.findIdx? (·.name == handle) = some i ∧ symbol = .inner scope i := by
  unfold lookupLocal
  constructor
  · intro h
    obtain ⟨p, hp, hlocal⟩ := Option.bind_eq_some_iff.mp h
    obtain ⟨i, hi, rfl⟩ := Option.map_eq_some_iff.mp hlocal
    obtain ⟨handle, hfound, hindex⟩ := Option.bind_eq_some_iff.mp hi
    exact ⟨p, handle, i, hp, hfound, hindex, rfl⟩
  · rintro ⟨p, handle, i, hp, hfound, hindex, rfl⟩
    rw [hp]
    show (p.findLocal? name).map (Symbol.inner scope) = _
    unfold Procedure.findLocal?
    rw [hfound]
    show (p.locals.findIdx? (·.name == handle)).map (Symbol.inner scope) = _
    rw [hindex]
    rfl

theorem lookupGlobal_eq_some :
    t.lookupGlobal name = some symbol ↔ ∃ handle, t.strings.find? name = some handle ∧
      ((∃ i, t.vars.findIdx? (·.name == handle) = some i ∧ symbol = .global i) ∨
        t.vars.findIdx? (·.name == handle) = none ∧
          ∃ i, t.procs.findIdx? (·.name == handle) = some i ∧ symbol = .proc i) := by
  unfold lookupGlobal
  constructor
  · intro h
    obtain ⟨handle, hfound, h⟩ := Option.bind_eq_some_iff.mp h
    refine ⟨handle, hfound, ?_⟩
    cases hv : t.vars.findIdx? (·.name == handle) with
    | some i =>
        simp only [hv] at h
        exact .inl ⟨i, rfl, (Option.some.inj h).symm⟩
    | none =>
        simp only [hv] at h
        obtain ⟨i, hi, rfl⟩ := Option.map_eq_some_iff.mp h
        exact .inr ⟨rfl, i, hi, rfl⟩
  · rintro ⟨handle, hfound, h⟩
    refine Option.bind_eq_some_iff.mpr ⟨handle, hfound, ?_⟩
    rcases h with ⟨i, hi, rfl⟩ | ⟨hv, i, hi, rfl⟩
    · simp only [hi]
    · simp only [hv, hi, Option.map_some]

theorem binds_of_lookupLocal {scope : ScopeId} (h : t.lookupLocal scope name = some symbol) :
    t.Binds name symbol ∧ ∃ i, symbol = .inner scope i := by
  obtain ⟨p, handle, i, hp, hfound, hindex, rfl⟩ := lookupLocal_eq_some.mp h
  obtain ⟨v, hv, hname⟩ := getElem?_of_findIdx? hindex
  refine ⟨⟨p.namelist, handle, v.declared, ?_, hfound⟩, i, rfl⟩
  simp [declaration?, hp, hv, Variable.label, hname]

theorem binds_of_lookupGlobal (h : t.lookupGlobal name = some symbol) :
    t.Binds name symbol ∧ ∃ i, symbol = .global i ∨ symbol = .proc i := by
  obtain ⟨handle, hfound, ⟨i, hindex, rfl⟩ | ⟨_, i, hindex, rfl⟩⟩ := lookupGlobal_eq_some.mp h
  · obtain ⟨v, hv, hname⟩ := getElem?_of_findIdx? hindex
    refine ⟨⟨t.strings, handle, v.declared, ?_, hfound⟩, i, .inl rfl⟩
    simp [declaration?, hv, Variable.label, hname]
  · obtain ⟨p, hp, hname⟩ := getElem?_of_findIdx? hindex
    refine ⟨⟨t.strings, handle, p.declared, ?_, hfound⟩, i, .inr rfl⟩
    simp [declaration?, hp, Procedure.label, hname]

theorem outer_of_lookupGlobal (h : t.lookupGlobal name = some symbol) (scope : ScopeId) (i : Nat) :
    symbol ≠ .inner scope i := by
  rintro rfl
  obtain ⟨-, j, hsymbol | hsymbol⟩ := binds_of_lookupGlobal h
  · cases hsymbol
  · cases hsymbol

/-- A procedure is the one that its name binds. -/
theorem Sound.binds_proc {known : Position → Prop} (h : t.Sound known) {i : Nat} {p : Procedure}
    (hp : t.procs[i]? = some p) : t.Binds (t.strings.lookup p.name) (.proc i) := by
  obtain ⟨text, htext⟩ := h.procs_named p (List.mem_of_getElem? hp)
  rw [Pool.lookup_of_find? htext]
  exact ⟨t.strings, p.name, p.declared, by simp [declaration?, hp, Procedure.label], htext⟩

/-- What a look-up gives is a declaration of the name, in the context or of the
unit. -/
theorem binds_of_lookupDeclared {context : Option ScopeId}
    (h : t.lookupDeclared context name = some symbol) :
    t.Binds name symbol ∧ symbol.FitsIn context := by
  unfold lookupDeclared at h
  rcases Option.or_eq_some_iff.mp h with hl | ⟨_, hg⟩
  · obtain ⟨scope, rfl, hl⟩ := Option.bind_eq_some_iff.mp hl
    obtain ⟨hbinds, i, rfl⟩ := binds_of_lookupLocal hl
    exact ⟨hbinds, rfl⟩
  · obtain ⟨hbinds, i, rfl | rfl⟩ := binds_of_lookupGlobal hg
    · exact ⟨hbinds, trivial⟩
    · exact ⟨hbinds, trivial⟩

theorem Binds.ne_builtin (h : t.Binds name symbol) (i : Nat) : symbol ≠ .builtin i := by
  rintro rfl
  obtain ⟨_, _, _, hentry, _⟩ := h
  cases hentry

theorem lookupDeclared_ne_builtin {context : Option ScopeId}
    (h : t.lookupDeclared context name = some symbol) (i : Nat) : symbol ≠ .builtin i :=
  (binds_of_lookupDeclared h).1.ne_builtin i

/-- What is declared is a declaration of its name, where it was declared. -/
theorem binds_of_declareIn {context : Option ScopeId} {kind : VarScope} {pos : Position}
    (h : t.declareIn context kind name pos = .ok (symbol, u)) :
    u.Binds name symbol ∧ u.siteOf? symbol = some pos ∧ symbol.FitsIn context := by
  cases context with
  | none =>
      obtain ⟨_, handle, strings, hi, rfl, rfl⟩ := declareVar_spec h
      have hentry : declaration? { t with
          strings := strings, vars := t.vars ++ [.fresh handle kind pos] }
          (.global t.vars.length) = some (strings, handle, pos) := by
        simp [declaration?, Variable.fresh, Variable.label]
      exact ⟨⟨_, _, _, hentry, (Pool.intern_spec hi).2⟩, siteOf?_of_declaration? hentry, trivial⟩
  | some scope =>
      obtain ⟨p, handle, namelist, hp, _, hi, rfl, rfl⟩ := declareLocal_spec h
      have hentry : (t.modifyScope scope fun p =>
          { p with
            namelist := namelist
            locals := p.locals ++ [.fresh handle .localVar pos] }).declaration?
          (.inner scope p.locals.length) = some (namelist, handle, pos) := by
        simp [declaration?, scope?_modifyScope_self, hp, Variable.fresh, Variable.label]
      exact ⟨⟨_, _, _, hentry, (Pool.intern_spec hi).2⟩, siteOf?_of_declaration? hentry, rfl⟩

/-- The procedure that a header is one of is a declaration of its name. -/
theorem binds_of_declareSettled {header : Header} {index : Nat}
    (h : (t.declareSettled header).verdict.named? = some index) :
    (t.declareSettled header).table.Binds header.name (.proc index) := by
  have hgrows := (declareSettled_spec t header).extends
  cases hl : t.lookupGlobal header.name with
  | none =>
      unfold declareSettled at h ⊢
      simp only [hl, declareFirst] at h ⊢
      cases hi : t.strings.intern header.name with
      | error e =>
          rw [hi] at h
          cases h
      | ok found =>
          obtain ⟨handle, strings⟩ := found
          rw [hi] at h
          have hindex : t.procs.length = index := by
            by_cases hbody : header.hasBody <;> simpa [hbody, Verdict.named?] using h
          subst hindex
          have hopened : (t.opened header handle strings header.modifiers).Binds header.name
              (.proc t.procs.length) := by
            refine ⟨strings, handle, header.pos, ?_, (Pool.intern_spec hi).2⟩
            simp [declaration?, opened, Procedure.fresh, Procedure.label]
          exact (hopened.grows setParams_grows fun _ _ _ => trivial).1
  | some existing =>
      cases existing with
      | proc i =>
          cases hp : t.procs[i]? with
          | none =>
              unfold declareSettled at h
              simp only [hl, hp] at h
              cases h
          | some p =>
              have hagain : t.declareSettled header = t.declareAgain i p header := by
                unfold declareSettled
                simp only [hl, hp]
              obtain rfl : i = index := by
                rw [hagain, declareAgain_named] at h
                exact Option.some.inj h
              exact ((binds_of_lookupGlobal hl).1.grows hgrows fun _ _ => by simp).1
      | _ =>
          unfold declareSettled at h
          simp only [hl] at h
          cases h

theorem binds_of_declare {header : Header} {index : Nat}
    (h : (t.declare header).verdict.named? = some index) :
    (t.declare header).table.Binds header.name (.proc index) := by
  have hname : header.settle.1.name = header.name := by
    obtain ⟨modifiers, hm⟩ := settle_spec header
    rw [hm]
  rw [← hname]
  exact binds_of_declareSettled h

/-- What a name may come to in a context: a declaration of the name, or the
built-in of the name. -/
def Offers (t : SymbolTable) (context : Option ScopeId) (name : String) (symbol : Symbol) :
    Prop :=
  symbol.FitsIn context ∧
    (t.Binds name symbol ∨ ∃ i, symbol = .builtin i ∧ Builtin.find? name = some i)

theorem Offers.holds {context : Option ScopeId} (h : t.Offers context name symbol) :
    t.Holds context symbol := by
  obtain ⟨hfits, hbinds | ⟨i, rfl, hfound⟩⟩ := h
  · exact hbinds.holds hfits
  · exact ⟨trivial, (List.findIdx?_eq_some_iff_getElem.mp hfound).1⟩

theorem offers_of_lookup {context : Option ScopeId} (h : t.lookup context name = some symbol) :
    t.Offers context name symbol := by
  unfold lookup at h
  rcases Option.or_eq_some_iff.mp h with hd | ⟨_, hb⟩
  · obtain ⟨hbinds, hfits⟩ := binds_of_lookupDeclared hd
    exact ⟨hfits, .inl hbinds⟩
  · obtain ⟨i, hi, rfl⟩ := Option.map_eq_some_iff.mp hb
    exact ⟨trivial, .inr ⟨i, rfl, hi⟩⟩

/-- Where locals have names of their own, each of them is found under its name. -/
theorem lookupLocal_of_binds {scope : ScopeId} {i : Nat}
    (h : ∀ p, t.scope? scope = some p → (p.locals.map Variable.name).Nodup)
    (hb : t.Binds name (.inner scope i)) :
    t.lookupLocal scope name = some (.inner scope i) := by
  obtain ⟨pool, handle, pos, hentry, hfound⟩ := hb
  obtain ⟨p, hp, hlocal⟩ := Option.bind_eq_some_iff.mp hentry
  obtain ⟨v, hv, heq⟩ := Option.map_eq_some_iff.mp hlocal
  cases heq
  have hindex := findIdx?_of_nodup (h p hp) hv
  exact lookupLocal_eq_some.mpr ⟨p, v.name, i, hp, hfound, hindex, rfl⟩

/-- Where globals have names of their own, a declaration of the unit is found
under its name. -/
theorem lookupGlobal_of_binds (h : t.globals.Nodup) (hb : t.Binds name symbol)
    (hs : ∀ scope i, symbol ≠ .inner scope i) : t.lookupGlobal name = some symbol := by
  obtain ⟨pool, handle, pos, hentry, hfound⟩ := hb
  have hdistinct := List.nodup_append.mp h
  cases symbol with
  | global i =>
      obtain ⟨v, hv, heq⟩ := Option.map_eq_some_iff.mp hentry
      cases heq
      have hindex := findIdx?_of_nodup hdistinct.1 hv
      exact lookupGlobal_eq_some.mpr ⟨v.name, hfound, .inl ⟨i, hindex, rfl⟩⟩
  | proc i =>
      obtain ⟨p, hp, heq⟩ := Option.map_eq_some_iff.mp hentry
      cases heq
      have hindex := findIdx?_of_nodup hdistinct.2.1 hp
      -- Variables come first in the look-up, but none of them has a procedure's name.
      have hnone : t.vars.findIdx? (·.name == p.name) = none := by
        rw [List.findIdx?_eq_none_iff]
        intro v hv
        have hne := hdistinct.2.2 v.name (List.mem_map_of_mem hv) p.name
          (List.mem_map_of_mem (List.mem_of_getElem? hp))
        simpa using hne
      exact lookupGlobal_eq_some.mpr ⟨p.name, hfound, .inr ⟨hnone, i, hindex, rfl⟩⟩
  | inner scope i => exact absurd rfl (hs scope i)
  | builtin i => cases hentry

theorem Sound.lookupLocal_of_binds {known : Position → Prop} (h : t.Sound known)
    {scope : ScopeId} {i : Nat} (hb : t.Binds name (.inner scope i)) :
    t.lookupLocal scope name = some (.inner scope i) :=
  SymbolTable.lookupLocal_of_binds (fun _ hp => (h.scopes hp).distinct) hb

theorem Sound.lookupGlobal_of_binds {known : Position → Prop} (h : t.Sound known)
    (hb : t.Binds name symbol) (hs : ∀ scope i, symbol ≠ .inner scope i) :
    t.lookupGlobal name = some symbol :=
  SymbolTable.lookupGlobal_of_binds h.distinct hb hs

end SymbolTable

end SslFrontend
