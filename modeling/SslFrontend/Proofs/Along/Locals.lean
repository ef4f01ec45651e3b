import SslFrontend.Proofs.Along.Units
import SslFrontend.Proofs.Grammar.Exact

/-! # Locals of a body

While a body is read, its scope only gets locals behind those that it has, each of
them at a name among the tokens that were read.  What it had before, its parameters
and their values with it, stays as it is, and so does every other scope.
-/

namespace SslFrontend

/-- A local that is declared at one of the tokens. -/
def Variable.DeclaredAt (namelist : Pool) (tokens : List Token) (v : Variable) : Prop :=
  ∃ name, namelist.resolve v.name = .ok name ∧ ⟨.ident name, v.declared⟩ ∈ tokens

theorem Variable.DeclaredAt.grows {namelist grown : Pool} {tokens more : List Token} {v : Variable}
    (h : v.DeclaredAt namelist tokens) (hg : namelist.Grows grown) (hm : tokens ⊆ more) :
    v.DeclaredAt grown more := by
  obtain ⟨name, hname, htoken⟩ := h
  exact ⟨name, hg.resolve hname, hm htoken⟩

/-- The second procedure is the first one with locals that are declared at some of the
tokens. -/
structure Procedure.Adds (p : Procedure) (tokens : List Token) (q : Procedure) : Prop where
  shell : q.shell = p.shell
  numArgs : q.numArgs = p.numArgs
  minArgs : q.minArgs = p.minArgs
  namelist : p.namelist.Grows q.namelist
  locals : ∃ more, q.locals = p.locals ++ more ∧ ∀ v ∈ more, v.DeclaredAt q.namelist tokens

namespace Procedure.Adds

variable {p q r : Procedure} {first second : List Token}

theorem refl (p : Procedure) (tokens : List Token) : p.Adds tokens p :=
  ⟨rfl, rfl, rfl, .refl _, [], (List.append_nil _).symm, nofun⟩

theorem trans (h₁ : p.Adds first q) (h₂ : q.Adds second r) : p.Adds (first ++ second) r where
  shell := h₂.shell.trans h₁.shell
  numArgs := h₂.numArgs.trans h₁.numArgs
  minArgs := h₂.minArgs.trans h₁.minArgs
  namelist := h₁.namelist.trans h₂.namelist
  locals := by
    obtain ⟨more, hmore, hdeclared⟩ := h₁.locals
    obtain ⟨rest, hrest, hbehind⟩ := h₂.locals
    refine ⟨more ++ rest, by rw [hrest, hmore, List.append_assoc], ?_⟩
    refine List.forall_mem_append.mpr ⟨fun v hv => ?_, fun v hv => ?_⟩
    · exact (hdeclared v hv).grows h₂.namelist (List.subset_append_left _ _)
    · exact (hbehind v hv).grows (.refl _) (List.subset_append_right _ _)

end Procedure.Adds

/-- The second procedure is the first one with a local at the index, and those behind
it, given other values. -/
structure Procedure.Revalues (p : Procedure) (index : Nat) (q : Procedure) : Prop where
  shell : q.shell = p.shell
  numArgs : q.numArgs = p.numArgs
  minArgs : q.minArgs = p.minArgs
  namelist : q.namelist = p.namelist
  labels : q.locals.map Variable.label = p.locals.map Variable.label
  before : q.locals.take index = p.locals.take index

theorem Procedure.Revalues.refl (p : Procedure) (index : Nat) : p.Revalues index p :=
  ⟨rfl, rfl, rfl, rfl, rfl, rfl⟩

theorem Procedure.Revalues.trans {p q r : Procedure} {index : Nat} (h₁ : p.Revalues index q)
    (h₂ : q.Revalues index r) : p.Revalues index r :=
  ⟨h₂.shell.trans h₁.shell, h₂.numArgs.trans h₁.numArgs, h₂.minArgs.trans h₁.minArgs,
    h₂.namelist.trans h₁.namelist, h₂.labels.trans h₁.labels, h₂.before.trans h₁.before⟩

/-- A local that is declared at a token, whatever value it is given then. -/
theorem Procedure.Adds.declared {p q : Procedure} {tokens : List Token} {name : String}
    {handle : Handle} {namelist : Pool} {pos : Position}
    (hi : p.namelist.intern name = .ok (handle, namelist)) (hmem : ⟨.ident name, pos⟩ ∈ tokens)
    (h : { p with
      namelist := namelist
      locals := p.locals ++ [Variable.fresh handle .localVar pos] }.Revalues p.locals.length q) :
    p.Adds tokens q := by
  obtain ⟨hgrows, hfound⟩ := Pool.intern_spec hi
  have hlabels : q.locals.map Variable.label = p.locals.map Variable.label ++ [(handle, pos)] := by
    rw [h.labels, List.map_append]
    rfl
  have hbefore : q.locals.take p.locals.length = p.locals := by
    rw [h.before]
    exact List.take_left
  have hbehind : (q.locals.drop p.locals.length).map Variable.label = [(handle, pos)] := by
    rw [List.map_drop, hlabels, List.drop_left' (List.length_map ..)]
  refine ⟨h.shell, h.numArgs, h.minArgs, h.namelist ▸ hgrows, q.locals.drop p.locals.length, ?_,
    fun v hv => ⟨name, ?_, ?_⟩⟩
  · conv_lhs => rw [← List.take_append_drop p.locals.length q.locals, hbefore]
  all_goals
    have hlabel : v.label ∈ [(handle, pos)] := hbehind ▸ List.mem_map_of_mem hv
    obtain ⟨hname, hpos⟩ := Prod.mk.inj (List.mem_singleton.mp hlabel)
  · rw [h.namelist, hname]
    exact Pool.resolve_find? hfound
  · rw [hpos]
    exact hmem

namespace ParserState

variable {scope : ScopeId} {s t u : ParserState}

/-- Tokens are read, the procedure of the scope becomes another one as `R` says, and no
other scope is touched. -/
def Alters (scope : ScopeId) (R : List Token → Procedure → Procedure → Prop)
    (s t : ParserState) : Prop :=
  (∀ sc, sc ≠ scope → t.table.scope? sc = s.table.scope? sc) ∧
  ∃ tokens, s.cursor.Reads tokens t.cursor ∧ ∀ p, s.table.scope? scope = some p →
    ∃ q, t.table.scope? scope = some q ∧ R tokens p q

/-- Locals are declared at the tokens that are read. -/
abbrev AddsLocals (scope : ScopeId) : ParserState → ParserState → Prop :=
  Alters scope fun tokens p q => p.Adds tokens q

/-- Locals from an index on are given other values. -/
abbrev RevaluesLocals (scope : ScopeId) (index : Nat) : ParserState → ParserState → Prop :=
  Alters scope fun _ p q => p.Revalues index q

variable {R : List Token → Procedure → Procedure → Prop}

theorem Alters.of_scope? {tokens : List Token} (hr : ∀ p, R tokens p p)
    (hreads : s.cursor.Reads tokens t.cursor) (h : ∀ sc, t.table.scope? sc = s.table.scope? sc) :
    s.Alters scope R t :=
  ⟨fun sc _ => h sc, tokens, hreads, fun p hp => ⟨p, (h scope).trans hp, hr p⟩⟩

/-- Whatever is done where nothing is declared alters no scope. -/
theorem Alters.within (hrefl : ∀ tokens p, R tokens p p)
    (htrans : ∀ {first second p q r}, R first p q → R second q r → R (first ++ second) p r) :
    HoldsWithin False (some scope) (Alters scope R) where
  refl s := .of_scope? (hrefl []) (.refl _) fun _ => rfl
  trans := by
    rintro s t u ⟨hothers₁, first, h₁, hhere₁⟩ ⟨hothers₂, second, h₂, hhere₂⟩
    refine ⟨fun sc hsc => (hothers₂ sc hsc).trans (hothers₁ sc hsc), first ++ second, h₁.trans h₂,
      fun p hp => ?_⟩
    obtain ⟨q, hq, hpq⟩ := hhere₁ p hp
    obtain ⟨r, hr, hqr⟩ := hhere₂ q hq
    exact ⟨r, hr, htrans hpq hqr⟩
  move s c hc := by
    obtain ⟨tokens, hrest, heof, hposition, hlast⟩ := hc
    exact .of_scope? (hrefl tokens) ⟨hrest, heof, hposition, hlast⟩ fun _ => rfl
  report s ds := .of_scope? (hrefl []) (.refl _) fun _ => rfl
  intern s _ _ _ _ := .of_scope? (hrefl []) (.refl _) fun sc => by cases sc <;> rfl
  adjust := False.elim
  mention s name hk := by
    refine .of_scope? (hrefl [s.cursor.current]) ?_ fun sc => ?_
    · rw [ParserState.mentioned_cursor]
      exact Cursor.reads_advance (hk ▸ nofun)
    · rw [ParserState.mentioned_table]
  declare := False.elim

theorem RevaluesLocals.within (scope : ScopeId) (index : Nat) :
    HoldsWithin False (some scope) (RevaluesLocals scope index) :=
  Alters.within (fun _ p => .refl p index) .trans

theorem take_modify {α : Type} (l : List α) (i : Nat) (f : α → α) :
    (l.modify i f).take i = l.take i := by
  induction l generalizing i with
  | nil => simp
  | cons a l ih =>
      cases i with
      | zero => rfl
      | succ i => exact congrArg (a :: ·) (ih i)

/-- The value of a local behind the others is given. -/
theorem RevaluesLocals.modifyVariable (s : ParserState) (scope : ScopeId) (index : Nat)
    {f : Variable → Variable} (hf : ∀ v, (f v).label = v.label) :
    s.RevaluesLocals scope index
      { s with table := s.table.modifyVariable (.inner scope index) f } := by
  refine ⟨fun sc hsc => SymbolTable.scope?_modifyScope_of_ne _ _ _ hsc, [], .refl _, fun p hp => ?_⟩
  refine ⟨{ p with locals := p.locals.modify index f }, ?_, rfl, rfl, rfl, rfl, ?_, ?_⟩
  · show (s.table.modifyScope scope _).scope? scope = _
    rw [SymbolTable.scope?_modifyScope_self, hp]
    rfl
  · exact SymbolTable.map_modify fun v _ => hf v
  · exact take_modify _ _ f

theorem AddsLocals.within (scope : ScopeId) :
    HoldsWithin False (some scope) (AddsLocals scope) :=
  Alters.within (fun tokens p => .refl p tokens) .trans

/-- A variable of a declaration is a local behind the others. -/
theorem AddsLocals.items (scope : ScopeId) : HoldsAtItems (some scope) (AddsLocals scope) where
  within := AddsLocals.within scope
  item {context} hc kind := by
    have h := AddsLocals.within scope
    refine h.nameNext fun s name hk => h.declareEither (fun symbol table hd => ?_) ?_
    · rw [hc] at hd
      obtain ⟨p, handle, namelist, hp, -, hi, rfl, rfl⟩ := SymbolTable.declareLocal_spec hd
      -- What follows the name changes only the local that the name declares.
      obtain ⟨hothers, tokens, hreads, hhere⟩ :=
        (RevaluesLocals.within scope p.locals.length).declaredItem_at hc kind name s.cursor.pos
          (some (.inner scope p.locals.length)) (s := { s with
            cursor := s.cursor.advance
            table := _
            ledger := _ })
          (fun u _ length hs => Option.some.inj hs ▸ .modifyVariable u scope _ fun _ => rfl)
          fun u _ _ hs _ _ hlabel _ => Option.some.inj hs ▸ .modifyVariable u scope _ hlabel
      have hname := Cursor.reads_advance (c := s.cursor) (hk ▸ nofun)
      refine ⟨fun sc hsc => (hothers sc hsc).trans (SymbolTable.scope?_modifyScope_of_ne _ _ _ hsc),
        s.cursor.current :: tokens, hname.trans hreads, fun p' hp' => ?_⟩
      obtain rfl : p = p' := Option.some.inj (hp.symm.trans hp')
      obtain ⟨q, hq, hrevalues⟩ := hhere _ (by
        show (s.table.modifyScope scope _).scope? scope = _
        rw [SymbolTable.scope?_modifyScope_self, hp]
        rfl)
      rw [Cursor.current_of_kind hk]
      exact ⟨q, hq, .declared hi List.mem_cons_self hrevalues⟩
    · exact fun t => h.declaredItem_at hc kind name s.cursor.pos none nofun nofun

end ParserState

end SslFrontend
