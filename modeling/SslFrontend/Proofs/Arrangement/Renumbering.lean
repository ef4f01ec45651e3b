import SslFrontend.Proofs.Arrangement.Run

/-! # The same declarations in another order

Declarations that are read in another order stand at other places.  A variable or
procedure keeps its name, so the name says what its number becomes; and then
everything that is mentioned means the same, up to these numbers.
-/

namespace SslFrontend

/-! ## Numbers -/

/-- What the numbers of variables and procedures become. -/
structure Renumbering where
  var : Nat → Nat
  proc : Nat → Nat

namespace Renumbering

variable (σ : Renumbering)

def scope : ScopeId → ScopeId
  | .proc i => .proc (σ.proc i)
  | .discarded i => .discarded i

def symbol : Symbol → Symbol
  | .global i => .global (σ.var i)
  | .inner sc i => .inner (σ.scope sc) i
  | .proc i => .proc (σ.proc i)
  | .builtin i => .builtin i

def pool : PoolId → PoolId
  | .namelist i => .namelist (σ.proc i)
  | id => id

end Renumbering

namespace SymbolTable

variable {t u : SymbolTable} {known : Position → Prop} {name : String} {a b : Symbol}

/-- The number in another table of what has the name of this symbol there. -/
def numberIn (t u : SymbolTable) (symbol : Symbol) : Nat :=
  (u.lookupGlobal (t.nameOf symbol)).elim symbol.index Symbol.index

/-- Variables and procedures become what has their name. -/
def renumbering (t u : SymbolTable) : Renumbering :=
  ⟨fun i => t.numberIn u (.global i), fun i => t.numberIn u (.proc i)⟩

theorem numberIn_eq (hu : u.Sound known) (ha : t.Binds name a) (hb : u.Binds name b)
    (houter : ∀ scope i, b ≠ .inner scope i) : t.numberIn u a = b.index := by
  unfold numberIn
  rw [ha.nameOf, hu.lookupGlobal_of_binds hb houter]
  rfl

theorem renumbering_var (hu : u.Sound known) {i j : Nat} (ha : t.Binds name (.global i))
    (hb : u.Binds name (.global j)) : (t.renumbering u).var i = j :=
  numberIn_eq hu ha hb fun _ _ h => Symbol.noConfusion h

theorem renumbering_proc (hu : u.Sound known) {i j : Nat} (ha : t.Binds name (.proc i))
    (hb : u.Binds name (.proc j)) : (t.renumbering u).proc i = j :=
  numberIn_eq hu ha hb fun _ _ h => Symbol.noConfusion h

theorem scope?_discarded (h : t.discarded = []) (k : Nat) : t.scope? (.discarded k) = none := by
  have hnone : t.discarded[k]? = none := by
    rw [h]
    rfl
  exact hnone

/-- Every variable has its name. -/
theorem Sound.binds_var (h : t.Sound known) {i : Nat} {v : Variable} (hv : t.vars[i]? = some v) :
    ∃ name, t.Binds name (.global i) := by
  obtain ⟨name, hfound⟩ := h.vars.names v (List.mem_of_getElem? hv)
  refine ⟨name, _, v.name, v.declared, ?_, hfound⟩
  simp [declaration?, hv, Variable.label]

end SymbolTable

/-- A global is one where it stands. -/
theorem Placement.outer_symbol (P : Placement) {a : Symbol} (h : ∀ scope i, a ≠ .inner scope i)
    (scope : ScopeId) (i : Nat) : P.symbol a ≠ .inner scope i := by
  cases a with
  | inner scope i => exact absurd rfl (h scope i)
  | _ => exact fun heq => Symbol.noConfusion heq

/-! ## One declaration in two tables -/

namespace Surroundings.Stands

variable {E E' : Surroundings} {r R R' : Records} {known known' : Position → Prop}

/-- What is declared is declared where it stands. -/
theorem binds_symbol (h : E.Stands r R) (hnone : r.table.discarded = []) {name : String}
    {a : Symbol} (hb : r.table.Binds name a) : R.table.Binds name (E.symbol a) := by
  refine h.binds hb fun k i ha => ?_
  obtain ⟨_, _, _, hentry, -⟩ := hb
  rw [ha] at hentry
  obtain ⟨p, hp, -⟩ := Option.bind_eq_some_iff.mp hentry
  cases (SymbolTable.scope?_discarded hnone k).symm.trans hp

/-- A scope is renumbered from the one place to the other. -/
theorem renumbers_scope (h : E.Stands r R) (h' : E'.Stands r R') (hr : r.table.Sound known)
    (hs' : R'.table.Sound known') (hnone : r.table.discarded = []) {scope : ScopeId}
    {p : Procedure} (hp : r.table.scope? scope = some p) :
    (R.table.renumbering R'.table).scope (E.scope scope) = E'.scope scope := by
  cases scope with
  | discarded k => cases (SymbolTable.scope?_discarded hnone k).symm.trans hp
  | proc i =>
      have hname := hr.binds_proc hp
      exact congrArg ScopeId.proc (SymbolTable.renumbering_proc hs'
        (h.binds_symbol hnone hname) (h'.binds_symbol hnone hname))

/-- A symbol is renumbered from the one place to the other. -/
theorem renumbers (h : E.Stands r R) (h' : E'.Stands r R') (hr : r.table.Sound known)
    (hs' : R'.table.Sound known') (hnone : r.table.discarded = []) {name : String} {a : Symbol}
    (hb : r.table.Binds name a) :
    (R.table.renumbering R'.table).symbol (E.symbol a) = E'.symbol a := by
  have hleft := h.binds_symbol hnone hb
  have hright := h'.binds_symbol hnone hb
  cases a with
  | global i => exact congrArg Symbol.global (SymbolTable.renumbering_var hs' hleft hright)
  | proc i => exact congrArg Symbol.proc (SymbolTable.renumbering_proc hs' hleft hright)
  | builtin i => exact absurd rfl (hb.ne_builtin i)
  | inner scope i =>
      obtain ⟨_, _, _, hentry, -⟩ := hb
      obtain ⟨p, hp, -⟩ := Option.bind_eq_some_iff.mp hentry
      exact congrArg (Symbol.inner · i) (h.renumbers_scope h' hr hs' hnone hp)

end Surroundings.Stands

namespace TokenStream

variable {stream other : TokenStream} {items : List (List Token)} {tokens : List Token}

theorem draft_sound (stream : TokenStream) : stream.draft.table.Sound stream.Has := by
  obtain ⟨x, hx⟩ := stream.completes
  exact hx.sound

theorem Declares.of_only (hsame : other.only tokens = stream.only tokens)
    (h : stream.Declares tokens) : other.Declares tokens where
  starts := h.starts
  reads := by
    rw [hsame]
    exact h.reads

theorem Assembled.of_only (hsame : ∀ tokens, other.only tokens = stream.only tokens) {R : Records}
    (h : stream.Assembled items R) : other.Assembled items R := by
  have halone : other.readAlone = stream.readAlone :=
    funext fun tokens => congrArg TokenStream.draft (hsame tokens)
  obtain ⟨hparts, hnames, hdiscarded, hproblems⟩ := h
  exact ⟨halone ▸ hparts, halone ▸ hnames, hdiscarded, hproblems⟩

/-- Two streams leave the same declarations. -/
structure Rearranges (stream other : TokenStream) (items : List (List Token)) : Prop where
  only : ∀ tokens, other.only tokens = stream.only tokens
  fits : stream.Fits
  fits' : other.Fits
  declares : ∀ tokens ∈ items, stream.Declares tokens ∧ (stream.only tokens).Fits
  left : stream.Assembled items stream.draft.records
  right : stream.Assembled items other.draft.records

theorem Assembled.stands {R : Records} (h : stream.Assembled items R) (hmem : tokens ∈ items) :
    ∃ E : Surroundings, E.Stands (stream.readAlone tokens).records R := by
  obtain ⟨parts, -, hparts⟩ := h.parts
  obtain ⟨i, hi⟩ := List.getElem?_of_mem hmem
  have hpart := rel_getElem? hparts i
  rw [hi] at hpart
  generalize parts[i]? = found at hpart
  cases hpart with
  | some hpart =>
      obtain ⟨E, hE⟩ := hpart
      exact ⟨E, hE.toStands⟩

namespace Rearranges

theorem symm (h : Rearranges stream other items) : Rearranges other stream items where
  only tokens := (h.only tokens).symm
  fits := h.fits'
  fits' := h.fits
  declares tokens hmem := by
    rw [h.only tokens]
    exact (h.declares tokens hmem).imp_left (.of_only (h.only tokens))
  left := .of_only h.only h.right
  right := .of_only h.only h.left

/-- How the symbols of the one stream are renumbered in the other. -/
abbrev numbers (_ : Rearranges stream other items) : Renumbering :=
  stream.draft.table.renumbering other.draft.table

/-- One of the declarations, where it stands in the one unit and in the other. -/
structure Piece (stream other : TokenStream) (tokens : List Token) (E E' : Surroundings) :
    Prop where
  declares : stream.Declares tokens
  fits : (stream.only tokens).Fits
  left : E.Stands (stream.readAlone tokens).records stream.draft.records
  right : E'.Stands (stream.readAlone tokens).records other.draft.records

theorem piece (h : Rearranges stream other items) (hmem : tokens ∈ items) :
    ∃ E E' : Surroundings, Piece stream other tokens E E' := by
  obtain ⟨E, hE⟩ := h.left.stands hmem
  obtain ⟨E', hE'⟩ := h.right.stands hmem
  exact ⟨E, E', (h.declares tokens hmem).1, (h.declares tokens hmem).2, hE, hE'⟩

namespace Piece

variable {E E' : Surroundings}

theorem symbol (h : Piece stream other tokens E E') {name : String} {a : Symbol}
    (hb : (stream.readAlone tokens).table.Binds name a) :
    (stream.draft.table.renumbering other.draft.table).symbol (E.symbol a) = E'.symbol a :=
  h.left.renumbers h.right (stream.only tokens).draft_sound other.draft_sound
    h.declares.discarded hb

theorem scope (h : Piece stream other tokens E E') {scope : ScopeId} {p : Procedure}
    (hp : (stream.readAlone tokens).table.scope? scope = some p) :
    (stream.draft.table.renumbering other.draft.table).scope (E.scope scope) = E'.scope scope :=
  h.left.renumbers_scope h.right (stream.only tokens).draft_sound other.draft_sound
    h.declares.discarded hp

end Piece

/-- Whatever the one unit declares is declared in one of the declarations. -/
theorem covered (h : Rearranges stream other items) {name : String} {a : Symbol}
    (hb : stream.draft.table.Binds name a) (houter : ∀ scope i, a ≠ .inner scope i) :
    ∃ tokens ∈ items, ∃ E E' : Surroundings, Piece stream other tokens E E' ∧
      ∃ b, (stream.readAlone tokens).table.Binds name b ∧ (∀ scope i, b ≠ .inner scope i) ∧
        a = E.symbol b := by
  obtain ⟨tokens, hmem, b, hbinds, hglobal⟩ := h.left.names name ⟨a, hb, houter⟩
  obtain ⟨E, E', hpiece⟩ := h.piece hmem
  refine ⟨tokens, hmem, E, E', hpiece, b, hbinds, hglobal, ?_⟩
  have hfound := stream.draft_sound.lookupGlobal_of_binds
    (hpiece.left.binds_symbol hpiece.declares.discarded hbinds) (E.outer_symbol hglobal)
  exact Option.some.inj ((stream.draft_sound.lookupGlobal_of_binds hb houter).symm.trans hfound)

/-- A global name means the same in both units. -/
theorem lookupGlobal (h : Rearranges stream other items) (name : String) :
    other.draft.table.lookupGlobal name =
      (stream.draft.table.lookupGlobal name).map h.numbers.symbol := by
  cases hl : stream.draft.table.lookupGlobal name with
  | some a =>
      obtain ⟨tokens, -, E, E', hpiece, b, hbinds, hglobal, rfl⟩ := h.covered
        (SymbolTable.binds_of_lookupGlobal hl).1 (SymbolTable.outer_of_lookupGlobal hl)
      rw [Option.map_some, hpiece.symbol hbinds]
      exact other.draft_sound.lookupGlobal_of_binds
        (hpiece.right.binds_symbol hpiece.declares.discarded hbinds) (E'.outer_symbol hglobal)
  | none =>
      refine Option.eq_none_iff_forall_ne_some.mpr fun a ha => ?_
      obtain ⟨tokens, hmem, b, hbinds, hglobal⟩ := h.right.names name
        ⟨a, (SymbolTable.binds_of_lookupGlobal ha).1, SymbolTable.outer_of_lookupGlobal ha⟩
      obtain ⟨E, E', hpiece⟩ := h.piece hmem
      have hfound := stream.draft_sound.lookupGlobal_of_binds
        (hpiece.left.binds_symbol hpiece.declares.discarded hbinds) (E.outer_symbol hglobal)
      cases hl.symm.trans hfound

/-- What is declared has its name in the other unit, too. -/
theorem binds (h : Rearranges stream other items) {name : String} {a : Symbol}
    (hb : stream.draft.table.Binds name a) (houter : ∀ scope i, a ≠ .inner scope i) :
    other.draft.table.Binds name (h.numbers.symbol a) := by
  obtain ⟨tokens, -, E, E', hpiece, b, hbinds, -, rfl⟩ := h.covered hb houter
  rw [hpiece.symbol hbinds]
  exact hpiece.right.binds_symbol hpiece.declares.discarded hbinds

theorem var_inverse (h : Rearranges stream other items) {name : String} {i : Nat}
    (hb : stream.draft.table.Binds name (.global i)) :
    h.symm.numbers.var (h.numbers.var i) = i :=
  SymbolTable.renumbering_var stream.draft_sound
    (h.binds hb fun _ _ h => Symbol.noConfusion h) hb

theorem proc_inverse (h : Rearranges stream other items) {name : String} {i : Nat}
    (hb : stream.draft.table.Binds name (.proc i)) :
    h.symm.numbers.proc (h.numbers.proc i) = i :=
  SymbolTable.renumbering_proc stream.draft_sound
    (h.binds hb fun _ _ h => Symbol.noConfusion h) hb

/-- Every symbol gets its number back. -/
theorem symbol_inverse (h : Rearranges stream other items) {name : String} {a : Symbol}
    (hb : stream.draft.table.Binds name a) :
    h.symm.numbers.symbol (h.numbers.symbol a) = a := by
  cases a with
  | global i => exact congrArg Symbol.global (h.var_inverse hb)
  | proc i => exact congrArg Symbol.proc (h.proc_inverse hb)
  | builtin i => rfl
  | inner scope k =>
      obtain ⟨_, _, _, hentry, -⟩ := hb
      obtain ⟨p, hp, -⟩ := Option.bind_eq_some_iff.mp hentry
      cases scope with
      | discarded j => rfl
      | proc i =>
          have hlabel := stream.draft_sound.binds_proc hp
          exact congrArg (fun j => Symbol.inner (.proc j) k) (h.proc_inverse hlabel)

/-- A mention in a declaration means the same in both units. -/
theorem Piece.meaning {E E' : Surroundings} (hpiece : Piece stream other tokens E E')
    (h : Rearranges stream other items) {referent : Referent}
    (hof : referent.IsOf (stream.readAlone tokens).table) :
    (E'.moved referent).meaning other.draft.table =
      ((E.moved referent).meaning stream.draft.table).map h.numbers.symbol := by
  cases hof with
  | symbol hb =>
      show some _ = some _
      rw [← hpiece.symbol hb]
  | @name name context hcontext =>
      have hlocal : (context.map E'.scope).bind (other.draft.table.lookupLocal · name) =
          ((context.map E.scope).bind (stream.draft.table.lookupLocal · name)).map
            h.numbers.symbol := by
        cases context with
        | none => rfl
        | some scope =>
            obtain ⟨p, hp⟩ := hcontext scope rfl
            cases scope with
            | discarded k =>
                cases (SymbolTable.scope?_discarded hpiece.declares.discarded k).symm.trans hp
            | proc i =>
                have hleft := hpiece.left.lookupLocal hp name
                have hright := hpiece.right.lookupLocal hp name
                show other.draft.table.lookupLocal (E'.scope (.proc i)) name =
                  (stream.draft.table.lookupLocal (E.scope (.proc i)) name).map _
                refine hright.trans (Eq.trans ?_ (congrArg _ hleft.symm))
                cases hl : (stream.readAlone tokens).records.table.lookupLocal (.proc i) name with
                | none => rfl
                | some a =>
                    obtain ⟨hb, -⟩ := SymbolTable.binds_of_lookupLocal hl
                    exact congrArg some (hpiece.symbol hb).symm
      show other.draft.table.lookup _ name = (stream.draft.table.lookup _ name).map _
      unfold SymbolTable.lookup SymbolTable.lookupDeclared
      rw [hlocal, h.lookupGlobal]
      cases (context.map E.scope).bind (stream.draft.table.lookupLocal · name) with
      | some a => rfl
      | none =>
          cases stream.draft.table.lookupGlobal name with
          | some a => rfl
          | none => cases Builtin.find? name <;> rfl

end Rearranges

end TokenStream

end SslFrontend
