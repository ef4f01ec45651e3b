import SslFrontend.Proofs.Arrangement.Declaration
import SslFrontend.Proofs.RejectedDefinitions

/-! # Pieces of a table

What a declaration leaves when it is read by itself stands somewhere in the tables
that a unit leaves, and stays there while the unit goes on.  A mention in it means
the symbol that it means by itself, moved to where that stands, or what its name
turns out to be at the end of the unit.
-/

namespace SslFrontend

/-- The same parameters and locals are found under the same names. -/
theorem Procedure.LikeScope.findLocal? {f : PoolId → PoolId} {V : Value → Value → Prop}
    {p q : Procedure} (h : p.LikeScope f V q) (name : String) :
    q.findLocal? name = p.findLocal? name := by
  rw [p.findLocal?_eq, q.findLocal?_eq]
  exact Pool.labelOf?_alike (SymbolTable.Placed.sameLabels (fun _ _ => id) h.locals) name

namespace Surroundings

variable (E : Surroundings) {r R R' : Records}

/-- What one run has left stands in what another one leaves. -/
structure Stands (r R : Records) : Prop where
  vars : ∀ i v, r.table.vars[i]? = some v → ∃ w, R.table.vars[E.vars.length + i]? = some w ∧
    v.Like (r.table.strings.SameText R.table.strings)
      (r.table.strings.SameValue R.table.strings) w
  procs : ∀ i p, r.table.procs[i]? = some p → ∃ q, R.table.procs[E.procs.length + i]? = some q ∧
    p.Like E.pool (r.table.strings.SameText R.table.strings)
      (r.table.strings.SameValue R.table.strings) (E.SameNode r R) q

variable {E}

theorem SameNode.later {a b : Node} (h : E.SameNode r R a b) (hp : R.pending.Grows R'.pending)
    (ht : R.table.Extends (fun _ => False) R'.table) : E.SameNode r R' a b := by
  cases h with
  | plain ha => exact .plain ha
  | literal hk kind pos hv => exact .literal hk kind pos (hv.grows (.refl _) ht.strings)
  | mention ha hb href => exact .mention ha (hb.grows hp) (href.extends ht)

theorem SameCitation.later {m m' : Citation} {t u : SymbolTable} (h : E.SameCitation t m m')
    (ht : t.Extends (fun _ => False) u) : E.SameCitation u m m' :=
  ⟨h.referent.extends ht, h.site, h.mention⟩

namespace Stands

/-- A piece stays where it stands. -/
theorem later (h : E.Stands r R) (hvars : R.table.vars <+: R'.table.vars)
    (hprocs : R.table.procs <+: R'.table.procs) (hp : R.pending.Grows R'.pending)
    (ht : R.table.Extends (fun _ => False) R'.table) : E.Stands r R' where
  vars i v hv := by
    obtain ⟨w, hw, hvw⟩ := h.vars i v hv
    exact ⟨w, SymbolTable.getElem?_of_prefix hvars hw, hvw.mono
      (fun _ _ hab => hab.grows (.refl _) ht.strings) fun _ _ hab => hab.grows (.refl _) ht.strings⟩
  procs i p hi := by
    obtain ⟨q, hq, hpq⟩ := h.procs i p hi
    refine ⟨q, SymbolTable.getElem?_of_prefix hprocs hq, ?_, ?_⟩
    · exact hpq.scope.mono fun _ _ hab => hab.grows (.refl _) ht.strings
    · exact hpq.shell.mono (fun _ _ hab => hab.grows (.refl _) ht.strings)
        fun _ _ hab => hab.later hp ht

/-! ## Symbols -/

theorem scope? (h : E.Stands r R) {i : Nat} {p : Procedure}
    (hp : r.table.scope? (.proc i) = some p) : ∃ q, R.table.scope? (E.scope (.proc i)) = some q ∧
      p.LikeScope E.pool (r.table.strings.SameValue R.table.strings) q := by
  obtain ⟨q, hq, hpq⟩ := h.procs i p hp
  exact ⟨q, hq, hpq.scope⟩

theorem lookupLocal (h : E.Stands r R) {i : Nat} {p : Procedure}
    (hp : r.table.scope? (.proc i) = some p) (name : String) :
    R.table.lookupLocal (E.scope (.proc i)) name =
      (r.table.lookupLocal (.proc i) name).map E.symbol := by
  obtain ⟨q, hq, hpq⟩ := h.scope? hp
  unfold SymbolTable.lookupLocal
  rw [hp, hq]
  simp only [Option.bind_eq_bind, Option.bind_some, hpq.findLocal? name, Option.map_map]
  rfl

/-- A symbol of the piece is the same declaration where the piece stands. -/
theorem binds (h : E.Stands r R) {name : String} {symbol : Symbol}
    (hb : r.table.Binds name symbol) (hs : ∀ k i, symbol ≠ .inner (.discarded k) i) :
    R.table.Binds name (E.symbol symbol) := by
  obtain ⟨pool, handle, pos, hentry, hfound⟩ := hb
  cases symbol with
  | global i =>
      obtain ⟨v, hv, heq⟩ := Option.map_eq_some_iff.mp hentry
      cases heq
      obtain ⟨w, hw, hvw⟩ := h.vars i v hv
      refine ⟨R.table.strings, w.name, w.declared, ?_, (hvw.name.find?_iff name).mp hfound⟩
      simp [SymbolTable.declaration?, Placement.symbol, hw, Variable.label]
  | proc i =>
      obtain ⟨p, hp, heq⟩ := Option.map_eq_some_iff.mp hentry
      cases heq
      obtain ⟨q, hq, hpq⟩ := h.procs i p hp
      refine ⟨R.table.strings, q.name, q.declared, ?_, (hpq.shell.name.find?_iff name).mp hfound⟩
      simp [SymbolTable.declaration?, Placement.symbol, hq, Procedure.label]
  | inner scope k =>
      cases scope with
      | discarded j => exact absurd rfl (hs j k)
      | proc i =>
          obtain ⟨p, hp, hlocal⟩ := Option.bind_eq_some_iff.mp hentry
          obtain ⟨v, hv, heq⟩ := Option.map_eq_some_iff.mp hlocal
          cases heq
          obtain ⟨q, hq, hpq⟩ := h.scope? hp
          have hvw := rel_getElem? hpq.locals k
          rw [hv] at hvw
          generalize hw : q.locals[k]? = found at hvw
          cases hvw with
          | @some _ w hvw =>
              refine ⟨q.namelist, w.name, w.declared, ?_, (hvw.name.find?_iff name).mp hfound⟩
              simp [SymbolTable.declaration?, Placement.symbol, hq, hw, Variable.label]
  | builtin i => cases hentry

/-- What stands for a variable of the piece has its name. -/
theorem binds_var (h : E.Stands r R) {name : String} {i : Nat} (hi : i < r.table.vars.length)
    (hb : R.table.Binds name (.global (E.vars.length + i))) : r.table.Binds name (.global i) := by
  obtain ⟨w, hw, hvw⟩ := h.vars i _ (List.getElem?_eq_getElem hi)
  obtain ⟨pool, handle, pos, hentry, hfound⟩ := hb
  obtain ⟨w', hw', heq⟩ := Option.map_eq_some_iff.mp hentry
  cases heq
  cases hw.symm.trans hw'
  refine ⟨_, _, r.table.vars[i].declared, ?_, (hvw.name.find?_iff name).mpr hfound⟩
  simp [SymbolTable.declaration?, hi, Variable.label]

theorem binds_proc (h : E.Stands r R) {name : String} {i : Nat} (hi : i < r.table.procs.length)
    (hb : R.table.Binds name (.proc (E.procs.length + i))) : r.table.Binds name (.proc i) := by
  obtain ⟨q, hq, hpq⟩ := h.procs i _ (List.getElem?_eq_getElem hi)
  obtain ⟨pool, handle, pos, hentry, hfound⟩ := hb
  obtain ⟨q', hq', heq⟩ := Option.map_eq_some_iff.mp hentry
  cases heq
  cases hq.symm.trans hq'
  refine ⟨_, _, r.table.procs[i].declared, ?_, (hpq.shell.name.find?_iff name).mpr hfound⟩
  simp [SymbolTable.declaration?, hi, Procedure.label]

end Stands

end Surroundings

/-! ## Meanings -/

/-- What a mention means at the end. -/
def Referent.meaning (t : SymbolTable) : Referent → Option Symbol
  | .symbol a => some a
  | .name label context => t.lookup context label

/-- A mention in a piece, seen from where the piece stands. -/
def Placement.moved (P : Placement) : Referent → Referent
  | .symbol a => .symbol (P.symbol a)
  | .name label context => .name label (context.map P.scope)

/-- No parameter or local has the name of a variable or procedure of the unit. -/
def SymbolTable.Unshadowed (t : SymbolTable) : Prop :=
  ∀ scope name, t.HasGlobal name → t.lookupLocal scope name = none

namespace SymbolTable

variable {t : SymbolTable} {known : Position → Prop} {name : String} {symbol : Symbol}

/-- Where nothing is shadowed, the name of a global means it in every scope. -/
theorem Unshadowed.lookup (h : t.Unshadowed) (hs : t.Sound known) (hb : t.Binds name symbol)
    (houter : ∀ scope i, symbol ≠ .inner scope i) (context : Option ScopeId) :
    t.lookup context name = some symbol := by
  have hlocal : context.bind (t.lookupLocal · name) = none := by
    cases context with
    | none => rfl
    | some scope => exact h scope name ⟨symbol, hb, houter⟩
  unfold SymbolTable.lookup lookupDeclared
  rw [hlocal, hs.lookupGlobal_of_binds hb houter]
  rfl

end SymbolTable

namespace Surroundings

variable {E : Surroundings} {r R : Records} {known : Position → Prop}

theorem SameReferent.meaning {referent referent' : Referent} {t : SymbolTable}
    (h : E.SameReferent t referent referent') (hs : t.Sound known) (hu : t.Unshadowed) :
    referent'.meaning t = (E.moved referent).meaning t := by
  cases h with
  | symbol symbol => rfl
  | name name context => rfl
  | taken context hmem hbinds houter =>
      exact (hu.lookup hs hbinds houter (context.map E.scope)).symm

end Surroundings

/-! ## Nodes -/

/-- Tables that are small enough for nodes to tell all that is in them apart. -/
structure Records.Small (r : Records) : Prop where
  bounded : r.table.Bounded Value.maxIndex
  names : r.pending.names.length ≤ Value.maxIndex

theorem Value.ofIndex_inj {i j : Nat} (hi : i < maxIndex) (h : ofIndex i = ofIndex j) : j = i := by
  have hi' := index?_ofIndex (Nat.le_of_lt hi)
  have hsame : ofIndex (min j maxIndex) = ofIndex j := by
    unfold ofIndex
    rw [Nat.min_assoc, Nat.min_self]
  rw [h, ← hsame, index?_ofIndex (Nat.min_le_right _ _)] at hi'
  have hmin : min j maxIndex = i := Option.some.inj hi'
  omega

namespace Records

variable {r : Records} {pos : Position} {referent : Referent} {node : Node}

theorem Shows.not_plain (h : r.Shows pos referent node) : node.isPlain = false := by
  cases h with
  | symbol symbol => cases symbol <;> rfl
  | name _ => rfl

theorem Shows.not_literal (h : r.Shows pos referent node) : node.kind.isLiteral = false := by
  cases h with
  | symbol symbol => cases symbol <;> rfl
  | name _ => rfl

theorem Shows.isMention (h : r.Shows pos referent node) :
    node.kind.isMention = true ∨ node.kind = .builtin := by
  cases h with
  | symbol symbol => cases symbol <;> first | exact .inl rfl | exact .inr rfl
  | name _ => exact .inl rfl

end Records

namespace SymbolTable.Binds

variable {t : SymbolTable} {name : String} {symbol : Symbol} {n : Nat}

theorem index_lt (h : t.Binds name symbol) (hb : t.Bounded n) : symbol.index < n := by
  obtain ⟨pool, handle, pos, hentry, -⟩ := h
  cases symbol with
  | global i =>
      obtain ⟨v, hv, -⟩ := Option.map_eq_some_iff.mp hentry
      exact Nat.lt_of_lt_of_le (List.getElem?_eq_some_iff.mp hv).1 hb.vars
  | proc i =>
      obtain ⟨p, hp, -⟩ := Option.map_eq_some_iff.mp hentry
      exact Nat.lt_of_lt_of_le (List.getElem?_eq_some_iff.mp hp).1 hb.procs
  | inner scope i =>
      obtain ⟨p, hp, hlocal⟩ := Option.bind_eq_some_iff.mp hentry
      obtain ⟨v, hv, -⟩ := Option.map_eq_some_iff.mp hlocal
      exact Nat.lt_of_lt_of_le (List.getElem?_eq_some_iff.mp hv).1 (hb.locals hp)
  | builtin i => cases hentry

end SymbolTable.Binds

/-- What a node mentions can be told from it, but for the scope of a local. -/
theorem Records.Shows.unique {r : Records} {pos pos' : Position} {referent referent' : Referent}
    {node : Node} (h : r.Shows pos referent node) (h' : r.Shows pos' referent' node)
    (hsmall : r.Small) (hof : referent.IsOf r.table) :
    pos' = pos ∧ (referent' = referent ∨ ∃ scope scope' i,
      referent = .symbol (.inner scope i) ∧ referent' = .symbol (.inner scope' i)) := by
  cases h with
  | symbol a =>
      generalize hnode : a.toNode pos = node at h'
      cases hof with
      | symbol hbinds =>
          cases h' with
          | name _ => cases a <;> cases hnode
          | symbol b =>
              have hindex := Value.ofIndex_inj (hbinds.index_lt hsmall.bounded)
                (congrArg Node.value hnode)
              have hpos : pos = pos' := congrArg Node.pos hnode
              refine ⟨hpos.symm, ?_⟩
              have hkind : a.nodeKind = b.nodeKind := congrArg Node.kind hnode
              cases a <;> cases b <;> first
                | cases hkind; done
                | exact .inl (congrArg _ (congrArg _ hindex))
                | exact .inr ⟨_, _, _, rfl, congrArg _ (congrArg _ hindex)⟩
  | @name place p hplace =>
      generalize hnode : Pending.node place pos = node at h'
      cases h' with
      | symbol b => cases b <;> cases hnode
      | @name place' q hplace' =>
          have hlt := Nat.lt_of_lt_of_le (List.getElem?_eq_some_iff.mp hplace).1 hsmall.names
          obtain rfl : place' = place := Value.ofIndex_inj hlt (congrArg Node.value hnode)
          have hpos : pos = pos' := congrArg Node.pos hnode
          cases hplace.symm.trans hplace'
          exact ⟨hpos.symm, .inl rfl⟩

namespace Surroundings

variable {E : Surroundings} {r R : Records} {a b : Node}

/-- A node that mentions nothing has the same value. -/
theorem SameNode.of_value (h : E.SameNode r R a b) (hk : a.kind.isMention = false)
    (hbuiltin : a.kind ≠ .builtin) : b.kind = a.kind ∧ b.pos = a.pos ∧
      r.table.strings.SameValue R.table.strings a.value b.value := by
  cases h with
  | plain hplain =>
      refine ⟨rfl, rfl, ?_⟩
      cases hv : a.value with
      | int n => exact .int n
      | float x => exact .float x
      | string handle =>
          unfold Node.isPlain at hplain
          rw [hv] at hplain
          cases hkind : a.kind <;> rw [hkind] at hplain <;> cases hplain
  | literal _ kind pos hv => exact ⟨kind, pos, hv⟩
  | mention ha _ _ =>
      rcases ha.isMention with hmention | hkind
      · rw [hk] at hmention
        cases hmention
      · exact absurd hkind hbuiltin

/-- A node that mentions something of the piece mentions the same in both runs. -/
theorem SameNode.of_mention {referent : Referent} (h : E.SameNode r R a b) (hsmall : r.Small)
    (hshows : r.Shows a.pos referent a) (hof : referent.IsOf r.table) :
    ∃ referent', R.Shows a.pos referent' b ∧ E.SameReferent R.table referent referent' := by
  cases h with
  | plain hplain => exact absurd (hplain.symm.trans hshows.not_plain) (by simp)
  | literal hk _ _ _ => exact absurd (hk.symm.trans hshows.not_literal) (by simp)
  | mention ha hb href =>
      obtain ⟨rfl, rfl | ⟨scope, scope', i, rfl, rfl⟩⟩ := hshows.unique ha hsmall hof
      · exact ⟨_, hb, href⟩
      · cases href with
        | symbol _ =>
            cases hb with
            | symbol _ => exact ⟨_, .symbol (E.symbol (.inner scope i)), .symbol _⟩

end Surroundings

end SslFrontend
