import SslFrontend.Proofs.Run.Known
import SslFrontend.Proofs.Twin.Parted

/-! # Bodies of rejected headers

The body of a rejected header is read in a scope of its own.  Beside the table
of that scope, it only adds texts and pending names: variables, procedures and
the scopes of other rejected headers stay as they are.
-/

namespace SslFrontend

namespace SymbolTable

/-- Only one scope of a rejected header, and texts, may be new or changed. -/
structure Aside (k : Nat) (t u : SymbolTable) : Prop where
  vars : u.vars = t.vars
  procs : u.procs = t.procs
  strings : t.strings.Grows u.strings
  discarded : ∀ i, i ≠ k → u.discarded[i]? = t.discarded[i]?
  count : t.discarded.length ≤ u.discarded.length

namespace Aside

variable {k : Nat} {t u w : SymbolTable}

theorem refl (t : SymbolTable) : t.Aside k t := ⟨rfl, rfl, .refl _, fun _ _ => rfl, Nat.le_refl _⟩

theorem trans (h₁ : t.Aside k u) (h₂ : u.Aside k w) : t.Aside k w where
  vars := h₂.vars.trans h₁.vars
  procs := h₂.procs.trans h₁.procs
  strings := h₁.strings.trans h₂.strings
  discarded i hi := (h₂.discarded i hi).trans (h₁.discarded i hi)
  count := Nat.le_trans h₁.count h₂.count

theorem strings_only (t : SymbolTable) {strings : Pool} (h : t.strings.Grows strings) :
    t.Aside k { t with strings := strings } :=
  ⟨rfl, rfl, h, fun _ _ => rfl, Nat.le_refl _⟩

theorem modifyScope (t : SymbolTable) (f : Procedure → Procedure) :
    t.Aside k (t.modifyScope (.discarded k) f) :=
  ⟨rfl, rfl, .refl _, fun _ hi => List.getElem?_modify_ne f t.discarded (Ne.symm hi),
    Nat.le_of_eq (List.length_modify f t.discarded k).symm⟩

theorem modifyVariable (t : SymbolTable) {symbol : Symbol}
    (h : symbol.IsIn (some (.discarded k))) (f : Variable → Variable) :
    t.Aside k (t.modifyVariable symbol f) := by
  cases symbol with
  | inner scope i =>
      obtain rfl : scope = .discarded k := h
      exact modifyScope t _
  | global i => exact h.elim
  | proc i => exact h.elim
  | builtin i => exact h.elim

theorem declareLocal {name : String} {pos : Position} {symbol : Symbol}
    (h : t.declareLocal (.discarded k) name pos = .ok (symbol, u)) : t.Aside k u := by
  obtain ⟨p, handle, namelist, -, -, -, -, rfl⟩ := declareLocal_spec h
  exact modifyScope t _

theorem setParams (t : SymbolTable) (params : List Param) :
    t.Aside k (t.setParams (.discarded k) params).1 := by
  refine setParams_induct (P := t.Aside k) (refl t) (fun u problems param hu => ?_) fun u hu =>
    hu.trans (modifyScope u _)
  obtain heq | ⟨symbol, v, hv, heq⟩ := @addParam_cases u (.discarded k) problems param
  · rwa [heq]
  · rw [heq]
    obtain ⟨p, handle, namelist, -, -, -, rfl, -⟩ := declareLocal_spec hv
    exact hu.trans ((declareLocal hv).trans (modifyVariable v (by rfl) _))

/-- A scope is opened for a rejected header. -/
theorem declareDiscarded {header : Header} {scope : ScopeId} {problems : List Diagnostic}
    (h : t.declareDiscarded header = .ok (scope, u, problems)) :
    scope = .discarded t.discarded.length ∧ t.Aside t.discarded.length u ∧
      t.discarded.length < u.discarded.length := by
  obtain ⟨handle, namelist, rfl, rfl⟩ := declareDiscarded_spec h
  have hlength : (t.disowned header handle namelist).discarded.length = t.discarded.length + 1 :=
    List.length_append
  have hopened : t.Aside t.discarded.length (t.disowned header handle namelist) := by
    refine ⟨rfl, rfl, .refl _, fun i hi => ?_, by omega⟩
    show (t.discarded ++ [_])[i]? = _
    rcases Nat.lt_or_gt_of_ne hi with hlt | hgt
    · exact List.getElem?_append_left hlt
    · rw [List.getElem?_eq_none (Nat.le_of_lt hgt), List.getElem?_eq_none]
      rw [List.length_append, List.length_singleton]
      exact hgt
  have hparams := setParams (k := t.discarded.length) (t.disowned header handle namelist)
    header.params
  exact ⟨rfl, hopened.trans hparams, by have := hparams.count; omega⟩

end Aside

end SymbolTable

namespace ParserState

/-- Only one scope of a rejected header, texts and pending names may be new. -/
structure Aside (k : Nat) (s t : ParserState) : Prop where
  table : s.table.Aside k t.table
  pending : s.pending.Grows t.pending

namespace Aside

variable {k : Nat} {s t u : ParserState}

theorem refl (s : ParserState) : s.Aside k s := ⟨.refl _, .refl _⟩

theorem trans (h₁ : s.Aside k t) (h₂ : t.Aside k u) : s.Aside k u :=
  ⟨h₁.table.trans h₂.table, h₁.pending.trans h₂.pending⟩

/-- Nothing is declared outside of the scope. -/
theorem within {declares : Prop} {scope : Option ScopeId}
    (hscope : declares → scope = some (.discarded k)) :
    HoldsWithin declares scope (ParserState.Aside k) where
  refl := refl
  trans := trans
  move s _ _ := ⟨.refl _, .refl _⟩
  report s _ := ⟨.refl _, .refl _⟩
  intern s _ _ _ h := ⟨.strings_only _ (Pool.intern_spec h).1, .refl _⟩
  adjust hd s _ _ hin _ := ⟨.modifyVariable _ (hscope hd ▸ hin) _, .refl _⟩
  mention s name _ := by
    let s' : ParserState := { s with cursor := s.cursor.advance }
    refine ⟨?_, ?_⟩
    · rw [ParserState.mentioned_table]
      exact .refl _
    · cases hl : s'.table.lookupDeclared scope name with
      | some symbol =>
          rw [ParserState.mentioned_of_some _ hl]
          exact .refl _
      | none =>
          rw [ParserState.mentioned_of_none _ hl]
          exact (s'.pending.mention_spec name scope s'.ledger.next s.cursor.pos).grows
  declare hd s _ _ _ _ _ h := by
    obtain rfl := hscope hd
    exact ⟨.declareLocal h, .refl _⟩

end Aside

/-- Nothing is declared: only texts and pending names may be new. -/
def Undeclaring (s t : ParserState) : Prop := ∀ k, s.Aside k t

namespace Undeclaring

variable {s t : ParserState}

/-- What is read outside of bodies is a header, but for declarations. -/
theorem within : HoldsWithin False none Undeclaring :=
  have h : ∀ k, HoldsWithin False none (ParserState.Aside k) := fun _ => Aside.within nofun
  { refl := fun s k => (h k).refl s
    trans := fun h₁ h₂ k => (h k).trans (h₁ k) (h₂ k)
    move := fun s _ hc k => (h k).move s hc
    report := fun s ds k => (h k).report s ds
    intern := fun s _ _ _ hi k => (h k).intern s hi
    adjust := nofun
    mention := fun s _ hk k => (h k).mention s hk
    declare := nofun }

theorem reserve_along : Parse.Along Undeclaring Parse.reserve := fun _ _ => ⟨.refl _, .refl _⟩

theorem discarded_eq (h : s.Undeclaring t) : t.table.discarded = s.table.discarded :=
  List.ext_getElem? fun i => (h (i + 1)).table.discarded i (by omega)

end Undeclaring

end ParserState

namespace Parse

variable {k : Nat} {s u v : ParserState}

theorem body_aside (k : Nat) : Along (ParserState.Aside k) (body (.discarded k)) := by
  have hin : HoldsInside (some (.discarded k)) (ParserState.Aside k) :=
    ParserState.Aside.within fun _ => rfl
  refine .bind hin hin.pos fun start => .bind hin (hin.openBlock_along ?_) fun found => ?_
  · exact hin.statement_along rfl
  · refine .bind hin hin.cursor fun c => .bind hin (fun s => ?_) fun _ => ?_
    · exact ⟨.modifyScope s.table _, .refl _⟩
    · cases found.failure with
      | none => exact .pure hin _
      | some e => exact .throw hin e

theorem of_disown_ok {header : Header} {scope : ScopeId}
    (h : disown header s = .ok (some scope) u) :
    ∃ problems, s.table.declareDiscarded header = .ok (scope, u.table, problems) ∧
      u.pending = s.pending := by
  rw [disown_eq] at h
  cases hd : s.table.declareDiscarded header with
  | error problem =>
      rw [hd] at h
      cases h
  | ok found =>
      obtain ⟨scope', table, problems⟩ := found
      rw [hd] at h
      cases h
      exact ⟨problems, rfl, rfl⟩

/-- A scope of a rejected header is entered only where a header is rejected. -/
theorem enter_aside {header : Header} {params : List NumberedParam} {number : Nat}
    (h : enter header params number s = .ok (some (.discarded k)) u) :
    k = s.table.discarded.length ∧ s.Aside k u ∧ k < u.table.discarded.length := by
  have hspec := SymbolTable.declare_spec s.table header
  have hlook : enter header params number s = heed header params number
      (s.table.declare header).verdict { s with
        table := (s.table.declare header).table
        problems := ⟨s.problems.items ++ (s.table.declare header).problems⟩ } := rfl
  rw [hlook] at h
  cases hv : (s.table.declare header).verdict with
  | define index =>
      rw [hv] at h
      obtain ⟨-, t, -, h⟩ := of_bind_ok h
      obtain ⟨-, t', -, h⟩ := of_bind_ok h
      cases h
  | announce index =>
      rw [hv] at h
      obtain ⟨-, t, -, h⟩ := of_bind_ok h
      cases h
  | reject named =>
      rw [hv] at hspec h
      have hdisown : ∃ t : ParserState, t.table = s.table ∧ t.pending = s.pending ∧
          disown header t = .ok (some (.discarded k)) u := by
        rw [hspec.eq_of_reject] at h
        have hopens : ∀ t : ParserState, (if header.hasBody then disown header else return none :
            Parse (Option ScopeId)) t = .ok (some (.discarded k)) u →
              disown header t = .ok (some (.discarded k)) u := by
          intro t ht
          split at ht
          · exact ht
          · cases ht
        let t : ParserState :=
          { s with problems := ⟨s.problems.items ++ (s.table.declare header).problems⟩ }
        cases named with
        | none => exact ⟨t, rfl, rfl, hopens t h⟩
        | some i =>
            exact ⟨{ t with ledger := t.ledger.recordAt number (.proc i) header.pos .declaration },
              rfl, rfl, hopens _ h⟩
      obtain ⟨t, htable, hpending, hdisown⟩ := hdisown
      obtain ⟨problems, hd, hkept⟩ := of_disown_ok hdisown
      rw [htable] at hd
      obtain ⟨hscope, haside, hcount⟩ := SymbolTable.Aside.declareDiscarded hd
      cases hscope
      exact ⟨rfl, ⟨haside, by rw [hkept, hpending]; exact .refl _⟩, hcount⟩

/-- What is read of a header before it is declared. -/
theorem of_entry_ok {R : ParserState → ParserState → Prop} {declares : Prop}
    (hon : HoldsWithin declares none R) (hreserve : Along R reserve) {q : Qualifiers}
    {entered : Option ScopeId} (h : entry q s = .ok entered u) :
    ∃ header params number t, R s.skip t ∧ enter header params number t = .ok entered u := by
  obtain ⟨_, s₁, h₁, h⟩ := of_bind_ok h
  cases h₁
  obtain ⟨⟨name, pos⟩, s₂, h₂, h⟩ := of_bind_ok h
  obtain ⟨number, s₃, h₃, h⟩ := of_bind_ok h
  obtain ⟨params, s₄, h₄, h⟩ := of_bind_ok h
  obtain ⟨trigger, s₅, h₅, h⟩ := of_bind_ok h
  obtain ⟨kind, s₆, h₆, h⟩ := of_bind_ok h
  have hparts : R s.skip s₆ := hon.trans (Along.of_ok hon.expectIdent h₂) <|
    hon.trans (Along.of_ok hreserve h₃) <|
    hon.trans (Along.of_ok (hon.parameters_along hreserve) h₄) <|
    hon.trans (Along.of_ok hon.trigger_along h₅) (Along.of_ok hon.kind h₆)
  dsimp only at h
  split at h
  · obtain ⟨_, s₇, h₇, h⟩ := of_bind_ok h
    exact ⟨_, _, _, s₇, hon.trans hparts (Along.of_ok (.discard (hon.expect _)) h₇), h⟩
  · exact ⟨_, _, _, s₆, hparts, h⟩

namespace Enters

theorem position_lt {scope : ScopeId} (h : Enters scope s u) :
    s.cursor.position < u.cursor.position := by
  have hon := ParserState.Onward.throughout
  obtain ⟨q, t, hq, hk, hentry⟩ := h
  obtain ⟨header, params, number, t', ht, henter⟩ :=
    of_entry_ok (hon.inside none) hon.reserve_along hentry
  have hskip : t.skip.cursor.position = t.cursor.position + 1 :=
    Cursor.advance_position (by rw [hk]; nofun)
  have hst := (Along.of_ok (hon.inside none).qualifiers_along hq).cursor.position_le
  have htu := (ht.trans (Along.of_ok (hon.enter_along _ _ _) henter)).cursor.position_le
  omega

/-- A scope is opened for the body of a rejected header, and no other one. -/
theorem aside (h : Enters (.discarded k) s u) :
    k = s.table.discarded.length ∧ s.Aside k u ∧ k < u.table.discarded.length := by
  have hon := ParserState.Undeclaring.within
  obtain ⟨q, t, hq, -, hentry⟩ := h
  obtain ⟨header, params, number, t', ht, henter⟩ :=
    of_entry_ok hon ParserState.Undeclaring.reserve_along hentry
  obtain ⟨hk, haside, hcount⟩ := enter_aside henter
  have hst : s.Undeclaring t' := hon.trans (Along.of_ok hon.qualifiers_along hq)
    (hon.trans (hon.move t t.cursor.follows_advance) ht)
  exact ⟨by rw [hk, hst.discarded_eq], (hst k).trans haside, hcount⟩

end Enters

/-- An item is a definition whose header is rejected, and whose body is read. -/
def Rejects (s v : ParserState) : Prop :=
  ∃ k u, Enters (.discarded k) s u ∧ body (.discarded k) u = .ok ⟨⟩ v

namespace Rejects

theorem item_ok (h : Rejects s v) : item s = .ok [] v := by
  obtain ⟨k, u, henters, hbody⟩ := h
  rw [henters.item_eq, bind_ok hbody]
  rfl

theorem not_atEnd (h : Rejects s v) : s.cursor.atEnd = false := by
  obtain ⟨k, u, henters, -⟩ := h
  exact henters.not_atEnd

theorem position_lt (h : Rejects s v) : s.cursor.position < v.cursor.position := by
  obtain ⟨k, u, henters, hbody⟩ := h
  have hread := (Along.of_ok (ParserState.Onward.throughout.body_along _) hbody).cursor.position_le
  have hlt := henters.position_lt
  omega

/-- It leaves a scope of its own behind. -/
theorem aside (h : Rejects s v) : s.Aside s.table.discarded.length v ∧
    v.table.discarded.length = s.table.discarded.length + 1 := by
  obtain ⟨k, u, henters, hbody⟩ := h
  obtain ⟨rfl, hsu, hcount⟩ := henters.aside
  have huv := Along.of_ok (body_aside _) hbody
  have haside := hsu.trans huv
  refine ⟨haside, Nat.le_antisymm ?_ (Nat.lt_of_lt_of_le hcount huv.table.count)⟩
  have hnone : v.table.discarded[s.table.discarded.length + 1]? = none := by
    rw [haside.table.discarded _ (by omega)]
    exact List.getElem?_eq_none (Nat.le_succ _)
  exact List.getElem?_eq_none_iff.mp hnone

theorem itemRound_ok (h : Rejects s v) (main : Code) : itemRound main s = .ok (.inl main) v := by
  have hmoved : v.cursor.position ≠ s.cursor.position := Nat.ne_of_gt h.position_lt
  rw [Parse.itemRound_ok main h.not_atEnd h.item_ok, if_neg hmoved, List.append_nil]

end Rejects

end Parse

end SslFrontend
