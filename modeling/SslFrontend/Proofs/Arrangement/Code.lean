import SslFrontend.Proofs.Arrangement.Renumbering

/-! # Code of declarations in another order

A declaration is the same wherever it stands, and each node of it mentions the same
symbol, which has another number there.
-/

namespace SslFrontend

/-! ## The same, through a third one -/

/-- Lists that are both alike a third one are alike. -/
theorem rel_through {α β γ : Type} {A : α → β → Prop} {B : α → γ → Prop} {N : β → γ → Prop}
    {l : List α} {u : List β} {v : List γ} (hu : List.Forall₂ A l u) (hv : List.Forall₂ B l v)
    (hN : ∀ a ∈ l, ∀ b c, A a b → B a c → N b c) : List.Forall₂ N u v := by
  induction hu generalizing v with
  | nil =>
      cases hv
      exact .nil
  | @cons a b l u hab _ ih =>
      cases hv with
      | cons hac hv =>
          exact .cons (hN a List.mem_cons_self b _ hab hac)
            (ih hv fun a ha => hN a (List.mem_cons_of_mem _ ha))

namespace Pool

variable {P Q Q' : Pool}

theorem SameText.through {a b c : Handle} (h : P.SameText Q a b) (h' : P.SameText Q' a c) :
    Q.SameText Q' b c := by
  obtain ⟨text, ha, hb⟩ := h
  obtain ⟨text', ha', hc⟩ := h'
  obtain rfl := find?_inj ha ha'
  exact ⟨text, hb, hc⟩

theorem SameValue.through {v w w' : Value} (h : P.SameValue Q v w) (h' : P.SameValue Q' v w') :
    Q.SameValue Q' w w' := by
  cases h with
  | int n =>
      cases h'
      exact .int n
  | float x =>
      cases h'
      exact .float x
  | string h =>
      cases h' with
      | string h' => exact .string (h.through h')

end Pool

theorem Variable.Like.through {P Q Q' S S' S'' : Pool} {v w w' : Variable}
    (h : v.Like (P.SameText Q) (S.SameValue S') w)
    (h' : v.Like (P.SameText Q') (S.SameValue S'') w') :
    w.Like (Q.SameText Q') (S'.SameValue S'') w' where
  name := h.name.through h'.name
  scope := h'.scope.trans h.scope.symm
  value := h.value.through h'.value
  arrayLength := h'.arrayLength.trans h.arrayLength.symm
  declared := h'.declared.trans h.declared.symm
  initialized := h'.initialized.trans h.initialized.symm

theorem Trigger.Like.through {A B N : Node → Node → Prop} {a b c : Trigger}
    (h : a.Like (List.Forall₂ A) b) (h' : a.Like (List.Forall₂ B) c)
    (hN : ∀ code, a = .conditional code → ∀ x ∈ code, ∀ y z, A x y → B x z → N y z) :
    b.Like (List.Forall₂ N) c := by
  cases h with
  | none =>
      cases h'
      exact .none
  | timed time =>
      cases h'
      exact .timed time
  | conditional hb =>
      cases h' with
      | conditional hc => exact .conditional (rel_through hb hc (hN _ rfl))

/-- One and the same procedure in two places. -/
theorem Procedure.Like.through {f g k : PoolId → PoolId} {S S' S'' : Pool}
    {A B N : Node → Node → Prop} {p q q' : Procedure}
    (h : p.Like f (S.SameText S') (S.SameValue S') A q)
    (h' : p.Like g (S.SameText S'') (S.SameValue S'') B q')
    (hid : q'.namelist.id = k q.namelist.id)
    (hbody : ∀ x ∈ p.body, ∀ y z, A x y → B x z → N y z)
    (hcondition : ∀ code, p.trigger = .conditional code →
      ∀ x ∈ code, ∀ y z, A x y → B x z → N y z) :
    q.Like k (S'.SameText S'') (S'.SameValue S'') N q' where
  scope := {
    namelist := ⟨hid, h'.scope.namelist.texts.trans h.scope.namelist.texts.symm⟩
    locals := rel_through h.scope.locals h'.scope.locals fun _ _ _ _ hb hc => hb.through hc }
  shell := {
    name := h.shell.name.through h'.shell.name
    trigger := h.shell.trigger.through h'.shell.trigger hcondition
    modifiers := h'.shell.modifiers.trans h.shell.modifiers.symm
    numArgs := h'.shell.numArgs.trans h.shell.numArgs.symm
    minArgs := h'.shell.minArgs.trans h.shell.minArgs.symm
    defined := h'.shell.defined.trans h.shell.defined.symm
    declared := h'.shell.declared.trans h.shell.declared.symm
    span := h'.shell.span.trans h.shell.span.symm
    body := rel_through h.shell.body h'.shell.body hbody }

/-! ## Nodes -/

/-- One and the same node, with this many variables and procedures renumbered and
values compared by `V`. -/
inductive Node.Renumbered (σ : Renumbering) (vars procs : Nat) (V : Value → Value → Prop) :
    Node → Node → Prop
  | var {i : Nat} (h : i < vars) (pos : Position) :
      Renumbered σ vars procs V ((Symbol.global i).toNode pos)
        ((Symbol.global (σ.var i)).toNode pos)
  | proc {i : Nat} (h : i < procs) (pos : Position) :
      Renumbered σ vars procs V ((Symbol.proc i).toNode pos) ((Symbol.proc (σ.proc i)).toNode pos)
  | other {a b : Node} (var : a.kind ≠ .globalVar) (proc : a.kind ≠ .proc)
      (kind : b.kind = a.kind) (pos : b.pos = a.pos) (value : V a.value b.value) :
      Renumbered σ vars procs V a b

namespace Node.Renumbered

variable {σ : Renumbering} {vars procs : Nat} {V : Value → Value → Prop} {a b : Node}

theorem kind_eq (h : Renumbered σ vars procs V a b) : b.kind = a.kind := by
  cases h with
  | var _ _ => rfl
  | proc _ _ => rfl
  | other _ _ kind _ _ => exact kind

theorem pos_eq (h : Renumbered σ vars procs V a b) : b.pos = a.pos := by
  cases h with
  | var _ _ => rfl
  | proc _ _ => rfl
  | other _ _ _ pos _ => exact pos

/-- A symbol is renumbered where it is mentioned. -/
theorem of_symbol {t : SymbolTable} {symbol : Symbol} (pos : Position)
    (hint : ∀ n, V (.int n) (.int n))
    (h : (∃ name, t.Binds name symbol) ∨ ∃ i, symbol = .builtin i) :
    Renumbered σ t.vars.length t.procs.length V (symbol.toNode pos)
      ((σ.symbol symbol).toNode pos) := by
  cases symbol with
  | inner scope i => exact .other NodeKind.noConfusion NodeKind.noConfusion rfl rfl (hint _)
  | builtin i => exact .other NodeKind.noConfusion NodeKind.noConfusion rfl rfl (hint _)
  | global i =>
      rcases h with ⟨name, _, _, _, hentry, -⟩ | ⟨j, hj⟩
      · obtain ⟨v, hv, -⟩ := Option.map_eq_some_iff.mp hentry
        exact .var (List.getElem?_eq_some_iff.mp hv).1 pos
      · cases hj
  | proc i =>
      rcases h with ⟨name, _, _, _, hentry, -⟩ | ⟨j, hj⟩
      · obtain ⟨p, hp, -⟩ := Option.map_eq_some_iff.mp hentry
        exact .proc (List.getElem?_eq_some_iff.mp hp).1 pos
      · cases hj

end Node.Renumbered

/-- A mention becomes the symbol that it means. -/
theorem Records.Shows.resolved {stream : TokenStream} {pos : Position} {referent : Referent}
    {node : Node} (h : stream.draft.records.Shows pos referent node) (fits : stream.Fits)
    {symbol : Symbol} (hm : referent.meaning stream.draft.table = some symbol) :
    node.resolved stream.draft.found = symbol.toNode pos := by
  cases referent with
  | symbol a =>
      cases hm
      exact h.resolved_symbol _
  | name name context =>
      have hl : stream.draft.table.lookup context name = some symbol := hm
      rcases h.resolved_name fits with ⟨a, ha, hnode⟩ | ⟨hnone, -⟩
      · cases hl.symm.trans ha
        exact hnode
      · cases hl.symm.trans hnone

/-- Every name that waits is declared at the end. -/
def Draft.Resolves (draft : Draft) : Prop :=
  ∀ p ∈ draft.pending.names, draft.table.lookup p.context p.name ≠ none

theorem Records.Shows.meaning_ne_none {draft : Draft} {pos : Position} {referent : Referent}
    {node : Node} (h : draft.records.Shows pos referent node) (hr : draft.Resolves) :
    referent.meaning draft.table ≠ none := by
  cases h with
  | symbol a => exact Option.some_ne_none a
  | name hplace => exact hr _ (List.mem_of_getElem? hplace)

namespace TokenStream.Rearranges

variable {stream other : TokenStream} {items : List (List Token)} {tokens : List Token}

/-- One and the same node of the two units. -/
abbrev Numbered (h : Rearranges stream other items) : Node → Node → Prop :=
  Node.Renumbered h.numbers stream.draft.table.vars.length stream.draft.table.procs.length
    (stream.draft.table.strings.SameValue other.draft.table.strings)

/-- Every name is declared, and no local has the name of a global. -/
structure Plain (draft : Draft) : Prop where
  resolves : draft.Resolves
  unshadowed : draft.table.Unshadowed

namespace Piece

variable {E E' : Surroundings}

theorem small (h : Piece stream other tokens E E') : (stream.readAlone tokens).records.Small := by
  obtain ⟨x, hx⟩ := (stream.only tokens).completes
  have hlimit : (stream.only tokens).tokens.length ≤ Value.maxIndex := h.fits
  refine ⟨hx.bounded.mono hlimit, ?_⟩
  have hpending : (stream.readAlone tokens).pending = x.state.pending := hx.leaves.pending
  show (stream.readAlone tokens).pending.names.length ≤ _
  rw [hpending]
  exact Nat.le_trans hx.known.names (Nat.le_trans x.tracked.position_le hlimit)

/-- A node of a declaration in the one unit and in the other. -/
def Places (stream other : TokenStream) (tokens : List Token) (E E' : Surroundings)
    (a b : Node) : Prop :=
  ∃ c : Node, c.IsOf (stream.readAlone tokens).records ∧
    E.SameNode (stream.readAlone tokens).records stream.draft.records c a ∧
    E'.SameNode (stream.readAlone tokens).records other.draft.records c b

/-- What is meant is declared, or a built-in. -/
theorem meant (h : Piece stream other tokens E E') {referent : Referent}
    (hof : referent.IsOf (stream.readAlone tokens).table) {symbol : Symbol}
    (hm : (E.moved referent).meaning stream.draft.table = some symbol) :
    (∃ name, stream.draft.table.Binds name symbol) ∨ ∃ i, symbol = .builtin i := by
  cases hof with
  | symbol hb =>
      cases hm
      exact .inl ⟨_, h.left.binds_symbol h.declares.discarded hb⟩
  | name _ _ =>
      rcases (SymbolTable.offers_of_lookup hm).2 with hbinds | ⟨i, hbuiltin, -⟩
      · exact .inl ⟨_, hbinds⟩
      · exact .inr ⟨i, hbuiltin⟩

/-- One and the same node is renumbered. -/
theorem node (hpiece : Piece stream other tokens E E') (h : Rearranges stream other items)
    (hleft : Plain stream.draft) (hright : other.draft.table.Unshadowed) {a b : Node}
    (hab : Places stream other tokens E E' a b) :
    h.Numbered (a.resolved stream.draft.found) (b.resolved other.draft.found) := by
  obtain ⟨c, hof, ha, hb⟩ := hab
  cases hof with
  | value hk hbuiltin =>
      obtain ⟨hka, hpa, hva⟩ := ha.of_value hk hbuiltin
      obtain ⟨hkb, hpb, hvb⟩ := hb.of_value hk hbuiltin
      have hne : ∀ kind : NodeKind, kind.isMention = true → c.kind ≠ kind := by
        rintro kind hmention rfl
        cases hk.symm.trans hmention
      have hident := hne .ident rfl
      rw [Node.resolved_of_ne_ident _ (hka ▸ hident), Node.resolved_of_ne_ident _ (hkb ▸ hident)]
      exact .other (hka ▸ hne .globalVar rfl) (hka ▸ hne .proc rfl) (hkb.trans hka.symm)
        (hpb.trans hpa.symm) (hva.through hvb)
  | mention hshows hreferent =>
      obtain ⟨m, hm, hsame⟩ := ha.of_mention hpiece.small hshows hreferent
      obtain ⟨m', hm', hsame'⟩ := hb.of_mention hpiece.small hshows hreferent
      obtain ⟨symbol, hsymbol⟩ := Option.ne_none_iff_exists'.mp (hm.meaning_ne_none hleft.resolves)
      have hmeans := hsame.meaning stream.draft_sound hleft.unshadowed
      have hmeans' := hsame'.meaning other.draft_sound hright
      have hsymbol' : m'.meaning other.draft.table = some (h.numbers.symbol symbol) :=
        hmeans'.trans ((hpiece.meaning h hreferent).trans
          (congrArg (Option.map h.numbers.symbol) (hmeans.symm.trans hsymbol)))
      rw [hm.resolved h.fits hsymbol, hm'.resolved h.fits' hsymbol']
      exact .of_symbol c.pos (fun n => .int n) (hpiece.meant hreferent (hmeans.symm.trans hsymbol))

/-- A variable of a declaration, in the one unit and in the other. -/
theorem var (h : Piece stream other tokens E E') {i : Nat} {v : Variable}
    (hv : (stream.readAlone tokens).table.vars[i]? = some v) :
    ∃ w w', stream.draft.table.vars[E.vars.length + i]? = some w ∧
      other.draft.table.vars[E'.vars.length + i]? = some w' ∧
      w.Like (stream.draft.table.strings.SameText other.draft.table.strings)
        (stream.draft.table.strings.SameValue other.draft.table.strings) w' := by
  obtain ⟨w, hw, hvw⟩ := h.left.vars i v hv
  obtain ⟨w', hw', hvw'⟩ := h.right.vars i v hv
  exact ⟨w, w', hw, hw', hvw.through hvw'⟩

/-- A procedure of a declaration, in the one unit and in the other. -/
theorem procedure (h : Piece stream other tokens E E') {i : Nat} {p : Procedure}
    (hp : (stream.readAlone tokens).table.procs[i]? = some p) :
    ∃ q q', stream.draft.table.procs[E.procs.length + i]? = some q ∧
      other.draft.table.procs[E'.procs.length + i]? = some q' ∧
      q.Like (stream.draft.table.renumbering other.draft.table).pool
        (stream.draft.table.strings.SameText other.draft.table.strings)
        (stream.draft.table.strings.SameValue other.draft.table.strings)
        (Places stream other tokens E E') q' := by
  obtain ⟨q, hq, hpq⟩ := h.left.procs i p hp
  obtain ⟨q', hq', hpq'⟩ := h.right.procs i p hp
  have hof : p.IsOf (stream.readAlone tokens).records :=
    (stream.only tokens).procedure_isOf
      (show (stream.only tokens).draft.table.scope? (.proc i) = some p from hp)
  refine ⟨q, q', hq, hq', hpq.through hpq' ?_ ?_ ?_⟩
  · have hscope := h.scope (show (stream.readAlone tokens).table.scope? (.proc i) = some p from hp)
    rw [stream.draft_sound.namelists hq, other.draft_sound.namelists hq']
    exact congrArg PoolId.namelist (ScopeId.proc.inj hscope).symm
  · exact fun c hc a b ha hb => ⟨c, hof.body c hc, ha, hb⟩
  · exact fun code hcode c hc a b ha hb => ⟨c, hof.condition code hcode c hc, ha, hb⟩

end Piece

/-! ## The two units -/

variable (h : Rearranges stream other items)

include h

/-- Both units declare the same names. -/
theorem hasGlobal {name : String} (hname : other.draft.table.HasGlobal name) :
    stream.draft.table.HasGlobal name := by
  obtain ⟨a, hb, houter⟩ := hname
  obtain ⟨tokens, -, E', E, hpiece, b, hbinds, hglobal, -⟩ := h.symm.covered hb houter
  exact ⟨E.symbol b, hpiece.right.binds_symbol hpiece.declares.discarded hbinds,
    E.outer_symbol hglobal⟩

/-- Whether nothing is shadowed does not depend on the order. -/
theorem unshadowed (hleft : stream.draft.table.Unshadowed) : other.draft.table.Unshadowed := by
  intro scope name hglobal
  cases hl : other.draft.table.lookupLocal scope name with
  | none => rfl
  | some a =>
      exfalso
      obtain ⟨q, -, -, hq, -⟩ := SymbolTable.lookupLocal_eq_some.mp hl
      cases scope with
      | discarded k => cases (SymbolTable.scope?_discarded h.right.discarded k).symm.trans hq
      | proc j =>
          have hlabel := other.draft_sound.binds_proc hq
          obtain ⟨tokens, -, E', E, hpiece, b, hbinds, -, hb⟩ := h.symm.covered hlabel
            fun _ _ h => Symbol.noConfusion h
          cases b with
          | proc i =>
              obtain rfl : j = E'.procs.length + i := Symbol.proc.inj hb
              obtain ⟨_, _, _, hentry, -⟩ := hbinds
              obtain ⟨p, hp, -⟩ := Option.map_eq_some_iff.mp hentry
              have hthere : (other.readAlone tokens).records.table.scope? (.proc i) = some p := hp
              have hright := hpiece.left.lookupLocal hthere name
              have hnone := (hpiece.right.lookupLocal hthere name).symm.trans
                (hleft (E.scope (.proc i)) name (h.hasGlobal hglobal))
              rw [Option.map_eq_none_iff.mp hnone] at hright
              cases hl.symm.trans hright
          | _ => cases hb

/-- A variable of the one unit is one of the other. -/
theorem var {i : Nat} {v : Variable} (hv : stream.draft.table.vars[i]? = some v) :
    ∃ w, other.draft.table.vars[h.numbers.var i]? = some w ∧
      v.Like (stream.draft.table.strings.SameText other.draft.table.strings)
        (stream.draft.table.strings.SameValue other.draft.table.strings) w := by
  obtain ⟨name, hname⟩ := stream.draft_sound.binds_var hv
  obtain ⟨tokens, -, E, E', hpiece, b, hbinds, -, hb⟩ := h.covered hname
    fun _ _ h => Symbol.noConfusion h
  cases b with
  | global k =>
      obtain rfl : i = E.vars.length + k := Symbol.global.inj hb
      have hnumber : h.numbers.var (E.vars.length + k) = E'.vars.length + k :=
        Symbol.global.inj (hpiece.symbol hbinds)
      obtain ⟨_, _, _, hentry, -⟩ := hbinds
      obtain ⟨u, hu, -⟩ := Option.map_eq_some_iff.mp hentry
      obtain ⟨w, w', hw, hw', hlike⟩ := hpiece.var hu
      cases hv.symm.trans hw
      rw [hnumber]
      exact ⟨w', hw', hlike⟩
  | _ => cases hb

/-- A procedure of the one unit is one of the other. -/
theorem procedure {i : Nat} {p : Procedure} (hp : stream.draft.table.procs[i]? = some p) :
    ∃ tokens ∈ items, ∃ E E' : Surroundings, Piece stream other tokens E E' ∧
      ∃ q, other.draft.table.procs[h.numbers.proc i]? = some q ∧
        p.Like h.numbers.pool
          (stream.draft.table.strings.SameText other.draft.table.strings)
          (stream.draft.table.strings.SameValue other.draft.table.strings)
          (Piece.Places stream other tokens E E') q := by
  have hname := stream.draft_sound.binds_proc hp
  obtain ⟨tokens, hmem, E, E', hpiece, b, hbinds, -, hb⟩ := h.covered hname
    fun _ _ h => Symbol.noConfusion h
  cases b with
  | proc k =>
      obtain rfl : i = E.procs.length + k := Symbol.proc.inj hb
      have hnumber : h.numbers.proc (E.procs.length + k) = E'.procs.length + k :=
        Symbol.proc.inj (hpiece.symbol hbinds)
      obtain ⟨_, _, _, hentry, -⟩ := hbinds
      obtain ⟨u, hu, -⟩ := Option.map_eq_some_iff.mp hentry
      obtain ⟨q, q', hq, hq', hlike⟩ := hpiece.procedure hu
      cases hp.symm.trans hq
      refine ⟨tokens, hmem, E, E', hpiece, q', ?_, hlike⟩
      rw [hnumber]
      exact hq'
  | _ => cases hb

/-- At the end a procedure is the same in both units, with other numbers. -/
theorem finished (hleft : Plain stream.draft) {i : Nat} {p : Procedure}
    (hp : stream.draft.table.procs[i]? = some p) :
    ∃ q, other.draft.table.procs[h.numbers.proc i]? = some q ∧
      ((SymbolTable.closeProcedure p).resolved stream.draft.found).Like h.numbers.pool
        (stream.draft.table.strings.SameText other.draft.table.strings)
        (stream.draft.table.strings.SameValue other.draft.table.strings) h.Numbered
        ((SymbolTable.closeProcedure q).resolved other.draft.found) := by
  obtain ⟨tokens, -, E, E', hpiece, q, hq, hlike⟩ := h.procedure hp
  refine ⟨q, hq, hlike.close.resolve fun hcode => ?_⟩
  refine Code.resolved_rel (fun hab => ?_)
    (fun hab => hpiece.node h hleft (h.unshadowed hleft.unshadowed) hab) (fun hab => hab.kind_eq)
    (fun hab => .other NodeKind.noConfusion NodeKind.noConfusion rfl hab.pos_eq (.int 0)) hcode
  obtain ⟨c, -, ha, hb⟩ := hab
  exact hb.takesCallee.trans ha.takesCallee.symm

end TokenStream.Rearranges

end SslFrontend
