import SslFrontend.Proofs.Misuse.Statement
import SslFrontend.Proofs.Run.Module

/-! # Payment for units

A procedure pays for the condition of its trigger and for its body, which the
table keeps, whether the procedure counts or not.  So from one item to the next
the budget falls by what was added to the main code, and a whole unit makes no
more uses than its tokens are worth (`TokenStream.draft_uses_le`).
-/

namespace SslFrontend

variable {stream : TokenStream} {u : Use} {w : Nat} {x y z : Config stream}

/-- From one configuration to any other: of the way there only the budget is
known. -/
def Freely (_ _ : Config stream) : Prop := True

instance : Covers (@Freely stream) := ⟨fun _ => trivial⟩

/-- Outside of all procedures, with some of the budget left. -/
structure Config.Affordable (u : Use) (w limit : Nat) (x : Config stream) : Prop where
  scope : x.scope = none
  budget : x.budget u w ≤ limit

namespace Config.Affordable

variable {limit : Nat}

theorem inner (h : x.Affordable u w limit) (hs : InnerSteps x y) : y.Affordable u w limit :=
  ⟨hs.scope_of h.scope, Nat.le_trans hs.budget_le h.budget⟩

theorem mono {more : Nat} (h : x.Affordable u w limit) (hle : limit ≤ more) :
    x.Affordable u w more :=
  ⟨h.scope, Nat.le_trans h.budget hle⟩

end Config.Affordable

/-- A production that stays outside of all procedures. -/
theorem Yields.freely {α : Type} {p : Parse α} {Q : α → Config stream → Prop}
    (h : Inner p x Q) :
    Yields Freely p x (fun a y => InnerSteps x y ∧ Q a y) fun y => InnerSteps x y :=
  (h.embed fun _ => trivial).weaken (fun _ _ _ => id) fun _ _ h => h.1

/-- A production that answers does not fail. -/
theorem Yields.surely {W α : Type} [HasState W] {R : W → W → Prop} {p : Parse α} {x : W}
    {Q : α → W → Prop} {E E' : W → Prop} (h : Yields R p x Q E)
    (hp : ∃ a s, p (HasState.state x) = .ok a s) : Yields R p x Q E' := by
  obtain ⟨a, s, hr⟩ := hp
  unfold Yields at h ⊢
  rw [hr] at h ⊢
  exact h

/-! ## Triggers -/

theorem keepFirst_pays {trigger : Trigger} {pos : Position} {found : Option Trigger}
    {limit : Nat} (ht : trigger.uses u + x.budget u w ≤ limit)
    (hf : ∀ t, found = some t → t.uses u + x.budget u w ≤ limit) :
    Inner (Parse.keepFirst trigger pos found) x fun t y => t.uses u + y.budget u w ≤ limit := by
  cases found with
  | none => exact .pure ht
  | some t => exact .ite (fun _ => .pure (hf t rfl)) fun _ => .report (.pure ht)

/-- The condition of a trigger is paid for. -/
theorem trigger_pays (hw : 1 ≤ w) (hx : x.scope = none) :
    Inner Parse.trigger x fun t y => t.uses u + y.budget u w ≤ x.budget u w := by
  refine Inner.rounds (I := fun t y => t.uses u + y.budget u w ≤ x.budget u w) ?_ ?_
  · exact Nat.le_of_eq (Nat.zero_add _)
  intro t y hxy ht
  have hread : InnerSteps y y.advance := .single (.move y _ _)
  have hy : y.advance.scope = none := hxy.scope_of hx
  -- Of the trigger so far and another one, only one is kept.
  have hkeep : ∀ (pos : Position) (found : Option Trigger) (z : Config stream), InnerSteps y z →
      (∀ t, found = some t → t.uses u + z.budget u w ≤ y.budget u w) →
      Inner (do return .inl (← Parse.keepFirst t pos found) : Parse (Trigger ⊕ Trigger)) z
        (roundPost (fun t z => t.uses u + z.budget u w ≤ x.budget u w)
          fun t z => t.uses u + z.budget u w ≤ x.budget u w) := by
    intro pos found z hyz hfound
    have hle := hyz.budget_le (u := u) (w := w)
    have hkept : Inner (Parse.keepFirst t pos found) z fun t v =>
        t.uses u + v.budget u w ≤ x.budget u w := by
      refine keepFirst_pays ?_ fun t ht => ?_
      · omega
      · have hpaid := hfound t ht
        omega
    exact Inner.bind hkept fun _ _ _ h => .pure h
  refine .pos (.kind ?_)
  split
  · refine .discard (.advance (Inner.bind (P := fun found z =>
      ∀ t, found = some t → t.uses u = 0) ?_ fun found z hyz hfound => ?_))
    · apply Inner.bind (expression_yields y.advance hy)
      intro code z _ _
      split
      · refine .pure ?_
        rintro _ ⟨⟩
        rfl
      · exact .report (.pure nofun)
    · refine hkeep _ _ z (hread.trans hyz) fun t ht => ?_
      rw [hfound t ht, Nat.zero_add]
      exact InnerSteps.budget_le (hread.trans hyz)
  · refine .discard (.advance (Inner.bind (expression_pays (u := u) hw y.advance hy) ?_))
    intro code z hyz hcode
    refine hkeep _ _ z (hread.trans hyz) ?_
    rintro _ ⟨⟩
    exact (hcode.earlier hread).uses
  · exact .pure ht

/-! ## Bodies -/

/-- A body is attached to a procedure that has no code of its own. -/
theorem SymbolTable.uses_attach_le (t : SymbolTable) (scope : ScopeId) (code : Code)
    (first last : Position) :
    (t.modifyScope scope (·.withBody code first last)).uses u ≤ t.uses u + Code.uses u code := by
  refine SymbolTable.uses_modifyScope_le fun p _ => ?_
  have hreturn : Code.uses u (code ++ [⟨.ret, .int 0, last⟩]) = Code.uses u code := by
    rw [Code.uses_append (Code.startsFresh_cons rfl [])]
    rfl
  simp only [Procedure.codeUses, Procedure.withBody, hreturn]
  omega

variable {limit : Nat}

namespace Config.Affordable

/-- A step of the table is paid for where it raises the uses by no more than was
paid before. -/
theorem setTable {table : SymbolTable} {scope : Option ScopeId}
    (hs : scope = none) (h : table.uses u + w * u.tokens x.cursor.rest ≤ limit) :
    ((x.setTable table).enter scope).Affordable u w limit :=
  ⟨hs, h⟩

end Config.Affordable

theorem body_pays {scope : ScopeId} (hw : u.Allowed stream w) (hx : x.scope = some scope)
    (hlimit : x.budget u w ≤ limit) :
    Yields Freely (Parse.body scope) x (fun _ y => y.Affordable u w limit)
      (Config.Affordable u w limit) := by
  have hblock : Yields Freely (Parse.openBlock (Parse.statement ⟨some scope, false⟩)) x
      (fun found y => x.Pays u w found.code y) (Config.Affordable u w limit) := by
    have hpays := openBlock_pays (statement_pays hw ⟨some scope, false⟩) hx
    have hanswers := (openBlock_yields (statement_yields ⟨some scope, false⟩) x hx).answers
    exact (Yields.freely hpays).surely hanswers |>.imp fun _ _ _ h => h.2
  refine .pos (.bind hblock ?_)
  intro found y _ hcode
  let attached := (y.setTable (y.table.modifyScope scope
    (·.withBody found.code x.cursor.pos y.cursor.previousPos))).enter none
  have hafford : attached.Affordable u w limit := by
    refine .setTable rfl ?_
    have hpaid := hcode.uses
    have hattach := SymbolTable.uses_attach_le (u := u) y.table scope found.code x.cursor.pos
      y.cursor.previousPos
    unfold Config.budget at hpaid
    unfold Config.budget at hlimit
    omega
  refine .cursor (.via (y := attached) (.single trivial) rfl ?_)
  cases found.failure with
  | some e => exact .throw hafford
  | none => exact .pure hafford

/-! ## Procedures -/

theorem Config.Affordable.freely {α : Type} {p : Parse α} {Q : α → Config stream → Prop}
    (hx : x.Affordable u w limit) (h : Inner p x Q) :
    Yields Freely p x (fun a y => InnerSteps x y ∧ Q a y) (Config.Affordable u w limit) :=
  (Yields.freely h).weaken (fun _ _ _ => id) fun _ _ hy => hx.inner hy

theorem discardedBody_pays {header : Header} (hw : u.Allowed stream w)
    (hx : x.Affordable u w limit) :
    Yields Freely (Parse.discardedBody header) x (fun _ y => y.Affordable u w limit)
      (Config.Affordable u w limit) := by
  refine .table ?_
  cases hd : x.table.declareDiscarded header with
  | error problem =>
      refine .report (.last (.moveCursor (Cursor.follows_skipBlock _) (.pure ?_)))
      exact hx.inner (.head (.report x _) (.single (.move _ _ _)))
  | ok found =>
      obtain ⟨scope, table, problems⟩ := found
      have huses := SymbolTable.uses_declareDiscarded_le (u := u) hd
      let entered := (x.setTable table).enter (some scope)
      refine .via (y := entered) (.single trivial) rfl (q := do
        Parse.reportAll problems
        Parse.body scope) (.reportAll (body_pays hw rfl ?_))
      have hbudget := hx.budget
      unfold Config.budget at hbudget ⊢
      show table.uses u + w * u.tokens x.cursor.rest ≤ limit
      omega

theorem follow_pays {header : Header} {params : List Parse.NumberedParam} {number : Nat}
    (hw : u.Allowed stream w) (hx : x.scope = none)
    (hpaid : header.trigger.uses u + x.budget u w ≤ limit) (hpos : stream.Has header.pos)
    (hparams : ∀ p ∈ params, stream.Has p.param.pos) :
    Yields Freely
      (do
        Parse.setTable (x.table.declare header).table
        Parse.reportAll (x.table.declare header).problems
        Parse.follow header params number (x.table.declare header).verdict) x
      (fun _ y => y.Affordable u w limit) (Config.Affordable u w limit) := by
  have huses := SymbolTable.uses_declare_le (u := u) x.table header
  let merged := x.setTable (x.table.declare header).table
  have hmerged : merged.budget u w ≤ limit := by
    unfold Config.budget at hpaid ⊢
    show (x.table.declare header).table.uses u + w * u.tokens x.cursor.rest ≤ limit
    omega
  have hidle : merged.Affordable u w limit := ⟨hx, hmerged⟩
  have hsaid : (merged.report (x.table.declare header).problems).Affordable u w limit :=
    hidle.inner (.single (.report merged _))
  cases (x.table.declare header).verdict with
  | define index =>
      refine .via (y := merged.enter (some (.proc index))) (.single trivial) rfl (q := do
        Parse.reportAll (x.table.declare header).problems
        Parse.follow header params number (.define index)) ?_
      refine .reportAll (.recordAt hpos (.bind (P := fun _ y => y.scope = some (.proc index) ∧
        y.budget u w ≤ limit) ?_ fun _ y _ hy => body_pays hw hy.1 hy.2))
      refine (Yields.freely (recordParams_yields (E := fun _ => True) hparams)).surely
        (recordParams_yields (E := fun _ => False) hparams).answers |>.imp fun _ y _ h => ?_
      refine ⟨h.1.scope_of rfl, Nat.le_trans h.1.budget_le ?_⟩
      exact hmerged
  | announce index =>
      refine .via (y := merged) (.single trivial) rfl (q := do
        Parse.reportAll (x.table.declare header).problems
        Parse.follow header params number (.announce index)) ?_
      exact .reportAll (.last (.recordAt hpos (.pure (hsaid.inner (.single (.record _ _ _ hpos))))))
  | reject named =>
      refine .via (y := merged) (.single trivial) rfl (q := do
        Parse.reportAll (x.table.declare header).problems
        Parse.follow header params number (.reject named)) (.reportAll ?_)
      have hdiscard : ∀ y : Config stream, y.Affordable u w limit →
          Yields Freely (if header.hasBody then Parse.discardedBody header else pure ()) y
            (fun _ z => z.Affordable u w limit) (Config.Affordable u w limit) :=
        fun y hy => .ite (fun _ => discardedBody_pays hw hy) fun _ => .pure hy
      cases named with
      | none => exact .pureBind (hdiscard _ hsaid)
      | some index =>
          exact .recordAt hpos (hdiscard _ (hsaid.inner (.single (.record _ _ _ hpos))))

theorem procedure_pays {q : Qualifiers} (hw : u.Allowed stream w) (hx : x.Affordable u w limit) :
    Yields Freely (Parse.procedure q) x (fun _ y => y.Affordable u w limit)
      (Config.Affordable u w limit) := by
  have hnext : x.advance.Affordable u w limit := hx.inner (.single (.move x _ _))
  refine .discard (.advance ?_)
  have hpos : stream.Has x.advance.cursor.pos := x.advance.tracked.has_pos
  refine .expectIdent hnext fun name _ => .reserve ?_
  have hidle := hnext.inner
    (.head (.move x.advance _ x.advance.cursor.follows_advance) (.single (.reserve _)))
  refine .bind (hidle.freely (parameters_yields hidle.scope)) ?_
  rintro params y _ ⟨hy, hparams⟩
  have hidle := hidle.inner hy
  refine .bind (hidle.freely (trigger_pays (u := u) hw.one hidle.scope)) ?_
  rintro trigger z _ ⟨hz, htrigger⟩
  have hpaid := Nat.le_trans htrigger hidle.budget
  have hidle := hidle.inner hz
  have hfinish : ∀ (v : Config stream) (hasBody : Bool), InnerSteps z v →
      Yields Freely (do
        let header : Header :=
          ⟨name, x.advance.cursor.pos, q.modifiers, trigger,
            params.map Parse.NumberedParam.param, hasBody⟩
        let declared := (← Parse.table).declare header
        Parse.setTable declared.table
        Parse.reportAll declared.problems
        Parse.follow header params x.advance.advance.state.ledger.next declared.verdict) v
      (fun _ y => y.Affordable u w limit) (Config.Affordable u w limit) := by
    intro v hasBody hzv
    have hle := hzv.budget_le (u := u) (w := w)
    refine .table (follow_pays hw (hidle.inner hzv).scope ?_ hpos fun p hp => ?_)
    · dsimp only
      omega
    · exact (hparams.1 p.param (List.mem_map_of_mem hp)).1
  refine .kind (.ite (fun _ => ?_) fun _ => hfinish z _ .refl)
  refine .discard (.expect hidle fun _ => hfinish z.advance _ (.single (.move z _ _)))

/-! ## Modules -/

/-- The code of an item is paid for, if not more was paid before. -/
structure Config.Spends (u : Use) (w limit : Nat) (code : Code) (x : Config stream) : Prop where
  fresh : code.StartsFresh
  scope : x.scope = none
  uses : Code.uses u code + x.budget u w ≤ limit

theorem item_pays (hw : u.Allowed stream w) (hx : x.Affordable u w limit) :
    Yields Freely Parse.item x (fun code y => y.Spends u w limit code)
      (Config.Affordable u w limit) := by
  refine .bind (hx.freely qualifiers_yields) ?_
  rintro q y _ ⟨hxy, _⟩
  have hy := hx.inner hxy
  have htop : ∀ p : Parse Code, Affords stream u w none p →
      Yields Freely p y (fun code z => z.Spends u w limit code) (Config.Affordable u w limit) := by
    intro p hp
    refine (hy.freely (hp y hy.scope)).imp fun code z _ h => ?_
    exact ⟨h.2.fresh, h.1.scope_of hy.scope, Nat.le_trans h.2.uses hy.budget⟩
  have hnil : ∀ z : Config stream, z.Affordable u w limit → z.Spends u w limit [] := by
    intro z hz
    refine ⟨nofun, hz.scope, ?_⟩
    rw [Code.uses, Nat.zero_add]
    exact hz.budget
  refine .kind ?_
  split
  · exact .bind (procedure_pays hw hy) fun _ z _ hz => .pure (hnil z hz)
  · exact htop _ (@variableDeclaration_pays stream u w .top hw.one q)
  · exact .ite (fun _ => htop _ (statement_pays hw .top)) fun _ => .cursor (.throw hy)

theorem Config.Spends.inner {code : Code} (h : x.Spends u w limit code) (hs : InnerSteps x y) :
    y.Spends u w limit code where
  fresh := h.fresh
  scope := hs.scope_of h.scope
  uses := by
    have huses := h.uses
    have hle := hs.budget_le (u := u) (w := w)
    omega

theorem itemRound_pays {code : Code} (hw : u.Allowed stream w) (hx : x.Spends u w limit code) :
    Yields Freely (Parse.itemRound code) x
      (roundPost (fun code y => y.Spends u w limit code) fun code y => y.Spends u w limit code)
      fun y => y.budget u w ≤ limit := by
  refine .cursor (.ite (fun _ => .pure hx) fun _ => ?_)
  have hprogress : ∀ (code : Code) (y : Config stream), y.Spends u w limit code →
      Yields Freely (do
        if (← Parse.cursor).position = x.cursor.position then discard Parse.advance
        return .inl code : Parse (Code ⊕ Code)) y
        (roundPost (fun code y => y.Spends u w limit code) fun code y => y.Spends u w limit code)
        fun y => y.budget u w ≤ limit := by
    intro code y hy
    refine .cursor (.ite (fun _ => .discard (.advance (.pure ?_))) fun _ => .pure hy)
    exact hy.inner (.single (.move y _ _))
  have huses := hx.uses
  -- What is left of the limit is what the item may spend.
  have hrest : x.Affordable u w (limit - Code.uses u code) := ⟨hx.scope, by omega⟩
  refine .bind (item_pays hw hrest).attempt fun found y _ hfound => ?_
  cases found with
  | ok more =>
      have hmore : y.Spends u w (limit - Code.uses u code) more := hfound
      refine .pureBind (hprogress _ y ⟨hx.fresh.append hmore.fresh, hmore.scope, ?_⟩)
      have hspent := hmore.uses
      rw [Code.uses_append hmore.fresh]
      omega
  | error e =>
      have hy : y.Affordable u w (limit - Code.uses u code) := hfound
      have hspends : y.Spends u w limit code := by
        have hbudget := hy.budget
        exact ⟨hx.fresh, hy.scope, by omega⟩
      refine .report (.bind (P := fun _ z => z.Spends u w limit code) ?_ fun _ z _ hz =>
        .pureBind (hprogress code z hz))
      refine (Yields.freely (recover_yields _ (E := fun _ => True))).surely
        (recover_yields _ (E := fun _ => False)).answers |>.imp fun _ z _ h => ?_
      exact (hspends.inner (.single (.report y _))).inner h.1

/-- A use is made no more often than its tokens are worth. -/
theorem TokenStream.draft_uses_le (hw : u.Allowed stream w) :
    Code.uses u stream.draft.main + stream.draft.table.uses u ≤ w * u.tokens stream.tokens := by
  have hstart : (Config.start stream).Spends u w (w * u.tokens stream.tokens) [] := by
    refine ⟨nofun, rfl, Nat.le_of_eq ?_⟩
    show 0 + (0 + w * u.tokens stream.tokens) = _
    omega
  have hitems : Yields Freely Parse.items (Config.start stream)
      (fun code y => y.Spends u w (w * u.tokens stream.tokens) code)
      fun y => y.budget u w ≤ w * u.tokens stream.tokens := by
    refine .repeatRounds (I := fun code y => y.Spends u w (w * u.tokens stream.tokens) code)
      ?_ hstart fun _ _ _ h => itemRound_pays hw h
    intro code z _ hz
    exact Nat.le_trans (Nat.le_add_left _ _) hz.uses
  unfold Yields at hitems
  unfold TokenStream.draft
  have hstate : HasState.state (Config.start stream) = .start stream := rfl
  rw [hstate] at hitems
  cases hr : Parse.items (.start stream) with
  | ok main s =>
      rw [hr] at hitems
      obtain ⟨y, rfl, -, hy⟩ := hitems
      have huses := hy.uses
      unfold Config.budget at huses
      show Code.uses u main + y.table.uses u ≤ _
      omega
  | error e s =>
      rw [hr] at hitems
      obtain ⟨y, rfl, -, hy⟩ := hitems
      unfold Config.budget at hy
      show 0 + y.table.uses u ≤ _
      omega

end SslFrontend
