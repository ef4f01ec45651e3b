import SslFrontend.Parser.Statement
import SslFrontend.Proofs.Misuse.Payment
import SslFrontend.Proofs.Run.Statement

/-! # Payment for statements

An assignment makes the read and the store of its target out of one token.
Where the old value of an element goes into the new one, the code of the index
stands in it twice: the tokens of such an index must be worth two
(`TokenStream.Rereads`, `Use.Allowed`).  So weighed, an assignment is paid for
(`assignment_pays`).

Every statement makes code that it pays for (`statement_pays`).  What a malformed
statement read is spent as well, though none of its code is kept.
-/

namespace SslFrontend

/-! ## Payment for assignments -/

section

/-- A position in the index of an element to which something is added, or the
like: `a[index] += 1`. -/
def TokenStream.Rereads (stream : TokenStream) (pos : Position) : Prop :=
  ∃ before name nameAt opened closed e index op how after,
    stream.tokens = before ++
      ⟨.ident name, nameAt⟩ :: (Expr.bracketed opened closed index ++ op :: after) ∧
    Expr.Prints 1 e index ∧ Assignment.ofKind? op.kind = some how ∧ how ≠ .store ∧
    pos ∈ index.map Token.pos

/-- A weight that the tokens at the place of a use may have. -/
structure Use.Allowed (stream : TokenStream) (u : Use) (w : Nat) : Prop where
  one : 1 ≤ w
  two : u.stored = false → stream.Rereads u.pos → 2 ≤ w

namespace Use

variable {u : Use}

/-- How often the token of a target makes a use where something is stored. -/
def store (u : Use) (token : Token) : Nat := (u.stored && token.pos = u.pos).toNat

/-- One token reads and stores, but these are two uses. -/
theorem read_add_store_le (token : Token) : u.read token + u.store token ≤ u.tokens [token] := by
  unfold read store tokens
  cases u.stored <;> by_cases h : token.pos = u.pos <;> simp [h]

theorem reads_eq_zero {tokens : List Token} (h : u.stored = true ∨ u.pos ∉ tokens.map Token.pos) :
    u.reads tokens = 0 := by
  induction tokens with
  | nil => rfl
  | cons token rest ih =>
      have hrest := ih (h.imp_right fun hnot hmem => hnot (List.mem_cons_of_mem _ hmem))
      have hread : u.read token = 0 := by
        rcases h with hstored | hnot
        · simp [read, hstored]
        · have hne : token.pos ≠ u.pos := fun heq => hnot (heq ▸ List.mem_cons_self)
          simp [read, hne]
      rw [reads_cons, hread, hrest]

end Use

/-! ## Targets -/

namespace Assignment

/-- A target is its name, and an index that costs what its tokens read. -/
structure Priced (u : Use) (name : Token) (inside : List Token) (target : Node)
    (index : Option Code) : Prop where
  pos : target.pos = name.pos
  takes : target.kind.takesCallee = false
  index : Code.Costs u (index.getD []) (u.reads inside)

namespace Priced

variable {u : Use} {name : Token} {inside : List Token} {target : Node} {index : Option Code}
  (h : Priced u name inside target index)

include h

theorem value (pos : Position) :
    Code.Costs u (targetValue target index pos) (u.read name + u.reads inside) := by
  have hname : Code.Costs u [target] (u.read name) := .leaf h.takes h.pos nofun rfl
  cases index with
  | none => exact hname.mono (Nat.le_add_right _ _)
  | some code => exact (hname.append h.index).append (.plain rfl rfl)

theorem stored (pos : Position) :
    Code.Costs u (targetStore target index pos) (u.store name + u.reads inside) := by
  have hname : ∀ user : Node, user.kind.isStore = true → user.kind.isSymbol = false →
      Code.Costs u [target, user] (u.store name) := by
    intro user hstore hsymbol
    refine ⟨Code.startsFresh_cons h.takes _, ?_⟩
    simp only [Code.uses, Code.makes, Code.beginsWithStore, List.head?_cons, Option.any_some,
      hstore, hsymbol, h.pos, Use.store]
    cases u.stored <;> cases target.kind.isSymbol <;> simp
  cases index with
  | none => exact (hname _ rfl rfl).mono (Nat.le_add_right _ _)
  | some code => exact (h.index.append (hname _ rfl rfl)).mono (Nat.le_of_eq (Nat.add_comm _ _))

end Priced

end Assignment

theorem Assignment.costs_of_ofKind? {u : Use} {kind : TokenKind} {op : NodeKind}
    (h : ofKind? kind = some (.compound op) ∨ ofKind? kind = some (.step op)) (pos : Position) :
    Code.Costs u [Node.op op pos] 0 := by
  unfold ofKind? at h
  split at h <;> simp at h <;> subst h <;> exact .plain rfl rfl

/-! ## Runs -/

variable {stream : TokenStream} {u : Use} {w : Nat} {scope : Option ScopeId}
  {x y z : Config stream}

/-- Behind a target that was read from `x`. -/
structure Config.Targets (u : Use) (x : Config stream) (name : Token) (front inside : List Token)
    (target : Node) (index : Option Code) (y : Config stream) : Prop where
  steps : InnerSteps x y
  reads : x.cursor.Reads front y.cursor
  priced : Assignment.Priced u name inside target index
  /-- All that the target is read from is there. -/
  within : u.tokens [name] + u.tokens inside ≤ u.tokens front
  /-- Where an operator other than a store comes next, the index is read twice. -/
  rereads : ∀ how, Assignment.ofKind? y.cursor.kind = some how → how ≠ .store →
    ∀ pos ∈ inside.map Token.pos, stream.Rereads pos

namespace Config.Targets

variable {name : Token} {front inside value : List Token} {target : Node} {index : Option Code}
  {how : Assignment} {code : Code} {n : Nat}

theorem scalar {name : String} {pos : Position} {target : Node} (hs : InnerSteps x y)
    (hr : x.cursor.Reads [⟨.ident name, pos⟩] y.cursor) (hpos : target.pos = pos)
    (htakes : target.kind.takesCallee = false) :
    x.Targets u ⟨.ident name, pos⟩ [⟨.ident name, pos⟩] [] target none y where
  steps := hs
  reads := hr
  priced := ⟨hpos, htakes, .nil⟩
  within := Nat.le_refl _
  rereads := nofun

/-- A target with an index that was read in brackets. -/
theorem element {name : String} {pos opened closed : Position} {target : Node} {e : Expr}
    (hs : InnerSteps x y)
    (hr : x.cursor.Reads (⟨.ident name, pos⟩ :: Expr.bracketed opened closed inside) y.cursor)
    (hpos : target.pos = pos) (htakes : target.kind.takesCallee = false)
    (hprints : Expr.Prints 1 e inside) (hcode : Code.Costs u code (u.reads inside)) :
    x.Targets u ⟨.ident name, pos⟩ (⟨.ident name, pos⟩ :: Expr.bracketed opened closed inside)
      inside target (some code) y where
  steps := hs
  reads := hr
  priced := ⟨hpos, htakes, hcode⟩
  within := by
    simp only [Use.tokens, Expr.bracketed, List.countP_cons, List.countP_append, List.countP_nil]
    omega
  rereads := by
    intro how hop hne place hplace
    have heof : y.cursor.kind ≠ .eof := by
      intro heof
      rw [heof] at hop
      cases hop
    obtain ⟨before, hbefore, -⟩ := x.tracked
    have hstream : stream.tokens = before ++ x.cursor.rest := hbefore
    rw [hr.rest, (Cursor.reads_advance heof).rest] at hstream
    exact ⟨before, name, pos, opened, closed, e, inside, y.cursor.current, how,
      y.cursor.advance.rest, by simpa using hstream, hprints, hop, hne, hplace⟩

theorem twice (h : x.Targets u name front inside target index y) (hw : u.Allowed stream w)
    (hop : Assignment.ofKind? y.cursor.kind = some how) (hne : how ≠ .store) :
    2 * u.reads inside ≤ w * u.tokens inside := by
  by_cases hread : u.stored = false ∧ u.pos ∈ inside.map Token.pos
  · have htwo := hw.two hread.1 (h.rereads how hop hne _ hread.2)
    exact Nat.mul_le_mul htwo (u.reads_le_tokens inside)
  · have hzero : u.reads inside = 0 := by
      refine Use.reads_eq_zero ?_
      rwa [not_and_or, Bool.not_eq_false] at hread
    rw [hzero]
    exact Nat.zero_le _

/-- What is assigned is paid for by the target and the value. -/
theorem pays (h : x.Targets u name front inside target index y) (hw : 1 ≤ w)
    (hop : Assignment.ofKind? y.cursor.kind = some how) (hs : InnerSteps y.advance z)
    (hr : y.advance.cursor.Reads value z.cursor) (hc : Code.Costs u code n)
    (hn : n ≤ u.tokens [name] + w * u.tokens inside + u.reads value) : x.Pays u w code z := by
  have hne : y.cursor.kind ≠ .eof := by
    intro heof
    rw [heof] at hop
    cases hop
  have hall := (h.reads.trans (Cursor.reads_advance hne)).trans hr
  have hsteps : InnerSteps x z := h.steps.trans (.head (.move y _ _) hs)
  refine .of_costs hsteps hall.rest hc ?_
  have hname : u.tokens [name] ≤ w * u.tokens [name] := Nat.le_mul_of_pos_left _ hw
  have hvalue : u.reads value ≤ w * u.tokens value :=
    Nat.le_trans (u.reads_le_tokens value) (Nat.le_mul_of_pos_left _ hw)
  have hfront := Nat.mul_le_mul_left w h.within
  simp only [Use.tokens_append, Nat.mul_add] at hfront ⊢
  omega

end Config.Targets

theorem assign_pays {name : Token} {front inside : List Token} {target : Node}
    {index : Option Code} (hw : u.Allowed stream w)
    (ht : x.Targets u name front inside target index y) (hy : y.scope = scope) :
    Inner (Parse.assign scope target index) y fun code z => x.Pays u w code z := by
  have hname := u.read_add_store_le name
  have honce : u.reads inside ≤ w * u.tokens inside :=
    Nat.le_trans (u.reads_le_tokens inside) (Nat.le_mul_of_pos_left _ hw.one)
  refine .advance ?_
  split
  · exact .throw trivial
  · rename_i hop
    refine Inner.bind (expression_takes (u := u) hy) ?_
    rintro value z - ⟨e, tokens, -, -, htakes⟩
    refine .pure (ht.pays hw.one hop htakes.steps htakes.reads
      (htakes.costs.append (ht.priced.stored _)) ?_)
    omega
  · rename_i op hop
    have htwice := ht.twice hw hop nofun
    refine Inner.bind (expression_takes (u := u) hy) ?_
    rintro value z - ⟨e, tokens, -, -, htakes⟩
    have hcode := (ht.priced.value y.cursor.pos).append htakes.costs
    have hop' := Assignment.costs_of_ofKind? (u := u) (.inl hop) y.cursor.pos
    refine .pure (ht.pays hw.one hop htakes.steps htakes.reads
      ((hcode.append hop').append (ht.priced.stored _)) ?_)
    omega
  · rename_i op hop
    have htwice := ht.twice hw hop nofun
    have hone : Code.Costs u [⟨.int, .int 1, y.cursor.pos⟩] 0 := .plain rfl rfl
    have hop' := hone.append (Assignment.costs_of_ofKind? (u := u) (.inr hop) y.cursor.pos)
    refine .pure (ht.pays hw.one hop .refl (.refl _)
      (((ht.priced.value _).append hop').append (ht.priced.stored _)) ?_)
    simp only [Use.reads_nil]
    omega

theorem assignment_pays (hw : u.Allowed stream w) :
    Affords stream u w scope (Parse.assignment scope) := by
  intro x hx
  refine .mentionNext hx trivial (fun _ _ => rfl) fun _ target y hy => ?_
  obtain ⟨name, hname⟩ := hy.ident
  have htakes := NodeKind.takesCallee_of_isMention hy.kind
  have hread : x.cursor.Reads [⟨.ident name, x.cursor.pos⟩] y.cursor := by
    have hadvance := Cursor.reads_advance (c := x.cursor) (by rw [hname]; nofun)
    rwa [Cursor.current_of_kind hname, ← hy.cursor] at hadvance
  refine .eat (fun hopen => ?_) fun _ => ?_
  · have hopened := Cursor.kind_of_check_mark hopen
    refine Inner.bind (expression_takes (u := u) (hy.scope_eq hx : y.advance.scope = scope)) ?_
    rintro code z - ⟨e, inside, hprints, -, hinside⟩
    refine .discard (.expect trivial fun hclose => .pureBind ?_)
    have hclosed := Cursor.kind_of_check_mark hclose
    have hopenRead := Cursor.reads_advance (c := y.cursor) (by rw [hopened]; nofun)
    have hcloseRead := Cursor.reads_advance (c := z.cursor) (by rw [hclosed]; nofun)
    rw [Cursor.current_of_kind hopened] at hopenRead
    rw [Cursor.current_of_kind hclosed] at hcloseRead
    have hall := hread.trans (hopenRead.trans (hinside.reads.trans hcloseRead))
    have hsteps : InnerSteps x z.advance :=
      .head hy.step (.head (.move y _ _) (hinside.steps.tail (.move z _ _)))
    refine assign_pays hw (.element hsteps hall hy.pos htakes hprints hinside.costs) ?_
    exact hsteps.scope_of hx
  · exact .pureBind (assign_pays hw (.scalar (.single hy.step) hread hy.pos htakes)
      (hy.scope_eq hx))

end


variable {stream : TokenStream} {u : Use} {w : Nat} {scope : Option ScopeId} {context : Context}
  {x y z : Config stream}

namespace Config.Pays

variable {code : Code}

/-- Code that is paid for may be left out. -/
theorem drop (h : x.Pays u w code y) : x.Pays u w [] y where
  fresh := nofun
  uses := Nat.le_trans (Nat.add_le_add_right (Nat.zero_le _) _) h.uses

end Config.Pays

/-! ## Simple statements -/

theorem simple_pays (hw : u.Allowed stream w) :
    Affords stream u w scope (Parse.simple scope) := by
  intro x hx
  refine .cursor (.ite (fun _ => assignment_pays hw x hx) fun _ => ?_)
  refine Inner.bind (expression_pays (u := u) hw.one x hx) fun code y _ hcode => .pure ?_
  exact hcode.then_plain rfl rfl

theorem returnStatement_pays (hw : 1 ≤ w) :
    Affords stream u w scope (Parse.returnStatement scope) := by
  intro x hx
  have hread : InnerSteps x x.advance := .single (.move x _ _)
  refine .advance (.check (.ite (fun _ => ?_) fun _ => ?_))
  · exact .discard (.advance (.pure (.plain (hread.tail (.move _ _ _)) rfl rfl)))
  · refine Inner.bind (expression_pays (u := u) hw x.advance hx) fun value y _ hvalue => ?_
    refine .discard (.expect trivial fun _ => .pure ?_)
    exact ((hvalue.earlier hread).then_plain rfl rfl).later (.single (.move y _ _))

theorem jumpStatement_pays (inLoop : Bool) :
    Affords stream u w scope (Parse.jumpStatement inLoop) := by
  intro x hx
  have hread : InnerSteps x x.advance := .single (.move x _ _)
  cases inLoop with
  | false =>
      refine .advance (.report (.discard (.expect trivial fun _ => .pure (.nil ?_))))
      exact (hread.tail (.report _ _)).tail (.move _ _ _)
  | true =>
      refine .advance (.discard (.expect trivial fun _ =>
        .pure (.plain (hread.tail (.move _ _ _)) ?_ ?_)))
      all_goals
        dsimp only [Node.op]
        split <;> rfl

/-- A name and what takes it are paid for by the token of the name. -/
theorem InnerSteps.pays_pair {node user : Node} (hs : InnerSteps x y) (hw : 1 ≤ w)
    (hk : x.cursor.kind ≠ .eof) (hf : x.cursor.advance.Follows y.cursor)
    (hpos : node.pos = x.cursor.pos) (htakes : node.kind.takesCallee = false)
    (huser : user.kind.isSymbol = false) : x.Pays u w [node, user] y where
  fresh := Code.startsFresh_cons htakes _
  uses := by
    have hspent := hs.budget_token (u := u) (w := w) hk rfl hf
    have hweight : u.tokens [x.cursor.current] ≤ w * u.tokens [x.cursor.current] :=
      Nat.le_mul_of_pos_left _ hw
    have hcost : Code.uses u [node, user] ≤ u.tokens [x.cursor.current] := by
      have hplace : x.cursor.current.pos = x.cursor.pos := rfl
      simp only [Code.uses, Code.makes, huser, hpos, Use.tokens, List.countP_singleton, hplace]
      by_cases h : x.cursor.pos = u.pos <;> simp [h, Bool.toNat_le]
    omega

theorem callStatement_pays (hw : 1 ≤ w) :
    Affords stream u w scope (Parse.callStatement scope) := by
  intro x hx
  have hread : InnerSteps x x.advance := .single (.move x _ _)
  have hx' : x.advance.scope = scope := hx
  refine .discard (.advance (.mentionNext hx' trivial (fun _ _ => rfl) fun _ callee y hy => ?_))
  obtain ⟨name, hname⟩ := hy.ident
  have hfinish : ∀ (found : Code × Nat) (z : Config stream), y.Pays u w found.1 z →
      Inner (do
        discard <| Parse.expect (.mark .semicolon)
        return Parse.callCode found.1 callee found.2 x.advance.cursor.pos ++
          [Node.op .pop x.advance.cursor.pos] : Parse Code) z fun code v => x.Pays u w code v := by
    intro found z hargs
    refine .discard (.expect trivial fun _ => .pure ?_)
    have hcallee : x.advance.Pays u w
        [callee, ⟨.call, .ofIndex found.2, x.advance.cursor.pos⟩] y :=
      InnerSteps.pays_pair (.single hy.step) hw (by rw [hname]; nofun) (hy.cursor ▸ .refl _) hy.pos
        (NodeKind.takesCallee_of_isMention hy.kind) rfl
    have hcall := hcallee.prepend hargs
    exact ((hcall.then_plain rfl rfl).later (.single (.move z _ _))).earlier hread
  refine .eat (fun _ => ?_) fun _ => .pureBind (hfinish ([], 0) y (.nil .refl))
  have hpos : 0 < y.advance.cursor.position := by
    have hle := y.cursor.follows_advance.position_le
    have hy' := hy.position
    exact Nat.lt_of_lt_of_le (by omega) hle
  refine Inner.bind (arguments_pays (u := u) hw (hy.scope_eq hx') hpos) fun found z _ hargs => ?_
  exact hfinish found z (hargs.earlier (.single (.move y _ _)))

/-! ## Declarations -/

theorem initializer_pays (hw : 1 ≤ w) (hx : x.scope = scope) :
    Inner (Parse.initializer scope) x fun found y =>
      x.Pays u w ((found.map Prod.fst).getD []) y ∧
        ∀ code start, found = some (code, start) → Values (y.vocabulary scope) 1 code := by
  have hgiven : ∀ y : Config stream, y.scope = scope → InnerSteps x y → ∀ given : Bool,
      Inner (if given = true then do
          let pos ← Parse.pos
          return some (← Parse.expression scope, pos)
        else return none : Parse (Option (Code × Position))) y fun found z =>
      x.Pays u w ((found.map Prod.fst).getD []) z ∧
        ∀ code start, found = some (code, start) → Values (z.vocabulary scope) 1 code := by
    intro y hy hxy given
    refine .ite (fun _ => .pos ?_) fun _ => .pure ⟨.nil hxy, nofun⟩
    refine Inner.bind (expression_takes (u := u) hy) ?_
    rintro code z - ⟨e, tokens, -, hvalues, htakes⟩
    refine .pure ⟨(htakes.pays hw).earlier hxy, ?_⟩
    rintro _ _ ⟨⟩
    exact hvalues
  have hread : InnerSteps x x.advance := .single (.move x _ _)
  refine .eat (fun _ => hgiven x.advance hx hread true) fun _ => ?_
  exact .eat (fun _ => hgiven x.advance hx hread true) fun _ => hgiven x hx .refl false

/-- An initial value that is stored is paid for with its store; one that is not is left out. -/
theorem setInitial_pays {symbol : Symbol} {kind : VarScope} {length : Nat} {name : String}
    {pos start : Position} {code : Code}
    (h : x.Pays u w (code ++ [symbol.toNode pos, Node.op .store start]) y)
    (hcode : Values (y.vocabulary scope) 1 code) :
    Inner (Parse.setInitial symbol kind length name pos code start) y fun found z =>
      x.Pays u w found z := by
  have hreport : ∀ d : Diagnostic, x.Pays u w [] (y.report [d]) :=
    fun d => h.drop.later (.single (.report y _))
  unfold Parse.setInitial
  refine .ite (fun _ => .report (.pure (hreport _))) fun _ => ?_
  split
  · rename_i value hvalue
    have hgiven : ∀ v, some value = some v → v.ResolvesIn y.table.strings := by
      rintro v ⟨⟩
      exact hcode.constant_resolves hvalue
    have hstep := InnerStep.adjust y symbol (.withValue hgiven)
    exact .stepVia hstep rfl (.pure (a := ([] : Code)) (h.drop.later (.single hstep)))
  · refine .ite (fun _ => ?_) fun _ => .report (.pure (hreport _))
    have hstep := InnerStep.adjust y symbol (.initialized _)
    let stored : Code := code ++ [symbol.toNode pos, Node.op .store start]
    exact .stepVia hstep rfl (.pure (a := stored) (h.later (.single hstep)))

theorem variableItem_pays (hw : 1 ≤ w) {kind : VarScope} :
    Affords stream u w context.scope (Parse.variableItem context kind) := by
  intro x hx
  refine .declareNext hx trivial (fun _ _ => rfl) fun name declared y hname hxy hread _ => ?_
  apply Inner.bind arrayLength_yields
  intro length z hyz _
  have hz : z.scope = context.scope := InnerSteps.scope_of (hxy.trans hyz) hx
  apply Inner.bind (initializer_pays (u := u) hw hz)
  rintro init v - ⟨hinit, hvalues⟩
  have hsteps : InnerSteps x z := hxy.trans hyz
  cases declared with
  | none => exact .pure (hinit.drop.earlier hsteps)
  | some symbol =>
      have hstep := InnerStep.adjust v symbol (.arrayLength _ length)
      cases init with
      | none => exact .stepVia hstep rfl (.pure (a := ([] : Code))
          ((hinit.later (.single hstep)).earlier hsteps))
      | some found =>
          obtain ⟨code, start⟩ := found
          have hcode : z.Pays u w code v := hinit
          have hstore : x.Pays u w [symbol.toNode x.cursor.pos, Node.op .store start] z :=
            hsteps.pays_pair hw (by rw [hname]; nofun) (hread.trans hyz.grows.cursor)
              (by cases symbol <;> rfl) (by cases symbol <;> rfl) rfl
          refine .stepVia hstep rfl (setInitial_pays ?_ ((hvalues code start rfl).later
            (.single hstep)))
          exact (hstore.prepend hcode).later (.single hstep)

/-! ## Lists and blocks of variables -/

theorem variableBlock_pays (hw : 1 ≤ w) {kind : VarScope} {opener : Token} :
    Affords stream u w context.scope (Parse.variableBlock context kind opener) := by
  intro x hx
  refine Inner.rounds (I := fun code y => x.Pays u w code y) (.nil .refl)
    fun code y hxy hcode => ?_
  refine .eat (fun _ => .pure (hcode.later (.single (.move y _ _)))) fun _ => ?_
  refine .cursor (.ite (fun _ => .throw trivial) fun _ => ?_)
  apply Inner.bind (variableItem_pays (u := u) hw y (hxy.scope_of hx))
  intro item z _ hitem
  exact .discard (.expect trivial fun _ => .pure
    ((hcode.append hitem).later (.single (.move z _ _))))

theorem variableList_pays (hw : 1 ≤ w) {kind : VarScope} :
    Affords stream u w context.scope (Parse.variableList context kind) := by
  intro x hx
  let I (code : Code) (y : Config stream) : Prop := x.Pays u w code y
  apply Inner.rounds (I := I) (.nil .refl)
  intro code y hxy hcode
  have hcomma : ∀ {code : Code} {v : Config stream}, I code v →
      Inner (do if ← Parse.eat (.mark .comma) then return .inl code else return .inr code :
        Parse (Code ⊕ Code)) v (roundPost I I) := by
    intro code v hcode
    exact .eat (fun _ => .pure (hcode.later (.single (.move v _ _)))) fun _ => .pure hcode
  apply Inner.bind (variableItem_pays (u := u) hw y (hxy.scope_of hx)).attempt
  intro found z hyz hfound
  cases found with
  | ok item => exact .pureBind (hcomma (hcode.append hfound))
  | error e =>
      have hskip := (z.report [e.diagnostic]).cursor.follows_synchronize .declarationBoundary
      have hsteps : InnerSteps z ((z.report [e.diagnostic]).move _ hskip) :=
        .tail (.single (.report z _)) (.move _ _ hskip)
      exact .report (.moveCursor hskip (.pureBind (hcomma (hcode.later (hyz.trans hsteps)))))

theorem variableDeclaration_pays (hw : 1 ≤ w) (q : Qualifiers) :
    Affords stream u w context.scope (Parse.variableDeclaration context q) := by
  intro x hx
  refine Inner.bind (declaredScope_yields q) fun kind y hxy _ => .advance ?_
  have hread : InnerSteps x y.advance := hxy.tail (.move y _ _)
  have hy : y.advance.scope = context.scope := hxy.scope_of hx
  refine .eat (fun _ => ?_) fun _ => ?_
  · refine (variableBlock_pays (u := u) hw y.advance.advance hy).imp fun code z _ hcode => ?_
    exact hcode.earlier (hread.tail (.move _ _ _))
  · apply Inner.bind (variableList_pays (u := u) hw y.advance hy)
    intro code z _ hcode
    exact .discard (.expect trivial fun _ => .pure
      ((hcode.earlier hread).later (.single (.move z _ _))))

theorem declarationStatement_pays (hw : 1 ≤ w) :
    Affords stream u w context.scope (Parse.declarationStatement context) := by
  intro x hx
  apply Inner.bind qualifiers_yields
  intro q y hxy _
  refine .check (.ite (fun _ => ?_) fun _ => .cursor (.throw trivial))
  exact (variableDeclaration_pays (u := u) hw q y (hxy.scope_of hx)).imp fun _ _ _ hcode =>
    hcode.earlier hxy

/-! ## Blocks -/

theorem blockStatement_pays {inner : Parse Code} (hi : Affords stream u w scope inner)
    (hy : y.scope = scope) {code : Code} (hcode : x.Pays u w code y) :
    Inner (Parse.blockStatement inner code) y
      (roundPost (fun next z => x.Pays u w next z) fun found z => x.Pays u w found.code z) := by
  have hprogress : ∀ (start : Nat) (next : Code) (z : Config stream), x.Pays u w next z →
      Inner (do
        Parse.blockStatement.forceProgress start
        return .inl next : Parse (Code ⊕ Parse.Block)) z
        (roundPost (fun next z => x.Pays u w next z) fun found z => x.Pays u w found.code z) := by
    intro start next z hnext
    refine Inner.bind (P := fun _ v => x.Pays u w next v) ?_ fun _ v _ hv => .pure hv
    refine .cursor (.ite (fun _ => ?_) fun _ => .pure hnext)
    exact .last (.discard (.advance (.pure (hnext.later (.single (.move z _ _))))))
  refine .cursor (Inner.bind (hi y hy).attempt fun found z hyz hfound => ?_)
  cases found with
  | ok more => exact hprogress _ _ z (hcode.append hfound)
  | error e =>
      have hz := hcode.later hyz
      refine .ite (fun _ => .pure hz) fun _ => .report ?_
      refine Inner.bind (recover_yields _) fun _ v hzv _ => ?_
      exact hprogress _ _ v (hz.later (.head (.report z _) hzv))

theorem openBlock_pays {inner : Parse Code} (hi : Affords stream u w scope inner)
    (hx : x.scope = scope) :
    Inner (Parse.openBlock inner) x fun found y => x.Pays u w found.code y := by
  have hread : InnerSteps x x.advance := .single (.move x _ _)
  refine .advance (Inner.rounds (I := fun code y => x.Pays u w code y) (.nil hread) ?_)
  intro code y hxy hcode
  have hy : y.scope = scope := InnerSteps.scope_of hxy hx
  refine .kind (.ite (fun _ => ?_) fun _ => .ite (fun _ => .pure hcode) fun _ => ?_)
  · refine .advance (Inner.bind checkCloser_yields fun _ z hyz _ => .pure ?_)
    exact hcode.later (.head (.move y _ _) hyz)
  · exact blockStatement_pays hi hy hcode

theorem block_pays {inner : Parse Code} (hi : Affords stream u w scope inner) :
    Affords stream u w scope (Parse.block inner) := by
  intro x hx
  apply Inner.bind (openBlock_pays hi hx)
  intro found y _ hcode
  cases found.failure with
  | some e => exact .throw trivial
  | none => exact .pure hcode

/-! ## Branches and loops -/

variable {inner body : Parse Code}

theorem ifStatement_pays (hw : 1 ≤ w) (hi : Affords stream u w scope inner) :
    Affords stream u w scope (Parse.ifStatement scope inner) := by
  intro x hx
  have hread : InnerSteps x x.advance := .single (.move x _ _)
  refine .advance (Inner.bind (expression_pays (u := u) hw x.advance hx) ?_)
  intro condition y hxy hcond
  refine .discard (.expect trivial fun _ => ?_)
  have hy : y.advance.scope = scope := hxy.scope_of hx
  refine Inner.bind (hi y.advance hy) fun yes z hyz hyes => .check (.ite (fun _ => ?_) ?_)
  all_goals
    have hfront := (((hcond.earlier hread).then_plain (n := Node.op .branch x.cursor.pos)
      rfl rfl).later (.single (.move y _ _))).append hyes
  · have hz : z.scope = scope := InnerSteps.scope_of hyz hy
    refine .advance (Inner.bind (hi z.advance hz) ?_)
    intro no v hzv hno
    refine .pureBind (.cursor (.pure ?_))
    have hother : z.Pays u w (Node.op .otherwise z.cursor.pos :: no) v :=
      (Config.Pays.plain (n := Node.op .otherwise z.cursor.pos) (.single (.move z _ _))
        rfl rfl).append hno
    exact (hfront.append hother).then_plain rfl rfl
  · intro _
    exact .pureBind (.cursor (.pure ((hfront.append (.nil .refl)).then_plain rfl rfl)))

theorem whileStatement_pays (hw : 1 ≤ w) (hb : Affords stream u w scope body) :
    Affords stream u w scope (Parse.whileStatement scope body) := by
  intro x hx
  have hhead : x.Pays u w [Node.op .loop x.cursor.pos] x.advance :=
    .plain (.single (.move x _ _)) rfl rfl
  refine .advance (Inner.bind (expression_pays (u := u) hw x.advance hx) ?_)
  intro condition y hxy hcond
  refine .discard (.expect trivial fun _ => ?_)
  have hy : y.advance.scope = scope := hxy.scope_of hx
  refine Inner.bind (hb y.advance hy) fun code z hyz hcode => .cursor (.pure ?_)
  have hfront := (hhead.append hcond).then_plain (n := Node.op .loopCond x.cursor.pos) rfl rfl
  exact ((hfront.later (.single (.move y _ _))).append hcode).then_plain rfl rfl

/-- A part in the head of a `for` that may be left out. -/
theorem simpleUnless_pays (hw : u.Allowed stream w) (closer : TokenKind) (hy : y.scope = scope) :
    Inner (if y.cursor.check closer = true then pure [] else Parse.simple scope : Parse Code) y
      fun code z => y.Pays u w code z :=
  .ite (fun _ => .pure (.nil .refl)) fun _ => simple_pays hw y hy

theorem forStatement_pays (hw : u.Allowed stream w) (hb : Affords stream u w scope body) :
    Affords stream u w scope (Parse.forStatement scope body) := by
  intro x hx
  have hadvance : ∀ y : Config stream, InnerSteps y y.advance := fun y => .single (.move y _ _)
  refine .advance (.discard (.expect trivial fun _ => .check (.join ?_)))
  refine Inner.bind (simpleUnless_pays hw _ (y := x.advance.advance) hx) ?_
  intro start y hxy hstart
  have hstart := (hstart.earlier ((hadvance x).trans (hadvance _))).later (hadvance y)
  refine .discard (.expect trivial fun _ => .check (.join ?_))
  have hy : y.advance.scope = scope := hxy.scope_of hx
  refine Inner.bind (P := fun code z => y.advance.Pays u w code z) ?_ ?_
  · exact .ite (fun _ => .pure (.plain .refl rfl rfl)) fun _ => expression_pays hw.one _ hy
  intro condition z hyz hcond
  have hhead := (hstart.then_plain (n := Node.op .loop x.cursor.pos) rfl rfl).append hcond
  have hhead := (hhead.then_plain (n := Node.op .loopCond x.cursor.pos) rfl rfl).later
    (hadvance z)
  refine .discard (.expect trivial fun _ => .check (.join ?_))
  have hz : z.advance.scope = scope := hyz.scope_of hy
  refine Inner.bind (simpleUnless_pays hw _ hz) ?_
  intro step v hzv hstep
  refine .discard (.expect trivial fun _ => ?_)
  have hv : v.advance.scope = scope := hzv.scope_of hz
  refine Inner.bind (hb v.advance hv) fun code t hvt hcode => .cursor (.pure ?_)
  -- The step is read in front of the body, and its code stands behind it.
  have hsteps : z.advance.Pays u w
      (if step.isEmpty then [] else Node.op .loopStep x.cursor.pos :: step) v.advance := by
    split
    · exact hstep.drop.later (hadvance v)
    · exact ((Config.Pays.plain (n := Node.op .loopStep x.cursor.pos) .refl rfl rfl).append
        hstep).later (hadvance v)
  have hbody := hhead.append (hsteps.prepend hcode)
  rw [← List.append_assoc] at hbody
  exact hbody.then_plain rfl rfl

/-! ## All statements -/

theorem statementWith_pays {inner : Context → Parse Code} (hw : u.Allowed stream w)
    (hi : ∀ context, Affords stream u w context.scope (inner context)) (context : Context) :
    Affords stream u w context.scope (Parse.statementWith inner context) := by
  intro x hx
  refine .kind ?_
  split
  · exact .discard (.advance (.pure (.nil (.single (.move x _ _)))))
  · exact block_pays (hi context) x hx
  · exact block_pays (hi context) x hx
  · exact ifStatement_pays hw.one (hi context) x hx
  · exact whileStatement_pays hw.one (hi { context with inLoop := true }) x hx
  · exact forStatement_pays hw (hi { context with inLoop := true }) x hx
  · exact returnStatement_pays hw.one x hx
  · exact jumpStatement_pays _ x hx
  · exact jumpStatement_pays _ x hx
  · exact callStatement_pays hw.one x hx
  iterate 6 exact declarationStatement_pays hw.one x hx
  · apply Inner.bind (simple_pays hw x hx)
    intro code y _ hcode
    exact .discard (.expect trivial fun _ => .pure (hcode.later (.single (.move y _ _))))

theorem statementTo_pays (hw : u.Allowed stream w) (depth : Nat) (context : Context) :
    Affords stream u w context.scope (Parse.statementTo depth context) := by
  induction depth generalizing context with
  | zero => exact fun x _ => .cursor (.throw trivial)
  | succ depth ih => exact statementWith_pays hw ih context

theorem statement_pays (hw : u.Allowed stream w) (context : Context) :
    Affords stream u w context.scope (Parse.statement context) :=
  fun x hx => .cursor (statementTo_pays hw _ context x hx)

end SslFrontend
