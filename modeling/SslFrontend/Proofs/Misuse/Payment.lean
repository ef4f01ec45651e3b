import Mathlib.Algebra.GroupWithZero.Nat
import SslFrontend.Proofs.Grammar.Exact
import SslFrontend.Proofs.Grammar.ExpressionRecovery
import SslFrontend.Proofs.Misuse.Uses
import SslFrontend.Proofs.Run.Declaration

/-! # Payment for code

A use in code is paid for by the token of its name.  The budget of a
configuration, for one use, is what can still be made of it: the uses in the
code that the table has, and the tokens at its place that are left, each worth a
weight.  Nothing that is done inside raises the budget (`InnerSteps.budget_le`),
and a header raises it by the uses in its trigger only
(`SymbolTable.uses_declare_le`).

The code of a tree makes a use no more often than its tokens stand at the place
of the use, and stores nothing (`Expr.Prints.costs`).  So an expression that is
read is paid for by the tokens it takes.  The code of a production is paid for if
its uses fit in what the budget falls by while it runs (`Config.Pays`).  Payments
are put together as the pieces of code are.  An expression is paid for with a
weight of one (`expression_pays`).
-/

namespace SslFrontend

/-! ## Budgets of uses -/

section

/-- How often the condition of a trigger makes a use. -/
def Trigger.uses (u : Use) (trigger : Trigger) : Nat :=
  Code.uses u (trigger.condition?.getD [])

/-- How often the code of a procedure makes a use. -/
def Procedure.codeUses (u : Use) (p : Procedure) : Nat :=
  Code.uses u p.body + p.trigger.uses u

/-- How often procedures make a use. -/
def Procedure.usesOfAll (u : Use) (procs : List Procedure) : Nat :=
  (procs.map (Procedure.codeUses u)).sum

namespace SymbolTable

def uses (u : Use) (t : SymbolTable) : Nat :=
  Procedure.usesOfAll u t.procs + Procedure.usesOfAll u t.discarded

variable {u : Use} {t t' : SymbolTable} {n : Nat}

/-! ## Tables -/

theorem usesOfAll_modify_le {f : Procedure → Procedure} {procs : List Procedure} {i : Nat}
    (hf : ∀ p, procs[i]? = some p → (f p).codeUses u ≤ p.codeUses u + n) :
    Procedure.usesOfAll u (procs.modify i f) ≤ Procedure.usesOfAll u procs + n := by
  unfold Procedure.usesOfAll
  induction procs generalizing i with
  | nil => simp
  | cons p rest ih =>
      cases i with
      | zero =>
          have hp := hf p rfl
          simp only [List.modify_zero_cons, List.map_cons, List.sum_cons]
          omega
      | succ i =>
          have hrest := ih hf
          simp only [List.modify_succ_cons, List.map_cons, List.sum_cons]
          omega

theorem uses_modifyScope_le {f : Procedure → Procedure} {scope : ScopeId}
    (hf : ∀ p, t.scope? scope = some p → (f p).codeUses u ≤ p.codeUses u + n) :
    (t.modifyScope scope f).uses u ≤ t.uses u + n := by
  unfold uses modifyScope
  cases scope with
  | proc i =>
      have hprocs := usesOfAll_modify_le hf
      dsimp only
      omega
  | discarded i =>
      have hprocs := usesOfAll_modify_le hf
      dsimp only
      omega

/-- Where code and triggers stay, so do the uses. -/
theorem uses_modifyScope_same {f : Procedure → Procedure} {scope : ScopeId}
    (hf : ∀ p, (f p).codeUses u = p.codeUses u) : (t.modifyScope scope f).uses u ≤ t.uses u :=
  uses_modifyScope_le (n := 0) fun p _ => Nat.le_of_eq (hf p)

theorem uses_modifyVariable_le (t : SymbolTable) (symbol : Symbol) (f : Variable → Variable) :
    (t.modifyVariable symbol f).uses u ≤ t.uses u := by
  cases symbol with
  | inner scope i => exact uses_modifyScope_same fun _ => rfl
  | _ => exact Nat.le_refl _

theorem uses_declareLocal_le {scope : ScopeId} {name : String} {pos : Position} {symbol : Symbol}
    (h : t.declareLocal scope name pos = .ok (symbol, t')) : t'.uses u ≤ t.uses u := by
  unfold declareLocal at h
  split at h
  · cases h
  · split at h
    · cases h
    · split at h
      · cases h
      · cases h
        exact uses_modifyScope_same fun _ => rfl

theorem uses_declareIn_le {c : Option ScopeId} {kind : VarScope} {name : String}
    {pos : Position} {symbol : Symbol} (h : t.declareIn c kind name pos = .ok (symbol, t')) :
    t'.uses u ≤ t.uses u := by
  cases c with
  | some scope => exact uses_declareLocal_le h
  | none =>
      unfold declareIn declareVar at h
      dsimp only at h
      split at h
      · cases h
      · split at h
        · cases h
        · cases h
          exact Nat.le_refl _

theorem uses_setParams_le (t : SymbolTable) (scope : ScopeId) (params : List Param) :
    (t.setParams scope params).1.uses u ≤ t.uses u := by
  have hfold : ∀ state : SymbolTable × List Diagnostic,
      (params.foldl (addParam scope) state).1.uses u ≤ state.1.uses u := by
    induction params with
    | nil => exact fun _ => Nat.le_refl _
    | cons param rest ih =>
        rintro ⟨t, problems⟩
        refine Nat.le_trans (ih _) ?_
        unfold addParam
        dsimp only
        split
        · rename_i symbol t' hdeclared
          exact Nat.le_trans (uses_modifyVariable_le _ _ _) (uses_declareLocal_le hdeclared)
        · exact Nat.le_refl _
  exact Nat.le_trans (uses_modifyScope_same fun _ => rfl)
    (hfold (t, []))

/-! ## Headers -/

theorem uses_mergeTrigger_le (p : Procedure) (header : Header) :
    (mergeTrigger p header).1.uses u ≤ p.trigger.uses u + header.trigger.uses u := by
  unfold mergeTrigger
  split
  · exact Nat.le_add_right _ _
  · unfold Trigger.replacedBy
    split
    · exact Nat.le_add_right _ _
    · exact Nat.le_add_left _ _

theorem uses_declareFirst_le (t : SymbolTable) (header : Header) :
    (t.declareFirst header).table.uses u ≤ t.uses u + header.trigger.uses u := by
  unfold declareFirst
  split
  · exact Nat.le_add_right _ _
  · refine Nat.le_trans (uses_setParams_le _ _ _) ?_
    simp [uses, Procedure.usesOfAll, Procedure.codeUses, Procedure.fresh, Code.uses]
    omega

theorem uses_declareAgain_le (t : SymbolTable) (index : Nat) (p : Procedure) (header : Header)
    (hp : t.procs[index]? = some p) :
    (t.declareAgain index p header).table.uses u ≤ t.uses u + header.trigger.uses u := by
  unfold declareAgain
  split
  · exact Nat.le_add_right _ _
  · dsimp only
    have htrigger := uses_mergeTrigger_le (u := u) p header
    have hmerged : ∀ {f : Procedure → Procedure}, (∀ q, (f q).body = q.body) →
        (∀ q, (f q).trigger = (mergeTrigger p header).1) →
        (t.modifyScope (.proc index) f).uses u ≤ t.uses u + header.trigger.uses u := by
      intro f hbody hmerge
      refine uses_modifyScope_le fun q hq => ?_
      obtain rfl : p = q := Option.some.inj (hp.symm.trans hq)
      rw [Procedure.codeUses, Procedure.codeUses, hbody, hmerge]
      omega
    split
    · exact Nat.le_trans (uses_setParams_le _ _ _) (hmerged (fun _ => rfl) fun _ => rfl)
    · exact hmerged (fun _ => rfl) fun _ => rfl

/-- A header brings the uses of its trigger. -/
theorem uses_declare_le (t : SymbolTable) (header : Header) :
    (t.declare header).table.uses u ≤ t.uses u + header.trigger.uses u := by
  have htrigger : header.settle.1.trigger = header.trigger := by
    have hscope : header.settleScope.1.trigger = header.trigger := by
      unfold Header.settleScope
      split <;> rfl
    have himport : ∀ header : Header, header.settleImport.1.trigger = header.trigger := by
      intro header
      unfold Header.settleImport
      split <;> rfl
    exact (himport _).trans hscope
  rw [← htrigger]
  show (t.declareSettled header.settle.1).table.uses u ≤ _
  unfold declareSettled
  split
  · split
    · rename_i hp
      exact uses_declareAgain_le t _ _ _ hp
    · exact Nat.le_add_right _ _
  · exact Nat.le_add_right _ _
  · exact uses_declareFirst_le t _

theorem uses_declareDiscarded_le {header : Header} {scope : ScopeId} {problems : List Diagnostic}
    (h : t.declareDiscarded header = .ok (scope, t', problems)) : t'.uses u ≤ t.uses u := by
  unfold declareDiscarded at h
  split at h
  · cases h
  · cases h
    refine Nat.le_trans (uses_setParams_le _ _ _) ?_
    simp [uses, Procedure.usesOfAll, Procedure.codeUses, Procedure.fresh, Code.uses, Trigger.uses,
      Trigger.condition?]

end SymbolTable

/-! ## Configurations -/

variable {stream : TokenStream} {u : Use} {w : Nat} {x y : Config stream}

theorem InnerStep.uses_le (h : InnerStep x y) : y.table.uses u ≤ x.table.uses u := by
  cases h with
  | move | report | intern | reserve | record => exact Nat.le_refl _
  | mention =>
      rw [Config.mention_table]
      exact Nat.le_refl _
  | declareVar _ _ declared => exact SymbolTable.uses_declareIn_le (c := none) declared
  | declareLocal _ _ declared => exact SymbolTable.uses_declareLocal_le declared
  | adjust symbol => exact x.table.uses_modifyVariable_le symbol _

theorem InnerSteps.uses_le (h : InnerSteps x y) : y.table.uses u ≤ x.table.uses u := by
  induction h with
  | refl => exact Nat.le_refl _
  | tail _ hstep ih => exact Nat.le_trans hstep.uses_le ih

namespace Config

/-- What can still be made of a use: it is in the table, or a token for it is left, which
is worth the weight. -/
def budget (u : Use) (w : Nat) (x : Config stream) : Nat :=
  x.table.uses u + w * u.tokens x.cursor.rest

/-- Tokens that were read are spent. -/
theorem budget_read {tokens : List Token} (hs : InnerSteps x y)
    (hr : x.cursor.rest = tokens ++ y.cursor.rest) :
    y.budget u w + w * u.tokens tokens ≤ x.budget u w := by
  have huses := hs.uses_le (u := u)
  unfold budget
  rw [hr, Use.tokens_append, Nat.mul_add]
  omega

end Config

/-- Nothing that is done inside raises the budget. -/
theorem InnerSteps.budget_le (h : InnerSteps x y) : y.budget u w ≤ x.budget u w := by
  obtain ⟨taken, hrest, -⟩ := h.grows.cursor
  exact Nat.le_trans (Nat.le_add_right _ _) (Config.budget_read h hrest)

/-- A token that was read is spent, and whatever was done behind it. -/
theorem InnerSteps.budget_token {token : Token} (h : InnerSteps x y)
    (hk : x.cursor.kind ≠ .eof) (ht : x.cursor.current = token)
    (hf : x.cursor.advance.Follows y.cursor) :
    y.budget u w + w * u.tokens [token] ≤ x.budget u w := by
  subst ht
  obtain ⟨taken, hrest, -⟩ := hf
  have hread := (Cursor.reads_advance hk).rest
  rw [hrest, ← List.append_assoc] at hread
  have hspent := Config.budget_read (u := u) (w := w) h hread
  rw [Use.tokens_append, Nat.mul_add] at hspent
  omega

end


namespace Use

/-- How often a token can make a use in an expression, where nothing is stored. -/
def read (u : Use) (token : Token) : Nat := (!u.stored && token.pos = u.pos).toNat

/-- How often tokens can make a use in an expression. -/
def reads (u : Use) (tokens : List Token) : Nat := (tokens.map u.read).sum

variable {u : Use} {first second : List Token}

@[simp] theorem reads_nil : u.reads [] = 0 := rfl

@[simp] theorem reads_cons (token : Token) :
    u.reads (token :: first) = u.read token + u.reads first :=
  List.sum_cons

@[simp] theorem reads_append : u.reads (first ++ second) = u.reads first + u.reads second := by
  simp only [reads, List.map_append, List.sum_append]

theorem reads_le_tokens (tokens : List Token) : u.reads tokens ≤ u.tokens tokens := by
  induction tokens with
  | nil => exact Nat.le_refl 0
  | cons token rest ih =>
      have hread : u.read token ≤ if token.pos = u.pos then 1 else 0 := by
        unfold read
        split <;> simp_all [Bool.toNat_le]
      simp only [Use.tokens, List.countP_cons, decide_eq_true_eq] at ih ⊢
      rw [reads_cons]
      omega

end Use

/-- Code that makes a use at most so many times. -/
structure Code.Costs (u : Use) (code : Code) (n : Nat) : Prop where
  fresh : code.StartsFresh
  uses : Code.uses u code ≤ n

namespace Code.Costs

variable {u : Use} {first second code : Code} {m n : Nat}

theorem nil : Code.Costs u [] 0 := ⟨nofun, Nat.le_refl 0⟩

theorem append (h₁ : Code.Costs u first m) (h₂ : Code.Costs u second n) :
    Code.Costs u (first ++ second) (m + n) where
  fresh := h₁.fresh.append h₂.fresh
  uses := by
    rw [Code.uses_append h₂.fresh]
    exact Nat.add_le_add h₁.uses h₂.uses

theorem mono (h : Code.Costs u code m) (hle : m ≤ n) : Code.Costs u code n :=
  ⟨h.fresh, Nat.le_trans h.uses hle⟩

/-- A node that names nothing, and takes nothing. -/
theorem plain {node : Node} (hsymbol : node.kind.isSymbol = false)
    (htakes : node.kind.takesCallee = false) : Code.Costs u [node] 0 where
  fresh := Code.startsFresh_cons htakes []
  uses := by simp [Code.uses, Code.makes, hsymbol]

/-- A node for a token, alone or in front of what takes it and stores nothing. -/
theorem leaf {node : Node} {rest : Code} {token : Token} (htakes : node.kind.takesCallee = false)
    (hpos : node.pos = token.pos) (hrest : ∀ other ∈ rest, other.kind.isSymbol = false)
    (hstore : Code.beginsWithStore rest = false) : Code.Costs u (node :: rest) (u.read token) where
  fresh := Code.startsFresh_cons htakes rest
  uses := by
    rw [Code.uses, Code.uses_eq_zero hrest, Code.makes, hstore, hpos, Use.read]
    cases u.stored <;> by_cases h : token.pos = u.pos <;> simp [h, Bool.toNat_le]

end Code.Costs

/-! ## Trees -/

variable {u : Use} {scope : Option ScopeId}

/-- A mentioned name is a node at its place that takes nothing. -/
theorem Making.mention_node (scope : Option ScopeId) (name : String) (pos : Position)
    (r : Records) : ((mention scope name pos r).1).pos = pos ∧
      ((mention scope name pos r).1).kind.takesCallee = false := by
  unfold mention
  cases r.table.lookupDeclared scope name with
  | none => exact ⟨rfl, rfl⟩
  | some symbol => cases symbol <;> exact ⟨rfl, rfl⟩

theorem Making.text_node (text : String) (pos : Position) (r : Records) :
    ((Making.text text pos r).1).pos = pos ∧
      ((Making.text text pos r).1).kind.takesCallee = false := by
  unfold Making.text
  cases r.table.strings.intern text <;> exact ⟨rfl, rfl⟩

theorem Literal.emit_node (value : Literal) (pos : Position) (r : Records) :
    ((value.emit pos r).1).pos = pos ∧ ((value.emit pos r).1).kind.takesCallee = false := by
  cases value with
  | truth b => cases b <;> exact ⟨rfl, rfl⟩
  | text t => exact Making.text_node t pos r
  | _ => exact ⟨rfl, rfl⟩

theorem UnaryOp.costs (op : UnaryOp) (pos : Position) :
    Code.Costs u [Node.op op.node pos] 0 := by
  obtain ⟨token, node, listed⟩ := op
  unfold Operator.unary? at listed
  split at listed <;> cases listed <;> exact .plain rfl rfl

theorem BinaryOp.costs (op : BinaryOp) (pos : Position) :
    Code.Costs u [Node.op op.node pos] 0 := by
  obtain ⟨token, level, node, listed⟩ := op
  unfold Operator.binary? at listed
  split at listed <;> cases listed <;> exact .plain rfl rfl

namespace Expr

/-- The arguments of a call cost what they cost each. -/
theorem emitAll_costs {args : List (Expr × List Token)} {tokens : List Token}
    (each : ∀ a ∈ args, ∀ r, Code.Costs u (emit scope a.1 r).1 (u.reads a.2))
    (all : Separated (args.map Prod.snd) tokens) (r : Records) :
    Code.Costs u (emitAll scope (args.map Prod.fst) r).1 (u.reads tokens) := by
  induction args generalizing tokens r with
  | nil =>
      cases all
      exact .mono .nil (Nat.zero_le _)
  | cons a rest ih =>
      obtain ⟨hfirst, hrest⟩ := List.forall_mem_cons.mp each
      have hcode : (emitAll scope ((a :: rest).map Prod.fst) r).1 =
          (emit scope a.1 r).1 ++
            (emitAll scope (rest.map Prod.fst) (emit scope a.1 r).2).1 := rfl
      rw [hcode]
      cases rest with
      | nil =>
          cases all
          exact (hfirst r).append .nil
      | cons b rest =>
          obtain _ | _ | ⟨_, comma, hmore⟩ := all
          refine ((hfirst r).append (ih hrest hmore _)).mono ?_
          rw [Use.reads_append, Use.reads_cons]
          omega

/-- The code of a tree makes a use no more often than its tokens can. -/
theorem Prints.costs {wanted : Nat} {e : Expr} {tokens : List Token} (h : Prints wanted e tokens)
    (r : Records) : Code.Costs u (emit scope e r).1 (u.reads tokens) := by
  induction h generalizing r with
  | literal _ value pos =>
      obtain ⟨hpos, htakes⟩ := value.emit_node pos r
      exact .leaf htakes hpos (fun _ h => absurd h List.not_mem_nil) rfl
  | name _ n pos =>
      obtain ⟨hpos, htakes⟩ := Making.mention_node scope n pos r
      exact .leaf htakes hpos (fun _ h => absurd h List.not_mem_nil) rfl
  | @call _ n pos opened closed args tokens each all ih =>
      obtain ⟨hpos, htakes⟩ := Making.mention_node scope n pos r
      have hargs := emitAll_costs ih all (Making.mention scope n pos r).2
      have hcallee : Code.Costs u [(Making.mention scope n pos r).1,
          ⟨.call, .ofIndex (args.map Prod.fst).length, pos⟩] (u.read ⟨.ident n, pos⟩) :=
        .leaf htakes hpos (List.forall_mem_singleton.mpr rfl) rfl
      refine (hargs.append hcallee).mono ?_
      simp only [parenthesized, List.cons_append, Use.reads_cons, Use.reads_append]
      omega
  | address _ pos n namePos =>
      obtain ⟨hpos, htakes⟩ := Making.mention_node scope n namePos r
      have hcallee : Code.Costs u [(Making.mention scope n namePos r).1, Node.op .procAddr pos]
          (u.read ⟨.ident n, namePos⟩) :=
        .leaf htakes hpos (List.forall_mem_singleton.mpr rfl) rfl
      refine hcallee.mono ?_
      simp only [Use.reads_cons]
      omega
  | index _ pos closed _ _ ih₁ ih₂ =>
      refine (((ih₁ r).append (ih₂ _)).append (.plain rfl rfl)).mono ?_
      simp only [bracketed, List.cons_append, Use.reads_cons, Use.reads_append]
      omega
  | unary op pos _ _ ih =>
      refine ((ih r).append (op.costs pos)).mono ?_
      simp only [Use.reads_cons]
      omega
  | binary op pos _ _ _ ih₁ ih₂ =>
      refine (((ih₁ r).append (ih₂ _)).append (op.costs pos)).mono ?_
      simp only [Use.reads_cons, Use.reads_append]
      omega
  | parens _ opened closed _ ih =>
      refine (ih r).mono ?_
      simp only [parenthesized, List.cons_append, Use.reads_cons, Use.reads_append]
      omega

end Expr

/-! ## Payments -/

variable {stream : TokenStream} {w : Nat} {x y z : Config stream}

/-- From one configuration to the other, the budget falls by the uses in the
code or more. -/
structure Config.Pays (u : Use) (w : Nat) (x : Config stream) (code : Code) (y : Config stream) :
    Prop where
  fresh : code.StartsFresh
  uses : Code.uses u code + y.budget u w ≤ x.budget u w

namespace Config.Pays

variable {first second code : Code} {tokens : List Token} {n : Nat}

theorem of_costs (hs : InnerSteps x y) (hr : x.cursor.rest = tokens ++ y.cursor.rest)
    (hc : Code.Costs u code n) (hn : n ≤ w * u.tokens tokens) : x.Pays u w code y where
  fresh := hc.fresh
  uses := by
    have huses := hc.uses
    have hspent := Config.budget_read (u := u) (w := w) hs hr
    omega

theorem nil (hs : InnerSteps x y) : x.Pays u w [] y where
  fresh := nofun
  uses := by
    rw [Code.uses, Nat.zero_add]
    exact hs.budget_le

/-- A node that names nothing is free. -/
theorem plain {n : Node} (hs : InnerSteps x y) (hsymbol : n.kind.isSymbol = false)
    (htakes : n.kind.takesCallee = false) : x.Pays u w [n] y where
  fresh := Code.startsFresh_cons htakes []
  uses := by
    have hfree := (Code.Costs.plain (u := u) hsymbol htakes).uses
    have hle := hs.budget_le (u := u) (w := w)
    omega

theorem append (h₁ : x.Pays u w first y) (h₂ : y.Pays u w second z) :
    x.Pays u w (first ++ second) z where
  fresh := h₁.fresh.append h₂.fresh
  uses := by
    have huses₁ := h₁.uses
    have huses₂ := h₂.uses
    rw [Code.uses_append h₂.fresh]
    omega

/-- Code may stand in front of code that was made before. -/
theorem prepend (h₁ : x.Pays u w first y) (h₂ : y.Pays u w second z) :
    x.Pays u w (second ++ first) z where
  fresh := h₂.fresh.append h₁.fresh
  uses := by
    have huses₁ := h₁.uses
    have huses₂ := h₂.uses
    rw [Code.uses_append h₁.fresh]
    omega

theorem later (h : x.Pays u w code y) (hs : InnerSteps y z) : x.Pays u w code z where
  fresh := h.fresh
  uses := by
    have huses := h.uses
    have hle := hs.budget_le (u := u) (w := w)
    omega

theorem earlier (h : y.Pays u w code z) (hs : InnerSteps x y) : x.Pays u w code z where
  fresh := h.fresh
  uses := Nat.le_trans h.uses hs.budget_le

theorem then_plain {n : Node} (h : x.Pays u w code y) (hsymbol : n.kind.isSymbol = false)
    (htakes : n.kind.takesCallee = false) : x.Pays u w (code ++ [n]) y :=
  h.append (.plain .refl hsymbol htakes)

end Config.Pays

/-- Run in a scope, a production makes code that it pays for. -/
def Affords (stream : TokenStream) (u : Use) (w : Nat) (scope : Option ScopeId)
    (p : Parse Code) : Prop :=
  ∀ x : Config stream, x.scope = scope → Inner p x fun code y => x.Pays u w code y

/-! ## Expressions -/

/-- What is known of the answer of a production is known where it yields. -/
theorem Yields.knowing {W α : Type} [HasState W] {R : W → W → Prop} {p : Parse α} {x : W}
    {Q : α → W → Prop} {E : W → Prop} {P : α → ParserState → Prop} (h : Yields R p x Q E)
    (hP : ∀ a s, p (HasState.state x) = .ok a s → P a s) :
    Yields R p x (fun a y => Q a y ∧ P a (HasState.state y)) E := by
  unfold Yields at h ⊢
  cases hr : p (HasState.state x) with
  | ok a s =>
      rw [hr] at h
      obtain ⟨y, rfl, hxy, hQ⟩ := h
      exact ⟨y, rfl, hxy, hQ, hP a _ hr⟩
  | error e s =>
      rw [hr] at h
      exact h

/-- Just these tokens were read, and code was made that costs what they read. -/
structure Config.Takes (u : Use) (x : Config stream) (tokens : List Token) (code : Code)
    (y : Config stream) : Prop where
  steps : InnerSteps x y
  reads : x.cursor.Reads tokens y.cursor
  costs : Code.Costs u code (u.reads tokens)

theorem Config.Takes.pays {tokens : List Token} {code : Code} (h : x.Takes u tokens code y)
    (hw : 1 ≤ w) : x.Pays u w code y := by
  refine .of_costs h.steps h.reads.rest h.costs ?_
  exact Nat.le_trans (u.reads_le_tokens tokens) (Nat.le_mul_of_pos_left _ hw)

theorem expression_takes (hx : x.scope = scope) :
    Inner (Parse.expression scope) x fun code y =>
      ∃ e tokens, Expr.Prints 1 e tokens ∧ Values (y.vocabulary scope) 1 code ∧
        x.Takes u tokens code y := by
  refine ((expression_yields x hx).knowing fun _ _ => expression_recovers scope _ _ _).imp ?_
  rintro code y hxy ⟨hvalues, e, tokens, hprints, hdone⟩
  refine ⟨e, tokens, hprints, hvalues, hxy, hdone.reads, ?_⟩
  have hmade : Expr.emit scope e x.state.records = (code, y.state.records) := hdone.made
  have hcosts : Code.Costs u (Expr.emit scope e x.state.records).1 (u.reads tokens) :=
    hprints.costs x.state.records
  rwa [hmade] at hcosts

theorem expression_pays (hw : 1 ≤ w) : Affords stream u w scope (Parse.expression scope) :=
  fun _ hx => (expression_takes hx).imp fun _ _ _ ⟨_, _, _, _, htakes⟩ => htakes.pays hw

theorem arguments_pays (hw : 1 ≤ w) (hx : x.scope = scope) (hpos : 0 < x.cursor.position) :
    Inner (Parse.arguments (Parse.expression scope)) x fun found y =>
      x.Pays u w found.1 y := by
  refine ((arguments_yields expression_yields hx hpos).knowing fun _ _ =>
    arguments_recovers (expression_recovers scope)).imp ?_
  rintro ⟨code, count⟩ y hxy ⟨-, args, tokens, closed, each, all, hdone⟩
  have hcosts : Code.Costs u (Expr.emitAll scope (args.map Prod.fst) x.state.records).1
      (u.reads tokens) :=
    Expr.emitAll_costs (fun a ha r => (each a ha).costs r) all x.state.records
  obtain ⟨emitted, hcode, hmade⟩ := hdone.of_pure_bind
  cases hcode
  have hmade : Expr.emitAll scope (args.map Prod.fst) x.state.records = (code, y.state.records) :=
    hmade.made
  rw [hmade] at hcosts
  have htakes : x.Takes u (tokens ++ [⟨.mark .rparen, closed⟩]) code y :=
    ⟨hxy, hdone.reads, hcosts.mono (by simp)⟩
  exact htakes.pays hw

end SslFrontend
