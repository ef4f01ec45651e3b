import SslFrontend.Proofs.Symbol.Declares
import SslFrontend.Proofs.Symbol.Placed

/-! # Declarations inside larger tables

What is declared in a table and in a larger one in which it stands leaves it
standing there, with the same reports.  Only a name that is taken is declared
in the one table and refused in the other.
-/

namespace SslFrontend

/-! ## Changes of one procedure -/

namespace Procedure

variable {f : PoolId → PoolId} {T : Handle → Handle → Prop} {V : Value → Value → Prop}
  {N : Node → Node → Prop} {p q : Procedure}

/-- A local more. -/
theorem LikeScope.declare (h : p.LikeScope f V q) {name : String} {a b : Handle} {Q Q' : Pool}
    (ha : p.namelist.intern name = .ok (a, Q)) (hb : q.namelist.intern name = .ok (b, Q'))
    (hQ : Q.Mirrors f Q') (hint : V (.int 0) (.int 0)) (pos : Position) :
    LikeScope f V { p with namelist := Q, locals := p.locals ++ [.fresh a .localVar pos] }
      { q with namelist := Q', locals := q.locals ++ [.fresh b .localVar pos] } where
  namelist := hQ
  locals := by
    obtain ⟨hg, hfound⟩ := Pool.intern_spec ha
    obtain ⟨hg', hfound'⟩ := Pool.intern_spec hb
    refine List.rel_append (h.locals.imp fun _ _ hvw => ?_) (.cons ?_ .nil)
    · exact hvw.mono (fun _ _ hab => hab.grows hg hg') fun _ _ => id
    · exact ⟨⟨name, hfound, hfound'⟩, rfl, hint, rfl, rfl, rfl⟩

/-- A change of one local. -/
theorem LikeScope.modify (h : p.LikeScope f V q) (i : Nat) {g g' : Variable → Variable}
    (hg : ∀ T v w, Variable.Like T V v w → Variable.Like T V (g v) (g' w)) :
    LikeScope f V { p with locals := p.locals.modify i g }
      { q with locals := q.locals.modify i g' } where
  namelist := h.namelist
  locals := by
    have hbehind : Behind _ [] p.locals q.locals := ⟨q.locals, rfl, h.locals⟩
    obtain ⟨rest, hrest, hlike⟩ := hbehind.modify (i := i) fun v w _ _ => hg _ v w
    rw [List.nil_append, List.length_nil, Nat.zero_add] at hrest
    rwa [hrest]

end Procedure

/-! ## Headers side by side -/

theorem Variable.Like.withValue {T : Handle → Handle → Prop} {V : Value → Value → Prop}
    {v w : Variable} (h : v.Like T V w) {a b : Option Value} (hab : Option.Rel V a b) :
    (v.withValue a).Like T V (w.withValue b) := by
  cases hab with
  | none => exact h
  | some hvalue => exact ⟨h.name, h.scope, hvalue, h.arrayLength, h.declared, rfl⟩

/-- One and the same parameter, with defaults compared by `V`. -/
structure Param.Like (V : Value → Value → Prop) (p q : Param) : Prop where
  name : q.name = p.name
  pos : q.pos = p.pos
  default : Option.Rel V p.default q.default

theorem Param.Like.mono {V V' : Value → Value → Prop} {p q : Param} (h : p.Like V q)
    (hV : ∀ v w, V v w → V' v w) : p.Like V' q :=
  ⟨h.name, h.pos, rel_imp hV h.default⟩

theorem Param.required_like {V : Value → Value → Prop} {params params' : List Param}
    (h : List.Forall₂ (Param.Like V) params params') :
    Param.required params' = Param.required params := by
  unfold required
  induction h with
  | nil => rfl
  | @cons p q _ _ hpq _ ih =>
      have hnone : q.default.isNone = p.default.isNone := by
        have hdefault := hpq.default
        generalize p.default = a, q.default = b at hdefault
        cases hdefault <;> rfl
      rw [List.takeWhile_cons, List.takeWhile_cons, hnone]
      split
      · rw [List.length_cons, List.length_cons, ih]
      · rfl

/-- One and the same header, with values compared by `V` and nodes by `N`. -/
structure Header.Like (V : Value → Value → Prop) (N : Node → Node → Prop) (a b : Header) :
    Prop where
  name : b.name = a.name
  pos : b.pos = a.pos
  modifiers : b.modifiers = a.modifiers
  trigger : a.trigger.Like (List.Forall₂ N) b.trigger
  params : List.Forall₂ (Param.Like V) a.params b.params
  hasBody : b.hasBody = a.hasBody

namespace Header.Like

variable {V : Value → Value → Prop} {N : Node → Node → Prop} {a b : Header}

theorem settleScope (h : a.Like V N b) :
    a.settleScope.1.Like V N b.settleScope.1 ∧ b.settleScope.2 = a.settleScope.2 := by
  unfold Header.settleScope
  rw [h.modifiers, h.hasBody, h.name, h.pos]
  split
  · exact ⟨⟨rfl, rfl, rfl, h.trigger, h.params, rfl⟩, rfl⟩
  · exact ⟨h, rfl⟩

theorem settleImport (h : a.Like V N b) :
    a.settleImport.1.Like V N b.settleImport.1 ∧ b.settleImport.2 = a.settleImport.2 := by
  unfold Header.settleImport Header.importWithBody
  rw [h.modifiers, h.hasBody, h.name, h.pos]
  split
  · exact ⟨⟨rfl, rfl, rfl, h.trigger, h.params, rfl⟩, rfl⟩
  · exact ⟨h, rfl⟩

/-- The rules for one header do not look at its parameters. -/
theorem settle (h : a.Like V N b) :
    a.settle.1.Like V N b.settle.1 ∧ b.settle.2 = a.settle.2 := by
  obtain ⟨hscope, hfirst⟩ := h.settleScope
  obtain ⟨himport, hsecond⟩ := hscope.settleImport
  exact ⟨himport, congrArg₂ (· ++ ·) hfirst hsecond⟩

/-- A trigger is brought to one and the same procedure. -/
theorem mergeTrigger (h : a.Like V N b) {T : Handle → Handle → Prop} {p q : Procedure}
    (hpq : p.LikeShell T N q) :
    (SymbolTable.mergeTrigger p a).1.Like (List.Forall₂ N) (SymbolTable.mergeTrigger q b).1 ∧
      (SymbolTable.mergeTrigger q b).2 = (SymbolTable.mergeTrigger p a).2 := by
  have hold := hpq.trigger
  have hnew := h.trigger
  unfold SymbolTable.mergeTrigger
  rw [hpq.declared, h.name, h.pos]
  generalize p.trigger = old, q.trigger = old' at hold
  generalize a.trigger = new, b.trigger = new' at hnew
  have hconflict : old'.conflict? new' = old.conflict? new := by
    cases hold <;> cases hnew <;> rfl
  rw [hconflict]
  cases old.conflict? new with
  | some what => exact ⟨hold, rfl⟩
  | none =>
      refine ⟨?_, rfl⟩
      cases hnew with
      | none => exact hold
      | timed time => exact .timed time
      | conditional hcode => exact .conditional hcode

end Header.Like

/-- A verdict on procedures that stand behind others. -/
def Verdict.behind (front : Nat) : Verdict → Verdict
  | .define i => .define (front + i)
  | .announce i => .announce (front + i)
  | .reject named => .reject (named.map (front + ·))

namespace SymbolTable

variable {P : Placement} {N : Node → Node → Prop} {t t' u u' w : SymbolTable}

/-! ## Changes inside procedures -/

/-- No global is declared, and no text written. -/
structure SameGlobals (t u : SymbolTable) : Prop where
  strings : u.strings = t.strings
  vars : u.vars.map Variable.label = t.vars.map Variable.label
  procs : u.procs.map Procedure.label = t.procs.map Procedure.label

namespace SameGlobals

theorem refl (t : SymbolTable) : t.SameGlobals t := ⟨rfl, rfl, rfl⟩

theorem trans (h₁ : t.SameGlobals u) (h₂ : u.SameGlobals w) : t.SameGlobals w :=
  ⟨h₂.strings.trans h₁.strings, h₂.vars.trans h₁.vars, h₂.procs.trans h₁.procs⟩

theorem modifyScope (t : SymbolTable) (id : ScopeId) {f : Procedure → Procedure}
    (hf : ∀ p, (f p).label = p.label) : t.SameGlobals (t.modifyScope id f) where
  strings := strings_modifyScope ..
  vars := by rw [vars_modifyScope]
  procs := by
    cases id with
    | proc i => exact map_modify fun p _ => hf p
    | discarded i => rfl

theorem modifyVariable (t : SymbolTable) (symbol : Symbol) {f : Variable → Variable}
    (hf : ∀ v, (f v).label = v.label) : t.SameGlobals (t.modifyVariable symbol f) := by
  cases symbol with
  | global i => exact ⟨rfl, map_modify fun v _ => hf v, rfl⟩
  | inner scope i => exact modifyScope t scope fun _ => rfl
  | proc i => exact refl t
  | builtin i => exact refl t

theorem declareLocal {scope : ScopeId} {name : String} {pos : Position} {symbol : Symbol}
    (h : t.declareLocal scope name pos = .ok (symbol, u)) : t.SameGlobals u := by
  obtain ⟨p, handle, namelist, -, -, -, -, rfl⟩ := declareLocal_spec h
  exact modifyScope t scope fun _ => rfl

theorem setParams (t : SymbolTable) (scope : ScopeId) (params : List Param) :
    t.SameGlobals (t.setParams scope params).1 := by
  refine setParams_induct (P := t.SameGlobals) (refl t) (fun u problems param hu => ?_) fun u hu =>
    hu.trans (modifyScope u scope fun _ => rfl)
  obtain heq | ⟨symbol, v, hv, heq⟩ := @addParam_cases u scope problems param
  · rwa [heq]
  · rw [heq]
    exact hu.trans ((declareLocal hv).trans
      (modifyVariable v symbol fun v => v.withValue_label _))

theorem declareDiscarded {header : Header} {scope : ScopeId} {problems : List Diagnostic}
    (h : t.declareDiscarded header = .ok (scope, u, problems)) : t.SameGlobals u := by
  obtain ⟨handle, namelist, -, rfl⟩ := declareDiscarded_spec h
  have hopened : t.SameGlobals (t.disowned header handle namelist) := ⟨rfl, rfl, rfl⟩
  exact hopened.trans (setParams _ scope header.params)

theorem lookupGlobal (h : t.SameGlobals u) (name : String) :
    u.lookupGlobal name = t.lookupGlobal name := by
  rw [lookupGlobal_eq, lookupGlobal_eq, h.strings, h.vars, h.procs]

end SameGlobals

theorem Free.same {names : List String} (hfree : t.Free names) (h : t.SameGlobals u) :
    u.Free names :=
  fun name hmem => (h.lookupGlobal name).trans (hfree name hmem)

namespace Placed

/-- A text more makes no name a global. -/
theorem free_strings (h : Placed P N t t') {names : List String} (hfree : t.Free names) {Q : Pool}
    (hg : t.strings.Grows Q) : Free names { t with strings := Q } := by
  have hself : ∀ {α : Type} {R : α → α → Prop} {label : α → Handle × Position} {l l' : List α},
      List.Forall₂ R l l' → (∀ a b, R a b → t.strings.SameText t'.strings (label a).1 (label b).1) →
      List.Forall₂ (t.strings.SameLabel Q) (l.map label) (l.map label) := by
    intro α R label l l' hl hR
    induction hl with
    | nil => exact .nil
    | @cons a b _ _ hab _ ih =>
        obtain ⟨text, hfound, -⟩ := hR a b hab
        exact .cons ⟨⟨text, hfound, hg.find? hfound⟩, rfl⟩ ih
  obtain ⟨_, -, hvars⟩ := h.vars
  obtain ⟨_, -, hprocs⟩ := h.procs
  have halike : t.Alike { t with strings := Q } :=
    ⟨hself hvars fun _ _ hvw => hvw.name, hself hprocs fun _ _ hpq => hpq.shell.name,
      fun scope => by cases scope <;> rfl⟩
  exact fun name hmem => (halike.lookupGlobal name).trans (hfree name hmem)

/-! ## Changes at one place -/

theorem strings (h : Placed P N t t') {Q Q' : Pool} (hg : t.strings.Grows Q)
    (hg' : t'.strings.Grows Q') :
    Placed P N { t with strings := Q } { t' with strings := Q' } where
  vars := h.vars.imp fun _ _ hvw => hvw.mono (fun _ _ hab => hab.grows hg hg')
    fun _ _ hab => hab.grows hg hg'
  procs := h.procs.imp fun _ _ hpq =>
    ⟨hpq.scope.mono fun _ _ hab => hab.grows hg hg',
      hpq.shell.mono (fun _ _ hab => hab.grows hg hg') fun _ _ => id⟩
  discarded i := rel_imp (fun _ _ hpq => hpq.mono fun _ _ hab => hab.grows hg hg')
    (h.discarded i)
  room := h.room
  count := h.count
  frontVars v hv := by
    obtain ⟨name, hmem, hfound⟩ := h.frontVars v hv
    exact ⟨name, hmem, hg'.find? hfound⟩
  frontProcs p hp := by
    obtain ⟨name, hmem, hfound⟩ := h.frontProcs p hp
    exact ⟨name, hmem, hg'.find? hfound⟩

theorem modifyScope (h : Placed P N t t') (id : ScopeId) {f g : Procedure → Procedure}
    (hscope : ∀ p q, t.scope? id = some p → t'.scope? (P.scope id) = some q →
      p.LikeScope P.pool (t.strings.SameValue t'.strings) q →
      (f p).LikeScope P.pool (t.strings.SameValue t'.strings) (g q))
    (hshell : ∀ p q, p.LikeShell (t.strings.SameText t'.strings) N q →
      (f p).LikeShell (t.strings.SameText t'.strings) N (g q)) :
    Placed P N (t.modifyScope id f) (t'.modifyScope (P.scope id) g) := by
  cases id with
  | proc i =>
      exact ⟨h.vars, h.procs.modify fun p q hp hq hpq =>
          ⟨hscope p q hp hq hpq.scope, hshell p q hpq.shell⟩,
        h.discarded, h.room, h.count, h.frontVars, h.frontProcs⟩
  | discarded i =>
      refine ⟨h.vars, h.procs, fun j => ?_, ?_, ?_, h.frontVars, h.frontProcs⟩
      · have hj := h.discarded j
        show Option.Rel _ (t.discarded.modify i f)[j]?
          (t'.discarded.modify (P.discarded i) g)[P.discarded j]?
        rw [List.getElem?_modify, List.getElem?_modify]
        by_cases hij : i = j
        · subst hij
          simp only [↓reduceIte]
          cases hp : t.discarded[i]? with
          | none =>
              rw [hp] at hj
              generalize t'.discarded[P.discarded i]? = b at hj
              cases hj
              exact .none
          | some p =>
              rw [hp] at hj
              cases hq : t'.discarded[P.discarded i]? with
              | none => rw [hq] at hj; cases hj
              | some q =>
                  rw [hq] at hj
                  cases hj with
                  | some hpq => exact .some (hscope p q hp hq hpq)
        · have hne : P.discarded i ≠ P.discarded j := fun heq => hij (P.discarded_injective heq)
          simp only [hij, hne, ↓reduceIte, Option.map_eq_map, Option.map_id_fun']
          exact hj
      · show P.kept ≤ (t.discarded.modify i f).length
        rw [List.length_modify]
        exact h.room
      · show (t'.discarded.modify (P.discarded i) g).length = P.dropped +
          (t.discarded.modify i f).length
        rw [List.length_modify, List.length_modify]
        exact h.count

theorem modifyVariable (h : Placed P N t t') (symbol : Symbol) {f g : Variable → Variable}
    (hfg : ∀ T v w, Variable.Like T (t.strings.SameValue t'.strings) v w →
      Variable.Like T (t.strings.SameValue t'.strings) (f v) (g w)) :
    Placed P N (t.modifyVariable symbol f) (t'.modifyVariable (P.symbol symbol) g) := by
  cases symbol with
  | global i =>
      exact ⟨h.vars.modify fun v w _ _ => hfg _ v w, h.procs, h.discarded, h.room, h.count,
        h.frontVars, h.frontProcs⟩
  | inner scope i =>
      exact h.modifyScope scope (fun _ _ _ _ hpq => hpq.modify i hfg) fun _ _ hpq =>
        ⟨hpq.name, hpq.trigger, hpq.modifiers, hpq.numArgs, hpq.minArgs, hpq.defined,
          hpq.declared, hpq.span, hpq.body⟩
  | proc i => exact h
  | builtin i => exact h

/-! ## Variables -/

/-- The same is declared in both tables, or refused in both, or one of some names is
declared in the one table. -/
def SameAnswer (P : Placement) (N : Node → Node → Prop) (names : List String) :
    Except Diagnostic (Symbol × SymbolTable) → Except Diagnostic (Symbol × SymbolTable) → Prop
  | .error d, .error d' => d' = d
  | .ok (a, u), .ok (b, u') => b = P.symbol a ∧ Placed P N u u'
  | .ok (_, u), .error _ => ∃ name ∈ names, u.HasGlobal name
  | .error _, .ok _ => False

theorem declareVar (h : Placed P N t t') (hfree : t.Free P.taken) (name : String)
    (kind : VarScope) (pos : Position) :
    SameAnswer P N P.taken (t.declareVar name kind pos) (t'.declareVar name kind pos) := by
  have hsees := h.lookupGlobal hfree name
  unfold SymbolTable.declareVar
  cases hl : t.lookupGlobal name with
  | some existing =>
      rw [hl] at hsees
      generalize t'.lookupGlobal name = b at hsees
      cases hsees
      dsimp only
      rw [h.siteOf?]
      rfl
  | none =>
      rw [hl] at hsees
      generalize t'.lookupGlobal name = b at hsees
      cases hsees with
      | none =>
          dsimp only
          obtain ⟨e, he, he'⟩ | ⟨a, Q, b, Q', ha, hb⟩ := t.strings.intern_alike t'.strings name
          · rw [he, he']
            rfl
          · obtain ⟨hg, hfound⟩ := Pool.intern_spec ha
            obtain ⟨hg', hfound'⟩ := Pool.intern_spec hb
            have hgrown := h.strings hg hg'
            rw [ha, hb]
            refine ⟨congrArg Symbol.global h.vars.length, hgrown.vars.push ?_, hgrown.procs,
              hgrown.discarded, hgrown.room, hgrown.count, hgrown.frontVars, hgrown.frontProcs⟩
            exact ⟨⟨name, hfound, hfound'⟩, rfl, .int 0, rfl, rfl, rfl⟩
      | taken hmem hbinds houter =>
          obtain ⟨a, Q, ha⟩ : ∃ a Q, t.strings.intern name = .ok (a, Q) := by
            obtain ⟨pool, handle, -, -, hfound⟩ := hbinds
            exact Pool.intern_of_find? hfound
          have hdeclared : t.declareVar name kind pos = .ok (.global t.vars.length,
              { t with strings := Q, vars := t.vars ++ [.fresh a kind pos] }) := by
            unfold SymbolTable.declareVar
            simp only [hl, ha]
          dsimp only
          rw [ha]
          have hdeclaredIn : t.declareIn none kind name pos = _ := hdeclared
          exact ⟨name, hmem, _, (binds_of_declareIn hdeclaredIn).1, nofun⟩

theorem declareLocal (h : Placed P N t t') (scope : ScopeId) (name : String) (pos : Position) :
    SameAnswer P N [] (t.declareLocal scope name pos)
      (t'.declareLocal (P.scope scope) name pos) := by
  have hscope := h.scope? scope
  unfold SymbolTable.declareLocal
  rw [h.lookupLocal]
  cases hp : t.scope? scope with
  | none =>
      rw [hp] at hscope
      generalize t'.scope? (P.scope scope) = b at hscope
      cases hscope
      rfl
  | some p =>
      rw [hp] at hscope
      cases hq : t'.scope? (P.scope scope) with
      | none => rw [hq] at hscope; cases hscope
      | some q =>
          rw [hq] at hscope
          obtain ⟨hpq⟩ := hscope
          cases t.lookupLocal scope name with
          | some existing =>
              simp only [Option.map_some]
              rw [h.siteOf?]
              rfl
          | none =>
              simp only [Option.map_none]
              obtain ⟨e, he, he'⟩ | ⟨a, Q, b, Q', ha, hb, hQ⟩ := hpq.namelist.intern name
              · rw [he, he']
                rfl
              · rw [ha, hb]
                refine ⟨?_, h.modifyScope scope (fun p' q' hp' hq' hpq' => ?_) fun _ _ hpq =>
                  ⟨hpq.name, hpq.trigger, hpq.modifiers, hpq.numArgs, hpq.minArgs, hpq.defined,
                    hpq.declared, hpq.span, hpq.body⟩⟩
                · rw [hpq.locals.length_eq]
                  rfl
                · obtain rfl : p = p' := Option.some.inj (hp.symm.trans hp')
                  obtain rfl : q = q' := Option.some.inj (hq.symm.trans hq')
                  exact hpq.declare ha hb hQ (.int 0) pos

theorem declareIn (h : Placed P N t t') (hfree : t.Free P.taken) (context : Option ScopeId)
    (kind : VarScope) (name : String) (pos : Position) :
    SameAnswer P N P.taken (t.declareIn context kind name pos)
      (t'.declareIn (context.map P.scope) kind name pos) := by
  cases context with
  | none => exact h.declareVar hfree name kind pos
  | some scope =>
      have hlocal := h.declareLocal scope name pos
      show SameAnswer P N P.taken (t.declareLocal scope name pos)
        (t'.declareLocal (P.scope scope) name pos)
      generalize t.declareLocal scope name pos = a at hlocal ⊢
      generalize t'.declareLocal (P.scope scope) name pos = b at hlocal ⊢
      cases a with
      | error d => cases b <;> exact hlocal
      | ok found =>
          cases b with
          | ok found' => exact hlocal
          | error d =>
              obtain ⟨name, hmem, -⟩ := hlocal
              cases hmem

/-! ## Parameters -/

theorem addParam (h : Placed P N t t') (scope : ScopeId) (problems : List Diagnostic)
    {p q : Param} (hp : p.Like (t.strings.SameValue t'.strings) q) :
    (SymbolTable.addParam (P.scope scope) (t', problems) q).2 =
        (SymbolTable.addParam scope (t, problems) p).2 ∧
      Placed P N (SymbolTable.addParam scope (t, problems) p).1
        (SymbolTable.addParam (P.scope scope) (t', problems) q).1 := by
  have hlocal := h.declareLocal scope p.name p.pos
  have hstrings : ∀ {t u : SymbolTable} {scope : ScopeId} {name : String} {pos : Position}
      {symbol : Symbol}, t.declareLocal scope name pos = .ok (symbol, u) →
      u.strings = t.strings := by
    intro t u scope name pos symbol hd
    obtain ⟨_, _, _, _, _, _, _, rfl⟩ := declareLocal_spec hd
    exact strings_modifyScope ..
  unfold SymbolTable.addParam
  rw [hp.name, hp.pos]
  dsimp only
  cases ha : t.declareLocal scope p.name p.pos with
  | error d =>
      rw [ha] at hlocal
      cases hb : t'.declareLocal (P.scope scope) p.name p.pos with
      | error d' =>
          rw [hb] at hlocal
          obtain rfl : d' = d := hlocal
          exact ⟨rfl, h⟩
      | ok found' =>
          rw [hb] at hlocal
          exact hlocal.elim
  | ok found =>
      obtain ⟨symbol, u⟩ := found
      rw [ha] at hlocal
      cases hb : t'.declareLocal (P.scope scope) p.name p.pos with
      | error d' =>
          rw [hb] at hlocal
          obtain ⟨name, hmem, -⟩ := hlocal
          cases hmem
      | ok found' =>
          obtain ⟨symbol', u'⟩ := found'
          rw [hb] at hlocal
          obtain ⟨rfl, hu⟩ := hlocal
          refine ⟨rfl, hu.modifyVariable symbol fun T v w hvw => ?_⟩
          rw [hstrings ha, hstrings hb] at hvw ⊢
          exact hvw.withValue hp.default

theorem setParams (h : Placed P N t t') (scope : ScopeId) (params params' : List Param)
    (hp : List.Forall₂ (Param.Like (t.strings.SameValue t'.strings)) params params') :
    (t'.setParams (P.scope scope) params').2 = (t.setParams scope params).2 ∧
      Placed P N (t.setParams scope params).1 (t'.setParams (P.scope scope) params').1 := by
  have hfold : ∀ {params params' : List Param} (problems : List Diagnostic) {u u' : SymbolTable},
      List.Forall₂ (Param.Like (u.strings.SameValue u'.strings)) params params' →
      Placed P N u u' →
      (params'.foldl (SymbolTable.addParam (P.scope scope)) (u', problems)).2 =
          (params.foldl (SymbolTable.addParam scope) (u, problems)).2 ∧
        Placed P N (params.foldl (SymbolTable.addParam scope) (u, problems)).1
          (params'.foldl (SymbolTable.addParam (P.scope scope)) (u', problems)).1 := by
    intro params
    induction params with
    | nil =>
        intro params' problems u u' hp hu
        cases hp
        exact ⟨rfl, hu⟩
    | cons p rest ih =>
        intro params' problems u u' hp hu
        cases hp with
        | @cons _ q _ rest' hpq hrest =>
            obtain ⟨hproblems, hplaced⟩ := hu.addParam scope problems hpq
            rw [List.foldl_cons, List.foldl_cons, ← Prod.eta (SymbolTable.addParam scope _ p),
              ← Prod.eta (SymbolTable.addParam (P.scope scope) _ q), hproblems]
            refine ih _ ?_ hplaced
            rwa [strings_addParam, strings_addParam]
  obtain ⟨hproblems, hplaced⟩ := hfold [] hp h
  refine ⟨hproblems, hplaced.modifyScope scope (fun _ _ _ _ hpq => ⟨hpq.namelist, hpq.locals⟩)
    fun _ _ hpq => ⟨hpq.name, hpq.trigger, hpq.modifiers, hp.length_eq.symm, Param.required_like hp,
      hpq.defined, hpq.declared, hpq.span, hpq.body⟩⟩

/-- The symbol that a parameter became. -/
theorem symbolOf? (h : Placed P N t t') (scope : ScopeId) {p q : Param} (hname : q.name = p.name)
    (hpos : q.pos = p.pos) :
    ((t'.lookupLocal (P.scope scope) q.name).filter fun symbol => t'.siteOf? symbol = some q.pos) =
      ((t.lookupLocal scope p.name).filter fun symbol => t.siteOf? symbol = some p.pos).map
        P.symbol := by
  rw [hname, hpos, h.lookupLocal]
  cases t.lookupLocal scope p.name with
  | none => rfl
  | some symbol =>
      simp only [Option.map_some, Option.filter_some, h.siteOf?]
      split <;> rfl

/-! ## Headers -/

/-- A header does the same in both tables. -/
structure SameDeclared (P : Placement) (N : Node → Node → Prop) (d d' : Declared) : Prop where
  verdict : d'.verdict = d.verdict.behind P.procs.length
  problems : d'.problems = d.problems
  table : Placed P N d.table d'.table

/-- A procedure more. -/
theorem opened (h : Placed P N t t') {p q : Procedure}
    (hpq : p.Like P.pool (t.strings.SameText t'.strings) (t.strings.SameValue t'.strings) N q) :
    Placed P N { t with procs := t.procs ++ [p] } { t' with procs := t'.procs ++ [q] } :=
  ⟨h.vars, h.procs.push hpq, h.discarded, h.room, h.count, h.frontVars, h.frontProcs⟩

theorem declareFirst (h : Placed P N t t') {a b : Header}
    (hab : a.Like (t.strings.SameValue t'.strings) N b) :
    SameDeclared P N (t.declareFirst a) (t'.declareFirst b) := by
  unfold SymbolTable.declareFirst
  rw [hab.name, hab.pos, hab.modifiers, hab.hasBody]
  obtain ⟨e, he, he'⟩ | ⟨i, Q, j, Q', hi, hj⟩ := t.strings.intern_alike t'.strings a.name
  · rw [he, he']
    exact ⟨rfl, rfl, h⟩
  · obtain ⟨hg, hfound⟩ := Pool.intern_spec hi
    obtain ⟨hg', hfound'⟩ := Pool.intern_spec hj
    rw [hi, hj]
    have hopened := (h.strings hg hg').opened (p := { Procedure.fresh i
        (.empty (.namelist t.procs.length)) a.pos with
          modifiers := a.modifiers
          trigger := a.trigger }) (q := { Procedure.fresh j
        (.empty (.namelist t'.procs.length)) a.pos with
          modifiers := a.modifiers
          trigger := b.trigger }) ⟨⟨⟨?_, rfl⟩, .nil⟩, ⟨⟨a.name, hfound, hfound'⟩, hab.trigger,
            rfl, rfl, rfl, rfl, rfl, rfl, .nil⟩⟩
    · obtain ⟨hproblems, hplaced⟩ := hopened.setParams (.proc t.procs.length) a.params
        b.params (hab.params.imp fun _ _ hpq => hpq.mono fun _ _ hvw => hvw.grows hg hg')
      have hscope : P.scope (.proc t.procs.length) = .proc t'.procs.length :=
        congrArg ScopeId.proc h.procs.length.symm
      rw [hscope] at hproblems hplaced
      refine ⟨?_, hproblems, hplaced⟩
      rw [h.procs.length]
      dsimp only
      cases a.hasBody <;> rfl
    · rw [h.procs.length]
      rfl

theorem declareAgain (h : Placed P N t t') (i : Nat) {p q : Procedure}
    (hpq : p.Like P.pool (t.strings.SameText t'.strings) (t.strings.SameValue t'.strings) N q)
    {a b : Header} (hab : a.Like (t.strings.SameValue t'.strings) N b) :
    SameDeclared P N (t.declareAgain i p a) (t'.declareAgain (P.procs.length + i) q b) := by
  have hshell := hpq.shell
  have harity : arityProblem q b = arityProblem p a := by
    unfold arityProblem
    rw [hshell.numArgs, hshell.minArgs, hshell.declared, hab.params.length_eq,
      Param.required_like hab.params, hab.name, hab.pos]
  have hmodifiers : mergeModifiers q b = mergeModifiers p a := by
    unfold mergeModifiers
    rw [hshell.modifiers, hshell.declared, hab.name, hab.pos, hab.modifiers]
  obtain ⟨htrigger, htriggerProblems⟩ := hab.mergeTrigger hshell
  have hredefined : redefinition q b = redefinition p a := by
    unfold redefinition
    rw [hshell.span, hshell.declared, hab.name, hab.pos]
  unfold SymbolTable.declareAgain
  rw [hab.hasBody, hshell.defined, hredefined]
  split
  · exact ⟨rfl, rfl, h⟩
  · dsimp only
    rw [harity, hmodifiers, htriggerProblems]
    split
    · have hcleared := h.modifyScope (.proc i)
        (f := fun p' => { p' with
          trigger := (mergeTrigger p a).1
          modifiers := (mergeModifiers p a).1.withoutImport
          locals := []
          namelist := .empty (.namelist i) })
        (g := fun q' => { q' with
          trigger := (mergeTrigger q b).1
          modifiers := (mergeModifiers p a).1.withoutImport
          locals := []
          namelist := .empty (.namelist (P.procs.length + i)) })
        (fun _ _ _ _ _ => ⟨⟨rfl, rfl⟩, .nil⟩)
        fun _ _ hpq => ⟨hpq.name, htrigger, rfl, hpq.numArgs, hpq.minArgs, hpq.defined,
          hpq.declared, hpq.span, hpq.body⟩
      obtain ⟨hproblems, hplaced⟩ := hcleared.setParams (.proc i) a.params
        b.params hab.params
      refine ⟨rfl, congrArg₂ (· ++ ·) ?_ hproblems, hplaced⟩
      unfold Header.importWithBody
      rw [hab.name, hab.pos]
    · exact ⟨rfl, rfl, h.modifyScope (.proc i) (fun _ _ _ _ hpq => ⟨hpq.namelist, hpq.locals⟩)
        fun _ _ hpq => ⟨hpq.name, htrigger, rfl, hpq.numArgs, hpq.minArgs, hpq.defined,
          hpq.declared, hpq.span, hpq.body⟩⟩

/-- A header does the same in both tables, or it declares a taken name. -/
theorem declareSettled (h : Placed P N t t') (hfree : t.Free P.taken) {a b : Header}
    (hab : a.Like (t.strings.SameValue t'.strings) N b) :
    (∃ name ∈ P.taken, (t.declareSettled a).table.HasGlobal name) ∨
      SameDeclared P N (t.declareSettled a) (t'.declareSettled b) := by
  have hsees := h.lookupGlobal hfree a.name
  have hreject : ∀ existing, SameDeclared P N
      ⟨.reject none, t, [.redeclared a.pos ((t.siteOf? existing).getD .unknown) a.name]⟩
      ⟨.reject none, t', [.redeclared a.pos ((t'.siteOf? (P.symbol existing)).getD .unknown)
        a.name]⟩ := fun existing => ⟨rfl, by rw [h.siteOf?], h⟩
  unfold SymbolTable.declareSettled
  rw [hab.name, hab.pos]
  cases hl : t.lookupGlobal a.name with
  | some existing =>
      rw [hl] at hsees
      generalize t'.lookupGlobal a.name = found at hsees
      cases hsees
      right
      cases existing with
      | proc i =>
          have hi := h.procs.getElem? i
          dsimp only [Placement.symbol]
          generalize t.procs[i]? = p, t'.procs[P.procs.length + i]? = q at hi
          cases hi with
          | none => exact ⟨rfl, rfl, h⟩
          | some hpq => exact h.declareAgain i hpq hab
      | global i => exact hreject _
      | inner scope i => exact hreject _
      | builtin i => exact hreject _
  | none =>
      rw [hl] at hsees
      generalize t'.lookupGlobal a.name = found at hsees
      cases hsees with
      | none => exact .inr (h.declareFirst hab)
      | taken hmem hbinds houter =>
          left
          obtain ⟨i, Q, hi⟩ : ∃ i Q, t.strings.intern a.name = .ok (i, Q) := by
            obtain ⟨pool, handle, -, -, hfound⟩ := hbinds
            exact Pool.intern_of_find? hfound
          have hnamed : (t.declareSettled a).verdict.named? = some t.procs.length := by
            unfold SymbolTable.declareSettled SymbolTable.declareFirst
            simp only [hl, hi]
            cases a.hasBody <;> rfl
          have hbound := binds_of_declareSettled hnamed
          unfold SymbolTable.declareSettled at hbound
          simp only [hl] at hbound
          exact ⟨a.name, hmem, _, hbound, nofun⟩

theorem declare (h : Placed P N t t') (hfree : t.Free P.taken) {a b : Header}
    (hab : a.Like (t.strings.SameValue t'.strings) N b) :
    (∃ name ∈ P.taken, (t.declare a).table.HasGlobal name) ∨
      SameDeclared P N (t.declare a) (t'.declare b) := by
  obtain ⟨hsettled, hproblems⟩ := hab.settle
  refine (h.declareSettled hfree hsettled).imp_right fun hsame => ⟨hsame.verdict, ?_, hsame.table⟩
  exact congrArg₂ (· ++ ·) hproblems hsame.problems

/-- Both tables open a scope for the body of a rejected header, or refuse alike. -/
def SameScope (P : Placement) (N : Node → Node → Prop) :
    Except Diagnostic (ScopeId × SymbolTable × List Diagnostic) →
    Except Diagnostic (ScopeId × SymbolTable × List Diagnostic) → Prop
  | .error d, .error d' => d' = d
  | .ok (σ, u, ds), .ok (τ, u', ds') => τ = P.scope σ ∧ ds' = ds ∧ Placed P N u u'
  | _, _ => False

theorem declareDiscarded (h : Placed P N t t') {a b : Header}
    (hab : a.Like (t.strings.SameValue t'.strings) N b) :
    SameScope P N (t.declareDiscarded a) (t'.declareDiscarded b) := by
  unfold SymbolTable.declareDiscarded
  rw [hab.name, hab.pos]
  cases hi : (Pool.empty .scratch).intern a.name with
  | error e => rfl
  | ok found =>
      obtain ⟨handle, namelist⟩ := found
      have hnamelist : namelist.id = P.pool namelist.id := by
        rw [(Pool.intern_spec hi).1.id]
        rfl
      have hcount := h.count
      have hroom := h.room
      have hopened : Placed P N
          { t with discarded := t.discarded ++ [Procedure.fresh handle namelist a.pos] }
          { t' with discarded := t'.discarded ++ [Procedure.fresh handle namelist a.pos] } := by
        refine ⟨h.vars, h.procs, fun i => ?_, ?_, ?_, h.frontVars, h.frontProcs⟩
        · rcases Nat.lt_trichotomy i t.discarded.length with hi | rfl | hi
          · have hrel := h.discarded i
            have hlt : P.discarded i < t'.discarded.length := by
              unfold Placement.discarded
              split <;> omega
            rwa [List.getElem?_append_left hi, List.getElem?_append_left hlt]
          · have hnew : P.discarded t.discarded.length = t'.discarded.length := by
              rw [Placement.discarded, if_neg (Nat.not_lt.mpr hroom), hcount]
            rw [hnew, List.getElem?_concat_length, List.getElem?_concat_length]
            exact .some ⟨⟨hnamelist, rfl⟩, .nil⟩
          · have hgt : t'.discarded.length < P.discarded i := by
              rw [Placement.discarded, if_neg (by omega), hcount]
              omega
            rw [List.getElem?_eq_none (by simpa using Nat.succ_le_of_lt hi),
              List.getElem?_eq_none (by simpa using Nat.succ_le_of_lt hgt)]
            exact .none
        · simp only [List.length_append, List.length_singleton]
          omega
        · simp only [List.length_append, List.length_singleton]
          omega
      have hscope : P.scope (.discarded t.discarded.length) = .discarded t'.discarded.length := by
        show ScopeId.discarded (P.discarded t.discarded.length) = _
        rw [Placement.discarded, if_neg (Nat.not_lt.mpr h.room), h.count]
      obtain ⟨hproblems, hplaced⟩ := hopened.setParams (.discarded t.discarded.length)
        a.params b.params hab.params
      rw [hscope] at hproblems hplaced
      exact ⟨hscope.symm, hproblems, hplaced⟩

/-- One and the same body. -/
theorem attach (h : Placed P N t t') (scope : ScopeId) (start finish : Position) {a b : Code}
    (hab : List.Forall₂ N a b) (hret : N ⟨.ret, .int 0, finish⟩ ⟨.ret, .int 0, finish⟩) :
    Placed P N
      (t.modifyScope scope fun p =>
        { p with
          body := a ++ [⟨.ret, .int 0, finish⟩]
          defined := true
          span := some (start, finish) })
      (t'.modifyScope (P.scope scope) fun p =>
        { p with
          body := b ++ [⟨.ret, .int 0, finish⟩]
          defined := true
          span := some (start, finish) }) :=
  h.modifyScope scope (fun _ _ _ _ hpq => ⟨hpq.namelist, hpq.locals⟩) fun _ _ hpq =>
    ⟨hpq.name, hpq.trigger, hpq.modifiers, hpq.numArgs, hpq.minArgs, rfl, hpq.declared, rfl,
      List.rel_append hab (.cons hret .nil)⟩

end Placed

end SymbolTable

end SslFrontend
