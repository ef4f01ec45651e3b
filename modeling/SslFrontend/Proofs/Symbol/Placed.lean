import SslFrontend.Proofs.Symbol.Alike
import SslFrontend.Proofs.Symbol.Binds

/-! # Tables inside larger tables

What one table holds can stand inside a larger one: behind variables and
procedures that the other one does not have, and around scopes of rejected
headers that it does not have.  `Placement` says where, and `SymbolTable.Placed`
that the contents are the same there, up to the numbers of texts and of symbols.
A name means the same in both tables, unless only the larger one has it.
-/

namespace SslFrontend

/-- Lists that are alike have alike entries. -/
theorem rel_getElem? {α β : Type} {R : α → β → Prop} {l : List α} {l' : List β}
    (h : List.Forall₂ R l l') (i : Nat) : Option.Rel R l[i]? l'[i]? := by
  induction h generalizing i with
  | nil => exact .none
  | cons hab _ ih =>
      cases i with
      | zero => exact .some hab
      | succ i => exact ih i

theorem rel_imp {α β : Type} {R S : α → β → Prop} {a : Option α} {b : Option β}
    (hRS : ∀ a b, R a b → S a b) (h : Option.Rel R a b) : Option.Rel S a b := by
  cases h with
  | none => exact .none
  | some hab => exact .some (hRS _ _ hab)

/-- The entries of a list stand behind others in a longer one. -/
def Behind {α β : Type} (R : α → β → Prop) (front : List β) (l : List α) (l' : List β) : Prop :=
  ∃ rest, l' = front ++ rest ∧ List.Forall₂ R l rest

namespace Behind

variable {α β : Type} {R S : α → β → Prop} {front l' : List β} {l : List α}

theorem imp (h : Behind R front l l') (hRS : ∀ a b, R a b → S a b) : Behind S front l l' := by
  obtain ⟨rest, hrest, hl⟩ := h
  exact ⟨rest, hrest, hl.imp hRS⟩

theorem length (h : Behind R front l l') : l'.length = front.length + l.length := by
  obtain ⟨rest, rfl, hl⟩ := h
  rw [List.length_append, hl.length_eq]

theorem getElem? (h : Behind R front l l') (i : Nat) :
    Option.Rel R l[i]? l'[front.length + i]? := by
  obtain ⟨rest, rfl, hl⟩ := h
  rw [List.getElem?_append_right (Nat.le_add_right _ _), Nat.add_sub_cancel_left]
  exact rel_getElem? hl i

theorem push (h : Behind R front l l') {a : α} {b : β} (hab : R a b) :
    Behind R front (l ++ [a]) (l' ++ [b]) := by
  obtain ⟨rest, rfl, hl⟩ := h
  exact ⟨rest ++ [b], List.append_assoc .., List.rel_append hl (.cons hab .nil)⟩

theorem modify (h : Behind R front l l') {i : Nat} {f : α → α} {g : β → β}
    (hfg : ∀ a b, l[i]? = some a → l'[front.length + i]? = some b → R a b → R (f a) (g b)) :
    Behind R front (l.modify i f) (l'.modify (front.length + i) g) := by
  obtain ⟨rest, rfl, hl⟩ := h
  refine ⟨rest.modify i g, ?_, ?_⟩
  · clear hl hfg
    induction front with
    | nil => simp
    | cons first front ih =>
        rw [List.length_cons, Nat.add_right_comm, List.cons_append, List.modify_succ_cons, ih]
        rfl
  · replace hfg : ∀ a b, l[i]? = some a → rest[i]? = some b → R a b → R (f a) (g b) := by
      intro a b ha hb
      refine hfg a b ha ?_
      rw [List.getElem?_append_right (Nat.le_add_right _ _), Nat.add_sub_cancel_left, hb]
    induction hl generalizing i with
    | nil => simp
    | @cons a b _ _ hab hrest ih =>
        cases i with
        | zero => exact .cons (hfg a b rfl rfl hab) hrest
        | succ i => exact .cons hab (ih fun a b ha hb => hfg a b ha hb)

end Behind

namespace Pool

/-- One and the same value, texts compared as texts. -/
inductive SameValue (P P' : Pool) : Value → Value → Prop
  | int (n : Int32) : SameValue P P' (.int n) (.int n)
  | float (x : Binary32) : SameValue P P' (.float x) (.float x)
  | string {a b : Handle} (h : P.SameText P' a b) : SameValue P P' (.string a) (.string b)

theorem SameValue.grows {P P' Q Q' : Pool} {v w : Value} (h : P.SameValue P' v w)
    (hg : P.Grows Q) (hg' : P'.Grows Q') : Q.SameValue Q' v w := by
  cases h with
  | int n => exact .int n
  | float x => exact .float x
  | string h => exact .string (h.grows hg hg')

/-- A text that one pool has, another one takes. -/
theorem intern_of_find? {P P' : Pool} {text : String} {handle : Handle}
    (h : P'.find? text = some handle) : ∃ a Q, P.intern text = .ok (a, Q) := by
  obtain ⟨e, -, he⟩ | ⟨a, Q, -, -, ha, -⟩ := P.intern_alike P' text
  · obtain ⟨offset, hoffset, -⟩ := Option.map_eq_some_iff.mp h
    unfold Pool.intern at he
    split at he
    · cases he
    · rename_i hnone
      rw [hoffset] at hnone
      cases hnone
  · exact ⟨a, Q, ha⟩

/-- The same texts in a pool of another owner. -/
structure Mirrors (f : PoolId → PoolId) (P P' : Pool) : Prop where
  id : P'.id = f P.id
  texts : P'.texts = P.texts

/-- Both pools take a text, or neither does. -/
theorem Mirrors.intern {f : PoolId → PoolId} {P P' : Pool} (h : P.Mirrors f P') (text : String) :
    (∃ e, P.intern text = .error e ∧ P'.intern text = .error e) ∨
      ∃ a Q b Q', P.intern text = .ok (a, Q) ∧ P'.intern text = .ok (b, Q') ∧ Q.Mirrors f Q' := by
  refine (P.intern_alike P' text).imp_right ?_
  rintro ⟨a, Q, b, Q', ha, hb⟩
  refine ⟨a, Q, b, Q', ha, hb, ?_, ?_⟩
  · rw [(intern_spec hb).1.id, (intern_spec ha).1.id, h.id]
  · by_cases hnew : text ∈ P.texts
    · have hkept : ∀ {P Q : Pool} {a : Handle}, text ∈ P.texts → P.intern text = .ok (a, Q) →
          Q.texts = P.texts := by
        intro P Q a hmem hi
        unfold Pool.intern at hi
        split at hi
        · cases hi
          rfl
        · rename_i hnone
          exact absurd hmem (offsetOf?_eq_none_iff.mp hnone)
      rw [hkept hnew ha, hkept (h.texts ▸ hnew) hb, h.texts]
    · rw [texts_of_intern ha hnew, texts_of_intern hb (h.texts ▸ hnew), h.texts]

/-- Where a name stands among labels that more follow. -/
theorem labelOf?_append (P : Pool) (first second : List (Handle × Position)) (name : String) :
    P.labelOf? (first ++ second) name =
      (P.labelOf? first name).or ((P.labelOf? second name).map (first.length + ·)) := by
  unfold labelOf?
  cases P.find? name with
  | none => rfl
  | some handle =>
      simp only [Option.bind_some, List.findIdx?_append]
      refine congrArg _ (Option.map_congr fun i _ => Nat.add_comm _ _)

end Pool

/-! ## What is the same -/

/-- One and the same variable, with names and texts compared by `T` and `V`. -/
structure Variable.Like (T : Handle → Handle → Prop) (V : Value → Value → Prop)
    (v w : Variable) : Prop where
  name : T v.name w.name
  scope : w.scope = v.scope
  value : V v.value w.value
  arrayLength : w.arrayLength = v.arrayLength
  declared : w.declared = v.declared
  initialized : w.initialized = v.initialized

theorem Variable.Like.mono {T T' : Handle → Handle → Prop} {V V' : Value → Value → Prop}
    {v w : Variable} (h : v.Like T V w) (hT : ∀ a b, T a b → T' a b)
    (hV : ∀ a b, V a b → V' a b) : v.Like T' V' w :=
  ⟨hT _ _ h.name, h.scope, hV _ _ h.value, h.arrayLength, h.declared, h.initialized⟩

/-- One and the same trigger, with conditions compared as code. -/
inductive Trigger.Like (C : Code → Code → Prop) : Trigger → Trigger → Prop
  | none : Like C .none .none
  | timed (time : Int32) : Like C (.timed time) (.timed time)
  | conditional {a b : Code} (h : C a b) : Like C (.conditional a) (.conditional b)

theorem Trigger.Like.mono {C C' : Code → Code → Prop} {a b : Trigger} (h : a.Like C b)
    (hC : ∀ a b, C a b → C' a b) : a.Like C' b := by
  cases h with
  | none => exact .none
  | timed time => exact .timed time
  | conditional h => exact .conditional (hC _ _ h)

namespace Procedure

/-- The same parameters and locals. -/
structure LikeScope (f : PoolId → PoolId) (V : Value → Value → Prop) (p q : Procedure) :
    Prop where
  namelist : p.namelist.Mirrors f q.namelist
  locals : List.Forall₂ (Variable.Like (p.namelist.SameText q.namelist) V) p.locals q.locals

/-- One and the same procedure, but for what is declared inside it. -/
structure LikeShell (T : Handle → Handle → Prop) (N : Node → Node → Prop) (p q : Procedure) :
    Prop where
  name : T p.name q.name
  trigger : p.trigger.Like (List.Forall₂ N) q.trigger
  modifiers : q.modifiers = p.modifiers
  numArgs : q.numArgs = p.numArgs
  minArgs : q.minArgs = p.minArgs
  defined : q.defined = p.defined
  declared : q.declared = p.declared
  span : q.span = p.span
  body : List.Forall₂ N p.body q.body

/-- One and the same procedure. -/
structure Like (f : PoolId → PoolId) (T : Handle → Handle → Prop) (V : Value → Value → Prop)
    (N : Node → Node → Prop) (p q : Procedure) : Prop where
  scope : p.LikeScope f V q
  shell : p.LikeShell T N q

variable {f : PoolId → PoolId} {T T' : Handle → Handle → Prop} {V V' : Value → Value → Prop}
  {N N' : Node → Node → Prop} {p q : Procedure}

theorem LikeScope.mono (h : p.LikeScope f V q) (hV : ∀ a b, V a b → V' a b) :
    p.LikeScope f V' q :=
  ⟨h.namelist, h.locals.imp fun _ _ hvw => hvw.mono (fun _ _ => id) hV⟩

theorem LikeShell.mono (h : p.LikeShell T N q) (hT : ∀ a b, T a b → T' a b)
    (hN : ∀ a b, N a b → N' a b) : p.LikeShell T' N' q where
  name := hT _ _ h.name
  trigger := h.trigger.mono fun _ _ => List.Forall₂.imp hN
  modifiers := h.modifiers
  numArgs := h.numArgs
  minArgs := h.minArgs
  defined := h.defined
  declared := h.declared
  span := h.span
  body := h.body.imp hN

end Procedure

/-- Where the contents of a table stand in a larger one. -/
structure Placement where
  /-- The variables in front. -/
  vars : List Variable
  /-- The procedures in front. -/
  procs : List Procedure
  /-- How many scopes of rejected headers stand at their own place. -/
  kept : Nat
  /-- How many such scopes stand between those and the others. -/
  dropped : Nat
  /-- The names of the variables and procedures in front. -/
  taken : List String

namespace Placement

variable (P : Placement)

def discarded (i : Nat) : Nat := if i < P.kept then i else P.dropped + i

def scope : ScopeId → ScopeId
  | .proc i => .proc (P.procs.length + i)
  | .discarded i => .discarded (P.discarded i)

def symbol : Symbol → Symbol
  | .global i => .global (P.vars.length + i)
  | .inner scope i => .inner (P.scope scope) i
  | .proc i => .proc (P.procs.length + i)
  | .builtin i => .builtin i

def pool : PoolId → PoolId
  | .namelist i => .namelist (P.procs.length + i)
  | id => id

theorem discarded_injective {i j : Nat} (h : P.discarded i = P.discarded j) : i = j := by
  unfold discarded at h
  split at h <;> split at h <;> omega

/-- What a name is in a table and in a larger one. -/
inductive Sees (t' : SymbolTable) (name : String) : Option Symbol → Option Symbol → Prop
  | none : Sees t' name none none
  | some (symbol : Symbol) : Sees t' name (some symbol) (some (P.symbol symbol))
  | taken {symbol : Symbol} (h : name ∈ P.taken) (binds : t'.Binds name symbol)
      (outer : ∀ scope i, symbol ≠ .inner scope i) : Sees t' name none (some symbol)

end Placement

namespace SymbolTable

variable {t t' u u' : SymbolTable}

/-- The contents of a table stand in a larger one. -/
structure Placed (P : Placement) (N : Node → Node → Prop) (t t' : SymbolTable) : Prop where
  vars : Behind (Variable.Like (t.strings.SameText t'.strings)
    (t.strings.SameValue t'.strings)) P.vars t.vars t'.vars
  procs : Behind (Procedure.Like P.pool (t.strings.SameText t'.strings)
    (t.strings.SameValue t'.strings) N) P.procs t.procs t'.procs
  discarded : ∀ i, Option.Rel (Procedure.LikeScope P.pool (t.strings.SameValue t'.strings))
    t.discarded[i]? t'.discarded[P.discarded i]?
  room : P.kept ≤ t.discarded.length
  count : t'.discarded.length = P.dropped + t.discarded.length
  frontVars : ∀ v ∈ P.vars, ∃ name ∈ P.taken, t'.strings.find? name = some v.name
  frontProcs : ∀ p ∈ P.procs, ∃ name ∈ P.taken, t'.strings.find? name = some p.name

/-- None of these names is declared. -/
def Free (names : List String) (t : SymbolTable) : Prop :=
  ∀ name ∈ names, t.lookupGlobal name = none

/-- The names are free, or one of them is declared. -/
theorem free_or_taken (names : List String) (t : SymbolTable) :
    t.Free names ∨ ∃ name ∈ names, t.HasGlobal name := by
  by_cases h : t.Free names
  · exact .inl h
  · right
    simp only [Free, not_forall] at h
    obtain ⟨name, hmem, hl⟩ := h
    obtain ⟨symbol, hsymbol⟩ := Option.ne_none_iff_exists'.mp hl
    obtain ⟨hbinds, i, rfl | rfl⟩ := binds_of_lookupGlobal hsymbol
    · exact ⟨name, hmem, _, hbinds, nofun⟩
    · exact ⟨name, hmem, _, hbinds, nofun⟩

namespace Placed

variable {P : Placement} {N N' : Node → Node → Prop}

theorem mono (h : Placed P N t t') (hN : ∀ a b, N a b → N' a b) : Placed P N' t t' where
  vars := h.vars
  procs := h.procs.imp fun _ _ hpq => ⟨hpq.scope, hpq.shell.mono (fun _ _ => id) hN⟩
  discarded := h.discarded
  room := h.room
  count := h.count
  frontVars := h.frontVars
  frontProcs := h.frontProcs

/-! ## Look-ups -/

theorem scope? (h : Placed P N t t') (scope : ScopeId) :
    Option.Rel (Procedure.LikeScope P.pool (t.strings.SameValue t'.strings)) (t.scope? scope)
      (t'.scope? (P.scope scope)) := by
  cases scope with
  | discarded i => exact h.discarded i
  | proc i => exact rel_imp (fun _ _ hpq => hpq.scope) (h.procs.getElem? i)

theorem sameLabels {T : Handle → Handle → Prop} {V : Value → Value → Prop} {Q Q' : Pool}
    (hT : ∀ a b, T a b → Q.SameText Q' a b) {vs ws : List Variable}
    (h : List.Forall₂ (Variable.Like T V) vs ws) :
    List.Forall₂ (Q.SameLabel Q') (vs.map Variable.label) (ws.map Variable.label) := by
  induction h with
  | nil => exact .nil
  | cons hvw _ ih => exact .cons ⟨hT _ _ hvw.name, hvw.declared⟩ ih

theorem lookupLocal (h : Placed P N t t') (scope : ScopeId) (name : String) :
    t'.lookupLocal (P.scope scope) name = (t.lookupLocal scope name).map P.symbol := by
  have hscope := h.scope? scope
  unfold SymbolTable.lookupLocal
  generalize t.scope? scope = a, t'.scope? (P.scope scope) = b at hscope
  cases hscope with
  | none => rfl
  | @some p q hpq =>
      have hfound : q.findLocal? name = p.findLocal? name := by
        rw [p.findLocal?_eq, q.findLocal?_eq]
        exact Pool.labelOf?_alike (sameLabels (fun _ _ => id) hpq.locals) name
      simp only [Option.bind_eq_bind, Option.bind_some, hfound, Option.map_map]
      rfl

theorem labels (h : Placed P N t t') : ∃ vars procs,
    t'.vars.map Variable.label = P.vars.map Variable.label ++ vars ∧
    t'.procs.map Procedure.label = P.procs.map Procedure.label ++ procs ∧
    List.Forall₂ (t.strings.SameLabel t'.strings) (t.vars.map Variable.label) vars ∧
    List.Forall₂ (t.strings.SameLabel t'.strings) (t.procs.map Procedure.label) procs := by
  obtain ⟨vars, hvars, hlike⟩ := h.vars
  obtain ⟨procs, hprocs, hlike'⟩ := h.procs
  refine ⟨vars.map Variable.label, procs.map Procedure.label, by rw [hvars, List.map_append],
    by rw [hprocs, List.map_append], sameLabels (fun _ _ => id) hlike, ?_⟩
  exact List.forall₂_map_left_iff.mpr (List.forall₂_map_right_iff.mpr
    (hlike'.imp fun _ _ hpq => ⟨hpq.shell.name, hpq.shell.declared⟩))

/-- A name that is not taken is none of those in front. -/
theorem front_eq_none {Q : Pool} {taken : List String} {name : String}
    {labels : List (Handle × Position)}
    (h : ∀ label ∈ labels, ∃ n ∈ taken, Q.find? n = some label.1) (hn : name ∉ taken) :
    Q.labelOf? labels name = none := by
  unfold Pool.labelOf?
  cases hf : Q.find? name with
  | none => rfl
  | some handle =>
      rw [Option.bind_some, List.findIdx?_eq_none_iff]
      intro label hlabel
      obtain ⟨n, hmem, hfound⟩ := h label hlabel
      refine beq_eq_false_iff_ne.mpr fun heq => hn ?_
      rw [heq] at hfound
      rwa [Pool.find?_inj hf hfound]

theorem lookupGlobal (h : Placed P N t t') (hfree : t.Free P.taken) (name : String) :
    P.Sees t' name (t.lookupGlobal name) (t'.lookupGlobal name) := by
  by_cases hn : name ∈ P.taken
  · rw [hfree name hn]
    cases hl : t'.lookupGlobal name with
    | none => exact .none
    | some symbol =>
        obtain ⟨hbinds, i, rfl | rfl⟩ := binds_of_lookupGlobal hl
        · exact .taken hn hbinds nofun
        · exact .taken hn hbinds nofun
  · obtain ⟨vars, procs, hvars, hprocs, hlike, hlike'⟩ := h.labels
    have hfrontVars : t'.strings.labelOf? (P.vars.map Variable.label) name = none := by
      refine front_eq_none (fun label hlabel => ?_) hn
      obtain ⟨v, hv, rfl⟩ := List.mem_map.mp hlabel
      exact h.frontVars v hv
    have hfrontProcs : t'.strings.labelOf? (P.procs.map Procedure.label) name = none := by
      refine front_eq_none (fun label hlabel => ?_) hn
      obtain ⟨p, hp, rfl⟩ := List.mem_map.mp hlabel
      exact h.frontProcs p hp
    have hsame : t'.lookupGlobal name = (t.lookupGlobal name).map P.symbol := by
      rw [lookupGlobal_eq, lookupGlobal_eq, hvars, hprocs, Pool.labelOf?_append,
        Pool.labelOf?_append, hfrontVars, hfrontProcs, Pool.labelOf?_alike hlike,
        Pool.labelOf?_alike hlike']
      simp only [Option.none_or, Option.map_map, List.length_map]
      cases t.strings.labelOf? (t.vars.map Variable.label) name with
      | some i => rfl
      | none => cases t.strings.labelOf? (t.procs.map Procedure.label) name <;> rfl
    rw [hsame]
    cases t.lookupGlobal name with
    | none => exact .none
    | some symbol => exact .some symbol

theorem lookupDeclared (h : Placed P N t t') (hfree : t.Free P.taken)
    (context : Option ScopeId) (name : String) :
    P.Sees t' name (t.lookupDeclared context name)
      (t'.lookupDeclared (context.map P.scope) name) := by
  have hglobal := h.lookupGlobal hfree name
  unfold SymbolTable.lookupDeclared
  cases context with
  | none => exact hglobal
  | some scope =>
      rw [Option.map_some, Option.bind_some, Option.bind_some, h.lookupLocal]
      cases t.lookupLocal scope name with
      | none => exact hglobal
      | some symbol => exact .some symbol

theorem siteOf? (h : Placed P N t t') (symbol : Symbol) :
    t'.siteOf? (P.symbol symbol) = t.siteOf? symbol := by
  have hsite : ∀ {α : Type} {R : α → α → Prop} {site : α → Position} {a b : Option α},
      Option.Rel R a b → (∀ a b, R a b → site b = site a) → b.map site = a.map site := by
    intro α R site a b hab hR
    cases hab with
    | none => rfl
    | some hab => exact congrArg some (hR _ _ hab)
  cases symbol with
  | global i => exact hsite (h.vars.getElem? i) fun _ _ hvw => hvw.declared
  | proc i => exact hsite (h.procs.getElem? i) fun _ _ hpq => hpq.shell.declared
  | builtin i => rfl
  | inner scope i =>
      have hscope := h.scope? scope
      show (t'.scope? (P.scope scope)).bind _ = (t.scope? scope).bind _
      generalize t.scope? scope = a, t'.scope? (P.scope scope) = b at hscope
      cases hscope with
      | none => rfl
      | some hpq => exact hsite (rel_getElem? hpq.locals i) fun _ _ hvw => hvw.declared

end Placed

end SymbolTable

end SslFrontend
