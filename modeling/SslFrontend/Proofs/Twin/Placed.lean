import SslFrontend.Proofs.Reference.Numbers
import SslFrontend.Proofs.Reference.Sites
import SslFrontend.Proofs.Symbol.PlacedDeclarations
import SslFrontend.Proofs.Twin.Constants
import SslFrontend.Proofs.Twin.Procedure

/-! # Runs on tables inside larger tables

Two runs read the same tokens, one of them from a table in which the table of the
other stands.  What they make is the same up to the numbers of symbols, of texts
and of pending names, and each mention of the one is a mention of the other.  A
name that waits in the one may be bound in the other, if only that one has it.
-/

namespace SslFrontend

namespace Records

def citations (r : Records) : Multiset Citation := r.ledger.citations + r.pending.citations

/-- A node stands for a mention. -/
inductive Shows (r : Records) (pos : Position) : Referent → Node → Prop
  | symbol (symbol : Symbol) : Shows r pos (.symbol symbol) (symbol.toNode pos)
  | name {place : Nat} {p : PendingName} (h : r.pending.names[place]? = some p) :
      Shows r pos (.name p.name p.context) (Pending.node place pos)

variable {r u : Records} {pos : Position} {node : Node}

theorem Shows.grows {referent : Referent} (h : r.Shows pos referent node) (hp : r.pending.Grows u.pending) :
    u.Shows pos referent node := by
  cases h with
  | symbol symbol => exact .symbol symbol
  | name hplace =>
      obtain ⟨q, hq, hname, hcontext, -⟩ := hp _ _ hplace
      rw [← hname, ← hcontext]
      exact .name hq

theorem Shows.step {referent : Referent} (h : r.Shows pos referent node) (stack : List Value) :
    Fold.step node stack = none := by
  cases h with
  | symbol symbol => cases symbol <;> rfl
  | name _ => rfl

/-- What a mention is of. -/
def referent (r : Records) (scope : Option ScopeId) (name : String) : Referent :=
  match r.table.lookupDeclared scope name with
  | some symbol => .symbol symbol
  | none => .name name scope

/-- A mention is noted, and nothing else is done. -/
structure Mentions (r : Records) (scope : Option ScopeId) (name : String) (pos : Position)
    (node : Node) (u : Records) : Prop where
  shows : u.Shows pos (r.referent scope name) node
  citations : u.citations = r.citations + {⟨r.referent scope name, pos.site, .use⟩}
  table : u.table = r.table
  pending : r.pending.Grows u.pending
  problems : u.problems = r.problems

theorem mentions (r : Records) (scope : Option ScopeId) (name : String) (pos : Position) :
    r.Mentions scope name pos (Making.mention scope name pos r).1
      (Making.mention scope name pos r).2 := by
  unfold Making.mention
  cases hl : r.table.lookupDeclared scope name with
  | some symbol =>
      have hreferent : r.referent scope name = .symbol symbol := by
        unfold referent
        rw [hl]
      refine ⟨hreferent ▸ .symbol symbol, ?_, rfl, .refl _, rfl⟩
      rw [hreferent]
      show (r.ledger.record symbol pos .use).citations + _ = _
      rw [Ledger.citations_record _ _ _ (SymbolTable.lookupDeclared_ne_builtin hl),
        add_right_comm]
      rfl
  | none =>
      have hreferent : r.referent scope name = .name name scope := by
        unfold referent
        rw [hl]
      have hspec := r.pending.mention_spec name scope r.ledger.next pos
      obtain ⟨p, hp, rfl, rfl, -⟩ := hspec.there
      refine ⟨hreferent ▸ .name hp, ?_, rfl, hspec.grows, rfl⟩
      rw [hreferent]
      show r.ledger.citations + (r.pending.mention _ _ _ _).2.citations = _
      rw [Pending.citations_mention, ← add_assoc]
      rfl

end Records

/-! ## What is the same -/

theorem Pool.sameValue_blind (Q Q' : Pool) : Fold.Blind (Q.SameValue Q') where
  unary kind h := by
    cases h with
    | int n => rfl
    | float x => rfl
    | string _ => cases kind <;> rfl
  binary kind h h' := by
    cases h <;> cases h' <;> rfl
  int n := .int n
  float x := .float x

/-- What the records of the larger run have beside those of the other one. -/
structure Surroundings extends Placement where
  /-- The mentions before, where mentions are compared. -/
  citations : Option (Multiset Citation)
  problems : List Diagnostic

namespace Surroundings

variable (E : Surroundings)

inductive SameReferent (t' : SymbolTable) : Referent → Referent → Prop
  | symbol (symbol : Symbol) : SameReferent t' (.symbol symbol) (.symbol (E.symbol symbol))
  | name (name : String) (context : Option ScopeId) :
      SameReferent t' (.name name context) (.name name (context.map E.scope))
  | taken {name : String} (context : Option ScopeId) {symbol : Symbol} (h : name ∈ E.taken)
      (binds : t'.Binds name symbol) (outer : ∀ scope i, symbol ≠ .inner scope i) :
      SameReferent t' (.name name context) (.symbol symbol)

structure SameCitation (t' : SymbolTable) (m m' : Citation) : Prop where
  referent : E.SameReferent t' m.referent m'.referent
  site : m'.site = m.site
  mention : m'.mention = m.mention

/-- One and the same node. -/
inductive SameNode (r r' : Records) : Node → Node → Prop
  | plain {a : Node} (h : a.isPlain = true) : SameNode r r' a a
  | literal {a b : Node} (hk : a.kind.isLiteral = true) (kind : b.kind = a.kind)
      (pos : b.pos = a.pos) (h : r.table.strings.SameValue r'.table.strings a.value b.value) :
      SameNode r r' a b
  | mention {pos : Position} {referent referent' : Referent} {a b : Node}
      (ha : r.Shows pos referent a) (hb : r'.Shows pos referent' b)
      (h : E.SameReferent r'.table referent referent') : SameNode r r' a b

/-- The records of the one run stand in those of the other one. -/
structure Hold (r r' : Records) : Prop where
  table : SymbolTable.Placed E.toPlacement (E.SameNode r r') r.table r'.table
  free : r.table.Free E.taken
  citations : ∀ before ∈ E.citations, ∃ more, r'.citations = before + more ∧
    Multiset.Rel (E.SameCitation r'.table) r.citations more
  problems : r'.problems.items ⊆ E.problems ++ r.problems.items

/-- What is done in both runs adds the same. -/
structure Steps (r r' u u' : Records) : Prop where
  strings : r.table.strings.Grows u.table.strings
  pending : r.pending.Grows u.pending
  table' : r'.table.Extends (fun _ => False) u'.table
  pending' : r'.pending.Grows u'.pending
  citations : ∃ more more', u.citations = r.citations + more ∧ u'.citations = r'.citations + more' ∧
    Multiset.Rel (E.SameCitation u'.table) more more'
  problems : ∃ ds, u.problems.items = r.problems.items ++ ds ∧
    u'.problems.items = r'.problems.items ++ ds

variable {E} {r r' u u' : Records}

theorem SameReferent.extends {t' u' : SymbolTable} {referent referent' : Referent}
    (h : E.SameReferent t' referent referent') (he : t'.Extends (fun _ => False) u') :
    E.SameReferent u' referent referent' := by
  cases h with
  | symbol symbol => exact .symbol symbol
  | name name context => exact .name name context
  | taken context hmem hbinds houter =>
      exact .taken context hmem
        (hbinds.grows he fun scope i hs => absurd hs (houter scope i)).1 houter

theorem SameNode.step {a b : Node} (h : E.SameNode r r' a b) (hs : E.Steps r r' u u') :
    E.SameNode u u' a b := by
  cases h with
  | plain ha => exact .plain ha
  | literal hk kind pos hv => exact .literal hk kind pos (hv.grows hs.strings hs.table'.strings)
  | mention ha hb hreferent =>
      exact .mention (ha.grows hs.pending) (hb.grows hs.pending') (hreferent.extends hs.table')

theorem SameNode.constant {a b : Code} (h : List.Forall₂ (E.SameNode r r') a b) :
    Option.Rel (r.table.strings.SameValue r'.table.strings) a.constant? b.constant? := by
  refine Code.constant?_rel (fun {x y stack stack'} hxy hs => ?_) h
  have hblind := r.table.strings.sameValue_blind r'.table.strings
  cases hxy with
  | plain hx =>
      refine hblind.step rfl (fun _ => ?_) hs
      cases hvalue : x.value with
      | int n => exact .int n
      | float y => exact .float y
      | string handle =>
          unfold Node.isPlain at hx
          rw [hvalue] at hx
          cases hkind : x.kind <;> rw [hkind] at hx <;> cases hx
  | literal _ kind _ hv => exact hblind.step kind (fun _ => hv) hs
  | mention ha hb _ =>
      rw [ha.step, hb.step]
      exact .none

theorem Hold.step (h : E.Hold r r') (hs : E.Steps r r' u u')
    (table : SymbolTable.Placed E.toPlacement (E.SameNode u u') r.table r'.table →
      SymbolTable.Placed E.toPlacement (E.SameNode u u') u.table u'.table)
    (free : u.table.Free E.taken) : E.Hold u u' where
  table := table (h.table.mono fun _ _ hab => hab.step hs)
  free := free
  citations before hbefore := by
    obtain ⟨more, hmore, hrel⟩ := h.citations before hbefore
    obtain ⟨added, added', ha, hb, hadded⟩ := hs.citations
    refine ⟨more + added', by rw [hb, hmore, add_assoc], ?_⟩
    rw [ha]
    refine .add (hrel.mono fun m _ m' _ hm => ?_) hadded
    exact ⟨hm.referent.extends hs.table', hm.site, hm.mention⟩
  problems d hd := by
    obtain ⟨ds, ha, hb⟩ := hs.problems
    rw [hb] at hd
    rw [ha]
    rcases List.mem_append.mp hd with hold | hnew
    · rcases List.mem_append.mp (h.problems hold) with hbefore | hleft
      · exact List.mem_append_left _ hbefore
      · exact List.mem_append_right _ (List.mem_append_left _ hleft)
    · exact List.mem_append_right _ (List.mem_append_right _ hnew)

def likeness (E : Surroundings) : Likeness where
  data := E.Hold
  node := E.SameNode
  symbol _ _ a b := b = E.symbol a
  value r r' := r.table.strings.SameValue r'.table.strings
  number _ _ _ _ := True

theorem grown (hs : E.Steps r r' u u') (h : E.Hold u u') : E.likeness.Grown r r' u u' :=
  ⟨h, fun hab => hab.step hs, id, fun hv => hv.grows hs.strings hs.table'.strings, id⟩

/-! ## What is done -/

/-- Nothing but the table changes. -/
theorem Steps.table {t t' : SymbolTable} (hs : r.table.strings.Grows t.strings)
    (ht : r'.table.Extends (fun _ => False) t') :
    E.Steps r r' { r with table := t } { r' with table := t' } where
  strings := hs
  pending := .refl _
  table' := ht
  pending' := .refl _
  citations := ⟨0, 0, (add_zero _).symm, (add_zero _).symm, .zero⟩
  problems := ⟨[], (List.append_nil _).symm, (List.append_nil _).symm⟩

/-- The same is reported, and nothing else done. -/
theorem Steps.report (ds : List Diagnostic) : E.Steps r r' (r.report ds) (r'.report ds) where
  strings := .refl _
  pending := .refl _
  table' := .refl _
  pending' := .refl _
  citations := ⟨0, 0, (add_zero _).symm, (add_zero _).symm, .zero⟩
  problems := ⟨ds, rfl, rfl⟩

theorem Steps.trans {w w' : Records} (h₁ : E.Steps r r' u u') (h₂ : E.Steps u u' w w') :
    E.Steps r r' w w' where
  strings := h₁.strings.trans h₂.strings
  pending := h₁.pending.trans h₂.pending
  table' := h₁.table'.trans h₂.table'
  pending' := h₁.pending'.trans h₂.pending'
  citations := by
    obtain ⟨m, m', hm, hm', hrel⟩ := h₁.citations
    obtain ⟨n, n', hn, hn', hrel'⟩ := h₂.citations
    refine ⟨m + n, m' + n', by rw [hn, hm, add_assoc], by rw [hn', hm', add_assoc], ?_⟩
    refine .add (hrel.mono fun a _ b _ hab => ?_) hrel'
    exact ⟨hab.referent.extends h₂.table', hab.site, hab.mention⟩
  problems := by
    obtain ⟨ds, ha, hb⟩ := h₁.problems
    obtain ⟨es, hc, hd⟩ := h₂.problems
    exact ⟨ds ++ es, by rw [hc, ha, List.append_assoc], by rw [hd, hb, List.append_assoc]⟩

/-- A symbol is entered in both runs. -/
theorem Steps.enter {ledger ledger' : Ledger} (h : ledger.entries = r.ledger.entries)
    (h' : ledger'.entries = r'.ledger.entries) (n n' : Nat) (symbol : Symbol) (pos : Position)
    (mention : Mention) :
    E.Steps r r' { r with ledger := ledger.recordAt n symbol pos mention }
      { r' with ledger := ledger'.recordAt n' (E.symbol symbol) pos mention } where
  strings := .refl _
  pending := .refl _
  table' := .refl _
  pending' := .refl _
  citations := by
    have hsame : ∀ {ledger ledger' : Ledger}, ledger.entries = ledger'.entries →
        ledger.citations = ledger'.citations := by
      intro ledger ledger' hentries
      unfold Ledger.citations
      rw [hentries]
    have hentered : ∀ {symbol : Symbol}, (∀ i, symbol ≠ .builtin i) →
        ∀ {r : Records} {ledger : Ledger} (n : Nat), ledger.entries = r.ledger.entries →
          Records.citations { r with ledger := ledger.recordAt n symbol pos mention } =
            r.citations + {⟨.symbol symbol, pos.site, mention⟩} := by
      intro symbol hs r ledger n hledger
      unfold Records.citations
      rw [Ledger.citations_recordAt _ _ _ _ hs, hsame hledger, add_right_comm]
    by_cases hs : ∃ i, symbol = .builtin i
    · obtain ⟨i, rfl⟩ := hs
      refine ⟨0, 0, ?_, ?_, .zero⟩
      · rw [add_zero]
        exact congrArg (· + r.pending.citations) (hsame h)
      · rw [add_zero]
        exact congrArg (· + r'.pending.citations) (hsame h')
    · have hleft : ∀ i, symbol ≠ .builtin i := fun i hi => hs ⟨i, hi⟩
      have hright : ∀ i, E.symbol symbol ≠ .builtin i := by
        intro i hi
        cases symbol with
        | builtin j => exact hleft j rfl
        | _ => cases hi
      refine ⟨_, _, hentered hleft n h, hentered hright n' h', ?_⟩
      exact .cons ⟨.symbol symbol, rfl, rfl⟩ .zero
  problems := ⟨[], (List.append_nil _).symm, (List.append_nil _).symm⟩

theorem Hold.report (h : E.Hold r r') (ds : List Diagnostic) :
    E.likeness.Grown r r' (r.report ds) (r'.report ds) :=
  grown (.report ds) (h.step (.report ds) id h.free)

theorem Hold.adjust (h : E.Hold r r') (symbol : Symbol) {f g : Variable → Variable}
    (hf : ∀ v, (f v).label = v.label) (hg : ∀ v, (g v).label = v.label)
    (hfg : ∀ T v w, Variable.Like T (r.table.strings.SameValue r'.table.strings) v w →
      Variable.Like T (r.table.strings.SameValue r'.table.strings) (f v) (g w)) :
    E.likeness.Grown r r' (r.adjust symbol f) (r'.adjust (E.symbol symbol) g) := by
  have hs : E.Steps r r' (r.adjust symbol f) (r'.adjust (E.symbol symbol) g) := by
    refine .table ?_ (SymbolTable.extends_modifyVariable hg)
    rw [SymbolTable.strings_modifyVariable]
    exact .refl _
  exact grown hs (h.step hs (fun ht => ht.modifyVariable symbol hfg)
    (h.free.same (.modifyVariable r.table symbol hf)))

theorem Hold.text (h : E.Hold r r') (text : String) (pos : Position) :
    E.likeness.Grown r r' (Making.text text pos r).2 (Making.text text pos r').2 ∧
      E.SameNode (Making.text text pos r).2 (Making.text text pos r').2
        (Making.text text pos r).1 (Making.text text pos r').1 := by
  unfold Making.text
  obtain ⟨e, he, he'⟩ | ⟨a, Q, b, Q', ha, hb⟩ :=
    r.table.strings.intern_alike r'.table.strings text
  · rw [he, he']
    exact ⟨h.report [SymbolTable.refused pos e], .plain rfl⟩
  · obtain ⟨hg, hfound⟩ := Pool.intern_spec ha
    obtain ⟨hg', hfound'⟩ := Pool.intern_spec hb
    rw [ha, hb]
    have hs : E.Steps r r' { r with table := { r.table with strings := Q } }
        { r' with table := { r'.table with strings := Q' } } :=
      .table hg (SymbolTable.extends_strings hg')
    exact ⟨grown hs (h.step hs (fun ht => ht.strings hg hg') (h.table.free_strings h.free hg)),
      .literal rfl rfl rfl (.string ⟨text, hfound, hfound'⟩)⟩

theorem Hold.referent (h : E.Hold r r') (scope : Option ScopeId) (name : String) :
    E.SameReferent r'.table (r.referent scope name) (r'.referent (scope.map E.scope) name) := by
  have hsees := h.table.lookupDeclared h.free scope name
  unfold Records.referent
  generalize r.table.lookupDeclared scope name = a at hsees ⊢
  generalize r'.table.lookupDeclared (scope.map E.toPlacement.scope) name = b at hsees ⊢
  cases hsees with
  | none => exact .name name scope
  | some symbol => exact .symbol symbol
  | taken hmem hbinds houter => exact .taken scope hmem hbinds houter

theorem Hold.mention (h : E.Hold r r') (scope : Option ScopeId) (name : String) (pos : Position) :
    E.likeness.Grown r r' (Making.mention scope name pos r).2
        (Making.mention (scope.map E.scope) name pos r').2 ∧
      E.SameNode (Making.mention scope name pos r).2
        (Making.mention (scope.map E.scope) name pos r').2 (Making.mention scope name pos r).1
        (Making.mention (scope.map E.scope) name pos r').1 := by
  have ha := r.mentions scope name pos
  have hb := r'.mentions (scope.map E.scope) name pos
  have hreferent := h.referent scope name
  have hs : E.Steps r r' (Making.mention scope name pos r).2
      (Making.mention (scope.map E.scope) name pos r').2 := by
    refine ⟨ha.table ▸ .refl _, ha.pending, hb.table ▸ .refl _, hb.pending,
      ⟨_, _, ha.citations, hb.citations, .cons ⟨hb.table ▸ hreferent, rfl, rfl⟩ .zero⟩, [], ?_, ?_⟩
    · rw [ha.problems, List.append_nil]
    · rw [hb.problems, List.append_nil]
  refine ⟨grown hs (h.step hs (fun ht => ?_) (ha.table ▸ h.free)),
    .mention ha.shows hb.shows (hb.table ▸ hreferent)⟩
  rw [ha.table, hb.table]
  exact ht

theorem Hold.declared (h : E.Hold r r') {scope : Option ScopeId} {kind : VarScope} {name : String}
    {pos : Position} {a : Symbol} {t : SymbolTable}
    (hd : r.table.declareIn scope kind name pos = .ok (a, t)) :
    (∃ n ∈ E.taken, t.HasGlobal n) ∨
      ∃ u, r'.table.declareIn (scope.map E.scope) kind name pos = .ok (E.symbol a, u) ∧
        E.likeness.Grown r r' (r.declared t a pos) (r'.declared u (E.symbol a) pos) := by
  obtain hfree | htaken := SymbolTable.free_or_taken E.taken t
  swap
  · exact .inl htaken
  have hanswer := h.table.declareIn h.free scope kind name pos
  rw [hd] at hanswer
  cases hb : r'.table.declareIn (scope.map E.scope) kind name pos with
  | error d =>
      rw [hb] at hanswer
      exact .inl hanswer
  | ok found =>
      obtain ⟨b, u⟩ := found
      rw [hb] at hanswer
      obtain ⟨rfl, -⟩ := hanswer
      right
      have htable : E.Steps r r' { r with table := t } { r' with table := u } :=
        .table (SymbolTable.declareIn_grows hd).strings
          ((SymbolTable.declareIn_grows hb).weaken fun _ _ => trivial)
      have henter : E.Steps { r with table := t } { r' with table := u } (r.declared t a pos)
          (r'.declared u (E.symbol a) pos) :=
        @Steps.enter E { r with table := t } { r' with table := u } r.ledger.reserve.2
          r'.ledger.reserve.2 rfl rfl r.ledger.next r'.ledger.next a pos .declaration
      have hs := htable.trans henter
      refine ⟨u, rfl, grown hs (h.step hs (fun ht => ?_) hfree)⟩
      have hplaced := ht.declareIn h.free scope kind name pos
      rw [hd, hb] at hplaced
      exact hplaced.2

theorem like_header {a b : Header} (hab : E.likeness.Headers r r' a b) :
    a.Like (r.table.strings.SameValue r'.table.strings) (E.SameNode r r') b where
  name := hab.name
  pos := hab.pos
  modifiers := hab.modifiers
  trigger := by
    have htrigger := hab.trigger
    generalize a.trigger = old, b.trigger = new at htrigger ⊢
    cases htrigger with
    | none => exact .none
    | timed time => exact .timed time
    | conditional hcodes => exact .conditional hcodes
  params := hab.params.imp fun _ _ hp => ⟨hp.name, hp.pos, hp.default⟩
  hasBody := hab.hasBody

theorem Hold.reserve (h : E.Hold r r') : E.likeness.Grown r r' r.reserved r'.reserved := by
  have hs : E.Steps r r' r.reserved r'.reserved :=
    ⟨.refl _, .refl _, .refl _, .refl _, ⟨0, 0, (add_zero _).symm, (add_zero _).symm, .zero⟩, [],
      (List.append_nil _).symm, (List.append_nil _).symm⟩
  exact grown hs (h.step hs id h.free)

theorem Hold.enter (h : E.Hold r r') (n n' : Nat) (symbol : Symbol) (pos : Position) :
    E.likeness.Grown r r' (r.entered n symbol pos) (r'.entered n' (E.symbol symbol) pos) := by
  have hs : E.Steps r r' (r.entered n symbol pos) (r'.entered n' (E.symbol symbol) pos) :=
    .enter rfl rfl n n' symbol pos .declaration
  exact grown hs (h.step hs id h.free)

/-- The table changes, and the same is reported. -/
theorem Steps.reported {t t' : SymbolTable} (hs : r.table.strings.Grows t.strings)
    (ht : r'.table.Extends (fun _ => False) t') (ds : List Diagnostic) :
    E.Steps r r' (r.disowned t ds) (r'.disowned t' ds) := by
  have htable : E.Steps r r' { r with table := t } { r' with table := t' } := .table hs ht
  exact htable.trans (.report ds)

theorem Hold.declare (h : E.Hold r r') {a b : Header} (hab : E.likeness.Headers r r' a b) :
    (∃ n ∈ E.taken, (r.table.declare a).table.HasGlobal n) ∨
      (r'.table.declare b).verdict = (r.table.declare a).verdict.behind E.procs.length ∧
        E.likeness.Grown r r' (r.headed (r.table.declare a)) (r'.headed (r'.table.declare b)) := by
  by_cases htaken : ∃ n ∈ E.taken, (r.table.declare a).table.HasGlobal n
  · exact .inl htaken
  have hfree := (SymbolTable.free_or_taken E.taken (r.table.declare a).table).resolve_right htaken
  have hsame := (h.table.declare h.free (like_header hab)).resolve_left htaken
  refine .inr ⟨hsame.verdict, ?_⟩
  have hs : E.Steps r r' (r.headed (r.table.declare a)) (r'.headed (r'.table.declare b)) := by
    unfold Records.headed
    rw [hsame.problems]
    exact .reported (SymbolTable.declare_spec r.table a).extends.strings
      ((SymbolTable.declare_spec r'.table b).extends.weaken fun _ => False.elim) _
  refine grown hs (h.step hs (fun ht => ?_) hfree)
  have hheader : a.Like (r.table.strings.SameValue r'.table.strings)
      (E.SameNode (r.headed (r.table.declare a)) (r'.headed (r'.table.declare b))) b :=
    have hlike := like_header hab
    ⟨hlike.name, hlike.pos, hlike.modifiers, hlike.trigger.mono fun _ _ => List.Forall₂.imp
      fun _ _ hnode => hnode.step hs, hlike.params, hlike.hasBody⟩
  exact ((ht.declare h.free hheader).resolve_left htaken).table

theorem Hold.refused (h : E.Hold r r') {scope : Option ScopeId} {kind : VarScope} {name : String}
    {pos : Position} {d : Diagnostic}
    (hd : r.table.declareIn scope kind name pos = .error d) :
    r'.table.declareIn (scope.map E.scope) kind name pos = .error d := by
  have hanswer := h.table.declareIn h.free scope kind name pos
  rw [hd] at hanswer
  cases hb : r'.table.declareIn (scope.map E.scope) kind name pos with
  | error d' =>
      rw [hb] at hanswer
      exact congrArg Except.error hanswer
  | ok found =>
      rw [hb] at hanswer
      exact hanswer.elim

theorem Hold.disown (h : E.Hold r r') {a b : Header} (hab : E.likeness.Headers r r' a b) :
    match r.table.declareDiscarded a, r'.table.declareDiscarded b with
    | .error d, .error d' => d' = d
    | .ok (σ, t, ds), .ok (τ, u, ds') => τ = E.scope σ ∧ ds' = ds ∧
        E.likeness.Grown r r' (r.disowned t ds) (r'.disowned u ds)
    | _, _ => False := by
  have hscopes := h.table.declareDiscarded (like_header hab)
  cases ha : r.table.declareDiscarded a with
  | error d =>
      rw [ha] at hscopes
      generalize r'.table.declareDiscarded b = found at hscopes ⊢
      cases found with
      | error d' => exact hscopes
      | ok found => exact hscopes.elim
  | ok found =>
      obtain ⟨σ, t, ds⟩ := found
      rw [ha] at hscopes
      cases hb : r'.table.declareDiscarded b with
      | error d' =>
          rw [hb] at hscopes
          exact hscopes.elim
      | ok found' =>
          obtain ⟨τ, u, ds'⟩ := found'
          rw [hb] at hscopes
          obtain ⟨hτ, hds, -⟩ := hscopes
          have hs : E.Steps r r' (r.disowned t ds) (r'.disowned u ds) :=
            .reported (SymbolTable.declareDiscarded_grows ha).1.strings
              ((SymbolTable.declareDiscarded_grows hb).1.weaken fun _ _ => trivial) ds
          refine ⟨hτ, hds, grown hs (h.step hs (fun ht => ?_)
            (h.free.same (.declareDiscarded ha)))⟩
          have hheader : a.Like (r.table.strings.SameValue r'.table.strings)
              (E.SameNode (r.disowned t ds) (r'.disowned u ds)) b :=
            have hlike := like_header hab
            ⟨hlike.name, hlike.pos, hlike.modifiers, hlike.trigger.mono fun _ _ =>
              List.Forall₂.imp fun _ _ hnode => hnode.step hs, hlike.params, hlike.hasBody⟩
          have hplaced := ht.declareDiscarded hheader
          rw [ha, hb] at hplaced
          exact hplaced.2.2

theorem Hold.attach (h : E.Hold r r') (scope : ScopeId) (start finish : Position) {a b : Code}
    (hab : E.likeness.Codes r r' a b) :
    E.likeness.Grown r r' (r.attached scope start finish a)
      (r'.attached (E.scope scope) start finish b) := by
  have hs : E.Steps r r' (r.attached scope start finish a)
      (r'.attached (E.scope scope) start finish b) := by
    refine .table ?_ (SymbolTable.extends_modifyScope (fun _ _ => rfl) fun hk => hk.elim)
    rw [SymbolTable.strings_modifyScope]
    exact .refl _
  refine grown hs (h.step hs (fun ht => ?_) (h.free.same (.modifyScope r.table scope fun _ => rfl)))
  exact ht.attach scope start finish (hab.imp fun _ _ hnode => hnode.step hs) (.plain rfl)

/-- The symbol that a parameter became. -/
theorem Hold.param (h : E.Hold r r') (scope : ScopeId) {p q : Param}
    (hpq : E.likeness.Params r r' p q) :
    r'.table.symbolOf? (E.scope scope) q = (r.table.symbolOf? scope p).map E.symbol :=
  h.table.symbolOf? scope hpq.name hpq.pos

end Surroundings

/-- How two runs part. -/
structure Parted (E : Surroundings) where
  seam : Seam
  words : seam.braces = false
  ahead : ∀ {tokens}, tokens <:+ seam.shared →
    Assignment.isNext (tokens ++ seam.right) = Assignment.isNext (tokens ++ seam.left) ∨
      seam.tolerant = true ∧ Assignment.isNext (tokens ++ seam.left) = false ∧
        ∀ scope (s : ParserState), s.cursor.rest = tokens ++ seam.left →
          ∃ e s', Parse.expression scope s = .error e s'

open Surroundings in
/-- The comparison of a run with one on a larger table. -/
def Comparison.ofPlacement (E : Surroundings) (S : Parted E) : Comparison where
  toLikeness := E.likeness
  seam := S.seam
  taken := E.taken
  scope σ τ := τ = σ.map E.scope
  top := rfl
  nested h := by rw [h, Option.isSome_map]
  ahead h := by
    rw [Seam.spell_eq S.words, List.map_id]
    exact S.ahead h
  lists h := nomatch S.words.symm.trans h
  plain h := .plain h
  symbolNode pos h := by
    cases h
    exact .mention (.symbol _) (.symbol _) (.symbol _)
  constant := SameNode.constant
  integer h := by cases h <;> rfl
  literal := .int _
  report h hd := by
    rw [Seam.eq_of_alike S.words hd]
    exact h.report _
  text text pos _ _ h := h.text text pos
  mention name pos hs _ _ h := by
    cases hs
    exact h.mention _ name pos
  declared h hs hd := by
    cases hs
    refine h.declared hd |>.imp_right fun ⟨u, hu, hg⟩ => ⟨_, u, hu, hg, rfl⟩
  refused h hs hd := by
    cases hs
    exact .inr ⟨_, h.refused hd, .refl (SymbolTable.declareIn_early hd)⟩
  setLength length h hs := by
    cases hs
    exact h.adjust _ (fun _ => rfl) (fun _ => rfl) fun _ _ _ hvw =>
      ⟨hvw.name, hvw.scope, hvw.value, rfl, hvw.declared, hvw.initialized⟩
  setInitialized h hs := by
    cases hs
    exact h.adjust _ (fun _ => rfl) (fun _ => rfl) fun _ _ _ hvw =>
      ⟨hvw.name, hvw.scope, hvw.value, hvw.arrayLength, hvw.declared, rfl⟩
  setValue h hs hv := by
    cases hs
    exact h.adjust _ (fun v => v.withValue_label _) (fun v => v.withValue_label _)
      fun _ _ _ hvw => hvw.withValue (.some hv)

/-- Headers and bodies are compared, too. -/
theorem Comparison.ofPlacement_ofUnits (E : Surroundings) (S : Parted E) :
    (Comparison.ofPlacement E S).OfUnits fun _ => True where
  stays := by constructor <;> intros <;> trivial
  reserve h := ⟨h.reserve, trivial⟩
  enter pos h _ hs := by
    cases hs
    exact h.enter _ _ _ pos
  declare {r r' a b} _ h hab := by
    refine (h.declare hab).imp_right fun ⟨hverdict, hgrown⟩ => ?_
    rw [hverdict]
    cases hv : (r.table.declare a).verdict with
    | define i => exact .inr ⟨hgrown, .define rfl rfl⟩
    | announce i => exact .inr ⟨hgrown, .announce rfl⟩
    | reject named =>
        by_cases htolerant : S.seam.tolerant = true
        · exact .inl ⟨htolerant, SymbolTable.isError_of_reject hv⟩
        · rw [Bool.not_eq_true] at htolerant
          cases named with
          | none => exact .inr ⟨hgrown, .unnamed htolerant⟩
          | some i => exact .inr ⟨hgrown, .named htolerant rfl⟩
  param {r r' σ _ p q} h hs hpq := by
    obtain rfl := Option.some.inj hs
    rw [h.param σ hpq]
    cases r.table.symbolOf? σ p with
    | none => exact .none
    | some symbol => exact .some rfl
  attach start finish h hs hab := by
    obtain rfl := Option.some.inj hs
    exact h.attach _ start finish hab
  disown {r r' a b} _ h hab := by
    have hdisown := h.disown hab
    cases ha : r.table.declareDiscarded a with
    | error d =>
        rw [ha] at hdisown
        cases hb : r'.table.declareDiscarded b with
        | error d' =>
            rw [hb] at hdisown
            have hearly := r.table.declareDiscarded_early a
            rw [ha] at hearly
            obtain rfl : d' = d := hdisown
            exact .refused (.refl hearly)
        | ok found =>
            rw [hb] at hdisown
            exact hdisown.elim
    | ok found =>
        obtain ⟨σ, t, ds⟩ := found
        rw [ha] at hdisown
        cases hb : r'.table.declareDiscarded b with
        | error d' =>
            rw [hb] at hdisown
            exact hdisown.elim
        | ok found' =>
            obtain ⟨τ, u, ds'⟩ := found'
            rw [hb] at hdisown
            obtain ⟨rfl, rfl, hgrown⟩ := hdisown
            exact .scope rfl hgrown

end SslFrontend
