import SslFrontend.Parser.Module
import SslFrontend.Proofs.Postfix.Linked

/-! # Counting uses

A node that names a symbol is used by the node behind it.  What can be wrong
there is one thing for a store and another for everything else, so a position of
the source has two `Use`s, and `Code.uses` counts how often code makes one of
them.  Main statement: in resolved code no more misuses of a kind are found at a
position than the code had uses there before (`SymbolTable.countP_useProblems`).
-/

namespace SslFrontend

/-- What a name at a position is used for: to store something, or anything
else. -/
structure Use where
  stored : Bool
  pos : Position

namespace Use

/-- How many tokens stand at the place of a use. -/
def tokens (u : Use) (tokens : List Token) : Nat := tokens.countP (·.pos = u.pos)

theorem tokens_append {u : Use} {first second : List Token} :
    u.tokens (first ++ second) = u.tokens first + u.tokens second :=
  List.countP_append

end Use

namespace NodeKind

def isStore : NodeKind → Bool
  | .store | .storeIndex => true
  | _ => false

theorem takesCallee_of_isStore {kind : NodeKind} (h : kind.isStore = true) :
    kind.takesCallee = true := by
  cases kind <;> first | rfl | cases h

end NodeKind

namespace Code

/-- Whether code begins with a store. -/
def beginsWithStore (code : Code) : Bool := code.head?.any (·.kind.isStore)

/-- Whether a node in front of some code makes a use. -/
def makes (u : Use) (node : Node) (behind : Code) : Bool :=
  node.kind.isSymbol && node.pos = u.pos && behind.beginsWithStore == u.stored

/-- How often code makes a use. -/
def uses (u : Use) : Code → Nat
  | [] => 0
  | node :: rest => (makes u node rest).toNat + uses u rest

variable {u : Use} {first second code : Code}

theorem StartsFresh.beginsWithStore (h : code.StartsFresh) : code.beginsWithStore = false := by
  unfold Code.beginsWithStore
  cases hhead : code.head? with
  | none => rfl
  | some node =>
      have hfresh := h node hhead
      cases hstore : node.kind.isStore with
      | false => exact hstore
      | true =>
          rw [NodeKind.takesCallee_of_isStore hstore] at hfresh
          cases hfresh

theorem uses_append (h : second.StartsFresh) :
    uses u (first ++ second) = uses u first + uses u second := by
  induction first with
  | nil => simp [uses]
  | cons node rest ih =>
      have hbegin : beginsWithStore (rest ++ second) = beginsWithStore rest := by
        cases rest with
        | nil => exact h.beginsWithStore
        | cons next more => rfl
      simp only [List.cons_append, uses, makes, hbegin, ih]
      omega

theorem uses_eq_zero (h : ∀ node ∈ code, node.kind.isSymbol = false) : uses u code = 0 := by
  induction code with
  | nil => rfl
  | cons node rest ih =>
      obtain ⟨hnode, hrest⟩ := List.forall_mem_cons.mp h
      simp [uses, makes, hnode, ih hrest]

end Code

/-! ## Misuses -/

/-- Whether a report is about one thing at one place. -/
def Diagnostic.isAt (cause : Cause) (pos : Position) (d : Diagnostic) : Bool :=
  d.cause = cause && d.pos = pos

/-- The use that a misuse is of. -/
def Cause.useAt (cause : Cause) (pos : Position) : Use := ⟨cause = .badTarget, pos⟩

namespace SymbolTable

variable {t : SymbolTable} {symbol : Symbol} {pos : Position} {user : Node} {d : Diagnostic}

theorem of_callProblem? {count : Nat} (h : t.callProblem? symbol count pos = some d) :
    d.pos = pos ∧ d.cause.category = .invalidUse ∧ d.cause ≠ .badTarget := by
  have harity : ∀ (arity : Arity) (name : String),
      (arity.problem name count pos).pos = pos ∧
        (arity.problem name count pos).cause.category = .invalidUse ∧
        (arity.problem name count pos).cause ≠ .badTarget := by
    intro arity name
    unfold Arity.problem
    dsimp only
    split <;> exact ⟨rfl, rfl, nofun⟩
  cases symbol with
  | global i | inner scope i =>
      cases h
      exact ⟨rfl, rfl, nofun⟩
  | proc i | builtin i =>
      simp only [callProblem?] at h
      split at h
      · split at h
        · cases h
        · cases h
          exact harity _ _
      · cases h

/-- A misuse is reported where the symbol stands, and a bad target just where
something is stored. -/
theorem of_useProblem? (h : t.useProblem? symbol pos user = some d) :
    d.pos = pos ∧ d.cause.category = .invalidUse ∧
      (d.cause = .badTarget ↔ user.kind.isStore = true) := by
  unfold useProblem? at h
  dsimp only at h
  split at h
  case h_1 _ hk =>
    obtain ⟨hpos, huse, hcause⟩ := of_callProblem? h
    exact ⟨hpos, huse, fun hbad => absurd hbad hcause,
      fun hstore => by rw [hk] at hstore; cases hstore⟩
  case h_6 | h_8 => cases h
  case h_7 _ hk _ =>
    cases h
    exact ⟨rfl, rfl, nofun, fun hstore => by rw [hk] at hstore; cases hstore⟩
  all_goals
    rename_i hk
    cases h
    exact ⟨rfl, rfl, fun _ => by rw [hk]; rfl, fun _ => rfl⟩

/-- All that is wrong with the uses in code is that they are invalid. -/
theorem invalidUse_of_useProblems {context : Option ScopeId} {code : Code}
    (h : d ∈ t.useProblems context code) : d.cause.category = .invalidUse := by
  induction code with
  | nil => cases h
  | cons operand rest ih =>
      cases rest with
      | nil => cases h
      | cons user rest =>
          rcases List.mem_append.mp h with hfirst | hlater
          · obtain ⟨symbol, _, hproblem⟩ :=
              Option.bind_eq_some_iff.mp (Option.mem_toList.mp hfirst)
            exact (of_useProblem? hproblem).2.1
          · exact ih hlater

theorem invalidUse_of_allUseProblems {main : Code} (h : d ∈ t.allUseProblems main) :
    d.cause.category = .invalidUse := by
  have hprocedures : ∀ (id : Nat → ScopeId) (ps : List Procedure),
      d ∈ (ps.mapIdx fun i p => t.procedureProblems (id i) p).flatten →
        d.cause.category = .invalidUse := by
    intro id ps hd
    obtain ⟨ds, hds, hd⟩ := List.mem_flatten.mp hd
    obtain ⟨i, _, rfl⟩ := List.mem_mapIdx.mp hds
    exact (List.mem_append.mp hd).elim invalidUse_of_useProblems invalidUse_of_useProblems
  rcases List.mem_append.mp h with hfirst | hdiscarded
  · exact (List.mem_append.mp hfirst).elim invalidUse_of_useProblems (hprocedures .proc _)
  · exact hprocedures .discarded _ hdiscarded

end SymbolTable

/-! ## Resolved code -/

variable (found : List (Option Symbol))

theorem Node.resolved_isStore (node : Node) :
    (node.resolved found).kind.isStore = node.kind.isStore := by
  by_cases h : node.kind = .ident
  · rcases Node.resolved_kind_of_ident found h with ⟨symbol, hs⟩ | he
    · rw [hs, h]
      cases symbol <;> rfl
    · rw [he, h]
      rfl
  · rw [Node.resolved_of_ne_ident found h]

/-- What names a symbol when it is resolved named one before. -/
theorem Node.isSymbol_of_symbol? {node : Node} {context : Option ScopeId} {symbol : Symbol}
    (h : (node.resolved found).symbol? context = some symbol) : node.kind.isSymbol = true := by
  by_cases hident : node.kind = .ident
  · rw [hident]
    rfl
  · rw [Node.resolved_of_ne_ident found hident] at h
    obtain ⟨index, -, hsymbol⟩ := Option.bind_eq_some_iff.mp h
    revert hsymbol
    cases node.kind <;> first | exact fun _ => rfl | exact nofun

namespace SymbolTable

variable {t : SymbolTable} {context : Option ScopeId}

/-- What is wrong with the node behind a resolved one. -/
def nextProblem? (t : SymbolTable) (context : Option ScopeId) (node user : Node) :
    Option Diagnostic :=
  ((node.resolved found).symbol? context).bind
    (t.useProblem? · (node.resolved found).pos user)

/-- A report is about a use that the node makes. -/
theorem countP_nextProblem? {node user : Node} {behind : Code}
    (hstored : user.kind.isStore = Code.beginsWithStore behind) (cause : Cause) (pos : Position) :
    (t.nextProblem? found context node user).toList.countP (Diagnostic.isAt cause pos) ≤
      (Code.makes (cause.useAt pos) node behind).toNat := by
  cases hproblem : t.nextProblem? found context node user with
  | none => exact Nat.zero_le _
  | some d =>
      obtain ⟨symbol, hsymbol, hd⟩ := Option.bind_eq_some_iff.mp hproblem
      obtain ⟨hpos, -, hbad⟩ := of_useProblem? hd
      rw [Option.toList_some, List.countP_singleton]
      split
      · rename_i hat
        obtain ⟨rfl, rfl⟩ : d.cause = cause ∧ d.pos = pos := by
          simpa [Diagnostic.isAt] using hat
        have huse : Code.makes (d.cause.useAt d.pos) node behind = true := by
          rw [hstored] at hbad
          simp only [Code.makes, Node.isSymbol_of_symbol? found hsymbol, Cause.useAt, hpos,
            Node.resolved_pos, hbad]
          simp
        rw [huse]
        exact Nat.le_refl 1
      · exact Nat.zero_le _

theorem useProblems_cons (node : Node) (rest : Code) :
    (∃ user, user.kind.isStore = Code.beginsWithStore rest ∧
      t.useProblems context (Code.resolved found (node :: rest)) =
        (t.nextProblem? found context node user).toList ++
          t.useProblems context (Code.resolved found rest)) ∨
    t.useProblems context (Code.resolved found (node :: rest)) =
      t.useProblems context (Code.resolved found rest) := by
  rcases Code.resolved_cons found node rest with ⟨-, hfresh, heq⟩ | ⟨-, heq⟩
  · -- Nothing is wrong behind a call: it names no symbol.
    refine .inl ⟨⟨.call, .int 0, node.pos⟩, hfresh.beginsWithStore.symm, ?_⟩
    rw [heq]
    cases Code.resolved found rest with
    | nil => rfl
    | cons next more => rfl
  · rw [heq]
    cases rest with
    | nil => exact .inr rfl
    | cons next more =>
        refine .inl ⟨next.resolved found, Node.resolved_isStore found next, ?_⟩
        have hhead := Code.head?_resolved found (next :: more)
        cases hmore : Code.resolved found (next :: more) with
        | nil =>
            rw [hmore] at hhead
            cases hhead
        | cons user behind =>
            rw [hmore] at hhead
            obtain rfl : user = next.resolved found := Option.some.inj hhead
            rfl

/-- No more misuses are found than there are uses. -/
theorem countP_useProblems (cause : Cause) (pos : Position) (code : Code) :
    (t.useProblems context (Code.resolved found code)).countP (Diagnostic.isAt cause pos) ≤
      code.uses (cause.useAt pos) := by
  induction code with
  | nil => exact Nat.le_refl 0
  | cons node rest ih =>
      have hrest : Code.uses (cause.useAt pos) (node :: rest) =
          (Code.makes (cause.useAt pos) node rest).toNat + Code.uses (cause.useAt pos) rest := rfl
      have hcons := @useProblems_cons found t context node rest
      rcases hcons with
        ⟨user, hstored, heq⟩ | heq
      · have hnext := @countP_nextProblem? found t context node user rest hstored cause pos
        rw [heq, List.countP_append]
        omega
      · rw [heq]
        omega

end SymbolTable

end SslFrontend
