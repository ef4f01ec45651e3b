import SslFrontend.Proofs.Postfix.Linked

/-! # Resolving is conservative

Resolving does two things to code of any shape: an `Ident` becomes what it stands
for, and a call without arguments is put in behind each procedure that the next
node does not take.  All else stays as it is and in its order, and resolved code
has nothing left to resolve.

Main statement: `Code.resolved_conservative`.
-/

namespace SslFrontend

/-- What a node stands for where the pending names turn out to be `found`. -/
inductive Node.StandsFor (found : List (Option Symbol)) : Node → Node → Prop
  /-- Every node but an `Ident` stands for itself. -/
  | itself {node : Node} (h : node.kind ≠ .ident) : StandsFor found node node
  | symbol {node : Node} {place : Nat} {symbol : Symbol} (h : node.kind = .ident)
      (hplace : node.value.index? = some place) (hfound : found[place]? = some (some symbol)) :
      StandsFor found node (symbol.toNode node.pos)
  | error {node : Node} (h : node.kind = .ident)
      (hnone : ∀ place symbol, node.value.index? = some place →
        found[place]? ≠ some (some symbol)) :
      StandsFor found node ⟨.error, node.value, node.pos⟩

/-- A node, and the call that is put in behind it, if one is. -/
structure Node.Part where
  image : Node
  inserted : Option Node

/-- The code that parts make up. -/
def Code.ofParts (parts : List Node.Part) : Code :=
  parts.flatMap fun part => part.image :: part.inserted.toList

/-- The code without the calls that were put in. -/
def Code.erased (parts : List Node.Part) : Code := parts.map Node.Part.image

namespace NodeKind

theorem isCallable_iff {kind : NodeKind} :
    kind.isCallable = true ↔ kind = .proc ∨ kind = .builtin := by
  cases kind <;> simp [isCallable]

theorem takesCallee_iff {kind : NodeKind} :
    kind.takesCallee = true ↔ kind ∈ [.call, .procAddr, .store, .storeIndex] := by
  cases kind <;> simp [takesCallee]

end NodeKind

namespace Node

variable (found : List (Option Symbol))

theorem standsFor_resolved (node : Node) : StandsFor found node (node.resolved found) := by
  by_cases hident : node.kind = .ident
  · unfold resolved
    rw [if_pos hident]
    split
    · rename_i symbol hsymbol
      obtain ⟨place, hplace, hjoin⟩ := Option.bind_eq_some_iff.mp hsymbol
      exact .symbol hident hplace (Option.join_eq_some_iff.mp hjoin)
    · rename_i hnone
      refine .error hident fun place symbol hplace hfound => ?_
      rw [hplace, Option.bind_some, hfound] at hnone
      cases hnone
  · rw [resolved_of_ne_ident found hident]
    exact .itself hident

theorem resolved_kind_ne_ident (node : Node) : (node.resolved found).kind ≠ .ident := by
  by_cases hident : node.kind = .ident
  · rcases resolved_kind_of_ident found hident with ⟨symbol, hsymbol⟩ | herror
    · rw [hsymbol]
      cases symbol <;> simp [Symbol.nodeKind]
    · simp [herror]
  · rwa [resolved_of_ne_ident found hident]

end Node

namespace Code

variable (found : List (Option Symbol))

/-- A call is put in behind the image of a node at a place of code: the image names
a procedure, and the next node of the code, if there is one, takes no callee. -/
def CallsAt (code : Code) (place : Nat) (image : Node) : Prop :=
  (image.kind = .proc ∨ image.kind = .builtin) ∧
    ∀ next, code[place + 1]? = some next → next.kind ∉ [.call, .procAddr, .store, .storeIndex]

theorem startsFresh_iff {code : Code} : code.StartsFresh ↔
    ∀ next, code[0]? = some next → next.kind ∉ [.call, .procAddr, .store, .storeIndex] := by
  simp only [StartsFresh, List.head?_eq_getElem?, ← NodeKind.takesCallee_iff,
    Bool.not_eq_true]

/-- Resolved code falls into parts, one for each node of the code. -/
theorem resolved_parts (code : Code) : ∃ parts : List Node.Part,
    Code.resolved found code = ofParts parts ∧
      List.Forall₂ (Node.StandsFor found) code (erased parts) ∧
      ∀ place part, parts[place]? = some part →
        (part.inserted ≠ none ↔ CallsAt code place part.image) ∧
        ∀ call, part.inserted = some call → call = ⟨.call, .int 0, part.image.pos⟩ := by
  induction code with
  | nil => exact ⟨[], rfl, .nil, by simp⟩
  | cons node rest ih =>
      obtain ⟨parts, hcode, hstands, hcalls⟩ := ih
      -- Behind the first part, every place is one further on.
      have hlater : ∀ first place part, (first :: parts)[place + 1]? = some part →
          (part.inserted ≠ none ↔ CallsAt (node :: rest) (place + 1) part.image) ∧
          ∀ call, part.inserted = some call → call = ⟨.call, .int 0, part.image.pos⟩ :=
        fun _ place part hpart => hcalls place part hpart
      have hfirst : (Node.resolved found node).kind.isCallable = true ↔
          (Node.resolved found node).kind = .proc ∨ (Node.resolved found node).kind = .builtin :=
        NodeKind.isCallable_iff
      rcases resolved_cons found node rest with ⟨hcallable, hfresh, heq⟩ | ⟨htaken, heq⟩
      · have hpos := Node.resolved_pos found node
        refine ⟨⟨node.resolved found, some ⟨.call, .int 0, node.pos⟩⟩ :: parts, ?_,
          .cons (node.standsFor_resolved found) hstands, ?_⟩
        · rw [heq, hcode]
          rfl
        · rintro (_ | place) part hpart
          · obtain rfl := Option.some.inj hpart
            refine ⟨⟨fun _ => ⟨hfirst.mp hcallable, startsFresh_iff.mp hfresh⟩, fun _ => nofun⟩,
              fun call hcall => ?_⟩
            obtain rfl := Option.some.inj hcall
            rw [hpos]
          · exact hlater _ place part hpart
      · refine ⟨⟨node.resolved found, none⟩ :: parts, ?_,
          .cons (node.standsFor_resolved found) hstands, ?_⟩
        · rw [heq, hcode]
          rfl
        · rintro (_ | place) part hpart
          · obtain rfl := Option.some.inj hpart
            refine ⟨⟨fun h => absurd rfl h, fun h => ?_⟩, nofun⟩
            obtain ⟨next, hnext, htakes⟩ := htaken (hfirst.mpr h.1)
            rw [List.head?_eq_getElem?] at hnext
            exact absurd (NodeKind.takesCallee_iff.mp htakes) (h.2 next hnext)
          · exact hlater _ place part hpart

/-- Nothing is put in behind a node whose procedure the next node takes. -/
theorem resolved_cons_of_taken {node : Node} {rest : Code}
    (h : (node.resolved found).kind.isCallable = true →
      ∃ next, rest.head? = some next ∧ next.kind.takesCallee = true) :
    Code.resolved found (node :: rest) = node.resolved found :: Code.resolved found rest := by
  rcases resolved_cons found node rest with ⟨hcallable, hfresh, _⟩ | ⟨_, heq⟩
  · obtain ⟨next, hnext, htakes⟩ := h hcallable
    rw [hfresh next hnext] at htakes
    cases htakes
  · exact heq

/-- Resolved code is resolved, whatever the names of other code turn out to be. -/
theorem resolved_resolved (later : List (Option Symbol)) (code : Code) :
    Code.resolved later (Code.resolved found code) = Code.resolved found code := by
  induction code with
  | nil => rfl
  | cons node rest ih =>
      have hself := Node.resolved_of_ne_ident later (node.resolved_kind_ne_ident found)
      rcases resolved_cons found node rest with ⟨hcallable, hfresh, heq⟩ | ⟨htaken, heq⟩
      · have hcall : Node.resolved later ⟨.call, .int 0, node.pos⟩ = ⟨.call, .int 0, node.pos⟩ :=
          Node.resolved_of_ne_ident later nofun
        rw [heq, resolved_cons_of_taken later fun _ => ⟨_, rfl, rfl⟩, hself,
          resolved_cons_of_taken later (by simp [hcall, NodeKind.isCallable]), hcall, ih]
      · -- The next node takes the procedure as before: resolving leaves its kind of use.
        have htakes : (Node.resolved later (node.resolved found)).kind.isCallable = true →
            ∃ next, (Code.resolved found rest).head? = some next ∧
              next.kind.takesCallee = true := by
          rw [hself]
          intro hcallable
          obtain ⟨next, hnext, htakes⟩ := htaken hcallable
          refine ⟨next.resolved found, ?_, ?_⟩
          · rw [head?_resolved, hnext]
            rfl
          · rwa [Node.resolved_takesCallee]
        rw [heq, resolved_cons_of_taken later htakes, hself, ih]

/-- Without the calls that are put in, resolved code is the code with each `Ident`
replaced by what it stands for; a call is put in behind a procedure where the code
goes on with nothing that takes it, and nowhere else; and resolving again changes
nothing. -/
theorem resolved_conservative (code : Code) :
    (∃ parts : List Node.Part,
      Code.resolved found code = ofParts parts ∧
      List.Forall₂ (Node.StandsFor found) code (erased parts) ∧
      ∀ place part, parts[place]? = some part →
        (part.inserted ≠ none ↔ CallsAt code place part.image) ∧
        ∀ call, part.inserted = some call → call = ⟨.call, .int 0, part.image.pos⟩) ∧
    ∀ later, Code.resolved later (Code.resolved found code) = Code.resolved found code :=
  ⟨resolved_parts found code, fun later => resolved_resolved found later code⟩

end Code

end SslFrontend
