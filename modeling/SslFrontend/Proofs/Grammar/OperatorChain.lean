import Mathlib.Data.List.Induction
import SslFrontend.Proofs.Grammar.ExpressionTree

/-! # Chains of operators

An operand as it is written: unary operators, a primary, and indices.  What is
written where an operand is wanted comes apart this way (`Expr.Prints.operand`),
and whatever is put together this way may stand there (`Operand.prints`).

Written down, nested binary operators are a chain: an operand, and links of an
operator with the operand on its right.  Every chain is one tree's
(`exists_chain`), and writing out the operators that wait gives its code in
postorder (`Chain.emit`).
-/

namespace SslFrontend

/-! ## Operands -/

section

open SslFrontend.Expr (Prints)

/-- Ways to write a primary. -/
inductive Primary : Expr → List Token → Prop
  | literal (value : Literal) (pos : Position) :
      Primary (.literal value pos) [⟨value.kind, pos⟩]
  | name (n : String) (pos : Position) : Primary (.name n pos) [⟨.ident n, pos⟩]
  | call (n : String) (pos opened closed : Position) {args : List (Expr × List Token)}
      {tokens : List Token} (each : ∀ a ∈ args, Prints 1 a.1 a.2)
      (all : Expr.Separated (args.map Prod.snd) tokens) :
      Primary (.call n pos (args.map Prod.fst))
        (⟨.ident n, pos⟩ :: Expr.parenthesized opened closed tokens)
  | address (pos : Position) (n : String) (namePos : Position) :
      Primary (.address pos n namePos) [⟨.mark .atSign, pos⟩, ⟨.ident n, namePos⟩]
  | parens {e : Expr} {tokens : List Token} (opened closed : Position) (h : Prints 1 e tokens) :
      Primary e (Expr.parenthesized opened closed tokens)

theorem Primary.prints {e : Expr} {tokens : List Token} (h : Primary e tokens) (wanted : Nat) :
    Prints wanted e tokens := by
  cases h with
  | literal value pos => exact .literal wanted value pos
  | name n pos => exact .name wanted n pos
  | call n pos opened closed each all => exact .call wanted n pos opened closed each all
  | address pos n namePos => exact .address wanted pos n namePos
  | parens opened closed h => exact .parens wanted opened closed h

theorem Primary.begins {e : Expr} {tokens : List Token} (h : Primary e tokens) :
    ∃ token rest, tokens = token :: rest ∧ Operator.unary? token.kind = none := by
  cases h with
  | literal value pos =>
      refine ⟨_, [], rfl, ?_⟩
      cases value with
      | truth b => cases b <;> rfl
      | _ => rfl
  | _ => exact ⟨_, _, rfl, rfl⟩

/-- An index as written. -/
structure Suffix where
  pos : Position
  closed : Position
  inside : Expr
  tokens : List Token

namespace Suffix

def printed (x : Suffix) : List Token := Expr.bracketed x.pos x.closed x.tokens

/-- The expression in the brackets is written as one. -/
def Proper (x : Suffix) : Prop := Prints 1 x.inside x.tokens

def apply (base : Expr) (x : Suffix) : Expr := .index base x.pos x.inside

/-- The code of indices behind that of what they index. -/
def emitAll (scope : Option ScopeId) : Code → List Suffix → Making Code
  | code, [] => return code
  | code, x :: rest => do
    let inside ← x.inside.emit scope
    emitAll scope (code ++ inside ++ [Node.op .index x.pos]) rest

end Suffix

/-- A unary operator as written. -/
structure Sign where
  op : UnaryOp
  pos : Position

namespace Sign

def printed (x : Sign) : Token := ⟨x.op.token, x.pos⟩

def node (x : Sign) : Node := Node.op x.op.node x.pos

theorem unary?_printed (x : Sign) : Operator.unary? x.printed.kind = some x.op.node := x.op.listed

/-- The nodes that a run of unary operators makes of its tokens. -/
theorem nodes_printed (signs : List Sign) :
    (signs.map printed).filterMap
      (fun token => (Operator.unary? token.kind).map (Node.op · token.pos)) = signs.map node := by
  rw [List.filterMap_map, ← List.filterMap_eq_map]
  refine List.filterMap_congr fun x _ => ?_
  simp only [Function.comp, unary?_printed]
  rfl

def apply (x : Sign) (operand : Expr) : Expr := .unary x.op x.pos operand

end Sign

/-- A primary with indices, as written. -/
inductive Indexed : Expr → List Token → Prop
  | mk {base : Expr} {front : List Token} (suffixes : List Suffix) (h : Primary base front)
      (each : ∀ x ∈ suffixes, Suffix.Proper x) :
      Indexed (suffixes.foldl Suffix.apply base) (front ++ suffixes.flatMap Suffix.printed)

/-- A primary with unary operators and indices, as written. -/
inductive Operand : Expr → List Token → Prop
  | mk {e : Expr} {tokens : List Token} (signs : List Sign) (h : Indexed e tokens) :
      Operand (signs.foldr Sign.apply e) (signs.map Sign.printed ++ tokens)

variable {wanted : Nat} {e base : Expr} {tokens front : List Token} {scope : Option ScopeId}

/-! ## Printing -/

theorem Primary.indexed (h : Primary e tokens) : Indexed e tokens := by
  simpa using Indexed.mk [] h (by simp)

theorem Indexed.index {inside : Expr} {second : List Token} (h : Indexed e tokens)
    (pos closed : Position) (h' : Prints 1 inside second) :
    Indexed (.index e pos inside) (tokens ++ Expr.bracketed pos closed second) := by
  obtain ⟨suffixes, hbase, heach⟩ := h
  have hmore := Indexed.mk (suffixes ++ [⟨pos, closed, inside, second⟩]) hbase <| by
    intro x hx
    rcases List.mem_append.mp hx with hx | hx
    · exact heach x hx
    · rw [List.mem_singleton.mp hx]
      exact h'
  simpa [Suffix.apply, Suffix.printed] using hmore

/-- Where a primary is wanted, a primary with indices is written. -/
theorem Expr.Prints.indexed (h : Prints wanted e tokens) (hw : primaryLevel ≤ wanted) :
    Indexed e tokens := by
  induction h with
  | literal _ value pos => exact (Primary.literal value pos).indexed
  | name _ n pos => exact (Primary.name n pos).indexed
  | call _ n pos opened closed each all => exact (Primary.call n pos opened closed each all).indexed
  | address _ pos n namePos => exact (Primary.address pos n namePos).indexed
  | parens _ opened closed h => exact (Primary.parens opened closed h).indexed
  | index _ pos closed _ h₂ ih _ => exact (ih (Nat.le_refl _)).index pos closed h₂
  | unary op pos hw' _ => exact absurd (Nat.le_trans hw hw') (by decide)
  | binary op pos hw' _ _ =>
      have hlevel := Nat.lt_of_le_of_lt (Nat.le_trans hw hw') op.level_lt
      exact absurd hlevel (by decide)

/-- Where an operand is wanted, an operand is written. -/
theorem Expr.Prints.operand (h : Prints wanted e tokens) (hw : unaryLevel ≤ wanted) :
    Operand e tokens := by
  have whole : ∀ {e tokens}, Prints primaryLevel e tokens → Operand e tokens :=
    fun h => .mk [] (h.indexed (Nat.le_refl _))
  induction h with
  | literal _ value pos => exact whole (.literal _ value pos)
  | name _ n pos => exact whole (.name _ n pos)
  | call _ n pos opened closed each all => exact whole (.call _ n pos opened closed each all)
  | address _ pos n namePos => exact whole (.address _ pos n namePos)
  | parens _ opened closed h => exact whole (.parens _ opened closed h)
  | index _ pos closed h₁ h₂ => exact whole (.index _ pos closed h₁ h₂)
  | unary op pos _ _ ih =>
      obtain ⟨signs, h⟩ := ih (Nat.le_refl _)
      exact .mk (⟨op, pos⟩ :: signs) h
  | binary op pos hw' _ _ => exact absurd (Nat.le_trans hw hw') (Nat.not_le.mpr op.level_lt)

/-- A primary with indices is a way to write a primary. -/
theorem Indexed.prints (h : Indexed e tokens) : Prints Expr.primaryLevel e tokens := by
  obtain ⟨suffixes, hbase, heach⟩ := h
  have hfront := hbase.prints Expr.primaryLevel
  clear hbase
  rename_i base front
  induction suffixes generalizing base front with
  | nil => simpa using hfront
  | cons x rest ih =>
      have hx : Prints 1 x.inside x.tokens := heach x List.mem_cons_self
      have hrest := ih (fun y hy => heach y (List.mem_cons_of_mem _ hy))
        (.index Expr.primaryLevel x.pos x.closed hfront hx)
      simpa [Suffix.apply, Suffix.printed] using hrest

/-- An operand is a way to write one. -/
theorem Operand.prints (h : Operand e tokens) : Prints Expr.unaryLevel e tokens := by
  obtain ⟨signs, h⟩ := h
  induction signs with
  | nil => exact h.prints.mono (by decide)
  | cons x rest ih => exact .unary x.op x.pos (Nat.le_refl _) ih

/-! ## Code -/

theorem Expr.emit_indices (suffixes : List Suffix) (base : Expr) :
    (suffixes.foldl Suffix.apply base).emit scope =
      base.emit scope >>= fun code => Suffix.emitAll scope code suffixes := by
  induction suffixes generalizing base with
  | nil => simp [Suffix.emitAll]
  | cons x rest ih => simp [ih, Suffix.apply, Suffix.emitAll, Expr.emit]

theorem Expr.emit_signs (signs : List Sign) (e : Expr) :
    (signs.foldr Sign.apply e).emit scope =
      do return (← e.emit scope) ++ (signs.map Sign.node).reverse := by
  induction signs with
  | nil => simp
  | cons x rest ih => simp [ih, Sign.apply, Sign.node, Expr.emit]

end


/-- An operator with the operand on its right, and how that is written. -/
structure Link where
  op : BinaryOp
  pos : Position
  operand : Expr
  tokens : List Token

namespace Link

def printed (link : Link) : List Token := ⟨link.op.token, link.pos⟩ :: link.tokens

/-- The operand of the link is written as an operand. -/
def Proper (link : Link) : Prop := Expr.Prints Expr.unaryLevel link.operand link.tokens

def operator (link : Link) : Operator := ⟨link.op.level, Node.op link.op.node link.pos⟩

/-- The operators of links with the code of their operands. -/
def emitAll (scope : Option ScopeId) : List Link → Making (List (Operator × Code))
  | [] => return []
  | link :: rest => do
    let code ← link.operand.emit scope
    return (link.operator, code) :: (← emitAll scope rest)

end Link

/-- A tree as a chain: its binary operators as far as they need no parentheses
where a level is wanted. -/
inductive Chain : Nat → Expr → Expr → List Link → Prop
  | operand (wanted : Nat) (e : Expr) : Chain wanted e e []
  | binary {wanted : Nat} {left right first operand : Expr} {links more : List Link}
      (op : BinaryOp) (pos : Position) (tokens : List Token) (hw : wanted ≤ op.level)
      (h₁ : Chain op.level left first links) (h₂ : Chain (op.level + 1) right operand more) :
      Chain wanted (.binary op pos left right) first (links ++ ⟨op, pos, operand, tokens⟩ :: more)

variable {wanted : Nat} {e first : Expr} {links : List Link} {tokens : List Token}

/-! ## Printing -/

/-- What is written in a place is written as a chain. -/
theorem Expr.Prints.chain (h : Prints wanted e tokens) (hw : wanted ≤ unaryLevel) :
    ∃ first front links, Chain wanted e first links ∧ Prints unaryLevel first front ∧
      (∀ link ∈ links, Link.Proper link) ∧ tokens = front ++ links.flatMap Link.printed := by
  have whole : ∀ {wanted e tokens}, Prints unaryLevel e tokens →
      ∃ first front links, Chain wanted e first links ∧ Prints unaryLevel first front ∧
        (∀ link ∈ links, Link.Proper link) ∧ tokens = front ++ links.flatMap Link.printed :=
    fun h => ⟨_, _, [], .operand _ _, h, by simp, by simp⟩
  induction h with
  | literal _ value pos => exact whole (.literal _ value pos)
  | name _ n pos => exact whole (.name _ n pos)
  | call _ n pos opened closed each all => exact whole (.call _ n pos opened closed each all)
  | address _ pos n namePos => exact whole (.address _ pos n namePos)
  | index _ pos closed h₁ h₂ => exact whole (.index _ pos closed h₁ h₂)
  | unary op pos _ h => exact whole (.unary op pos (Nat.le_refl _) h)
  | parens _ opened closed h => exact whole (.parens _ opened closed h)
  | binary op pos hw' _ _ ih₁ ih₂ =>
      have hlevel := op.level_lt
      obtain ⟨first, front, links, hchain, hfirst, hlinks, rfl⟩ := ih₁ (Nat.le_of_lt hlevel)
      obtain ⟨operand, written, more, hchain', hoperand, hmore, rfl⟩ := ih₂ hlevel
      refine ⟨first, front, _, .binary op pos written hw' hchain hchain', hfirst, ?_, ?_⟩
      · intro link hlink
        rcases List.mem_append.mp hlink with hlink | hlink
        · exact hlinks link hlink
        · rcases List.mem_cons.mp hlink with rfl | hlink
          · exact hoperand
          · exact hmore link hlink
      · simp [Link.printed]

/-- A chain of operands is a way to write its tree. -/
theorem Chain.prints {front : List Token} (h : Chain wanted e first links)
    (hw : wanted ≤ Expr.unaryLevel) (hfirst : Expr.Prints Expr.unaryLevel first front)
    (hlinks : ∀ link ∈ links, Link.Proper link) :
    Expr.Prints wanted e (front ++ links.flatMap Link.printed) := by
  induction h generalizing front with
  | operand wanted e => simpa using hfirst.mono hw
  | binary op pos tokens hw' _ _ ih₁ ih₂ =>
      have hlevel := op.level_lt
      have hleft := ih₁ (Nat.le_of_lt hlevel) hfirst
        fun link hlink => hlinks link (List.mem_append_left _ hlink)
      have hright := ih₂ hlevel (hlinks _ (List.mem_append_right _ List.mem_cons_self))
        fun link hlink => hlinks link (List.mem_append_right _ (List.mem_cons_of_mem _ hlink))
      simpa [Link.printed] using Expr.Prints.binary op pos hw' hleft hright

/-! ## Every chain has a tree -/

/-- A chain goes on with one more link: its operator takes the part of the tree
that binds at least as tightly as its left operand. -/
theorem Chain.extend (h : Chain wanted e first links) (link : Link)
    (hw : wanted ≤ link.op.level) :
    ∃ e', Chain wanted e' first (links ++ [link]) := by
  obtain ⟨op', pos', operand', tokens'⟩ := link
  induction h with
  | operand wanted e =>
      exact ⟨_, .binary op' pos' tokens' hw (.operand _ e) (.operand _ operand')⟩
  | @binary _ _ _ _ operand links more op pos tokens hw' h₁ h₂ _ ih₂ =>
      by_cases hlevel : op'.level ≤ op.level
      · have hleft : Chain op'.level _ _ (links ++ ⟨op, pos, operand, tokens⟩ :: more) :=
          .binary op pos tokens hlevel h₁ h₂
        exact ⟨_, .binary op' pos' tokens' hw hleft (.operand _ operand')⟩
      · obtain ⟨right, hright⟩ := ih₂ (by simp only at hw ⊢; omega)
        have hchain := Chain.binary op pos tokens hw' h₁ hright
        rw [← List.cons_append, ← List.append_assoc] at hchain
        exact ⟨_, hchain⟩

theorem exists_chain (first : Expr) (links : List Link) : ∃ e, Chain 1 e first links := by
  induction links using List.reverseRecOn with
  | nil => exact ⟨first, .operand 1 first⟩
  | append_singleton links link ih =>
      obtain ⟨e, he⟩ := ih
      exact he.extend link link.op.level_pos

/-! ## Code -/

namespace Operator

/-- Operators that bind at least as tightly as `level` are written out, down to
the first that does not. -/
theorem release_append {level : Nat} {left waiting : List Operator}
    (hleft : ∀ op ∈ left, level ≤ op.level)
    (hwaiting : ∀ op ∈ waiting.head?, op.level < level) :
    release level (left ++ waiting) = (left.map node, waiting) := by
  induction left with
  | nil =>
      cases waiting with
      | nil => rfl
      | cons top below =>
          have htop : ¬ level ≤ top.level := Nat.not_le.mpr (hwaiting top rfl)
          simp [release, htop]
  | cons op left ih =>
      have hop : level ≤ op.level := hleft op List.mem_cons_self
      have hrest := ih fun op hmem => hleft op (List.mem_cons_of_mem _ hmem)
      simp [release, hop, hrest]

/-- Links in front of others write some code and leave some operators waiting,
all of them at least as tight as `wanted`; with these written out too, they give
`code` behind `front`. -/
def Spells (wanted : Nat) (front : Code) (links : List (Operator × Code)) (code : Code) : Prop :=
  ∃ written left, code = front ++ written ++ left.map node ∧ (∀ op ∈ left, wanted ≤ op.level) ∧
    ∀ waiting rest, (∀ op ∈ waiting.head?, op.level < wanted) →
      chain waiting (links ++ rest) = written ++ chain (left ++ waiting) rest

theorem Spells.none (wanted : Nat) (front : Code) : Spells wanted front [] front :=
  ⟨[], [], by simp, by simp, by simp⟩

theorem Spells.whole {front code : Code} {links : List (Operator × Code)}
    (h : Spells wanted front links code) : code = front ++ chain [] links := by
  obtain ⟨written, left, rfl, -, hchain⟩ := h
  have hall := hchain [] [] (by simp)
  simp only [List.append_nil] at hall
  rw [hall, chain, List.append_assoc]

/-- An operator that is not looser than `wanted` between two runs of links. -/
theorem Spells.binary (op : Operator) {front operand left right : Code}
    {links more : List (Operator × Code)} (hw : wanted ≤ op.level)
    (h₁ : Spells op.level front links left) (h₂ : Spells (op.level + 1) operand more right) :
    Spells wanted front (links ++ (op, operand) :: more) (left ++ right ++ [op.node]) := by
  obtain ⟨written, waiting₁, rfl, htight₁, hchain₁⟩ := h₁
  obtain ⟨written', waiting₂, rfl, htight₂, hchain₂⟩ := h₂
  refine ⟨written ++ waiting₁.map node ++ operand ++ written', waiting₂ ++ [op],
    by simp, ?_, ?_⟩
  · intro other hother
    rcases List.mem_append.mp hother with hother | hother
    · have := htight₂ other hother
      omega
    · rw [List.mem_singleton.mp hother]
      exact hw
  · intro waiting rest hloose
    have hloose' : ∀ other ∈ waiting.head?, other.level < op.level :=
      fun other hother => Nat.lt_of_lt_of_le (hloose other hother) hw
    have hrelease := release_append htight₁ hloose'
    have hnext := hchain₂ (op :: waiting) rest (by simp)
    rw [List.append_assoc, hchain₁ waiting _ hloose', List.cons_append, chain, hrelease]
    simp [hnext]

end Operator

/-! ## Trees -/

variable {scope : Option ScopeId} {r r₁ r₂ : Records} {front : Code}
  {found found' : List (Operator × Code)}

theorem Link.emitAll_append (links more : List Link) :
    emitAll scope (links ++ more) =
      do return (← emitAll scope links) ++ (← emitAll scope more) := by
  induction links with
  | nil => simp [emitAll]
  | cons link links ih => simp [emitAll, ih]

/-- The code of a tree is spelled by the operators and operands of its chain. -/
theorem Chain.spells (h : Chain wanted e first links) (hfirst : first.emit scope r = (front, r₁))
    (hlinks : Link.emitAll scope links r₁ = (found, r₂)) :
    ∃ code, e.emit scope r = (code, r₂) ∧ Operator.Spells wanted front found code := by
  induction h generalizing r r₁ r₂ front found with
  | operand wanted e =>
      cases hlinks
      exact ⟨front, hfirst, .none wanted front⟩
  | @binary wanted left right first operand links more op pos tokens hw _ _ ih₁ ih₂ =>
      obtain ⟨⟨found₁, ra⟩, ha⟩ : ∃ p, Link.emitAll scope links r₁ = p := ⟨_, rfl⟩
      obtain ⟨⟨middle, rb⟩, hb⟩ : ∃ p, operand.emit scope ra = p := ⟨_, rfl⟩
      obtain ⟨⟨found₂, rc⟩, hc⟩ : ∃ p, Link.emitAll scope more rb = p := ⟨_, rfl⟩
      rw [Link.emitAll_append, Making.bind_eq ha, Link.emitAll] at hlinks
      simp only [bind_assoc, pure_bind] at hlinks
      rw [Making.bind_eq hb, Making.bind_eq hc] at hlinks
      cases hlinks
      obtain ⟨code₁, hleft, hspells₁⟩ := ih₁ hfirst ha
      obtain ⟨code₂, hright, hspells₂⟩ := ih₂ hb hc
      refine ⟨_, ?_, .binary (Link.operator ⟨op, pos, operand, tokens⟩) hw hspells₁ hspells₂⟩
      rw [Expr.emit, Making.bind_eq hleft, Making.bind_eq hright]
      rfl

/-- The code of a tree is its chain with the operators that wait written out. -/
theorem Chain.emit_eq (h : Chain wanted e first links) :
    e.emit scope = do
      let front ← first.emit scope
      let found ← Link.emitAll scope links
      return front ++ Operator.chain [] found := by
  funext r
  obtain ⟨⟨front, r₁⟩, hfirst⟩ : ∃ p, first.emit scope r = p := ⟨_, rfl⟩
  obtain ⟨⟨found, r₂⟩, hlinks⟩ : ∃ p, Link.emitAll scope links r₁ = p := ⟨_, rfl⟩
  obtain ⟨code, hcode, hspells⟩ := h.spells hfirst hlinks
  rw [hcode, hspells.whole, Making.bind_eq hfirst, Making.bind_eq hlinks]
  rfl

end SslFrontend
