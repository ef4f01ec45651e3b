import SslFrontend.Proofs.Grammar.StatementTree
import SslFrontend.Proofs.Token.Clean

/-! # Written trees are read in silence

The code of a tree is made without a report, unless a string of it holds a NUL
(`Stmt.Prints.silent`).
-/

namespace SslFrontend

/-- Nothing is reported. -/
def Making.Silent {α : Type} (m : Making α) : Prop := ∀ r, (m r).2.problems = r.problems

namespace Making.Silent

variable {α β : Type}

theorem pure (a : α) : Making.Silent (Pure.pure a) := fun _ => rfl

theorem bind {m : Making α} {f : α → Making β} (h : m.Silent) (hf : ∀ a, (f a).Silent) :
    (m >>= f).Silent := by
  intro r
  show (f (m r).1 (m r).2).2.problems = _
  rw [hf, h]

theorem mention (scope : Option ScopeId) (name : String) (pos : Position) :
    (Making.mention scope name pos).Silent := by
  intro r
  unfold Making.mention
  cases r.table.lookupDeclared scope name <;> rfl

theorem text {t : String} (h : '\x00' ∉ t.toList) (pos : Position) :
    (Making.text t pos).Silent := by
  intro r
  unfold Making.text
  cases hi : r.table.strings.intern t with
  | ok found => rfl
  | error e =>
      unfold Pool.intern at hi
      split at hi
      · cases hi
      · rw [dif_neg h] at hi
        cases hi

end Making.Silent

open Making (Silent)

variable {scope : Option ScopeId} {tokens : List Token}

theorem Literal.silent {value : Literal} (h : value.kind.Clean) (pos : Position) :
    (value.emit pos).Silent := by
  cases value with
  | text t => exact .text (h t rfl) pos
  | truth b => cases b <;> exact .pure _
  | _ => exact .pure _

namespace Expr

theorem Separated.clean {pieces : List (List Token)} (h : Separated pieces tokens)
    (hclean : CleanTokens tokens) : ∀ piece ∈ pieces, CleanTokens piece := by
  induction h with
  | none => exact nofun
  | one piece =>
      intro other hother
      rwa [List.mem_singleton.mp hother]
  | more first comma _ ih =>
      intro piece hpiece
      rcases List.mem_cons.mp hpiece with rfl | hpiece
      · exact hclean.left
      · exact ih hclean.right.cons piece hpiece

theorem silent_emitAll {args : List Expr} (each : ∀ e ∈ args, (e.emit scope).Silent) :
    (emitAll scope args).Silent := by
  induction args with
  | nil => exact .pure []
  | cons e rest ih =>
      refine .bind (each e List.mem_cons_self) fun code => .bind ?_ fun _ => .pure _
      exact ih fun other hother => each other (List.mem_cons_of_mem _ hother)

theorem Prints.silent {wanted : Nat} {e : Expr} (h : Prints wanted e tokens)
    (hclean : CleanTokens tokens) : (e.emit scope).Silent := by
  induction h with
  | literal _ value pos =>
      exact .bind (Literal.silent (hclean _ List.mem_cons_self) pos) fun _ => .pure _
  | name _ n pos => exact .bind (.mention scope n pos) fun _ => .pure _
  | call _ n pos _ _ _ all ih =>
      refine .bind (.mention scope n pos) fun _ => .bind (silent_emitAll ?_) fun _ => .pure _
      intro e he
      obtain ⟨a, ha, rfl⟩ := List.mem_map.mp he
      exact ih a ha (all.clean hclean.cons.cons.left a.2 (List.mem_map_of_mem ha))
  | address _ _ n namePos => exact .bind (.mention scope n namePos) fun _ => .pure _
  | index _ _ _ _ _ ih₁ ih₂ =>
      exact .bind (ih₁ hclean.left) fun _ => .bind (ih₂ hclean.right.cons.left) fun _ => .pure _
  | unary _ _ _ _ ih => exact .bind (ih hclean.cons) fun _ => .pure _
  | binary _ _ _ _ _ ih₁ ih₂ =>
      exact .bind (ih₁ hclean.left) fun _ => .bind (ih₂ hclean.right.cons) fun _ => .pure _
  | parens _ _ _ _ ih => exact ih hclean.cons.left

end Expr

theorem Target.Prints.silent {target : Target} (h : target.Prints tokens)
    (hclean : CleanTokens tokens) : (target.emit scope).Silent := by
  cases h with
  | scalar n pos => exact .bind (.mention scope n pos) fun _ => .pure _
  | element n pos _ _ h =>
      exact .bind (.mention scope n pos) fun _ => .bind (h.silent hclean.cons.cons.left)
        fun _ => .pure _

theorem Simple.Prints.silent {x : Simple} (h : x.Prints tokens) (hclean : CleanTokens tokens) :
    (x.emit scope).Silent := by
  cases h with
  | store _ _ ht hv =>
      refine .bind (ht.silent hclean.left) fun found => ?_
      refine .bind (hv.silent hclean.right.cons) fun e => ?_
      cases found.2 <;> exact .pure _
  | compound _ _ ht hv =>
      refine .bind (ht.silent hclean.left) fun found => ?_
      refine .bind (hv.silent hclean.right.cons) fun e => ?_
      cases found.2 <;> exact .pure _
  | step _ _ ht =>
      refine .bind (ht.silent hclean.left) fun found => ?_
      obtain ⟨x, index⟩ := found
      cases index <;> exact .pure _
  | dropped h => exact .bind (h.silent hclean) fun _ => .pure _

theorem Simple.Prints?.silent {x : Option Simple} (h : Simple.Prints? x tokens)
    (hclean : CleanTokens tokens) : (Simple.emit? scope x).Silent := by
  cases h with
  | none => exact .pure []
  | some h => exact h.silent hclean

theorem Expr.PrintsArguments?.silent {args : Option (List Expr)}
    (h : Expr.PrintsArguments? args tokens) (hclean : CleanTokens tokens) :
    (Expr.emitAll scope (args.getD [])).Silent := by
  cases h with
  | none => exact .pure []
  | some _ _ each all =>
      refine Expr.silent_emitAll fun e he => ?_
      obtain ⟨a, ha, rfl⟩ := List.mem_map.mp he
      exact (each a ha).silent (all.clean hclean.cons.left a.2 (List.mem_map_of_mem ha))

namespace Stmt

theorem silent_emitAll {body : List Stmt} (each : ∀ s ∈ body, (s.emit scope).Silent) :
    (emitAll scope body).Silent := by
  induction body with
  | nil => exact .pure []
  | cons s rest ih =>
      refine .bind (each s List.mem_cons_self) fun code => .bind ?_ fun _ => .pure _
      exact ih fun other hother => each other (List.mem_cons_of_mem _ hother)

/-- The statements of a block are clean if all of it is. -/
theorem clean_of_mem {body : List (Stmt × List Token)} {x : Stmt × List Token}
    (hclean : CleanTokens (body.flatMap Prod.snd)) (hx : x ∈ body) : CleanTokens x.2 :=
  fun token htoken => hclean token (List.mem_flatMap.mpr ⟨x, hx, htoken⟩)

/-- A written statement is compiled without a report. -/
theorem Prints.silent {inLoop : Bool} {s : Stmt} (h : Prints inLoop s tokens)
    (hclean : CleanTokens tokens) : (s.emit scope).Silent := by
  induction h with
  | empty => exact .pure []
  | block _ _ _ _ ih =>
      refine silent_emitAll fun s hs => ?_
      obtain ⟨x, hx, rfl⟩ := List.mem_map.mp hs
      exact ih x hx (clean_of_mem hclean.cons.left hx)
  | branch _ _ hc _ ih =>
      exact .bind (hc.silent hclean.cons.left) fun _ => .bind (ih hclean.cons.right.cons)
        fun _ => .pure _
  | choice _ _ _ hc _ _ _ ih₁ ih₂ =>
      exact .bind (hc.silent hclean.left.cons.left) fun _ =>
        .bind (ih₁ hclean.left.cons.right.cons) fun _ => .bind (ih₂ hclean.right.cons)
          fun _ => .pure _
  | choiceBlock _ _ _ _ _ hc _ _ _ ih₁ ih₂ =>
      exact .bind (hc.silent hclean.left.cons.left) fun _ =>
        .bind (ih₁ hclean.left.cons.right.cons.cons.left) fun _ => .bind (ih₂ hclean.right.cons)
          fun _ => .pure _
  | whileLoop _ _ _ hc _ ih =>
      exact .bind (hc.silent hclean.cons.left) fun _ => .bind (ih hclean.cons.right.cons)
        fun _ => .pure _
  | forLoop _ _ _ _ _ _ hi hc ht _ ih =>
      refine .bind (hi.silent hclean.left.left.left.cons.cons) fun _ => .bind ?_ fun _ =>
        .bind (ht.silent hclean.left.right.cons) fun _ => .bind (ih hclean.right.cons)
          fun _ => .pure _
      cases hc with
      | none => exact .pure _
      | some hc => exact hc.silent hclean.left.left.right.cons
  | ret _ _ _ h =>
      cases h with
      | none => exact .pure _
      | some h => exact .bind (h.silent hclean.cons.left) fun _ => .pure _
  | leave => exact .pure _
  | next => exact .pure _
  | call _ n _ pos _ h =>
      exact .bind (.mention scope n pos) fun _ => .bind (h.silent hclean.cons.cons.left)
        fun _ => .pure _
  | simple _ _ h => exact h.silent hclean.left

end Stmt

end SslFrontend
