import Mathlib.Data.List.Forall2
import SslFrontend.Code.Fold

/-! # Constants side by side

Code that is alike, with values that no operation tells apart, has constant
values that are alike, or none.
-/

namespace SslFrontend

namespace Fold

variable {V : Value → Value → Prop}

/-- Values that no operation tells apart. -/
structure Blind (V : Value → Value → Prop) : Prop where
  unary : ∀ {v w} kind, V v w → unary kind w = unary kind v
  binary : ∀ {v w x y} kind, V v w → V x y → binary kind w y = binary kind v x
  int : ∀ n, V (.int n) (.int n)
  float : ∀ x, V (.float x) (.float x)

namespace Blind

/-- What an operation makes is a number. -/
theorem unary_self (h : Blind V) (kind : NodeKind) (v : Value) :
    ∀ w ∈ Fold.unary kind v, V w w := by
  intro w hw
  unfold Fold.unary at hw
  split at hw <;> cases hw
  · exact h.int _
  · exact h.float _
  · exact h.int _
  · exact h.int _

theorem binary_self (h : Blind V) (kind : NodeKind) (v x : Value) :
    ∀ w ∈ Fold.binary kind v x, V w w := by
  intro w hw
  unfold Fold.binary at hw
  split at hw
  · obtain ⟨n, -, rfl⟩ := Option.map_eq_some_iff.mp hw
    exact h.int n
  · obtain ⟨y, -, rfl⟩ := Option.map_eq_some_iff.mp hw
    exact h.float y
  · obtain ⟨y, -, rfl⟩ := Option.map_eq_some_iff.mp hw
    exact h.float y
  · obtain ⟨y, -, rfl⟩ := Option.map_eq_some_iff.mp hw
    exact h.float y
  · cases hw

/-- One and the same step on stacks of values that are alike. -/
theorem step (h : Blind V) {a b : Node} {stack stack' : List Value} (hkind : b.kind = a.kind)
    (hvalue : a.kind = .int ∨ a.kind = .float ∨ a.kind = .string → V a.value b.value)
    (hs : List.Forall₂ V stack stack') :
    Option.Rel (List.Forall₂ V) (Fold.step a stack) (Fold.step b stack') := by
  obtain ⟨kind, value, pos⟩ := a
  obtain ⟨kind', value', pos'⟩ := b
  dsimp only at hkind hvalue
  subst hkind
  have hpush : V value value' →
      Option.Rel (List.Forall₂ V) (some (value :: stack)) (some (value' :: stack')) :=
    fun hvalue => .some (.cons hvalue hs)
  have hmade : ∀ {o : Option Value} {rest rest' : List Value}, (∀ v ∈ o, V v v) →
      List.Forall₂ V rest rest' →
      Option.Rel (List.Forall₂ V) (o.map (· :: rest)) (o.map (· :: rest')) := by
    intro o rest rest' ho hrest
    cases o with
    | none => exact .none
    | some v => exact .some (.cons (ho v rfl) hrest)
  cases kind' with
  | int => exact hpush (hvalue (.inl rfl))
  | float => exact hpush (hvalue (.inr (.inl rfl)))
  | string => exact hpush (hvalue (.inr (.inr rfl)))
  | neg | not | bwNot =>
      cases hs with
      | nil => exact .none
      | cons hx hrest =>
          simp only [Fold.step, h.unary _ hx]
          exact hmade (h.unary_self _ _) hrest
  | add | sub | mul | div | mod | bwAnd | bwOr | bwXor =>
      cases hs with
      | nil => exact .none
      | cons hy hrest =>
          cases hrest with
          | nil => exact .none
          | cons hx hrest =>
              simp only [Fold.step, h.binary _ hx hy]
              exact hmade (h.binary_self _ _ _) hrest
  | _ => exact .none

end Blind

end Fold

/-- Code whose nodes do the same on a stack has one and the same constant. -/
theorem Code.constant?_rel {V : Value → Value → Prop} {N : Node → Node → Prop}
    (hstep : ∀ {x y stack stack'}, N x y → List.Forall₂ V stack stack' →
      Option.Rel (List.Forall₂ V) (Fold.step x stack) (Fold.step y stack'))
    {a b : Code} (h : List.Forall₂ N a b) : Option.Rel V a.constant? b.constant? := by
  have hrun : ∀ {stack stack' : List Value}, List.Forall₂ V stack stack' →
      Option.Rel (List.Forall₂ V) (Fold.run a stack) (Fold.run b stack') := by
    induction h with
    | nil => exact fun hs => .some hs
    | @cons x y _ _ hxy _ ih =>
        intro stack stack' hs
        have hafter := hstep hxy hs
        unfold Fold.run
        generalize Fold.step x stack = left, Fold.step y stack' = right at hafter
        cases hafter with
        | none => exact .none
        | some hafter => exact ih hafter
  have hwhole := hrun .nil
  unfold Code.constant?
  generalize Fold.run a [] = left at hwhole ⊢
  generalize Fold.run b [] = right at hwhole ⊢
  cases hwhole with
  | none => exact .none
  | some hs =>
      cases hs with
      | nil => exact .none
      | cons hv hrest =>
          cases hrest with
          | nil => exact .some hv
          | cons _ _ => exact .none

end SslFrontend
