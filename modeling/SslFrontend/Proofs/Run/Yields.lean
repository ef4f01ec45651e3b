import SslFrontend.Proofs.Run.Growth

/-! # What productions yield

`Yields R p x Q E` says that the production `p`, run from the configuration `x`,
takes steps of `R` to a configuration in which `Q` holds of its answer, or fails
in one in which `E` holds.  There is one rule for each way of putting
productions together, and one for each primitive.  A configuration is anything
that has a state of the parser: what else is in it, the steps account for.
-/

namespace SslFrontend

/-- Configurations, of which each has a state of the parser. -/
class HasState (W : Type) where
  state : W → ParserState

instance {stream : TokenStream} : HasState (Config stream) := ⟨Config.state⟩

variable {stream : TokenStream} {W α β : Type} [HasState W]

def Yields (R : W → W → Prop) (p : Parse α) (x : W) (Q : α → W → Prop) (E : W → Prop) : Prop :=
  match p (HasState.state x) with
  | .ok a s => ∃ y, HasState.state y = s ∧ Relation.ReflTransGen R x y ∧ Q a y
  | .error _ s => ∃ y, HasState.state y = s ∧ Relation.ReflTransGen R x y ∧ E y

/-- A production that takes steps inside, and may fail anywhere. -/
abbrev Inner (p : Parse α) (x : Config stream) (Q : α → Config stream → Prop) : Prop :=
  Yields InnerStep p x Q fun _ => True

/-- What a round leaves behind: `I` if another one follows, `Q` if it was the
last. -/
def roundPost (I : α → W → Prop) (Q : β → W → Prop) : α ⊕ β → W → Prop
  | .inl next => I next
  | .inr last => Q last

namespace Yields

variable {R : W → W → Prop} {x y : W} {Q : α → W → Prop} {E : W → Prop}

/-! ## Rules for all steps -/

theorem pure {a : α} (h : Q a x) : Yields R (pure a) x Q E := ⟨x, rfl, .refl, h⟩

theorem throw {e : ParseError} (h : E x) : Yields R (throw e : Parse α) x Q E := ⟨x, rfl, .refl, h⟩

theorem via {p q : Parse α} (hs : Relation.ReflTransGen R x y)
    (heq : p (HasState.state x) = q (HasState.state y)) (h : Yields R q y Q E) :
    Yields R p x Q E := by
  unfold Yields at h ⊢
  rw [heq]
  cases hq : q (HasState.state y) with
  | ok a s =>
      rw [hq] at h
      obtain ⟨z, hz, hyz, hQ⟩ := h
      exact ⟨z, hz, hs.trans hyz, hQ⟩
  | error e s =>
      rw [hq] at h
      obtain ⟨z, hz, hyz, hE⟩ := h
      exact ⟨z, hz, hs.trans hyz, hE⟩

theorem bind {p : Parse β} {k : β → Parse α} {P : β → W → Prop}
    (hp : Yields R p x P E)
    (hk : ∀ b y, Relation.ReflTransGen R x y → P b y → Yields R (k b) y Q E) :
    Yields R (p >>= k) x Q E := by
  unfold Yields at hp
  cases hr : p (HasState.state x) with
  | ok b s =>
      rw [hr] at hp
      obtain ⟨y, rfl, hxy, hP⟩ := hp
      refine via hxy ?_ (hk b y hxy hP)
      show EStateM.bind p k (HasState.state x) = _
      simp [EStateM.bind, hr]
  | error e s =>
      rw [hr] at hp
      have hbind : (p >>= k) (HasState.state x) = .error e s := by
        show EStateM.bind p k (HasState.state x) = _
        simp [EStateM.bind, hr]
      unfold Yields
      rw [hbind]
      exact hp

theorem weaken {P : α → W → Prop} {E' : W → Prop} {p : Parse α}
    (h : Yields R p x P E')
    (hQ : ∀ a y, Relation.ReflTransGen R x y → P a y → Q a y)
    (hE : ∀ y, Relation.ReflTransGen R x y → E' y → E y) : Yields R p x Q E := by
  unfold Yields at h ⊢
  cases hr : p (HasState.state x) with
  | ok a s =>
      rw [hr] at h
      obtain ⟨y, hy, hxy, hP⟩ := h
      exact ⟨y, hy, hxy, hQ a y hxy hP⟩
  | error e s =>
      rw [hr] at h
      obtain ⟨y, hy, hxy, hE'⟩ := h
      exact ⟨y, hy, hxy, hE y hxy hE'⟩

theorem imp {P : α → W → Prop} {p : Parse α} (h : Yields R p x P E)
    (hQ : ∀ a y, Relation.ReflTransGen R x y → P a y → Q a y) : Yields R p x Q E :=
  h.weaken hQ fun _ _ => id

/-- Steps of one kind are steps of another. -/
theorem embed {S : W → W → Prop} {p : Parse α} (hS : ∀ {x y}, R x y → S x y)
    (h : Yields R p x Q E) :
    Yields S p x (fun a y => Relation.ReflTransGen R x y ∧ Q a y)
      fun y => Relation.ReflTransGen R x y ∧ E y := by
  unfold Yields at h ⊢
  cases hr : p (HasState.state x) with
  | ok a s =>
      rw [hr] at h
      obtain ⟨y, hy, hxy, hQ⟩ := h
      exact ⟨y, hy, Relation.ReflTransGen.mono (fun _ _ => hS) x y hxy, hxy, hQ⟩
  | error e s =>
      rw [hr] at h
      obtain ⟨y, hy, hxy, hE⟩ := h
      exact ⟨y, hy, Relation.ReflTransGen.mono (fun _ _ => hS) x y hxy, hxy, hE⟩

/-- A production that cannot fail answers. -/
theorem answers {p : Parse α} (h : Yields R p x Q fun _ => False) :
    ∃ a s, p (HasState.state x) = .ok a s := by
  unfold Yields at h
  cases hr : p (HasState.state x) with
  | ok a s => exact ⟨a, s, rfl⟩
  | error e s =>
      rw [hr] at h
      obtain ⟨_, _, _, hfalse⟩ := h
      exact hfalse.elim

theorem attempt {p : Parse α} {E' : W → Prop} (h : Yields R p x Q E) :
    Yields R (Parse.attempt p) x
      (fun r y => match r with
        | .ok a => Q a y
        | .error _ => E y) E' := by
  unfold Yields at h ⊢
  unfold Parse.attempt
  cases hr : p (HasState.state x) with
  | ok a s =>
      rw [hr] at h
      exact h
  | error e s =>
      rw [hr] at h
      exact h

theorem ite {c : Prop} [Decidable c] {p q : Parse α} (ht : c → Yields R p x Q E)
    (hf : ¬c → Yields R q x Q E) : Yields R (if c then p else q) x Q E := by
  split
  · exact ht ‹c›
  · exact hf ‹¬c›

/-- What follows both branches is run after either of them. -/
theorem join {c : Prop} [Decidable c] {p q : Parse β} {k : β → Parse α}
    (h : Yields R ((if c then p else q) >>= k) x Q E) :
    Yields R (if c then p >>= k else q >>= k) x Q E := by
  split
  · rwa [if_pos ‹c›] at h
  · rwa [if_neg ‹¬c›] at h

theorem pureBind {a : β} {k : β → Parse α} (h : Yields R (k a) x Q E) :
    Yields R (Pure.pure a >>= k) x Q E := by
  rwa [pure_bind]

theorem last {p : Parse α} (h : Yields R (p >>= Pure.pure) x Q E) : Yields R p x Q E := by
  rwa [bind_pure] at h

theorem discard {p : Parse β} {k : PUnit → Parse α}
    (h : Yields R (p >>= fun _ => k ⟨⟩) x Q E) : Yields R (discard p >>= k) x Q E := by
  refine via (y := x) .refl ?_ h
  show EStateM.bind (EStateM.map _ p) k (HasState.state x) = EStateM.bind p _ (HasState.state x)
  unfold EStateM.bind EStateM.map
  cases p (HasState.state x) <;> rfl

/-- Rounds keep an invariant until the last one. -/
theorem rounds {round : α → Parse (α ⊕ β)} {I : α → W → Prop} {Q : β → W → Prop}
    (hE : ∀ a z, Relation.ReflTransGen R x z → I a z → E z)
    (hround : ∀ a z, Relation.ReflTransGen R x z → I a z →
      Yields R (round a) z
        (roundPost I Q) E)
    (bound : Nat) {a : α} (hxy : Relation.ReflTransGen R x y) (h : I a y) :
    Yields R (Parse.rounds round bound a) y Q E := by
  induction bound generalizing a y with
  -- Rounds that stall fail, where the invariant holds.
  | zero =>
      have hfail := throw (R := R) (Q := Q) (e := .stalled (HasState.state y).cursor) (hE a y hxy h)
      exact via .refl rfl hfail
  | succ bound ih =>
      refine bind (hround a y hxy h) fun r w hyw hr => ?_
      cases r with
      | inl next => exact ih (hxy.trans hyw) hr
      | inr last => exact pure hr

theorem repeatRounds {round : α → Parse (α ⊕ β)} {I : α → W → Prop} {a : α}
    {Q : β → W → Prop} (hE : ∀ a z, Relation.ReflTransGen R x z → I a z → E z)
    (h : I a x)
    (hround : ∀ a z, Relation.ReflTransGen R x z → I a z →
      Yields R (round a) z
        (roundPost I Q) E) :
    Yields R (Parse.repeatRounds round a) x Q E :=
  rounds hE hround _ .refl h

/-- Rounds that read as long as they go on come to an end. -/
theorem rounds_progress {R : Config stream → Config stream → Prop} {x y : Config stream}
    {E : Config stream → Prop} {round : α → Parse (α ⊕ β)} {I : α → Config stream → Prop}
    {Q : β → Config stream → Prop}
    (hround : ∀ a z, Relation.ReflTransGen R x z → I a z →
      Yields R (round a) z
        (roundPost (fun next w => I next w ∧ w.cursor.rest.length < z.cursor.rest.length) Q) E)
    (bound : Nat) {a : α} (hxy : Relation.ReflTransGen R x y) (h : I a y)
    (hb : y.cursor.rest.length < bound) :
    Yields R (Parse.rounds round bound a) y Q E := by
  induction bound generalizing a y with
  | zero => exact absurd hb (Nat.not_lt_zero _)
  | succ bound ih =>
      refine bind (hround a y hxy h) fun r w hyw hr => ?_
      cases r with
      | inl next =>
          obtain ⟨hI, hless⟩ := hr
          exact ih (hxy.trans hyw) hI (by omega)
      | inr last => exact pure hr

end Yields

/-! ## Rules for steps inside -/

namespace Inner

variable {x : Config stream} {Q : α → Config stream → Prop}

theorem bind {p : Parse β} {k : β → Parse α} {P : β → Config stream → Prop} (hp : Inner p x P)
    (hk : ∀ b y, InnerSteps x y → P b y → Inner (k b) y Q) : Inner (p >>= k) x Q :=
  Yields.bind hp hk

theorem rounds {round : α → Parse (α ⊕ β)} {I : α → Config stream → Prop} {a : α}
    {Q : β → Config stream → Prop} (h : I a x)
    (hround : ∀ a z, InnerSteps x z → I a z →
      Inner (round a) z (roundPost I Q)) :
    Inner (Parse.repeatRounds round a) x Q :=
  Yields.repeatRounds (fun _ _ _ _ => trivial) h hround

end Inner

end SslFrontend
