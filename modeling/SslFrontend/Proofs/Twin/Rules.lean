import SslFrontend.Proofs.Along.Units
import SslFrontend.Proofs.Twin.Comparison

/-! # Rules for two runs

`C.Agree L Q p q s t` says that the production `p`, run on the left from `s`,
and `q`, run on the right from `t`, end alike: with answers that `Q` relates, or
with alike errors, at one place and with alike records.  The exception is a left
run that ends where `L` says so, or fails where failures are not compared.  There
is one rule for each way of putting productions together, and one for each
primitive.
-/

namespace SslFrontend

namespace Comparison

variable {C : Comparison} {s t s' t' s₁ t₁ : ParserState}

theorem Lost.onward (h : C.Lost s) (ho : s.Onward s') : C.Lost s' := by
  rcases h with h | ⟨hw, d, hd, he⟩ | ⟨n, hn, h⟩
  · exact .inl (h.follows ho.cursor)
  · exact .inr (.inl ⟨hw.follows ho.cursor, d, ho.problems.subset hd, he⟩)
  · exact .inr (.inr ⟨n, hn, h.extends ho.table⟩)

theorem Lost.fails (h : C.Lost s) : C.Fails s := .inr h

theorem Fails.of_gone (h : C.seam.Gone s.cursor) : C.Fails s := .inl (.of_gone h)

/-- An error that is reported where the left run fails. -/
theorem Fails.report (h : C.Fails s) {d : Diagnostic} (hd : d.isError = true) :
    C.Lost { s with problems := s.problems.push d } := by
  rcases h with h | h
  · exact .inr (.inl ⟨h, d, by simp [Queue.push], hd⟩)
  · exact h.onward ⟨.refl _, List.prefix_append _ _, .refl _⟩

/-! ## Later places -/

theorem Pair.refl (h : C.Pair s t) : C.Later s t s t :=
  ⟨h.joins, .refl h.data, .refl _, .refl _⟩

namespace Later

theorem pair (h : C.Later s t s' t') : C.Pair s' t' := ⟨h.joins, h.grown.data⟩

theorem trans (h₁ : C.Later s t s₁ t₁) (h₂ : C.Later s₁ t₁ s' t') : C.Later s t s' t' :=
  ⟨h₂.joins, h₁.grown.trans h₂.grown, h₁.left.trans h₂.left, h₁.right.trans h₂.right⟩

theorem codes (h : C.Later s t s' t') {a b : Code} (hab : C.Codes s.records t.records a b) :
    C.Codes s'.records t'.records a b :=
  h.grown.codes hab

theorem rest_le (h : C.Later s t s' t') : s'.cursor.rest.length ≤ s.cursor.rest.length := by
  have := h.left.rest_length
  have := h.left.position_le
  omega

end Later

/-- The records alone change. -/
theorem Pair.records (h : C.Pair s t) (hs : s'.cursor = s.cursor) (ht : t'.cursor = t.cursor)
    (hg : C.Grown s.records t.records s'.records t'.records) : C.Later s t s' t' :=
  ⟨by rw [hs, ht]; exact h.joins, hg, by rw [hs]; exact .refl _, by rw [ht]; exact .refl _⟩

/-- The cursors alone move. -/
theorem Pair.move (h : C.Pair s t) {c d : Cursor} (hc : s.cursor.Follows c)
    (hd : t.cursor.Follows d) (hj : C.seam.Joins c d) :
    C.Later s t { s with cursor := c } { t with cursor := d } :=
  ⟨hj, .refl h.data, hc, hd⟩

theorem Pair.skip (h : C.Pair s t) (hg : ¬C.seam.Gone s.cursor) : C.Later s t s.skip t.skip :=
  h.move s.cursor.follows_advance t.cursor.follows_advance (h.joins.advance hg)

theorem skip_less (h : s.cursor.kind ≠ .eof) :
    s.skip.cursor.rest.length < s.cursor.rest.length := by
  refine Cursor.advance_rest_length_lt ?_
  simpa [Cursor.atEnd] using h

/-- A kind that neither closes a block nor ends the input is not at the seam. -/
theorem Pair.not_gone (h : C.Pair s t) (hend : s.cursor.kind ≠ .keyword .kwEnd)
    (heof : s.cursor.kind ≠ .eof) : ¬C.seam.Gone s.cursor := by
  intro hg
  rcases h.joins.gone_kind hg with ⟨hk, -⟩ | hk
  · exact hend hk
  · exact heof hk

end Comparison

/-! ## Agreement -/

open Parse (Along after)

namespace Comparison

variable {C : Comparison} {α β γ δ : Type} {s t s' t' s₁ t₁ : ParserState}

/-- Run side by side, two productions end alike. -/
def Agree (C : Comparison) (L : α → ParserState → Prop)
    (Q : ParserState → ParserState → α → β → Prop) (p : Parse α) (q : Parse β)
    (s t : ParserState) : Prop :=
  match p s with
  | .ok a s' => L a s' ∨ ∃ b t', q t = .ok b t' ∧ C.Later s t s' t' ∧ Q s' t' a b
  | .error e s' =>
    C.Fails s' ∨ ∃ f t', q t = .error f t' ∧ C.Later s t s' t' ∧ C.seam.AlikeErrors e f

/-- From here the left run ends where it is not compared. -/
def Escapes (C : Comparison) (L : α → ParserState → Prop) (p : Parse α) (s : ParserState) :
    Prop :=
  match p s with
  | .ok a s' => L a s'
  | .error _ s' => C.Fails s'

/-- The left run never ends out of comparison. -/
def Sure (α : Type) : α → ParserState → Prop := fun _ _ => False

/-- The left run may get lost. -/
def MayLose (C : Comparison) (α : Type) : α → ParserState → Prop := fun _ s => C.Lost s

/-- Both answer with alike code. -/
def SameCode (C : Comparison) (s t : ParserState) : Code → Code → Prop :=
  C.Codes s.records t.records

variable {L : α → ParserState → Prop} {M : γ → ParserState → Prop}
  {Q : ParserState → ParserState → α → β → Prop} {P : ParserState → ParserState → γ → δ → Prop}
  {p : Parse α} {q : Parse β}

theorem Escapes.weaken {M : α → ParserState → Prop} (h : C.Escapes M p s)
    (hl : ∀ a s', M a s' → L a s') : C.Escapes L p s := by
  unfold Escapes at h ⊢
  cases hr : p s with
  | ok a s' => rw [hr] at h; exact hl a s' h
  | error e s' => rw [hr] at h; exact h

theorem Escapes.of_error {e : ParseError} (h : p s = .error e s') (hf : C.Fails s') :
    C.Escapes L p s := by
  unfold Escapes
  rw [h]
  exact hf

theorem Escapes.ite {c : Prop} [Decidable c] {p₁ p₂ : Parse α} (hp : c → C.Escapes L p₁ s)
    (hq : ¬c → C.Escapes L p₂ s) : C.Escapes L (if c then p₁ else p₂) s := by
  by_cases h : c
  · rw [if_pos h]
    exact hp h
  · rw [if_neg h]
    exact hq h

theorem Lost.escapes (h : C.Lost s) (hp : Along ParserState.Onward p) :
    C.Escapes (C.MayLose α) p s := by
  have ho := hp s
  unfold Escapes MayLose
  unfold Parse.after at ho
  cases hr : p s with
  | ok a s' =>
      rw [hr] at ho
      exact h.onward ho
  | error e s' =>
      rw [hr] at ho
      exact (h.onward ho).fails

namespace Agree

/-! ## Rules -/

theorem via {f : Parse α} {g : Parse β} (hl : C.Later s t s₁ t₁) (hp : p s = f s₁)
    (hq : q t = g t₁) (h : C.Agree L Q f g s₁ t₁) : C.Agree L Q p q s t := by
  unfold Agree at h ⊢
  rw [hp, hq]
  cases hr : f s₁ with
  | ok a s' =>
      rw [hr] at h
      refine h.imp_right ?_
      rintro ⟨b, t', hb, hlater, hQ⟩
      exact ⟨b, t', hb, hl.trans hlater, hQ⟩
  | error e s' =>
      rw [hr] at h
      refine h.imp_right ?_
      rintro ⟨e', t', hf, hlater, he⟩
      exact ⟨e', t', hf, hl.trans hlater, he⟩

theorem pure {a : α} {b : β} (h : C.Pair s t) (hQ : Q s t a b) :
    C.Agree L Q (pure a) (pure b) s t :=
  .inr ⟨b, t, rfl, h.refl, hQ⟩

theorem raise {e f : ParseError} (h : C.Pair s t) (he : C.seam.AlikeErrors e f) :
    C.Agree L Q (throw e : Parse α) (throw f : Parse β) s t :=
  .inr ⟨f, t, rfl, h.refl, he⟩

/-- The left run ends out of comparison. -/
theorem escape (h : C.Escapes L p s) : C.Agree L Q p q s t := by
  unfold Escapes at h
  unfold Agree
  cases hr : p s with
  | ok a s' =>
      rw [hr] at h
      exact .inl h
  | error e s' =>
      rw [hr] at h
      exact .inl h

theorem bind {p : Parse γ} {q : Parse δ} {k : γ → Parse α} {k' : δ → Parse β}
    (hp : C.Agree M P p q s t)
    (hk : ∀ s' t' a b, p s = .ok a s' → C.Later s t s' t' → P s' t' a b →
      C.Agree L Q (k a) (k' b) s' t')
    (hl : ∀ a s', M a s' → C.Escapes L (k a) s') :
    C.Agree L Q (p >>= k) (q >>= k') s t := by
  have hbind : ∀ {α β : Type} (p : Parse α) (k : α → Parse β) (s : ParserState),
      (p >>= k) s = EStateM.bind p k s := fun _ _ _ => rfl
  unfold Agree at hp
  cases hr : p s with
  | ok a s' =>
      rw [hr] at hp
      rcases hp with hlost | ⟨b, t', hb, hlater, hP⟩
      · have hesc := hl a s' hlost
        refine escape ?_
        unfold Escapes at hesc ⊢
        rw [hbind, EStateM.bind, hr]
        exact hesc
      · refine via hlater ?_ ?_ (hk s' t' a b hr hlater hP)
        · rw [hbind, EStateM.bind, hr]
        · rw [hbind, EStateM.bind, hb]
  | error e s' =>
      rw [hr] at hp
      unfold Agree
      rw [hbind, EStateM.bind, hr]
      refine hp.imp_right ?_
      rintro ⟨f, t', hf, hlater, he⟩
      refine ⟨f, t', ?_, hlater, he⟩
      rw [hbind, EStateM.bind, hf]

/-- Behind a production that is compared to its end. -/
theorem next {p : Parse γ} {q : Parse δ} {k : γ → Parse α} {k' : δ → Parse β}
    (hp : C.Agree (Sure γ) P p q s t)
    (hk : ∀ s' t' a b, C.Later s t s' t' → P s' t' a b → C.Agree L Q (k a) (k' b) s' t') :
    C.Agree L Q (p >>= k) (q >>= k') s t :=
  hp.bind (fun s' t' a b _ => hk s' t' a b) fun _ _ h => h.elim

/-- Behind a production in which the left run may get lost. -/
theorem onward {p : Parse γ} {q : Parse δ} {k : γ → Parse α} {k' : δ → Parse β}
    (hp : C.Agree (C.MayLose γ) P p q s t)
    (ha : ∀ a, Along ParserState.Onward (k a))
    (hk : ∀ s' t' a b, C.Later s t s' t' → P s' t' a b →
      C.Agree (C.MayLose α) Q (k a) (k' b) s' t') :
    C.Agree (C.MayLose α) Q (p >>= k) (q >>= k') s t :=
  hp.bind (fun s' t' a b _ => hk s' t' a b) fun a _ h => Lost.escapes h (ha a)

theorem weaken {M : α → ParserState → Prop} {P : ParserState → ParserState → α → β → Prop}
    (h : C.Agree M P p q s t) (hl : ∀ a s', M a s' → L a s')
    (hQ : ∀ s' t' a b, C.Later s t s' t' → P s' t' a b → Q s' t' a b) : C.Agree L Q p q s t := by
  unfold Agree at h ⊢
  cases hr : p s with
  | ok a s' =>
      rw [hr] at h
      refine h.imp (hl a s') ?_
      rintro ⟨b, t', hb, hlater, h₁⟩
      exact ⟨b, t', hb, hlater, hQ s' t' a b hlater h₁⟩
  | error e s' =>
      rw [hr] at h
      exact h

theorem sure (h : C.Agree (Sure α) Q p q s t) : C.Agree L Q p q s t :=
  h.weaken (fun _ _ h => h.elim) fun _ _ _ _ _ h => h

theorem discard {p : Parse γ} {q : Parse δ} {k : PUnit → Parse α} {k' : PUnit → Parse β}
    (h : C.Agree L Q (p >>= fun _ => k ⟨⟩) (q >>= fun _ => k' ⟨⟩) s t) :
    C.Agree L Q (discard p >>= k) (discard q >>= k') s t := by
  unfold Agree
  rw [Parse.discard_bind, Parse.discard_bind]
  exact h

theorem pureBind {a : γ} {b : δ} {k : γ → Parse α} {k' : δ → Parse β}
    (h : C.Agree L Q (k a) (k' b) s t) :
    C.Agree L Q (Pure.pure a >>= k) (Pure.pure b >>= k') s t := by
  rwa [LawfulMonad.pure_bind, LawfulMonad.pure_bind]

/-- Both runs take the same branch. -/
theorem ite {c d : Prop} [Decidable c] [Decidable d] {p₁ p₂ : Parse α} {q₁ q₂ : Parse β}
    (hcd : d ↔ c) (hp : c → C.Agree L Q p₁ q₁ s t) (hq : ¬c → C.Agree L Q p₂ q₂ s t) :
    C.Agree L Q (if c then p₁ else p₂) (if d then q₁ else q₂) s t := by
  by_cases h : c
  · rw [if_pos h, if_pos (hcd.mpr h)]
    exact hp h
  · rw [if_neg h, if_neg fun hd => h (hcd.mp hd)]
    exact hq h

/-- What follows both branches is run after either of them. -/
theorem join {c d : Prop} [Decidable c] [Decidable d] {p₁ p₂ : Parse γ} {q₁ q₂ : Parse δ}
    {k : γ → Parse α} {k' : δ → Parse β}
    (h : C.Agree L Q ((if c then p₁ else p₂) >>= k) ((if d then q₁ else q₂) >>= k') s t) :
    C.Agree L Q (if c then p₁ >>= k else p₂ >>= k) (if d then q₁ >>= k' else q₂ >>= k') s t := by
  have hsplit : ∀ {α β : Type} {c : Prop} [Decidable c] (p₁ p₂ : Parse α) (k : α → Parse β),
      (if c then p₁ >>= k else p₂ >>= k) = (if c then p₁ else p₂) >>= k := by
    intro α β c _ p₁ p₂ k
    split <;> rfl
  rwa [hsplit, hsplit]

/-- An error is handed over as a value. -/
def Outcomes (C : Comparison) (Q : ParserState → ParserState → α → β → Prop)
    (s t : ParserState) : Except ParseError α → Except ParseError β → Prop
  | .ok a, .ok b => Q s t a b
  | .error e, .error f => C.seam.AlikeErrors e f
  | _, _ => False

/-- The left run ends out of comparison, or fails where that is not compared. -/
def Strays (C : Comparison) (L : α → ParserState → Prop) :
    Except ParseError α → ParserState → Prop
  | .ok a, s => L a s
  | .error _, s => C.Fails s

theorem attempt (h : C.Agree L Q p q s t) :
    C.Agree (Strays C L) (Outcomes C Q) (Parse.attempt p) (Parse.attempt q) s t := by
  unfold Agree at h ⊢
  unfold Parse.attempt
  cases hr : p s with
  | ok a s' =>
      rw [hr] at h
      refine h.imp_right ?_
      rintro ⟨b, t', hb, hlater, hQ⟩
      exact ⟨.ok b, t', by rw [hb], hlater, hQ⟩
  | error e s' =>
      rw [hr] at h
      refine h.imp_right ?_
      rintro ⟨f, t', hf, hlater, he⟩
      exact ⟨.error f, t', by rw [hf], hlater, he⟩

/-! ## Rounds -/

/-- What a round leaves behind: `I` if another one follows, with something read,
and `Q` if it was the last. -/
def RoundPost (I : ParserState → ParserState → γ → δ → Prop)
    (Q : ParserState → ParserState → α → β → Prop) (s : ParserState) (s' t' : ParserState) :
    γ ⊕ α → δ ⊕ β → Prop
  | .inl a, .inl b => I s' t' a b ∧ s'.cursor.rest.length < s.cursor.rest.length
  | .inr a, .inr b => Q s' t' a b
  | _, _ => False

theorem rounds {round : γ → Parse (γ ⊕ α)} {round' : δ → Parse (δ ⊕ β)}
    {I : ParserState → ParserState → γ → δ → Prop} {R : γ ⊕ α → ParserState → Prop}
    (last : ∀ a s, R (.inr a) s → L a s)
    (lost : ∀ n a s, R (.inl a) s → C.Escapes L (Parse.rounds round n a) s)
    (bound bound' : Nat) {a : γ} {b : δ} (hs : s.cursor.rest.length < bound)
    (ht : t.cursor.rest.length < bound')
    (step : ∀ s' t' a b, C.Later s t s' t' → I s' t' a b →
      C.Agree R (RoundPost I Q s') (round a) (round' b) s' t')
    (h : C.Pair s t) (hI : I s t a b) :
    C.Agree L Q (Parse.rounds round bound a) (Parse.rounds round' bound' b) s t := by
  induction bound generalizing bound' s t a b with
  | zero => exact absurd hs (Nat.not_lt_zero _)
  | succ bound ih =>
      cases bound' with
      | zero => exact absurd ht (Nat.not_lt_zero _)
      | succ bound' =>
          refine bind (step s t a b h.refl hI) (fun s' t' r r' _ hlater hpost => ?_) fun r s' hr => ?_
          · cases r with
            | inr last => cases r' with
              | inr last' => exact pure hlater.pair hpost
              | inl next' => exact hpost.elim
            | inl next => cases r' with
              | inr last' => exact hpost.elim
              | inl next' =>
                  have hlength := h.joins.rest_length
                  have hlength' := hlater.joins.rest_length
                  have hless := hpost.2
                  refine ih bound' (by omega) (by omega) ?_ hlater.pair hpost.1
                  exact fun s₁ t₁ a b h₁ => step s₁ t₁ a b (hlater.trans h₁)
          · cases r with
            | inr a => exact last a s' hr
            | inl a => exact lost bound a s' hr

theorem repeatRounds {round : γ → Parse (γ ⊕ α)} {round' : δ → Parse (δ ⊕ β)}
    {I : ParserState → ParserState → γ → δ → Prop} (R : γ ⊕ α → ParserState → Prop)
    (last : ∀ a s, R (.inr a) s → L a s)
    (lost : ∀ n a s, R (.inl a) s → C.Escapes L (Parse.rounds round n a) s) {a : γ} {b : δ}
    (step : ∀ s' t' a b, C.Later s t s' t' → I s' t' a b →
      C.Agree R (RoundPost I Q s') (round a) (round' b) s' t')
    (h : C.Pair s t) (hI : I s t a b) :
    C.Agree L Q (Parse.repeatRounds round a) (Parse.repeatRounds round' b) s t :=
  rounds last lost _ _ (Nat.lt_succ_self _) (Nat.lt_succ_self _) step h hI

/-- Rounds that are compared to their end. -/
theorem repeatSure {round : γ → Parse (γ ⊕ α)} {round' : δ → Parse (δ ⊕ β)}
    {I : ParserState → ParserState → γ → δ → Prop} {a : γ} {b : δ}
    (step : ∀ s' t' a b, C.Later s t s' t' → I s' t' a b →
      C.Agree (Sure _) (RoundPost I Q s') (round a) (round' b) s' t')
    (h : C.Pair s t) (hI : I s t a b) :
    C.Agree L Q (Parse.repeatRounds round a) (Parse.repeatRounds round' b) s t :=
  repeatRounds (Sure _) (fun _ _ h => h.elim) (fun _ _ _ h => h.elim) step h hI

/-- Rounds in which the left run may get lost. -/
theorem repeatOnward {round : γ → Parse (γ ⊕ α)} {round' : δ → Parse (δ ⊕ β)}
    {I : ParserState → ParserState → γ → δ → Prop} {a : γ} {b : δ}
    (ha : ∀ a, Along ParserState.Onward (round a))
    (step : ∀ s' t' a b, C.Later s t s' t' → I s' t' a b →
      C.Agree (C.MayLose _) (RoundPost I Q s') (round a) (round' b) s' t')
    (h : C.Pair s t) (hI : I s t a b) :
    C.Agree (C.MayLose α) Q (Parse.repeatRounds round a) (Parse.repeatRounds round' b) s t :=
  repeatRounds (C.MayLose _) (fun _ _ => id)
    (fun n a _ hlost => Lost.escapes hlost (Along.rounds (ParserState.Onward.inside none) ha n a))
    step h hI

/-! ## Primitives -/

theorem cursor {k : Cursor → Parse α} {k' : Cursor → Parse β}
    (h : C.Agree L Q (k s.cursor) (k' t.cursor) s t) :
    C.Agree L Q (Parse.cursor >>= k) (Parse.cursor >>= k') s t := h

theorem kind {k : TokenKind → Parse α} {k' : TokenKind → Parse β}
    (h : C.Agree L Q (k s.cursor.kind) (k' t.cursor.kind) s t) :
    C.Agree L Q (Parse.kind >>= k) (Parse.kind >>= k') s t := h

theorem pos {k : Position → Parse α} {k' : Position → Parse β}
    (h : C.Agree L Q (k s.cursor.pos) (k' t.cursor.pos) s t) :
    C.Agree L Q (Parse.pos >>= k) (Parse.pos >>= k') s t := h

/-- Both see the current token, or neither does. -/
theorem checkAt {kind : TokenKind} {k : Bool → Parse α} {k' : Bool → Parse β}
    (hpair : C.Pair s t) (hc : t.cursor.check kind = s.cursor.check kind)
    (h : C.Agree L Q (k (s.cursor.check kind)) (k' (s.cursor.check kind)) s t) :
    C.Agree L Q (Parse.check kind >>= k) (Parse.check kind >>= k') s t := by
  refine via (f := k (s.cursor.check kind)) (g := k' (s.cursor.check kind)) hpair.refl rfl ?_ h
  rw [← hc]
  rfl

theorem check {kind : TokenKind} {k : Bool → Parse α} {k' : Bool → Parse β}
    (hk : kind.isSteady = true) (hpair : C.Pair s t)
    (h : C.Agree L Q (k (s.cursor.check kind)) (k' (s.cursor.check kind)) s t) :
    C.Agree L Q (Parse.check kind >>= k) (Parse.check kind >>= k') s t :=
  checkAt hpair (hpair.joins.check_steady hk) h

theorem advance {k : Token → Parse α} {k' : Token → Parse β} (h : C.Pair s t)
    (hg : ¬C.seam.Gone s.cursor)
    (hk : C.Later s t s.skip t.skip →
      C.Agree L Q (k s.cursor.current) (k' (C.seam.spell s.cursor.current)) s.skip t.skip) :
    C.Agree L Q (Parse.advance >>= k) (Parse.advance >>= k') s t := by
  refine via (h.skip hg) Parse.advance_bind ?_ (hk (h.skip hg))
  rw [Parse.advance_bind, h.joins.current hg]

/-- The current token is read by both, or by neither. -/
theorem eatAt {kind : TokenKind} {k : Bool → Parse α} {k' : Bool → Parse β} (h : C.Pair s t)
    (hc : t.cursor.check kind = s.cursor.check kind)
    (hg : s.cursor.check kind = true → ¬C.seam.Gone s.cursor)
    (yes : s.cursor.check kind = true → C.Later s t s.skip t.skip →
      C.Agree L Q (k true) (k' true) s.skip t.skip)
    (no : s.cursor.check kind = false → C.Agree L Q (k false) (k' false) s t) :
    C.Agree L Q (Parse.eat kind >>= k) (Parse.eat kind >>= k') s t := by
  have heat : ∀ {α : Type} (k : Bool → Parse α) (s : ParserState),
      (Parse.eat kind >>= k) s =
        if s.cursor.check kind = true then k true s.skip else k false s := by
    intro α k s
    show EStateM.bind (Parse.eat kind) k s = _
    rw [EStateM.bind, Parse.eat_eq]
    by_cases hc : s.cursor.check kind = true
    · rw [if_pos hc, if_pos hc]
    · rw [if_neg hc, if_neg hc]
  cases hcheck : s.cursor.check kind with
  | true =>
      have hlater := h.skip (hg hcheck)
      refine via hlater ?_ ?_ (yes hcheck hlater)
      · rw [heat, if_pos hcheck]
      · rw [heat, if_pos (hc.trans hcheck)]
  | false =>
      refine via h.refl ?_ ?_ (no hcheck)
      · rw [heat, if_neg (by simp [hcheck])]
      · rw [heat, if_neg (by simp [hc, hcheck])]

theorem eat {kind : TokenKind} {k : Bool → Parse α} {k' : Bool → Parse β} (h : C.Pair s t)
    (hk : kind.isSteady = true)
    (yes : s.cursor.check kind = true → C.Later s t s.skip t.skip →
      C.Agree L Q (k true) (k' true) s.skip t.skip)
    (no : s.cursor.check kind = false → C.Agree L Q (k false) (k' false) s t) :
    C.Agree L Q (Parse.eat kind >>= k) (Parse.eat kind >>= k') s t := by
  refine eatAt h (h.joins.check_steady hk) (fun hc hg => ?_) yes no
  rw [(h.joins.check_gone hg hk).1] at hc
  cases hc

end Agree

end Comparison

end SslFrontend
