import SslFrontend.Parser.Module
import SslFrontend.Proofs.Token.Clean

/-! # Reading forward

A production only ever moves the cursor forward.  `Cursor.Follows` says that one
cursor stands behind another with some tokens between them, and
`TokenStream.Tracks` that a cursor stands somewhere in a stream.  From such a
cursor every position that a production can take is one of the stream.
-/

namespace SslFrontend

namespace Cursor

/-- Reading some tokens leads from one cursor to the other. -/
def Follows (c c' : Cursor) : Prop :=
  ∃ taken, c.rest = taken ++ c'.rest ∧ c'.eof = c.eof ∧
    c'.position = c.position + taken.length ∧
    c'.last? = (taken.getLast?.map Token.pos).or c.last?

namespace Follows

variable {a b c : Cursor}

theorem refl (c : Cursor) : c.Follows c := ⟨[], rfl, rfl, rfl, rfl⟩

theorem trans (h₁ : a.Follows b) (h₂ : b.Follows c) : a.Follows c := by
  obtain ⟨first, hrest, heof, hposition, hlast⟩ := h₁
  obtain ⟨second, hrest', heof', hposition', hlast'⟩ := h₂
  refine ⟨first ++ second, ?_, heof'.trans heof, ?_, ?_⟩
  · rw [hrest, hrest', List.append_assoc]
  · rw [hposition', hposition, List.length_append, Nat.add_assoc]
  · rw [hlast', hlast, List.getLast?_append]
    cases second.getLast? <;> rfl

theorem position_le (h : a.Follows b) : a.position ≤ b.position := by
  obtain ⟨taken, _, _, hposition, _⟩ := h
  omega

theorem rest_length (h : a.Follows b) :
    b.position + b.rest.length = a.position + a.rest.length := by
  obtain ⟨taken, hrest, _, hposition, _⟩ := h
  rw [hrest, List.length_append, hposition]
  omega

theorem eq_of_position_eq (h : a.Follows b) (hp : b.position = a.position) : b = a := by
  obtain ⟨taken, hrest, heof, hposition, hlast⟩ := h
  have hnone : taken = [] := List.eq_nil_of_length_eq_zero (by omega)
  subst hnone
  obtain ⟨rest, eof, position, last⟩ := b
  simp only [List.nil_append, List.getLast?_nil, Option.map_none, Option.none_or] at hrest hlast
  obtain ⟨rest', eof', position', last'⟩ := a
  simp_all

end Follows

variable (c : Cursor)

theorem follows_of_split {c : Cursor} {taken more : List Token} (h : c.rest = taken ++ more) :
    c.Follows ⟨more, c.eof, c.position + taken.length,
      (taken.getLast?.map Token.pos).or c.last?⟩ :=
  ⟨taken, h, rfl, rfl, rfl⟩

theorem follows_advance : c.Follows c.advance := by
  unfold advance
  split
  · exact .refl c
  · rename_i token rest hrest
    split
    · exact .refl c
    · exact ⟨[token], hrest, rfl, rfl, rfl⟩

theorem follows_skipWhile (p : Token → Bool) : c.Follows (c.skipWhile p) := by
  refine follows_of_split ?_
  rw [drop_takeWhile, List.takeWhile_append_dropWhile]

theorem follows_synchronize (set : KindSet) : c.Follows (c.synchronize set) :=
  c.follows_skipWhile _

theorem follows_skipBlock : c.Follows c.skipBlock := by
  refine follows_of_split ?_
  rw [List.length_take]
  rcases Nat.le_total (blockLength 0 c.rest) c.rest.length with h | h
  · rw [Nat.min_eq_left h, List.take_append_drop]
  · rw [Nat.min_eq_right h, List.take_of_length_le h, List.drop_length, List.append_nil]

variable {c}

theorem advance_position (h : c.kind ≠ .eof) : c.advance.position = c.position + 1 := by
  obtain ⟨rest, eof, position, last⟩ := c
  cases rest with
  | nil => exact absurd rfl h
  | cons token more =>
      have hkind : token.kind ≠ .eof := h
      simp [advance, hkind]

theorem check_eq_true {kind : TokenKind} (h : c.check kind = true) :
    c.kind.index = kind.index := by
  simpa [check] using h

theorem kind_of_check_mark {sign : Mark} (h : c.check (.mark sign) = true) :
    c.kind = .mark sign := by
  have hbare := (TokenKind.index_eq_iff _ _).mp (check_eq_true h)
  revert hbare
  cases c.kind <;> simp [TokenKind.bare]

end Cursor

namespace TokenStream

/-- Where a cursor in the stream can be. -/
def Tracks (stream : TokenStream) (c : Cursor) : Prop :=
  (Cursor.start stream.tokens stream.eof).Follows c

/-- The positions of a stream. -/
def Has (stream : TokenStream) (pos : Position) : Prop :=
  pos = stream.eof ∨ ∃ token ∈ stream.tokens, token.pos = pos

/-- Nodes carry whole numbers of 32 bits, and indices and numbers of arguments
never get near the greatest one: there are no more of them than tokens. -/
def Fits (stream : TokenStream) : Prop := stream.tokens.length ≤ Value.maxIndex

instance (stream : TokenStream) : Decidable stream.Fits :=
  inferInstanceAs (Decidable (_ ≤ _))

theorem fits_ofText_none (options : IncludeOptions) {text : String} (shown key : Path)
    (h : text.length ≤ Value.maxIndex) : (ofText .none options text shown key).Fits :=
  Nat.le_trans (length_ofText_none options text shown key) h

namespace Tracks

variable {stream : TokenStream} {c c' : Cursor}

theorem start (stream : TokenStream) : stream.Tracks (.start stream.tokens stream.eof) :=
  .refl _

theorem follows (h : stream.Tracks c) (h' : c.Follows c') : stream.Tracks c' :=
  Cursor.Follows.trans h h'

theorem position_le (h : stream.Tracks c) : c.position ≤ stream.tokens.length := by
  have hlength := Cursor.Follows.rest_length h
  simp only [Cursor.start] at hlength
  omega

theorem mem_of_mem_rest (h : stream.Tracks c) {token : Token} (ht : token ∈ c.rest) :
    token ∈ stream.tokens := by
  obtain ⟨taken, hrest, _⟩ := h
  have hall : stream.tokens = taken ++ c.rest := hrest
  rw [hall]
  exact List.mem_append_right _ ht

theorem current_mem (h : stream.Tracks c) (hk : c.kind ≠ .eof) :
    c.current ∈ stream.tokens := by
  apply h.mem_of_mem_rest
  unfold Cursor.current
  unfold Cursor.kind Cursor.current at hk
  cases hrest : c.rest with
  | nil => exact absurd (by rw [hrest]; rfl) hk
  | cons token more => exact List.mem_cons_self

/-- The token at the cursor has the place in the stream that the cursor has. -/
theorem current_at (h : stream.Tracks c) (hk : c.kind ≠ .eof) :
    stream.tokens[c.position]? = some c.current := by
  obtain ⟨taken, hrest, _, hposition, _⟩ := h
  have hall : stream.tokens = taken ++ c.rest := hrest
  have hplace : c.position = taken.length := by simpa [Cursor.start] using hposition
  unfold Cursor.kind Cursor.current at hk
  unfold Cursor.current
  rw [hall, hplace, List.getElem?_append_right (Nat.le_refl _), Nat.sub_self]
  cases hmore : c.rest with
  | nil => exact absurd (by rw [hmore]; rfl) hk
  | cons token more => rfl

theorem has_pos (h : stream.Tracks c) : stream.Has c.pos := by
  cases hrest : c.rest with
  | nil =>
      obtain ⟨_, _, heof, _⟩ := h
      have hend : c.eof = stream.eof := heof
      left
      simp [Cursor.pos, Cursor.current, hrest, hend]
  | cons token more =>
      right
      refine ⟨token, h.mem_of_mem_rest (hrest ▸ List.mem_cons_self), ?_⟩
      simp [Cursor.pos, Cursor.current, hrest]

theorem has_previousPos (h : stream.Tracks c) : stream.Has c.previousPos := by
  unfold Cursor.previousPos
  cases hlast : c.last? with
  | none => exact h.has_pos
  | some pos =>
      obtain ⟨taken, hrest, _, _, htaken⟩ := h
      rw [hlast] at htaken
      cases hread : taken.getLast? with
      | none => simp [hread, Cursor.start] at htaken
      | some token =>
          have hpos : pos = token.pos := by simpa [hread] using htaken
          have hall : stream.tokens = taken ++ c.rest := hrest
          right
          refine ⟨token, ?_, hpos.symm⟩
          rw [hall]
          exact List.mem_append_left _ (List.mem_of_getLast? hread)

end Tracks

end TokenStream

end SslFrontend
