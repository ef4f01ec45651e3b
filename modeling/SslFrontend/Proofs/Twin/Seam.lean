import SslFrontend.Parser.Statement
import SslFrontend.Proofs.Run.Reading

/-! # Seams

Two streams of tokens that have a stretch in common, with other tokens behind
it, or with its block delimiters in the other spelling, are read side by side.
`Seam` says where the streams part and `Seam.Joins` that two cursors stand at
one and the same place of the common stretch.  Cursors that do see the same kind
of token, and do so again when both read it.
-/

namespace SslFrontend

namespace TokenKind

/-- The kind with a block delimiter in its other spelling. -/
def braced : TokenKind → TokenKind
  | .keyword .kwBegin => .mark .lbrace
  | .keyword .kwEnd => .mark .rbrace
  | kind => kind

/-- Whether a block opens or closes here, in any spelling. -/
def isDelimiter : TokenKind → Bool
  | .keyword .kwBegin | .keyword .kwEnd | .mark .lbrace | .mark .rbrace => true
  | _ => false

/-- Whether an item that is no statement can start here. -/
def startsItem : TokenKind → Bool
  | .keyword .kwVariable | .keyword .kwProcedure | .keyword .kwImport | .keyword .kwExport
  | .keyword .kwCritical | .keyword .kwPure | .keyword .kwInline => true
  | _ => false

/-- Whether a kind comes neither in two spellings nor in front of an item. -/
def isSteady (kind : TokenKind) : Bool :=
  !kind.isDelimiter && !kind.startsItem && kind != .eof

variable {j k : TokenKind}

theorem braced_of_not_delimiter (h : k.isDelimiter = false) : k.braced = k := by
  cases k with
  | keyword word => cases word <;> first | rfl | cases h
  | _ => rfl

theorem eq_of_braced (h : j.braced = k) (hk : k.isDelimiter = false) : j = k := by
  cases j with
  | keyword word => cases word <;> first | exact h | (subst h; cases hk)
  | _ => exact h

/-- A function of kinds that tells no delimiter from another one is blind to
the spelling. -/
theorem blind {α : Type} (f : TokenKind → α) (hb : f (.mark .lbrace) = f (.keyword .kwBegin))
    (he : f (.mark .rbrace) = f (.keyword .kwEnd)) (kind : TokenKind) :
    f kind.braced = f kind := by
  cases kind with
  | keyword word => cases word <;> first | rfl | exact hb | exact he
  | _ => rfl

/-- Kinds that a test tells apart whatever their payload have different
numbers. -/
theorem index_ne {f : TokenKind → Bool} (hf : ∀ kind : TokenKind, f kind.bare = f kind)
    (h : f j ≠ f k) : j.index ≠ k.index := by
  intro hindex
  have hbare := (index_eq_iff j k).mp hindex
  exact h ((hf j).symm.trans ((congrArg f hbare).trans (hf k)))

end TokenKind

namespace Token

/-- A token with a block delimiter in its other spelling. -/
def braced (token : Token) : Token := ⟨token.kind.braced, token.pos⟩

end Token

/-- Blocks open with `begin` and close with `end`, and none of variables. -/
structure Wordy (tokens : List Token) : Prop where
  noBrace : ∀ token ∈ tokens, token.kind ≠ .mark .lbrace ∧ token.kind ≠ .mark .rbrace
  noVariables : ∀ first second, [first, second] <:+: tokens →
    first.kind = .keyword .kwVariable → second.kind ≠ .keyword .kwBegin

theorem Wordy.suffix {tokens rest : List Token} (h : Wordy tokens) (hs : rest <:+ tokens) :
    Wordy rest where
  noBrace token ht := h.noBrace token (hs.subset ht)
  noVariables first second hwithin :=
    h.noVariables first second (hwithin.trans hs.isInfix)

/-- Where two streams part. -/
structure Seam where
  /-- What they have in common. -/
  shared : List Token
  /-- What one has behind it. -/
  left : List Token
  /-- What the other has behind it. -/
  right : List Token
  /-- Whether the other one has braces where this one has words. -/
  braces : Bool
  /-- Whether they part at all. -/
  gap : Bool
  /-- Whether only what succeeds is compared. -/
  tolerant : Bool
  wordy : braces = true → gap = false ∧ Wordy shared
  joined : gap = false → left = [] ∧ right = []
  closer : ∀ token ∈ left.head?, token.kind = .keyword .kwEnd
  front : ∀ token ∈ right.head?, token.kind.startsItem = true

/-! Nothing is behind the end of streams that do not part. -/

theorem Seam.joined_nil (_ : false = false) : ([] : List Token) = [] ∧ ([] : List Token) = [] :=
  ⟨rfl, rfl⟩

theorem Seam.closer_nil : ∀ token ∈ ([] : List Token).head?, token.kind = .keyword .kwEnd :=
  nofun

theorem Seam.front_nil : ∀ token ∈ ([] : List Token).head?, token.kind.startsItem = true :=
  nofun

/-- Streams that go on together to their end. -/
def Seam.none (shared : List Token) : Seam where
  shared := shared
  left := []
  right := []
  braces := false
  gap := false
  tolerant := false
  wordy := nofun
  joined := joined_nil
  closer := closer_nil
  front := front_nil

namespace Seam

variable (m : Seam)

def spell (token : Token) : Token := if m.braces then token.braced else token

/-- The cursor is where the streams part, or behind. -/
def Gone (c : Cursor) : Prop := m.gap = true ∧ c.rest.length ≤ m.left.length

/-- The cursor has read beyond where the streams part. -/
def Beyond (c : Cursor) : Prop := c.rest.length < m.left.length

/-- What follows an error here is not compared. -/
def Waived (c : Cursor) : Prop := m.tolerant = true ∨ m.Gone c

/-- Two cursors stand in front of the same common tokens. -/
structure JoinsAt (tokens : List Token) (c d : Cursor) : Prop where
  left : c.rest = tokens ++ m.left
  right : d.rest = tokens.map m.spell ++ m.right
  suffix : tokens <:+ m.shared
  eof : m.gap = false → d.eof = c.eof
  /-- Once something was read, both read the same last. -/
  last : tokens ≠ m.shared → d.last? = c.last?

def Joins (c d : Cursor) : Prop := ∃ tokens, m.JoinsAt tokens c d

variable {m} {c c' d : Cursor} {tokens : List Token}

@[simp] theorem spell_pos (token : Token) : (m.spell token).pos = token.pos := by
  unfold spell
  split <;> rfl

theorem spell_kind (token : Token) :
    (m.spell token).kind = if m.braces then token.kind.braced else token.kind := by
  unfold spell
  split <;> rfl

theorem spell_of_not_delimiter {token : Token} (h : token.kind.isDelimiter = false) :
    m.spell token = token := by
  unfold spell Token.braced
  rw [TokenKind.braced_of_not_delimiter h]
  split <;> rfl

/-- A function of kinds that tells no delimiter from another one. -/
theorem spell_blind {α : Type} (f : TokenKind → α)
    (hb : f (.mark .lbrace) = f (.keyword .kwBegin))
    (he : f (.mark .rbrace) = f (.keyword .kwEnd)) (token : Token) :
    f (m.spell token).kind = f token.kind := by
  rw [spell_kind]
  split
  · exact TokenKind.blind f hb he token.kind
  · rfl

theorem spell_eq (h : m.braces = false) : m.spell = id := by
  funext token
  simp [spell, h]

/-! ## Beyond the seam -/

theorem Gone.follows (h : m.Gone c) (hf : c.Follows c') : m.Gone c' := by
  have := hf.rest_length
  have := hf.position_le
  exact ⟨h.1, by have := h.2; omega⟩

theorem Beyond.follows (h : m.Beyond c) (hf : c.Follows c') : m.Beyond c' := by
  have := hf.rest_length
  have := hf.position_le
  have : c.rest.length < m.left.length := h
  show c'.rest.length < m.left.length
  omega

theorem Waived.follows (h : m.Waived c) (hf : c.Follows c') : m.Waived c' :=
  h.imp id fun h => h.follows hf

theorem Waived.of_gone (h : m.Gone c) : m.Waived c := .inr h

/-! ## At the seam -/

namespace JoinsAt

theorem gone_iff (h : m.JoinsAt tokens c d) : m.Gone c ↔ m.gap = true ∧ tokens = [] := by
  unfold Gone
  rw [h.left, List.length_append]
  constructor
  · rintro ⟨hg, hl⟩
    exact ⟨hg, List.eq_nil_of_length_eq_zero (by omega)⟩
  · rintro ⟨hg, rfl⟩
    exact ⟨hg, by simp⟩

theorem tails_of_nil (h : m.JoinsAt [] c d) (hg : ¬m.Gone c) : m.left = [] ∧ m.right = [] := by
  refine m.joined ?_
  cases hgap : m.gap with
  | false => rfl
  | true => exact absurd (h.gone_iff.mpr ⟨hgap, rfl⟩) hg

theorem rest_length (h : m.JoinsAt tokens c d) :
    d.rest.length + m.left.length = c.rest.length + m.right.length := by
  rw [h.left, h.right]
  simp only [List.length_append, List.length_map]
  omega

end JoinsAt

namespace Joins

theorem rest_length (h : m.Joins c d) :
    d.rest.length + m.left.length = c.rest.length + m.right.length := by
  obtain ⟨tokens, h⟩ := h
  exact h.rest_length

/-- In front of the seam both see the same token. -/
theorem current (h : m.Joins c d) (hg : ¬m.Gone c) : d.current = m.spell c.current := by
  obtain ⟨tokens, h⟩ := h
  unfold Cursor.current
  rw [h.left, h.right]
  cases tokens with
  | cons token more => rfl
  | nil =>
      obtain ⟨hl, hr⟩ := h.tails_of_nil hg
      have hgap : m.gap = false := by
        cases hgap : m.gap with
        | false => rfl
        | true => exact absurd (h.gone_iff.mpr ⟨hgap, rfl⟩) hg
      rw [hl, hr, h.eof hgap]
      exact (spell_of_not_delimiter rfl).symm

theorem pos (h : m.Joins c d) (hg : ¬m.Gone c) : d.pos = c.pos := by
  unfold Cursor.pos
  rw [h.current hg, spell_pos]

theorem kind (h : m.Joins c d) (hg : ¬m.Gone c) : d.kind = (m.spell c.current).kind := by
  unfold Cursor.kind
  rw [h.current hg]

/-- A kind that has one spelling only. -/
theorem kind_eq (h : m.Joins c d) (hg : ¬m.Gone c) (hk : c.kind.isDelimiter = false) :
    d.kind = c.kind := by
  rw [h.kind hg, spell_of_not_delimiter hk]
  rfl

theorem kind_of_right (h : m.Joins c d) (hg : ¬m.Gone c) {kind : TokenKind} (hd : d.kind = kind)
    (hk : kind.isDelimiter = false) : c.kind = kind := by
  have hkind := h.kind hg
  rw [hd, spell_kind] at hkind
  split at hkind
  · exact TokenKind.eq_of_braced hkind.symm hk
  · exact hkind.symm

theorem blind {α : Type} (h : m.Joins c d) (hg : ¬m.Gone c) (f : TokenKind → α)
    (hb : f (.mark .lbrace) = f (.keyword .kwBegin))
    (he : f (.mark .rbrace) = f (.keyword .kwEnd)) : f d.kind = f c.kind := by
  rw [h.kind hg]
  exact spell_blind f hb he c.current

theorem atEnd (h : m.Joins c d) (hg : ¬m.Gone c) : d.atEnd = c.atEnd :=
  h.blind hg (· == .eof) rfl rfl

/-- In front of the seam both see, or neither, a kind that has one spelling. -/
theorem check (h : m.Joins c d) (hg : ¬m.Gone c) {kind : TokenKind}
    (hk : kind.isDelimiter = false) : d.check kind = c.check kind := by
  have hindex : ∀ j : TokenKind, j.isDelimiter = true → (j.index == kind.index) = false := by
    intro j hj
    refine beq_eq_false_iff_ne.mpr (TokenKind.index_ne (f := TokenKind.isDelimiter) ?_ ?_)
    · intro kind
      cases kind <;> rfl
    · rw [hj, hk]
      nofun
  refine h.blind hg (fun j => j.index == kind.index) ?_ ?_
  · exact (hindex _ rfl).trans (hindex _ rfl).symm
  · exact (hindex _ rfl).trans (hindex _ rfl).symm

/-- What one sees at the seam. -/
theorem gone_kind (h : m.Joins c d) (hg : m.Gone c) :
    (c.kind = .keyword .kwEnd ∧ m.Beyond c.advance) ∨ c.kind = .eof := by
  obtain ⟨tokens, h⟩ := h
  obtain ⟨-, rfl⟩ := h.gone_iff.mp hg
  have hrest : c.rest = m.left := h.left
  cases hl : m.left with
  | nil =>
      right
      simp [Cursor.kind, Cursor.current, hrest, hl]
  | cons token more =>
      left
      have hkind : c.kind = token.kind := by simp [Cursor.kind, Cursor.current, hrest, hl]
      have hend := m.closer token (by rw [hl]; rfl)
      refine ⟨hkind.trans hend, ?_⟩
      have hless := Cursor.advance_rest_length_lt (c := c) (by
        simp [Cursor.atEnd, hkind, hend])
      unfold Beyond
      rwa [← hrest]

/-- What the other one sees at the seam. -/
theorem gone_kind_right (h : m.Joins c d) (hg : m.Gone c) :
    d.kind.startsItem = true ∨ d.kind = .eof := by
  obtain ⟨tokens, h⟩ := h
  obtain ⟨-, rfl⟩ := h.gone_iff.mp hg
  have hrest : d.rest = m.right := h.right
  cases hr : m.right with
  | nil =>
      right
      simp [Cursor.kind, Cursor.current, hrest, hr]
  | cons token more =>
      left
      have hkind : d.kind = token.kind := by simp [Cursor.kind, Cursor.current, hrest, hr]
      rw [hkind]
      exact m.front token (by rw [hr]; rfl)

/-- Neither sees a steady kind at the seam. -/
theorem check_gone (h : m.Joins c d) (hg : m.Gone c) {kind : TokenKind}
    (hk : kind.isSteady = true) : c.check kind = false ∧ d.check kind = false := by
  have hsteady : ∀ j : TokenKind, j.isSteady = false → (j.index == kind.index) = false := by
    intro j hj
    refine beq_eq_false_iff_ne.mpr (TokenKind.index_ne (f := TokenKind.isSteady) ?_ ?_)
    · intro kind
      cases kind <;> rfl
    · rw [hj, hk]
      nofun
  constructor
  · rcases h.gone_kind hg with ⟨hc, -⟩ | hc
    · exact hsteady _ (by rw [hc]; rfl)
    · exact hsteady _ (by rw [hc]; rfl)
  · rcases h.gone_kind_right hg with hd | hd
    · exact hsteady _ (by simp [TokenKind.isSteady, hd])
    · exact hsteady _ (by rw [hd]; rfl)

/-- Wherever they stand, both see a steady kind or neither does. -/
theorem check_steady (h : m.Joins c d) {kind : TokenKind} (hk : kind.isSteady = true) :
    d.check kind = c.check kind := by
  by_cases hg : m.Gone c
  · obtain ⟨hc, hd⟩ := h.check_gone hg hk
    rw [hc, hd]
  · refine h.check hg ?_
    cases hdel : kind.isDelimiter with
    | false => rfl
    | true => simp [TokenKind.isSteady, hdel] at hk

end Joins

/-! ## Reading on -/

namespace JoinsAt

/-- Both read the same common tokens. -/
theorem read {taken more : List Token} (h : m.JoinsAt (taken ++ more) c d) :
    m.JoinsAt more
      ⟨more ++ m.left, c.eof, c.position + taken.length,
        (taken.getLast?.map Token.pos).or c.last?⟩
      ⟨more.map m.spell ++ m.right, d.eof, d.position + (taken.map m.spell).length,
        ((taken.map m.spell).getLast?.map Token.pos).or d.last?⟩ where
  left := rfl
  right := rfl
  suffix := (List.suffix_append taken more).trans h.suffix
  eof := h.eof
  last hmore := by
    have hpos : (taken.map m.spell).getLast?.map Token.pos = taken.getLast?.map Token.pos := by
      cases hlast : taken.getLast? with
      | none => simp [hlast]
      | some token => simp [hlast]
    rw [hpos]
    cases hlast : taken.getLast? with
    | some token => rfl
    | none =>
        have hnil : taken = [] := List.getLast?_eq_none_iff.mp hlast
        subst hnil
        exact h.last hmore

theorem advance (h : m.JoinsAt tokens c d) (hg : ¬m.Gone c) :
    ∃ more, m.JoinsAt more c.advance d.advance := by
  unfold Cursor.advance
  rw [h.left, h.right]
  cases tokens with
  | nil =>
      obtain ⟨hl, hr⟩ := h.tails_of_nil hg
      rw [hl, hr]
      exact ⟨[], h⟩
  | cons token more =>
      by_cases heof : token.kind = .eof
      · have hspell : (m.spell token).kind = .eof := by
          rwa [spell_of_not_delimiter (by rw [heof]; rfl)]
        simp only [List.cons_append, List.map_cons, heof, hspell, ↓reduceIte]
        exact ⟨token :: more, h⟩
      · have hspell : (m.spell token).kind ≠ .eof := by
          intro hk
          refine heof ?_
          rw [spell_kind] at hk
          split at hk
          · exact TokenKind.eq_of_braced hk rfl
          · exact hk
        simp only [List.cons_append, List.map_cons, heof, hspell, ↓reduceIte]
        have hread : m.JoinsAt ([token] ++ more) c d := h
        exact ⟨more, hread.read⟩

/-- Both read common tokens as long as a test holds. -/
theorem skipWhile {taken more : List Token} {p q : Token → Bool}
    (h : m.JoinsAt (taken ++ more) c d) (hp : c.rest.takeWhile p = taken)
    (hq : d.rest.takeWhile q = taken.map m.spell) :
    m.JoinsAt more (c.skipWhile p) (d.skipWhile q) := by
  have hc : c.skipWhile p = ⟨more ++ m.left, c.eof, c.position + taken.length,
      (taken.getLast?.map Token.pos).or c.last?⟩ := by
    simp only [Cursor.skipWhile, hp]
    rw [h.left, List.append_assoc, List.drop_left]
  have hd : d.skipWhile q = ⟨more.map m.spell ++ m.right, d.eof,
      d.position + (taken.map m.spell).length,
      ((taken.map m.spell).getLast?.map Token.pos).or d.last?⟩ := by
    simp only [Cursor.skipWhile, hq]
    rw [h.right, List.map_append, List.append_assoc, List.drop_left]
  rw [hc, hd]
  exact h.read

end JoinsAt

namespace Joins

theorem advance (h : m.Joins c d) (hg : ¬m.Gone c) : m.Joins c.advance d.advance := by
  obtain ⟨tokens, h⟩ := h
  exact h.advance hg

/-- A test that fails on what stands at the seam stops both at one place. -/
theorem takeWhile {p q : Token → Bool} (h : m.Joins c d)
    (hpq : ∀ token, q (m.spell token) = p token) (hl : ∀ token ∈ m.left.head?, p token = false)
    (hr : ∀ token ∈ m.right.head?, q token = false) :
    d.rest.takeWhile q = (c.rest.takeWhile p).map m.spell ∧
      m.Joins (c.skipWhile p) (d.skipWhile q) := by
  obtain ⟨tokens, h⟩ := h
  have htail : ∀ (p : Token → Bool) (front tail : List Token),
      (∀ token ∈ tail.head?, p token = false) →
      (front ++ tail).takeWhile p = front.takeWhile p := by
    intro p front tail htail
    induction front with
    | nil =>
        cases tail with
        | nil => rfl
        | cons token more => simp [htail token rfl]
    | cons token more ih =>
        by_cases hp : p token = true
        · simp [hp, ih]
        · simp [hp]
  have hcomp : (q ∘ m.spell) = p := funext hpq
  have hc : c.rest.takeWhile p = tokens.takeWhile p := by
    rw [h.left, htail p tokens m.left hl]
  have hd : d.rest.takeWhile q = (tokens.takeWhile p).map m.spell := by
    rw [h.right, htail q _ m.right hr, List.takeWhile_map, hcomp]
  refine ⟨by rw [hc, hd], tokens.dropWhile p, JoinsAt.skipWhile ?_ hc hd⟩
  rwa [List.takeWhile_append_dropWhile]

/-- What one reads in front of the seam, the other reads as well if it stops
there. -/
theorem skipWhile {p q : Token → Bool} (h : m.Joins c d)
    (pass : ∀ token, p token = true → q (m.spell token) = true)
    (stop : ∀ token ∈ (c.skipWhile p).rest.head?, q (m.spell token) = false)
    (hg : ¬m.Gone (c.skipWhile p)) : m.Joins (c.skipWhile p) (d.skipWhile q) := by
  obtain ⟨tokens, h⟩ := h
  obtain ⟨taken, more, rfl, htaken, hmore⟩ : ∃ taken more, tokens = taken ++ more ∧
      (∀ token ∈ taken, p token = true) ∧ ∀ token ∈ more.head?, p token = false := by
    refine ⟨tokens.takeWhile p, tokens.dropWhile p, List.takeWhile_append_dropWhile.symm,
      fun token ht => List.all_eq_true.mp List.all_takeWhile token ht, fun token ht => ?_⟩
    have hnot := List.head?_dropWhile_not p tokens
    rw [Option.mem_def.mp ht] at hnot
    simpa using hnot
  have hpass : ∀ token ∈ taken.map m.spell, q token = true := by
    intro token ht
    obtain ⟨first, hfirst, rfl⟩ := List.mem_map.mp ht
    exact pass first (htaken first hfirst)
  have hrest : (c.skipWhile p).rest = (more ++ m.left).dropWhile p := by
    have hall : (c.skipWhile p).rest = c.rest.dropWhile p := Cursor.drop_takeWhile p c.rest
    rw [hall, h.left, List.append_assoc, List.dropWhile_append_of_pos htaken]
  have hstop : (more ++ m.left).takeWhile p = [] ∧
      (more.map m.spell ++ m.right).takeWhile q = [] := by
    cases more with
    | cons token more =>
        have hp : p token = false := hmore token rfl
        have hq : q (m.spell token) = false := stop token (by rw [hrest]; simp [hp])
        simp [hp, hq]
    | nil =>
        -- nothing is left in front of the seam, so there is nothing behind it
        have hgap : m.gap = false := by
          cases hgap : m.gap with
          | false => rfl
          | true =>
              refine absurd ⟨hgap, ?_⟩ hg
              rw [hrest]
              exact (List.dropWhile_sublist p).length_le
        obtain ⟨hl, hr⟩ := m.joined hgap
        simp [hl, hr]
  refine ⟨more, JoinsAt.skipWhile h ?_ ?_⟩
  · rw [h.left, List.append_assoc, List.takeWhile_append_of_pos htaken, hstop.1,
      List.append_nil]
  · rw [h.right, List.map_append, List.append_assoc, List.takeWhile_append_of_pos hpass,
      hstop.2, List.append_nil]

end Joins

/-! ## Blocks -/

theorem blockLength_le (tokens : List Token) (depth : Nat) :
    Cursor.blockLength depth tokens ≤ tokens.length := by
  induction tokens generalizing depth with
  | nil => exact Nat.le_refl _
  | cons token rest ih =>
      unfold Cursor.blockLength
      rw [List.length_cons]
      split
      · exact Nat.zero_le _
      · split
        · have := ih (depth + 1); omega
        · split
          · split
            · omega
            · have := ih (depth - 1); omega
          · have := ih depth; omega

/-- A block that ends in front of the seam is as long for both. -/
theorem blockLength_spell {tokens behind behind' : List Token} {depth : Nat}
    (h : Cursor.blockLength depth (tokens ++ behind) < tokens.length ∨
      behind = [] ∧ behind' = []) :
    Cursor.blockLength depth (tokens.map m.spell ++ behind') =
      Cursor.blockLength depth (tokens ++ behind) := by
  induction tokens generalizing depth with
  | nil =>
      rcases h with h | ⟨rfl, rfl⟩
      · exact absurd h (Nat.not_lt_zero _)
      · rfl
  | cons token rest ih =>
      have hopens := spell_blind (m := m) Cursor.opens rfl rfl token
      have hcloses := spell_blind (m := m) Cursor.closes rfl rfl token
      have heof : (m.spell token).kind = .eof ↔ token.kind = .eof := by
        have := spell_blind (m := m) (fun kind => decide (kind = .eof)) rfl rfl token
        simpa using this
      simp only [List.map_cons, List.cons_append, Cursor.blockLength, hopens, hcloses, heof]
      simp only [List.cons_append, List.length_cons, Cursor.blockLength] at h
      split
      · rfl
      · rename_i hne
        rw [if_neg hne] at h
        split
        · rename_i hopen
          rw [if_pos hopen] at h
          rw [ih (h.imp_left fun h => by omega)]
        · rename_i hopen
          rw [if_neg hopen] at h
          split
          · rename_i hclose
            rw [if_pos hclose] at h
            split
            · rfl
            · rename_i hdeep
              rw [if_neg hdeep] at h
              rw [ih (h.imp_left fun h => by omega)]
          · rename_i hclose
            rw [if_neg hclose] at h
            rw [ih (h.imp_left fun h => by omega)]

/-- A block in front of the seam is read by both. -/
theorem Joins.skipBlock (h : m.Joins c d) (hg : ¬m.Gone c.skipBlock) :
    m.Joins c.skipBlock d.skipBlock := by
  obtain ⟨tokens, h⟩ := h
  obtain ⟨n, hn⟩ : ∃ n, Cursor.blockLength 0 c.rest = n := ⟨_, rfl⟩
  have hskip : c.skipBlock.rest = c.rest.drop (c.rest.take n).length := by
    rw [← hn]
    rfl
  have hle : n ≤ tokens.length ∧ Cursor.blockLength 0 d.rest = n := by
    rw [h.left] at hn
    rw [h.right, ← hn]
    cases hgap : m.gap with
    | false =>
        obtain ⟨hl, hr⟩ := m.joined hgap
        refine ⟨?_, blockLength_spell (.inr ⟨hl, hr⟩)⟩
        rw [hl, List.append_nil]
        exact blockLength_le tokens 0
    | true =>
        have hless : n < tokens.length := by
          refine Nat.lt_of_not_le fun hle => hg ⟨hgap, ?_⟩
          rw [hskip, List.length_take, List.length_drop, h.left, List.length_append]
          omega
        rw [← hn] at hless
        exact ⟨Nat.le_of_lt hless, blockLength_spell (.inl hless)⟩
  have hc : c.rest.take n = tokens.take n := by
    rw [h.left, List.take_append_of_le_length hle.1]
  have hd : d.rest.take n = (tokens.take n).map m.spell := by
    rw [h.right, List.take_append_of_le_length (by simpa using hle.1), List.map_take]
  have hcd : c.rest.drop (tokens.take n).length = tokens.drop n ++ m.left := by
    rw [h.left, List.length_take, Nat.min_eq_left hle.1, List.drop_append_of_le_length hle.1]
  have hdd : d.rest.drop ((tokens.take n).map m.spell).length =
      (tokens.drop n).map m.spell ++ m.right := by
    rw [h.right, List.length_map, List.length_take, Nat.min_eq_left hle.1,
      List.drop_append_of_le_length (by simpa using hle.1), List.map_drop]
  have hread : m.JoinsAt (tokens.take n ++ tokens.drop n) c d := by
    rwa [List.take_append_drop]
  refine ⟨tokens.drop n, ?_⟩
  simp only [Cursor.skipBlock, hn, hle.2, hc, hd, hcd, hdd]
  exact hread.read

end Seam

end SslFrontend
