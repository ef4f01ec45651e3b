import SslFrontend.Proofs.Access.Slice
import SslFrontend.Proofs.Grammar.Exact

/-! # Cursors as indices

A cursor can be kept as all tokens, the end of file last, and an index.  Then it looks
tokens up, and it counts how deep in brackets it looks ahead.  `Cursor.Indexed` is such
a cursor; a token that is not there is none, and so is a count below zero.

Main statements: while such a cursor stands where another one does, every token it looks
up is there (`Cursor.Indexed.Shows.current?`, `Cursor.Indexed.Shows.previousPos?`), and
looking ahead never counts below zero (`Assignment.isNext?_eq`).
-/

namespace SslFrontend

namespace Cursor

theorem advance_of_rest {d : Cursor} {token : Token} {more : List Token}
    (hrest : d.rest = token :: more) (hkind : token.kind ≠ .eof) :
    d.advance = ⟨more, d.eof, d.position + 1, some token.pos⟩ := by
  unfold Cursor.advance
  rw [hrest]
  exact if_neg hkind

/-- All tokens with the end of file, and the index of the one that is next. -/
structure Indexed where
  tokens : List Token
  position : Nat

namespace Indexed

def start (tokens : List Token) (eof : Position) : Indexed := ⟨tokens ++ [⟨.eof, eof⟩], 0⟩

/-- The token that is next; behind the last one, the last one. -/
def current? (c : Indexed) : Option Token := do
  let last ← pred? c.tokens.length
  c.tokens[min c.position last]?

/-- Position of the token read last; before the first one, of the current token. -/
def previousPos? (c : Indexed) : Option Position :=
  match pred? c.position with
  | some previous => c.tokens[previous]?.map Token.pos
  | none => c.current?.map Token.pos

/-- Read the current token; an end of file stays. -/
def advance? (c : Indexed) : Option Indexed := do
  let token ← c.current?
  return if token.kind = .eof then c else { c with position := c.position + 1 }

/-- Read so many tokens. -/
def read? (c : Indexed) : Nat → Option Indexed
  | 0 => some c
  | count + 1 => c.advance?.bind (·.read? count)

/-- Both cursors stand at the same place of the same tokens. -/
structure Shows (c : Indexed) (d : Cursor) : Prop where
  position : c.position = d.position
  tokens : ∃ behind, c.tokens = behind ++ d.rest ++ [⟨.eof, d.eof⟩] ∧
    behind.length = d.position ∧ d.last? = behind.getLast?.map Token.pos

namespace Shows

variable {c : Indexed} {d : Cursor}

theorem start (tokens : List Token) (eof : Position) :
    (Indexed.start tokens eof).Shows (Cursor.start tokens eof) :=
  ⟨rfl, [], rfl, rfl, rfl⟩

/-- There is a token to be read. -/
theorem current? (h : c.Shows d) : c.current? = some d.current := by
  obtain ⟨behind, htokens, hlength, -⟩ := h.tokens
  have hcount : c.tokens.length = (behind ++ d.rest).length + 1 := by
    rw [htokens, List.length_append, List.length_singleton]
  have hmin : min c.position (behind ++ d.rest).length = behind.length := by
    rw [h.position, hlength, List.length_append]
    omega
  unfold Indexed.current?
  simp only [hcount, pred?, Option.bind_eq_bind, Option.bind_some, hmin]
  rw [htokens, List.append_assoc, List.getElem?_append_right (Nat.le_refl _), Nat.sub_self,
    Cursor.current]
  cases d.rest <;> rfl

/-- There is a token that was read, or one to be read. -/
theorem previousPos? (h : c.Shows d) : c.previousPos? = some d.previousPos := by
  obtain ⟨behind, htokens, hlength, hlast⟩ := h.tokens
  unfold Indexed.previousPos? Cursor.previousPos
  rcases List.eq_nil_or_concat behind with rfl | ⟨earlier, token, rfl⟩
  · have hzero : c.position = 0 := h.position.trans hlength.symm
    rw [hzero, h.current?, hlast]
    rfl
  · rw [List.concat_eq_append] at htokens hlength hlast
    have hposition : c.position = earlier.length + 1 := by
      rw [h.position, ← hlength, List.length_append, List.length_singleton]
    rw [hposition, hlast, htokens]
    simp [pred?]

theorem advance? (h : c.Shows d) : ∃ c', c.advance? = some c' ∧ c'.Shows d.advance := by
  obtain ⟨behind, htokens, hlength, hlast⟩ := h.tokens
  unfold Indexed.advance?
  rw [h.current?]
  by_cases heof : d.current.kind = .eof
  · have hstays : d.advance = d := by
      unfold Cursor.advance Cursor.current at *
      cases hrest : d.rest with
      | nil => rfl
      | cons token more =>
          rw [hrest] at heof
          exact if_pos heof
    rw [hstays]
    exact ⟨c, by simp [heof], h⟩
  · refine ⟨{ c with position := c.position + 1 }, by simp [heof], ?_⟩
    cases hrest : d.rest with
    | nil =>
        rw [Cursor.current, hrest] at heof
        exact absurd rfl heof
    | cons token more =>
        rw [Cursor.current, hrest] at heof
        rw [advance_of_rest hrest heof]
        refine ⟨congrArg (· + 1) h.position, behind ++ [token], ?_, by simpa using hlength, by simp⟩
        rw [htokens, hrest]
        simp

/-- So many tokens can be read, one after the other. -/
theorem read? (h : c.Shows d) (count : Nat) :
    ∃ c', c.read? count = some c' ∧ c'.Shows (Cursor.advance^[count] d) := by
  induction count generalizing c d with
  | zero => exact ⟨c, rfl, h⟩
  | succ count ih =>
      obtain ⟨c₁, hadvance, hnext⟩ := h.advance?
      obtain ⟨c', hread, hall⟩ := ih hnext
      refine ⟨c', ?_, hall⟩
      rw [Indexed.read?, hadvance]
      exact hread

end Shows

end Indexed

/-- Reading on past no end of file is reading token by token. -/
theorem Reads.iterate {c d : Cursor} {tokens : List Token} (h : c.Reads tokens d)
    (hinner : ∀ token ∈ tokens, token.kind ≠ .eof) : Cursor.advance^[tokens.length] c = d := by
  induction tokens generalizing c with
  | nil =>
      obtain ⟨hrest, heof, hposition, hlast⟩ := h
      cases c
      cases d
      simp_all
  | cons token tokens ih =>
      obtain ⟨hkind, hbehind⟩ := List.forall_mem_cons.mp hinner
      refine ih ?_ hbehind
      rw [advance_of_rest h.rest hkind]
      refine ⟨rfl, h.eof, ?_, ?_⟩
      · rw [h.position, List.length_cons, Nat.add_assoc, Nat.add_comm 1]
      · rw [h.last, List.getLast?_cons]
        cases tokens.getLast? <;> rfl

end Cursor

namespace Assignment

/-- What is behind the bracket that closes the outermost of `depth` open ones.  The
outer answer is none if more are closed than were opened. -/
def bracketsEnd? : Nat → List Token → Option (Option (List Token))
  | _, [] => some none
  | depth, token :: rest =>
    match token.kind with
    | .mark .lbracket => bracketsEnd? (depth + 1) rest
    | .mark .rbracket => do
      let depth ← pred? depth
      if depth = 0 then return some rest else bracketsEnd? depth rest
    | .mark .semicolon | .eof => some none
    | _ => bracketsEnd? depth rest

/-- Whether an assignment operator is next. -/
def isOperator (tokens : List Token) : Bool :=
  (tokens.head?.bind fun token => ofKind? token.kind).isSome

/-- Whether a target and an assignment operator come next. -/
def isNext? : List Token → Option Bool
  | ⟨.ident _, _⟩ :: ⟨.mark .lbracket, pos⟩ :: rest =>
    (bracketsEnd? 0 (⟨.mark .lbracket, pos⟩ :: rest)).map fun found =>
      (found.map isOperator).getD false
  | ⟨.ident _, _⟩ :: rest => some (isOperator rest)
  | _ => some false

/-- While a bracket is open, another one can be closed. -/
theorem bracketsEnd?_eq (depth : Nat) (tokens : List Token) :
    bracketsEnd? (depth + 1) tokens = some (afterBrackets? depth tokens) := by
  induction tokens generalizing depth with
  | nil => rfl
  | cons token rest ih =>
      obtain ⟨kind, pos⟩ := token
      cases kind with
      | mark sign =>
          cases sign with
          | lbracket => exact ih (depth + 1)
          | rbracket =>
              cases depth with
              | zero => rfl
              | succ outer => exact ih outer
          | semicolon => rfl
          | _ => exact ih depth
      | eof => rfl
      | _ => exact ih depth

/-- Looking ahead for an assignment never counts below zero. -/
theorem isNext?_eq (tokens : List Token) : isNext? tokens = some (isNext tokens) := by
  match tokens with
  | [] => rfl
  | ⟨kind, pos⟩ :: rest =>
    cases kind with
    | ident name =>
        match rest with
        | [] => rfl
        | ⟨kind, pos⟩ :: more =>
          cases kind with
          | mark sign =>
              cases sign with
              | lbracket =>
                  have hend : bracketsEnd? 0 (⟨.mark .lbracket, pos⟩ :: more) =
                      some (afterBrackets? 0 more) := bracketsEnd?_eq 0 more
                  unfold isNext? isNext afterTarget?
                  simp only [hend, Option.map_some]
                  rcases afterBrackets? 0 more with _ | _ | ⟨token, behind⟩ <;> rfl
              | _ => rfl
          | _ => rfl
    | _ => rfl

end Assignment

end SslFrontend
