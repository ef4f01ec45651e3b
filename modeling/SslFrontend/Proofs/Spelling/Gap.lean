import Mathlib.Data.Nat.Digits.Defs
import SslFrontend.Token.Lexer

/-! # Lexemes and the gaps between them

A numeral writes a number with the digits of a base, most significant first.
Letters among the digits come in either case, and zeros may lead.  Digits in
base ten and base sixteen are what the lexer takes for them, and it reads a
numeral of a word as that word (`Lexer.decimal?_numeral`,
`Lexer.hexadecimal?_numeral`).

A lexeme ends where the text does, or where a blank or a line break follows: no
lexeme but a string or a comment goes on there.  So the next lexeme of a spelling
and of whatever follows behind a break is the spelling (`measure_word`,
`measure_decimal` and the like).  Between two lexemes there may be blanks, line
breaks and comments.  They are cut into lexemes as everything else, which leave
nothing when they are read (`significant_gap`).
-/

/-! ## Numerals -/

namespace SslFrontend

/-- A character for a digit of a base. -/
def IsDigitOf (base : Nat) (c : Char) (d : Nat) : Prop :=
  d < base ∧ (c = d.digitChar ∨ c = d.digitChar.toUpper)

/-- The text writes the number in the base. -/
def Numeral (base : Nat) (text : List Char) (n : Nat) : Prop :=
  text ≠ [] ∧ ∃ ds, List.Forall₂ (IsDigitOf base) text ds ∧ Nat.ofDigits base ds.reverse = n

/-- The word of 32 bits that a number is cut down to. -/
def Word (n : Nat) (v : Int32) : Prop := (n : Int) % 2 ^ 32 = v.toInt % 2 ^ 32

theorem Word.ofNat_eq {n : Nat} {v : Int32} (h : Word n v) : Int32.ofNat n = v := by
  have hsize : (2 : Int) ^ 32 = ((2 ^ 32 : Nat) : Int) := by norm_num
  rw [Word, hsize] at h
  rw [← Int32.ofInt_eq_ofNat, Int32.ofInt_eq_iff_bmod_eq_toInt, ← Int.emod_bmod, h, Int.emod_bmod]
  exact (Int32.ofInt_eq_iff_bmod_eq_toInt _ _).mp (Int32.ofInt_toInt v)

namespace IsDigitOf

variable {c : Char} {d : Nat}

theorem decimal (h : IsDigitOf 10 c d) :
    Lexeme.isDigit c = true ∧ c.toNat - '0'.toNat = d := by
  have hall : ∀ d < 10, (Lexeme.isDigit d.digitChar = true ∧ d.digitChar.toNat - '0'.toNat = d) ∧
      d.digitChar.toUpper = d.digitChar := by decide
  obtain ⟨hd, rfl | rfl⟩ := h
  · exact (hall d hd).1
  · rw [(hall d hd).2]
    exact (hall d hd).1

theorem hexadecimal (h : IsDigitOf 16 c d) :
    Lexeme.isHexDigit c = true ∧ Lexer.hexValue c = d := by
  have hall : ∀ d < 16, (Lexeme.isHexDigit d.digitChar = true ∧ Lexer.hexValue d.digitChar = d) ∧
      Lexeme.isHexDigit d.digitChar.toUpper = true ∧ Lexer.hexValue d.digitChar.toUpper = d := by
    decide
  obtain ⟨hd, rfl | rfl⟩ := h
  · exact (hall d hd).1
  · exact (hall d hd).2

end IsDigitOf

namespace Numeral

variable {base n : Nat} {text : List Char}

/-- Digits are read from the left. -/
theorem foldl_eq {value : Char → Nat} (hvalue : ∀ c d, IsDigitOf base c d → value c = d)
    (h : Numeral base text n) : text.foldl (fun n c => n * base + value c) 0 = n := by
  have hread : ∀ {text : List Char} {ds : List Nat} (start : Nat),
      List.Forall₂ (IsDigitOf base) text ds →
      text.foldl (fun n c => n * base + value c) start =
        start * base ^ ds.length + Nat.ofDigits base ds.reverse := by
    intro text ds start hdigits
    induction hdigits generalizing start with
    | nil => simp
    | @cons c d text ds hc _ ih =>
        rw [List.foldl_cons, ih, hvalue c d hc, List.length_cons, Nat.ofDigits_reverse_cons]
        ring
  obtain ⟨-, ds, hdigits, rfl⟩ := h
  rw [hread 0 hdigits, Nat.zero_mul, Nat.zero_add]

theorem forall_mem {p : Char → Bool} (hp : ∀ c d, IsDigitOf base c d → p c = true)
    (h : Numeral base text n) : ∀ c ∈ text, p c = true := by
  obtain ⟨-, ds, hdigits, -⟩ := h
  induction hdigits with
  | nil => exact fun _ hc => absurd hc List.not_mem_nil
  | @cons c d _ _ hc _ ih => exact List.forall_mem_cons.mpr ⟨hp c d hc, ih⟩

end Numeral

namespace Lexer

variable {text : List Char} {n : Nat}

theorem decimal?_numeral (h : Numeral 10 text n) (hn : n ≤ maxWord) :
    decimal? text = some (intOfWord n) := by
  have hread : Directive.natOfDigits text = n := h.foldl_eq fun _ _ hc => hc.decimal.2
  have hempty : text.isEmpty = false := by simpa using h.1
  unfold decimal? Directive.word?
  dsimp only
  rw [hread, hempty, Bool.false_or, decide_eq_false (Nat.not_lt.mpr hn)]
  rfl

theorem hexadecimal?_numeral (h : Numeral 16 text n) (hn : n ≤ maxWord) (mark : Char) :
    hexadecimal? ('0' :: mark :: text) = some (intOfWord n) := by
  have hread : text.foldl (fun n c => n * 16 + hexValue c) 0 = n :=
    h.foldl_eq fun _ _ hc => hc.hexadecimal.2
  unfold hexadecimal?
  simp only [List.drop_succ_cons, List.drop_zero]
  rw [hread, if_neg (Nat.not_lt.mpr hn)]

end Lexer

end SslFrontend

namespace SslFrontend.Lexeme

/-- A blank or a line break. -/
def IsBreak (c : Char) : Prop := isSpace c = true ∨ c = '\n'

/-- At its end, or in front of a break. -/
def Breaks (text : List Char) : Prop := ∀ c, text.head? = some c → IsBreak c

theorem IsBreak.mem {c : Char} (h : IsBreak c) : c ∈ [' ', '\t', '\r', '\x0c', '\n'] := by
  rcases h with hspace | rfl
  · simp only [isSpace, Bool.or_eq_true, beq_iff_eq] at hspace
    simp only [List.mem_cons]
    tauto
  · decide

/-- What no break has, the head of a text that breaks does not have. -/
theorem Breaks.head {text : List Char} {p : Char → Bool} (h : Breaks text)
    (hp : [' ', '\t', '\r', '\x0c', '\n'].any p = false) :
    ∀ c, text.head? = some c → p c = false :=
  fun c hc => Bool.eq_false_iff.mpr (List.any_eq_false.mp hp c (h c hc).mem)

theorem run_append {p : Char → Bool} {body rest : List Char} (hbody : ∀ c ∈ body, p c = true)
    (hrest : ∀ c, rest.head? = some c → p c = false) : run p (body ++ rest) = body.length := by
  have hstop : rest.takeWhile p = [] := by
    cases rest with
    | nil => rfl
    | cons c more => rw [List.takeWhile_cons, hrest c rfl, if_neg Bool.false_ne_true]
  rw [run, List.takeWhile_append_of_pos hbody, hstop, List.append_nil]

/-! ## Words -/

theorem isSpace_of_isWordStart {c : Char} (h : isWordStart c = true) : isSpace c = false := by
  refine Bool.eq_false_iff.mpr fun hspace => ?_
  have hmem := (show IsBreak c from .inl hspace).mem
  revert h
  simp only [List.mem_cons, List.not_mem_nil, or_false] at hmem
  rcases hmem with rfl | rfl | rfl | rfl | rfl <;> decide

theorem measure_word {first : Char} {body rest : List Char} (hfirst : isWordStart first = true)
    (hbody : ∀ c ∈ body, isWordChar c = true) (hrest : Breaks rest) :
    measure first (body ++ rest) = (.word, body.length) := by
  have hrun := run_append hbody (hrest.head (by decide))
  unfold measure
  rw [if_neg (Bool.eq_false_iff.mp (isSpace_of_isWordStart hfirst)), if_pos hfirst, hrun]

/-! ## Numbers -/

/-- What is true of every character of a text and of no break is true of the head,
if it is a character of the text. -/
theorem head_append {p : Char → Bool} {body rest : List Char} (hbody : ∀ c ∈ body, p c = false)
    (hrest : ∀ c, rest.head? = some c → p c = false) :
    ∀ c, (body ++ rest).head? = some c → p c = false := by
  intro c hc
  cases body with
  | nil => exact hrest c hc
  | cons first more =>
      obtain rfl : first = c := Option.some.inj hc
      exact hbody first List.mem_cons_self

theorem measureNumber_decimal {first : Char} {body rest : List Char}
    (hbody : ∀ c ∈ body, isDigit c = true) (hrest : Breaks rest) :
    measureNumber first (body ++ rest) = (.decimal, body.length) := by
  have hrun := run_append hbody (hrest.head (by decide))
  have hdecimal : measureNumber.decimalOrFloat (body ++ rest) body.length =
      (.decimal, body.length) := by
    unfold measureNumber.decimalOrFloat
    rw [List.drop_left]
    split
    · exact absurd (hrest '.' rfl).mem (by decide)
    · rfl
  -- No digit and no break marks a hexadecimal number.
  have hmark : ∀ c, (body ++ rest).head? = some c → (c == 'x' || c == 'X') = false := by
    refine head_append (fun c hc => ?_) (hrest.head (by decide))
    have hdigit := hbody c hc
    rw [Bool.or_eq_false_iff, beq_eq_false_iff_ne, beq_eq_false_iff_ne]
    constructor
    all_goals
      rintro rfl
      revert hdigit
      decide
  unfold measureNumber
  dsimp only
  rw [hrun]
  split
  · rename_i heq
    rw [hmark _ (congrArg List.head? heq)]
    exact hdecimal
  · exact hdecimal

theorem measure_digit {first : Char} (h : isDigit first = true) (rest : List Char) :
    measure first rest = measureNumber first rest := by
  have hspace : isSpace first = false := by
    refine Bool.eq_false_iff.mpr fun hspace => ?_
    have hmem := (show IsBreak first from .inl hspace).mem
    revert h
    simp only [List.mem_cons, List.not_mem_nil, or_false] at hmem
    rcases hmem with rfl | rfl | rfl | rfl | rfl <;> decide
  have hword : isWordStart first = false := by
    have hzero : ('0' : Char).val.toNat = 48 := rfl
    have hnine : ('9' : Char).val.toNat = 57 := rfl
    have hupper : ('A' : Char).val.toNat = 65 := rfl
    have hlower : ('a' : Char).val.toNat = 97 := rfl
    have hunder : first ≠ '_' := by
      rintro rfl
      revert h
      decide
    simp only [isDigit, isWordStart, Bool.and_eq_true, Bool.or_eq_false_iff, Bool.and_eq_false_iff,
      decide_eq_true_eq, decide_eq_false_iff_not, beq_eq_false_iff_ne, Char.le_def,
      UInt32.le_iff_toNat_le] at h ⊢
    exact ⟨⟨.inl (by omega), .inl (by omega)⟩, hunder⟩
  unfold measure
  rw [if_neg (Bool.eq_false_iff.mp hspace), if_neg (Bool.eq_false_iff.mp hword), if_pos h]

theorem measureNumber_hexadecimal {mark : Char} {body rest : List Char}
    (hmark : mark = 'x' ∨ mark = 'X') (hne : body ≠ [])
    (hbody : ∀ c ∈ body, isHexDigit c = true) (hrest : Breaks rest) :
    measureNumber '0' (mark :: body ++ rest) = (.hexadecimal, (mark :: body).length) := by
  have hrun := run_append hbody (hrest.head (by decide))
  have hlength : body.length ≠ 0 := fun h => hne (List.length_eq_zero_iff.mp h)
  rw [List.cons_append]
  unfold measureNumber
  show (if _ then (_, 1 + run isHexDigit (body ++ rest)) else _) = _
  rw [hrun, if_pos (by simp [hmark, hlength]), List.length_cons, Nat.add_comm]

/-! ## Strings -/

theorem measureString_encode (text rest : List Char) :
    measureString (Quoted.encode text ++ '"' :: rest) =
      (.string, (Quoted.encode text).length + 1) := by
  fun_induction Quoted.encode text with
  | case1 => rfl
  | case2 text ih => simp [measureString, ih]
  | case3 text ih => simp [measureString, ih]
  | case4 text ih => simp [measureString, ih]
  | case5 c text hslash hquote hline ih =>
      rw [List.cons_append, measureString.eq_6 _ _ hquote hline (fun hc _ => hslash hc)
        (fun _ hc _ => hslash hc) (fun _ _ hc _ => hslash hc), ih]
      rfl

/-! ## Marks -/

/-- No mark goes on behind a break. -/
theorem measure_mark (sign : Mark) {rest : List Char} (h : Breaks rest) :
    ∃ first body, sign.spelling.toList = first :: body ∧
      measure first (body ++ rest) = (.mark sign, body.length) := by
  have hcases : rest = [] ∨ ∃ c more, rest = c :: more ∧ c ∈ [' ', '\t', '\r', '\x0c', '\n'] := by
    cases rest with
    | nil => exact .inl rfl
    | cons c more => exact .inr ⟨c, more, rfl, (h c rfl).mem⟩
  rcases hcases with rfl | ⟨c, more, rfl, hc⟩
  · cases sign <;> exact ⟨_, _, rfl, rfl⟩
  · simp only [List.mem_cons, List.not_mem_nil, or_false] at hc
    cases sign
    all_goals
      refine ⟨_, _, rfl, ?_⟩
      rcases hc with rfl | rfl | rfl | rfl | rfl <;> rfl

/-! ## What is passed over -/

/-- Blanks, line breaks, comments that a line break ends, and closed comments. -/
inductive Gap : List Char → Prop
  | nil : Gap []
  | blank {c : Char} {rest : List Char} (hc : isSpace c = true) (h : Gap rest) : Gap (c :: rest)
  | newline {rest : List Char} (h : Gap rest) : Gap ('\n' :: rest)
  | line {body rest : List Char} (hbody : '\n' ∉ body) (h : Gap rest) :
      Gap ('/' :: '/' :: (body ++ '\n' :: rest))
  | block {body rest : List Char} (hbody : ¬['*', '/'] <:+: body) (h : Gap rest) :
      Gap ('/' :: '*' :: (body ++ '*' :: '/' :: rest))

/-- The lexemes of a text that are not passed over. -/
def significant (text : List Char) : List Lexeme :=
  (chop text).filter (·.cls ≠ .skipped)

theorem significant_nil : significant [] = [] := by
  rw [significant, chop]
  rfl

/-! ## The first lexeme -/

theorem chop_cons {first : Char} {body rest : List Char} {cls : Class}
    (h : measure first (body ++ rest) = (cls, body.length)) :
    chop (first :: (body ++ rest)) = ⟨cls, first :: body⟩ :: chop rest := by
  rw [chop, h]
  simp

theorem significant_cons {first : Char} {body rest : List Char} {cls : Class}
    (h : measure first (body ++ rest) = (cls, body.length)) (hcls : cls ≠ .skipped) :
    significant (first :: (body ++ rest)) = ⟨cls, first :: body⟩ :: significant rest := by
  rw [significant, chop_cons h, List.filter_cons_of_pos (by simpa using hcls)]
  rfl

theorem significant_skip {first : Char} {body rest : List Char}
    (h : measure first (body ++ rest) = (.skipped, body.length)) :
    significant (first :: (body ++ rest)) = significant rest := by
  rw [significant, chop_cons h, List.filter_cons_of_neg (by simp)]
  rfl

/-! ## Gaps -/

/-- A blank makes no difference, whether others follow or not. -/
theorem significant_blank {c : Char} (hc : isSpace c = true) (rest : List Char) :
    significant (c :: rest) = significant rest := by
  have hskip : ∀ {c : Char} {rest : List Char}, isSpace c = true →
      significant (c :: rest) = significant (rest.dropWhile isSpace) := by
    intro c rest hc
    have hmeasure : measure c (rest.takeWhile isSpace ++ rest.dropWhile isSpace) =
        (.skipped, (rest.takeWhile isSpace).length) := by
      unfold measure
      rw [List.takeWhile_append_dropWhile, if_pos hc]
      rfl
    have hsame := significant_skip hmeasure
    rwa [List.takeWhile_append_dropWhile] at hsame
  rw [hskip hc]
  cases rest with
  | nil => rfl
  | cons d more =>
      by_cases hd : isSpace d = true
      · rw [List.dropWhile_cons, if_pos hd, hskip hd]
      · rw [List.dropWhile_cons, if_neg hd]

theorem significant_newline (rest : List Char) :
    significant ('\n' :: rest) = significant rest :=
  @significant_skip '\n' [] rest rfl

/-- The rest of a line is what is in front of its end. -/
theorem restOfLine_append {body : List Char} (h : '\n' ∉ body) (rest : List Char) :
    restOfLine (body ++ '\n' :: rest) = body.length := by
  refine run_append (fun c hc => ?_) fun c hc => ?_
  · simpa using fun heq : c = '\n' => h (heq ▸ hc)
  · obtain rfl : '\n' = c := Option.some.inj hc
    rfl

theorem significant_line {body : List Char} (h : '\n' ∉ body) (rest : List Char) :
    significant ('/' :: '/' :: (body ++ '\n' :: rest)) = significant rest := by
  have hrun := restOfLine_append h rest
  have hmeasure : measure '/' ('/' :: body ++ '\n' :: rest) =
      (.skipped, ('/' :: body).length) := by
    show (Class.skipped, 1 + restOfLine (body ++ '\n' :: rest)) = _
    rw [hrun, Nat.add_comm]
    rfl
  exact (significant_skip hmeasure).trans (significant_newline rest)

theorem commentLength?_append {body : List Char} (h : ¬['*', '/'] <:+: body) (rest : List Char) :
    commentLength? (body ++ '*' :: '/' :: rest) = some (body.length + 2) := by
  induction body with
  | nil => rfl
  | cons c body ih =>
      have hbody : ¬['*', '/'] <:+: body := fun hin => h (List.infix_cons hin)
      have hearly : ∀ tail, c = '*' → body ++ '*' :: '/' :: rest = '/' :: tail → False := by
        rintro tail rfl heq
        cases body with
        | nil => exact absurd (List.cons.inj heq).1 (by decide)
        | cons d more =>
            obtain rfl : d = '/' := (List.cons.inj heq).1
            exact h ⟨[], more, rfl⟩
      rw [List.cons_append, commentLength?.eq_2 _ _ hearly, ih hbody]
      rfl

theorem measure_slash {rest : List Char} {found : Class × Nat}
    (h : measureComment rest = some found) : measure '/' rest = found := by
  unfold measure
  rw [if_neg (by decide), if_neg (by decide), if_neg (by decide)]
  simp only [h]

theorem significant_block {body : List Char} (h : ¬['*', '/'] <:+: body) (rest : List Char) :
    significant ('/' :: '*' :: (body ++ '*' :: '/' :: rest)) = significant rest := by
  have hmeasure : measure '/' ('*' :: body ++ ['*', '/'] ++ rest) =
      (.skipped, ('*' :: body ++ ['*', '/']).length) := by
    have hcomment : measureComment ('*' :: (body ++ '*' :: '/' :: rest)) =
        some (.skipped, 1 + (body.length + 2)) := by
      rw [measureComment, commentLength?_append h]
    have hinside : '*' :: body ++ ['*', '/'] ++ rest = '*' :: (body ++ '*' :: '/' :: rest) := by
      simp
    rw [hinside, measure_slash hcomment]
    simp
    omega
  have hskip := significant_skip hmeasure
  simpa using hskip

theorem significant_gap {gap : List Char} (h : Gap gap) (rest : List Char) :
    significant (gap ++ rest) = significant rest := by
  induction h with
  | nil => rfl
  | blank hc _ ih => rw [List.cons_append, significant_blank hc, ih]
  | newline _ ih => rw [List.cons_append, significant_newline, ih]
  | @line body more hbody _ ih =>
      have hline := significant_line hbody (more ++ rest)
      rw [ih] at hline
      simpa using hline
  | @block body more hbody _ ih =>
      have hblock := significant_block hbody (more ++ rest)
      rw [ih] at hblock
      simpa using hblock

end SslFrontend.Lexeme
