import Mathlib.Data.List.Forall2
import Mathlib.Data.List.TakeWhile
import SslFrontend.Proofs.Spelling.Gap
import SslFrontend.Text.Blank

/-! # Line markers as they are written

A text is what is left of it when it is trimmed, with blanks at both ends
(`exists_trimStart`, `exists_trimEnd`), and trimming stops at the first character that
is not blank (`trimStart_append`, `trimEnd_append`).

A line marker is a `#`, the word `line` or nothing, a number that is a word of 32 bits,
and perhaps the name of a file in quotes or brackets, with anything behind it.  Blanks
may stand between the parts.  Main statement: these are the directives that are read as
line markers, and no others (`ofBody_eq_lineMarker_iff`).
-/

/-! ## What trimming takes away -/

namespace SslFrontend.Text

/-- Nothing but blanks. -/
def Blanks (text : List Char) : Prop := ∀ c ∈ text, isBlank c = true

theorem Blanks.append {first second : List Char} (h₁ : Blanks first) (h₂ : Blanks second) :
    Blanks (first ++ second) :=
  fun c hc => (List.mem_append.mp hc).elim (h₁ c) (h₂ c)

theorem Blanks.reverse {text : List Char} (h : Blanks text) : Blanks text.reverse :=
  fun c hc => h c (List.mem_reverse.mp hc)

theorem exists_trimStart (text : List Char) :
    ∃ blanks, Blanks blanks ∧ text = blanks ++ trimStart text :=
  ⟨text.takeWhile isBlank, fun _ hc => List.mem_takeWhile_imp hc,
    List.takeWhile_append_dropWhile.symm⟩

theorem exists_trimEnd (text : List Char) :
    ∃ blanks, Blanks blanks ∧ text = trimEnd text ++ blanks := by
  obtain ⟨blanks, hblanks, htext⟩ := exists_trimStart text.reverse
  refine ⟨blanks.reverse, hblanks.reverse, ?_⟩
  have hback := congrArg List.reverse htext
  rwa [List.reverse_reverse, List.reverse_append] at hback

theorem trimStart_blanks {blanks : List Char} (h : Blanks blanks) (text : List Char) :
    trimStart (blanks ++ text) = trimStart text :=
  List.dropWhile_append_of_pos h

theorem trimStart_cons {c : Char} (h : isBlank c = false) (text : List Char) :
    trimStart (c :: text) = c :: text := by
  rw [trimStart, List.dropWhile_cons, h, if_neg Bool.false_ne_true]

theorem trimEnd_blanks {blanks : List Char} (h : Blanks blanks) : trimEnd blanks = [] := by
  have hstart := trimStart_blanks h.reverse []
  rw [List.append_nil] at hstart
  rw [trimEnd, show blanks.reverse.dropWhile isBlank = [] from hstart, List.reverse_nil]

/-- The last character that is not blank stays, and all in front of it. -/
theorem trimEnd_append {c : Char} (h : isBlank c = false) (text rest : List Char) :
    trimEnd (text ++ c :: rest) = text ++ c :: trimEnd rest := by
  rw [trimEnd, trimEnd, List.reverse_append, List.reverse_cons, List.append_assoc,
    List.dropWhile_append]
  split
  · rename_i hrest
    have hstop := trimStart_cons h text.reverse
    rw [List.isEmpty_iff.mp hrest, List.singleton_append,
      show (c :: text.reverse).dropWhile isBlank = _ from hstop]
    simp
  · simp

/-- A text without blanks at its ends is not trimmed. -/
theorem trim_eq_self {first last : Char} {text : List Char} (hfirst : text.head? = some first)
    (hlast : text.getLast? = some last) (hstart : isBlank first = false)
    (hend : isBlank last = false) : trim text = text := by
  obtain ⟨rest, hrest⟩ := List.head?_eq_some_iff.mp hfirst
  obtain ⟨front, hfront⟩ := List.getLast?_eq_some_iff.mp hlast
  have htrim : trimStart text = text := by rw [hrest, trimStart_cons hstart]
  rw [trim, htrim, hfront, trimEnd_append hend]
  rfl

end SslFrontend.Text

namespace SslFrontend.Directive

open Text

/-- The two pairs of characters that a file may stand between. -/
def Encloses (opening closing : Char) : Prop :=
  opening = '"' ∧ closing = '"' ∨ opening = '<' ∧ closing = '>'

namespace Encloses

variable {opening closing : Char}

theorem opening_solid (h : Encloses opening closing) : isBlank opening = false := by
  obtain ⟨rfl, -⟩ | ⟨rfl, -⟩ := h
  · decide
  · decide

theorem closing_solid (h : Encloses opening closing) : isBlank closing = false := by
  obtain ⟨-, rfl⟩ | ⟨-, rfl⟩ := h
  · decide
  · decide

end Encloses

/-- What may follow the number, and the file that it names. -/
inductive MarkerTail : List Char → Option (List Char) → Prop
  | bare {blanks : List Char} (h : Blanks blanks) : MarkerTail blanks none
  | file {blanks name flags : List Char} {opening closing : Char} (h : Blanks blanks)
      (hpair : Encloses opening closing) (hname : closing ∉ name) :
      MarkerTail (blanks ++ opening :: (name ++ closing :: flags)) (some name)

/-- A marker for a line and perhaps a file, in short or in full, without its `#`. -/
inductive Marker : List Char → Nat → Option (List Char) → Prop
  | short {blanks digits tail : List Char} {n : Nat} {name : Option (List Char)}
      (h : Blanks blanks) (hdigits : Numeral 10 digits n) (hn : n ≤ maxWord)
      (htail : MarkerTail tail name) : Marker (blanks ++ (digits ++ tail)) n name
  | full {blanks gap digits tail : List Char} {n : Nat} {name : Option (List Char)}
      (h : Blanks blanks) (hgap : Blanks gap) (hne : gap ≠ []) (hdigits : Numeral 10 digits n)
      (hn : n ≤ maxWord) (htail : MarkerTail tail name) :
      Marker (blanks ++ (['l', 'i', 'n', 'e'] ++ (gap ++ (digits ++ tail)))) n name

/-! ## Digits -/

/-- A run and what ends it. -/
theorem takeWhile_append {p : Char → Bool} {run rest : List Char} (hrun : ∀ c ∈ run, p c = true)
    (hrest : ∀ c, rest.head? = some c → p c = false) : (run ++ rest).takeWhile p = run := by
  have hstop : rest.takeWhile p = [] := by
    cases rest with
    | nil => rfl
    | cons c more => rw [List.takeWhile_cons, hrest c rfl, if_neg Bool.false_ne_true]
  rw [List.takeWhile_append_of_pos hrun, hstop, List.append_nil]

/-- A digit of base ten is the digit of its value. -/
theorem isDigitOf_of_isDigit {c : Char} (h : Lexeme.isDigit c = true) :
    IsDigitOf 10 c (c.toNat - '0'.toNat) := by
  have hall : ∀ n < 58, 48 ≤ n → n - 48 < 10 ∧ Char.ofNat n = (n - 48).digitChar := by decide
  simp only [Lexeme.isDigit, Bool.and_eq_true, decide_eq_true_eq, Char.le_def,
    UInt32.le_iff_toNat_le] at h
  have hvalue := hall c.toNat (Nat.lt_succ_of_le h.2) h.1
  rw [Char.ofNat_toNat] at hvalue
  exact ⟨hvalue.1, .inl hvalue.2⟩

theorem isBlank_of_isDigit {c : Char} (h : Lexeme.isDigit c = true) : isBlank c = false := by
  have hall : ∀ d < 10, isBlank d.digitChar = false ∧ isBlank d.digitChar.toUpper = false := by
    decide
  obtain ⟨hd, hc | hc⟩ := isDigitOf_of_isDigit h
  · rw [hc]
    exact (hall _ hd).1
  · rw [hc]
    exact (hall _ hd).2

theorem isWordChar_of_isBlank {c : Char} (h : isBlank c = true) : Lexeme.isWordChar c = false := by
  refine Bool.eq_false_iff.mpr fun hword => ?_
  have hcode : (97 ≤ c.toNat ∧ c.toNat ≤ 122 ∨ 65 ≤ c.toNat ∧ c.toNat ≤ 90 ∨ c.toNat = 95) ∨
      48 ≤ c.toNat ∧ c.toNat ≤ 57 := by
    simp only [Lexeme.isWordChar, Lexeme.isWordStart, Lexeme.isDigit, Bool.or_eq_true,
      Bool.and_eq_true, decide_eq_true_eq, beq_iff_eq, Char.le_def, UInt32.le_iff_toNat_le,
      or_assoc] at hword ⊢
    rcases hword with h | h | rfl | h
    · exact .inl h
    · exact .inr (.inl h)
    · exact .inr (.inr (.inl rfl))
    · exact .inr (.inr (.inr h))
  simp only [isBlank, Bool.or_eq_true, Bool.and_eq_true, decide_eq_true_eq, beq_iff_eq] at h
  omega

/-- Digits write the number that is read from them. -/
theorem numeral_natOfDigits {digits : List Char} (hne : digits ≠ [])
    (h : ∀ c ∈ digits, Lexeme.isDigit c = true) : Numeral 10 digits (natOfDigits digits) := by
  have hwrites : ∀ {digits : List Char}, (∀ c ∈ digits, Lexeme.isDigit c = true) →
      List.Forall₂ (IsDigitOf 10) digits (digits.map fun c => c.toNat - '0'.toNat) := by
    intro digits h
    rw [List.forall₂_map_right_iff]
    exact List.forall₂_same.mpr fun c hc => isDigitOf_of_isDigit (h c hc)
  have hnumeral : Numeral 10 digits _ := ⟨hne, _, hwrites h, rfl⟩
  have hvalue : natOfDigits digits = _ := hnumeral.foldl_eq fun _ _ hc => hc.decimal.2
  rwa [hvalue]

theorem word?_eq_some_iff {digits : List Char} (h : ∀ c ∈ digits, Lexeme.isDigit c = true)
    {n : Nat} : word? digits = some n ↔ Numeral 10 digits n ∧ n ≤ maxWord := by
  unfold word?
  dsimp only
  constructor
  · intro hword
    split at hword
    · cases hword
    · rename_i hsome
      cases hword
      rw [Bool.or_eq_true, not_or, List.isEmpty_iff, decide_eq_true_eq, Nat.not_lt] at hsome
      exact ⟨numeral_natOfDigits hsome.1 h, hsome.2⟩
  · rintro ⟨hnumeral, hn⟩
    have hvalue : natOfDigits digits = n := hnumeral.foldl_eq fun _ _ hc => hc.decimal.2
    have hsome : ¬(digits.isEmpty || decide (maxWord < n)) = true := by
      rw [Bool.or_eq_true, not_or, List.isEmpty_iff, decide_eq_true_eq, Nat.not_lt]
      exact ⟨hnumeral.1, hn⟩
    rw [hvalue, if_neg hsome]

/-! ## Files -/

theorem upTo?_eq_some_iff {closing : Char} {text name : List Char} :
    quoted?.upTo? closing text = some name ↔
      closing ∉ name ∧ ∃ flags, text = name ++ closing :: flags := by
  have hrun : ∀ {name : List Char}, closing ∉ name → ∀ c ∈ name, (c != closing) = true := by
    intro name hname c hc
    simpa using fun heq : c = closing => hname (heq ▸ hc)
  unfold quoted?.upTo?
  constructor
  · intro h
    split at h
    · rename_i hmem
      cases h
      have hsplit : text.takeWhile (· != closing) ++ text.dropWhile (· != closing) = text :=
        List.takeWhile_append_dropWhile
      have hname : closing ∉ text.takeWhile (· != closing) := fun hc => by
        simpa using List.mem_takeWhile_imp hc
      have hhead := List.head?_dropWhile_not (· != closing) text
      cases hrest : text.dropWhile (· != closing) with
      | nil =>
          rw [hrest, List.append_nil] at hsplit
          rw [hsplit] at hname
          exact absurd (List.contains_iff_mem.mp hmem) hname
      | cons c flags =>
          rw [hrest] at hhead hsplit
          obtain rfl : c = closing := by simpa using hhead
          exact ⟨hname, flags, hsplit.symm⟩
    · cases h
  · rintro ⟨hname, flags, rfl⟩
    rw [if_pos (by simp), takeWhile_append (hrun hname)]
    intro c hc
    obtain rfl : closing = c := Option.some.inj hc
    simp

theorem quoted?_eq_some_iff {text name : List Char} :
    quoted? text = some name ↔ ∃ opening closing flags, Encloses opening closing ∧
      closing ∉ name ∧ text = opening :: (name ++ closing :: flags) := by
  constructor
  · intro h
    unfold quoted? at h
    split at h
    · obtain ⟨hname, flags, rfl⟩ := upTo?_eq_some_iff.mp h
      exact ⟨_, _, flags, .inl ⟨rfl, rfl⟩, hname, rfl⟩
    · obtain ⟨hname, flags, rfl⟩ := upTo?_eq_some_iff.mp h
      exact ⟨_, _, flags, .inr ⟨rfl, rfl⟩, hname, rfl⟩
    · cases h
  · rintro ⟨opening, closing, flags, ⟨rfl, rfl⟩ | ⟨rfl, rfl⟩, hname, rfl⟩
    · exact upTo?_eq_some_iff.mpr ⟨hname, flags, rfl⟩
    · exact upTo?_eq_some_iff.mpr ⟨hname, flags, rfl⟩

/-! ## What follows the number -/

namespace MarkerTail

variable {tail : List Char} {name : Option (List Char)}

/-- It does not begin with a digit, so the number ends there. -/
theorem head (h : MarkerTail tail name) : ∀ c, tail.head? = some c → Lexeme.isDigit c = false := by
  intro c hc
  refine Bool.eq_false_iff.mpr fun hdigit => ?_
  have hblank := isBlank_of_isDigit hdigit
  cases h with
  | bare h => exact absurd (h c (List.mem_of_head? hc)) (Bool.eq_false_iff.mp hblank)
  | @file blanks _ _ opening _ h hpair hname =>
      cases blanks with
      | nil =>
          obtain rfl : opening = c := Option.some.inj hc
          obtain ⟨rfl, -⟩ | ⟨rfl, -⟩ := hpair
          · exact absurd hdigit (by decide)
          · exact absurd hdigit (by decide)
      | cons d more =>
          obtain rfl : d = c := Option.some.inj hc
          exact absurd (h d List.mem_cons_self) (Bool.eq_false_iff.mp hblank)

/-- Blanks at its end make no difference. -/
theorem append_blanks (h : MarkerTail tail name) {blanks : List Char} (hblanks : Blanks blanks) :
    MarkerTail (tail ++ blanks) name := by
  cases h with
  | bare h => exact .bare (h.append hblanks)
  | file h hpair hname =>
      rw [List.append_assoc, List.cons_append, List.append_assoc, List.cons_append]
      exact .file h hpair hname

theorem trimEnd (h : MarkerTail tail name) : MarkerTail (trimEnd tail) name := by
  cases h with
  | bare h =>
      rw [trimEnd_blanks h]
      exact .bare fun _ hc => absurd hc List.not_mem_nil
  | @file blanks name flags opening closing h hpair hname =>
      have hstays := trimEnd_append hpair.closing_solid (blanks ++ opening :: name) flags
      rw [List.append_assoc, List.cons_append, List.append_assoc, List.cons_append] at hstays
      rw [hstays]
      exact .file h hpair hname

/-- What is read from it. -/
theorem iff_trimStart : MarkerTail tail name ↔ trimStart tail = [] ∧ name = none ∨
    ∃ file, quoted? (trimStart tail) = some file ∧ name = some file := by
  constructor
  · intro h
    cases h with
    | bare h =>
        have hnothing := trimStart_blanks h []
        rw [List.append_nil] at hnothing
        exact .inl ⟨hnothing, rfl⟩
    | @file _ name flags opening closing h hpair hname =>
        rw [trimStart_blanks h, trimStart_cons hpair.opening_solid]
        exact .inr ⟨name, quoted?_eq_some_iff.mpr ⟨opening, closing, flags, hpair, hname, rfl⟩, rfl⟩
  · obtain ⟨blanks, hblanks, htail⟩ := exists_trimStart tail
    rintro (⟨hnothing, rfl⟩ | ⟨file, hfile, rfl⟩)
    · rw [hnothing, List.append_nil] at htail
      rw [htail]
      exact .bare hblanks
    · obtain ⟨opening, closing, flags, hpair, hname, hrest⟩ := quoted?_eq_some_iff.mp hfile
      rw [hrest] at htail
      rw [htail]
      exact .file hblanks hpair hname

end MarkerTail

/-- A text from its first character on that is not of a class. -/
theorem drop_takeWhile (p : Char → Bool) (text : List Char) :
    text.drop (text.takeWhile p).length = text.dropWhile p := by
  have hleft := @List.drop_left _ (text.takeWhile p) (text.dropWhile p)
  rwa [List.takeWhile_append_dropWhile] at hleft

theorem ofMarker_eq_lineMarker_iff {args word : List Char} {n : Nat} {name : Option (List Char)} :
    ofMarker args word = .lineMarker n name ↔ ∃ digits tail, args = digits ++ tail ∧
      Numeral 10 digits n ∧ n ≤ maxWord ∧ MarkerTail tail name := by
  constructor
  · intro h
    have hall : ∀ c ∈ args.takeWhile Lexeme.isDigit, Lexeme.isDigit c = true :=
      fun _ => List.mem_takeWhile_imp
    refine ⟨args.takeWhile Lexeme.isDigit, args.dropWhile Lexeme.isDigit,
      List.takeWhile_append_dropWhile.symm, ?_⟩
    rw [← and_assoc, ← word?_eq_some_iff hall, MarkerTail.iff_trimStart]
    unfold ofMarker at h
    simp only [drop_takeWhile] at h
    split at h
    · cases h
    · rename_i line hword hrest
      cases h
      exact ⟨hword, .inl ⟨hrest, rfl⟩⟩
    · rename_i line hword _
      split at h
      · rename_i file hfile
        cases h
        exact ⟨hword, .inr ⟨file, hfile, rfl⟩⟩
      · cases h
  · rintro ⟨digits, tail, rfl, hdigits, hn, htail⟩
    have hall : ∀ c ∈ digits, Lexeme.isDigit c = true :=
      hdigits.forall_mem fun _ _ hc => hc.decimal.1
    have hword := (word?_eq_some_iff hall).mpr ⟨hdigits, hn⟩
    unfold ofMarker
    simp only [takeWhile_append hall htail.head, List.drop_left, hword]
    obtain ⟨hnothing, rfl⟩ | ⟨file, hfile, rfl⟩ := MarkerTail.iff_trimStart.mp htail
    · rw [hnothing]
    · cases hrest : trimStart tail with
      | nil =>
          rw [hrest] at hfile
          cases hfile
      | cons c rest =>
          rw [hrest] at hfile
          simp only [hfile]

/-! ## Markers -/

theorem lineWord_eq : lineWord = ['l', 'i', 'n', 'e'] := by
  simp [lineWord]

/-- Trimming stops at a numeral. -/
theorem trimEnd_numeral {digits : List Char} {n : Nat} (h : Numeral 10 digits n)
    (front tail : List Char) :
    trimEnd (front ++ (digits ++ tail)) = front ++ (digits ++ trimEnd tail) := by
  have hall : ∀ c ∈ digits, Lexeme.isDigit c = true := h.forall_mem fun _ _ hc => hc.decimal.1
  obtain ⟨first, last, rfl⟩ := List.eq_nil_or_concat digits |>.resolve_left h.1
  have hsolid := isBlank_of_isDigit (hall last (by simp))
  have hstays := trimEnd_append hsolid (front ++ first) tail
  simpa using hstays

theorem trim_numeral {blanks digits : List Char} {n : Nat} (hblanks : Blanks blanks)
    (h : Numeral 10 digits n) (tail : List Char) :
    trim (blanks ++ (digits ++ tail)) = digits ++ trimEnd tail := by
  have hall : ∀ c ∈ digits, Lexeme.isDigit c = true := h.forall_mem fun _ _ hc => hc.decimal.1
  have hstart : trimStart (digits ++ tail) = digits ++ tail := by
    obtain ⟨first, rest, rfl⟩ := List.exists_cons_of_ne_nil h.1
    exact trimStart_cons (isBlank_of_isDigit (hall first List.mem_cons_self)) _
  rw [trim, trimStart_blanks hblanks, hstart]
  exact trimEnd_numeral h [] tail

theorem ofBody_eq_lineMarker_iff {body : List Char} {n : Nat} {name : Option (List Char)} :
    ofBody body = .lineMarker n name ↔ Marker body n name := by
  constructor
  · intro h
    obtain ⟨lead, hlead, hbody⟩ := exists_trimStart body
    obtain ⟨trail, htrail, hcore⟩ := exists_trimEnd (trimStart body)
    rw [hcore] at hbody
    unfold ofBody at h
    simp only at h
    split at h
    · cases h
    · rename_i first rest hfirst
      split at h
      · obtain ⟨digits, tail, hargs, hdigits, hn, htail⟩ := ofMarker_eq_lineMarker_iff.mp h
        rw [show trimEnd (trimStart body) = _ from hargs] at hbody
        rw [hbody, List.append_assoc]
        exact .short hlead hdigits hn (htail.append_blanks htrail)
      · split at h
        · split at h <;> cases h
        · split at h
          · rename_i hword
            obtain ⟨digits, tail, hargs, hdigits, hn, htail⟩ := ofMarker_eq_lineMarker_iff.mp h
            rw [drop_takeWhile] at hargs
            obtain ⟨gap, hgap, hmore⟩ := exists_trimStart ((trim body).dropWhile Lexeme.isWordChar)
            obtain ⟨trail', htrail', hrest⟩ :=
              exists_trimEnd (trimStart ((trim body).dropWhile Lexeme.isWordChar))
            rw [show trimEnd (trimStart _) = _ from hargs] at hrest
            rw [hrest] at hmore
            have hsplit : (trim body).takeWhile Lexeme.isWordChar ++
                (trim body).dropWhile Lexeme.isWordChar = trim body :=
              List.takeWhile_append_dropWhile
            rw [hword, hmore, lineWord_eq] at hsplit
            -- A digit right behind the word would be a part of it.
            have hne : gap ≠ [] := by
              rintro rfl
              obtain ⟨d, ds, rfl⟩ := List.exists_cons_of_ne_nil hdigits.1
              have hend := List.head?_dropWhile_not Lexeme.isWordChar (trim body)
              have hd := hdigits.forall_mem (fun _ _ hc => hc.decimal.1) d List.mem_cons_self
              rw [hmore] at hend
              simp [Lexeme.isWordChar, hd] at hend
            rw [show trimEnd (trimStart body) = _ from hsplit.symm] at hbody
            have hmarker := Marker.full hlead hgap hne hdigits hn
              ((htail.append_blanks htrail').append_blanks htrail)
            simp only [List.append_assoc] at hbody hmarker
            rwa [hbody]
          · split at h <;> cases h
  · intro h
    cases h with
    | @short blanks digits tail _ _ h hdigits hn htail =>
      have hall : ∀ c ∈ digits, Lexeme.isDigit c = true :=
        hdigits.forall_mem fun _ _ hc => hc.decimal.1
      have hmarker : ofMarker (digits ++ trimEnd tail) ['#'] = .lineMarker n name :=
        ofMarker_eq_lineMarker_iff.mpr ⟨digits, _, rfl, hdigits, hn, htail.trimEnd⟩
      unfold ofBody
      rw [trim_numeral h hdigits]
      obtain ⟨first, rest, rfl⟩ := List.exists_cons_of_ne_nil hdigits.1
      simp only [List.cons_append, hall first List.mem_cons_self, if_true]
      exact hmarker
    | @full blanks gap digits tail _ _ h hgap hne hdigits hn htail =>
      have hmarker : ofMarker (digits ++ trimEnd (trimEnd tail)) lineWord = .lineMarker n name :=
        ofMarker_eq_lineMarker_iff.mpr ⟨digits, _, rfl, hdigits, hn, htail.trimEnd.trimEnd⟩
      have hstart : trimStart (blanks ++ (['l', 'i', 'n', 'e'] ++ (gap ++ (digits ++ tail)))) =
          ['l', 'i', 'n', 'e'] ++ (gap ++ (digits ++ tail)) :=
        (trimStart_blanks h _).trans (trimStart_cons (by decide) _)
      have hbody : trim (blanks ++ (['l', 'i', 'n', 'e'] ++ (gap ++ (digits ++ tail)))) =
          lineWord ++ (gap ++ (digits ++ trimEnd tail)) := by
        rw [trim, hstart, ← List.append_assoc, trimEnd_numeral hdigits, lineWord_eq,
          List.append_assoc]
      have hletters : ∀ c ∈ lineWord, Lexeme.isWordChar c = true := by
        rw [lineWord_eq, ← List.all_eq_true]
        decide
      have hword : (lineWord ++ (gap ++ (digits ++ trimEnd tail))).takeWhile Lexeme.isWordChar =
          lineWord := by
        refine takeWhile_append hletters fun c hc => ?_
        obtain ⟨d, more, rfl⟩ := List.exists_cons_of_ne_nil hne
        obtain rfl : d = c := Option.some.inj hc
        exact isWordChar_of_isBlank (hgap d List.mem_cons_self)
      have hother : lineWord ≠ includeWord := by simp [lineWord, includeWord]
      unfold ofBody
      rw [hbody]
      simp only [hword, List.drop_left, trim_numeral hgap hdigits, hmarker, if_neg hother]
      rw [lineWord_eq]
      rfl

end SslFrontend.Directive
