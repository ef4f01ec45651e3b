import SslFrontend.Proofs.Access.Slice
import SslFrontend.Proofs.Positions

/-! # Lexing by offsets

A lexer that knows where a lexeme starts in bytes finds its line among the offsets at
which the lines start, and cuts texts out of lexemes by their bytes.  `Lexer.lex?` reads
a text that way; a search that comes out in front of the first line, or a cut inside a
character, gives none.

Main statement: there is always a line and every cut is possible, so a text is read as
`Lexer.lex` says (`Lexer.lex?_eq`).
-/

namespace SslFrontend

open String (utf8Len)

namespace LineMap

/-- The offsets behind the line breaks of a text that stands at an offset.  A line break
is one byte. -/
def behindBreaks : Nat → List Char → List Nat
  | _, [] => []
  | offset, c :: rest =>
    if c = '\n' then (offset + 1) :: behindBreaks (offset + 1) rest
    else behindBreaks (offset + c.utf8Size) rest

/-- The offsets at which lines start. -/
def starts (source : List Char) : List Nat := 0 :: behindBreaks 0 source

/-- A search among ascending numbers: where the number is, or else where it would have
to stand. -/
def search (numbers : List Nat) (n : Nat) : Except Nat Nat :=
  let place := (numbers.takeWhile (· < n)).length
  if numbers[place]? = some n then .ok place else .error place

/-- The line in which an offset is; none in front of the first one. -/
def line? (starts : List Nat) (offset : Nat) : Option Nat :=
  match search starts offset with
  | .ok index => some index
  | .error index => pred? index

/-- Physical line and column of an offset. -/
def place? (source : List Char) (offset : Nat) : Option (Nat × Nat) := do
  let index ← line? (starts source) offset
  let start ← (starts source)[index]?
  let column := ((Text.slice? source start offset).map List.length).getD 0
  return (saturate (index + 1), saturate (column + 1))

theorem behindBreaks_append (offset : Nat) (first second : List Char) :
    behindBreaks offset (first ++ second) =
      behindBreaks offset first ++ behindBreaks (offset + utf8Len first) second := by
  induction first generalizing offset with
  | nil => rfl
  | cons c first ih =>
      rw [List.cons_append, behindBreaks, behindBreaks, String.utf8Len_cons]
      split
      · rename_i hc
        have hsize : c.utf8Size = 1 := by rw [hc]; rfl
        rw [ih, List.cons_append, hsize]
        simp only [Nat.add_assoc, Nat.add_comm]
      · rw [ih]
        simp only [Nat.add_assoc, Nat.add_comm]

theorem lt_of_mem_behindBreaks {offset start : Nat} {text : List Char}
    (h : start ∈ behindBreaks offset text) : offset < start := by
  induction text generalizing offset with
  | nil => cases h
  | cons c text ih =>
      rw [behindBreaks] at h
      split at h
      · rcases List.mem_cons.mp h with rfl | hrest
        · exact Nat.lt_succ_self _
        · exact Nat.lt_trans (Nat.lt_succ_self _) (ih hrest)
      · exact Nat.lt_of_le_of_lt (Nat.le_add_right _ _) (ih h)

theorem le_of_mem_behindBreaks {offset start : Nat} {text : List Char}
    (h : start ∈ behindBreaks offset text) : start ≤ offset + utf8Len text := by
  induction text generalizing offset with
  | nil => cases h
  | cons c text ih =>
      rw [behindBreaks] at h
      rw [String.utf8Len_cons]
      split at h
      · rename_i hc
        have hsize : c.utf8Size = 1 := by rw [hc]; rfl
        rcases List.mem_cons.mp h with rfl | hrest
        · omega
        · have hle := ih hrest
          omega
      · have hle := ih h
        omega

theorem length_behindBreaks (offset : Nat) (text : List Char) :
    (behindBreaks offset text).length = text.count '\n' := by
  induction text generalizing offset with
  | nil => rfl
  | cons c text ih =>
      rw [behindBreaks]
      split
      · rename_i hc
        rw [List.length_cons, ih, hc, List.count_cons_self]
      · rename_i hc
        rw [ih, List.count_cons_of_ne hc]

/-- A line that no break ends starts no other line. -/
theorem behindBreaks_line {line : List Char} (h : '\n' ∉ line) (offset : Nat) :
    behindBreaks offset line = [] := by
  rw [List.eq_nil_iff_length_eq_zero, length_behindBreaks, List.count_eq_zero]
  exact h

/-- A text is made of whole lines and one that is not ended. -/
theorem exists_lines (text : List Char) : ∃ lines line, text = lines ++ line ∧ '\n' ∉ line ∧
    (lines = [] ∨ ∃ before, lines = before ++ ['\n']) := by
  induction text using List.reverseRecOn with
  | nil => exact ⟨[], [], rfl, List.not_mem_nil, .inl rfl⟩
  | append_singleton text c ih =>
      by_cases hc : c = '\n'
      · exact ⟨text ++ [c], [], (List.append_nil _).symm, List.not_mem_nil, .inr ⟨text, by rw [hc]⟩⟩
      · obtain ⟨lines, line, rfl, hline, hlines⟩ := ih
        refine ⟨lines, line ++ [c], List.append_assoc .., ?_, hlines⟩
        rw [List.mem_append, List.mem_singleton]
        exact fun h => h.elim hline (hc ∘ Eq.symm)

/-- Behind whole lines starts another one, and the others start in front of it. -/
theorem starts_lines {lines : List Char} (h : lines = [] ∨ ∃ before, lines = before ++ ['\n']) :
    ∃ earlier, starts lines = earlier ++ [utf8Len lines] ∧
      (∀ start ∈ earlier, start < utf8Len lines) ∧ earlier.length = lines.count '\n' := by
  rcases h with rfl | ⟨before, rfl⟩
  · exact ⟨[], rfl, nofun, rfl⟩
  · have hlast : behindBreaks (utf8Len before) ['\n'] = [utf8Len before + 1] := rfl
    have hlength : utf8Len (before ++ ['\n']) = utf8Len before + 1 := by
      rw [String.utf8Len_append]
      rfl
    refine ⟨starts before, ?_, fun start hstart => ?_, ?_⟩
    · rw [starts, starts, behindBreaks_append, Nat.zero_add, hlast, hlength, List.cons_append]
    · rw [hlength, Nat.lt_succ_iff]
      rcases List.mem_cons.mp hstart with rfl | hbreak
      · exact Nat.zero_le _
      · simpa using le_of_mem_behindBreaks hbreak
    · rw [starts, List.length_cons, length_behindBreaks, List.count_append]
      rfl

/-- The line of an offset is the last one that does not start behind it. -/
theorem line?_eq {earlier later : List Nat} {start n : Nat} (hearlier : ∀ m ∈ earlier, m < start)
    (hn : start ≤ n) (hlater : ∀ m ∈ later, n < m) :
    line? (earlier ++ start :: later) n = some earlier.length := by
  have hbefore : ∀ m ∈ earlier, decide (m < n) = true := fun m hm =>
    decide_eq_true (Nat.lt_of_lt_of_le (hearlier m hm) hn)
  unfold line? search
  rw [List.takeWhile_append_of_pos hbefore, List.takeWhile_cons]
  by_cases hsame : start = n
  · subst hsame
    simp
  · have hstop : later.takeWhile (· < n) = [] := by
      cases later with
      | nil => rfl
      | cons m later =>
          have hm := hlater m List.mem_cons_self
          rw [List.takeWhile_cons, if_neg (by simpa using Nat.le_of_lt hm)]
    have hnext : (earlier ++ start :: later)[earlier.length + 1]? = later.head? := by
      rw [List.getElem?_append_right (by omega), Nat.add_sub_cancel_left]
      exact List.head?_eq_getElem?.symm
    have hnone : later.head? ≠ some n := fun hhead =>
      Nat.lt_irrefl n (hlater n (List.mem_of_head? hhead))
    rw [if_pos (decide_eq_true (Nat.lt_of_le_of_ne hn hsame)), hstop]
    simp [hnext, hnone, pred?]

/-- Every place in a text has a line, and its offset has the line and column behind the
text in front of it. -/
theorem place?_append (front behind : List Char) : place? (front ++ behind) (utf8Len front) =
    some (saturate (lineBehind front), saturate (columnBehind front)) := by
  obtain ⟨lines, line, rfl, hbreak, hlines⟩ := exists_lines front
  obtain ⟨earlier, hstarts, hearlier, hcount⟩ := starts_lines hlines
  have hall : starts (lines ++ line ++ behind) = earlier ++ utf8Len lines ::
      behindBreaks (utf8Len (lines ++ line)) behind := by
    have hbreaks : behindBreaks 0 (lines ++ line) = behindBreaks 0 lines := by
      rw [behindBreaks_append, behindBreaks_line hbreak, List.append_nil]
    rw [starts, behindBreaks_append, Nat.zero_add, hbreaks, ← List.cons_append]
    show starts lines ++ _ = _
    rw [hstarts, List.append_assoc, List.singleton_append]
  have hle : utf8Len lines ≤ utf8Len (lines ++ line) := by
    rw [String.utf8Len_append]
    exact Nat.le_add_right _ _
  have hline : line? (earlier ++ utf8Len lines :: behindBreaks (utf8Len (lines ++ line)) behind)
      (utf8Len (lines ++ line)) = some earlier.length :=
    line?_eq hearlier hle fun m hm => lt_of_mem_behindBreaks hm
  have hstart : (earlier ++ utf8Len lines :: behindBreaks (utf8Len (lines ++ line)) behind)[
      earlier.length]? = some (utf8Len lines) := by
    rw [List.getElem?_append_right (Nat.le_refl _), Nat.sub_self]
    rfl
  have hindex : lineBehind (lines ++ line) = earlier.length + 1 := by
    rw [lineBehind_append, List.count_eq_zero.mpr hbreak, lineBehind, hcount, Nat.add_zero,
      Nat.add_comm]
  have hcolumn : columnBehind (lines ++ line) = line.length + 1 := by
    rw [columnBehind_append hbreak, Nat.add_comm]
    rcases hlines with rfl | ⟨before, rfl⟩
    · rfl
    · rw [columnBehind_concat, if_pos rfl]
  unfold place?
  simp only [hall, hline, hstart, hindex, hcolumn, Text.slice?_append, Option.bind_eq_bind,
    Option.bind_some, Option.map_some, Option.getD_some]
  rfl

end LineMap

namespace Lexeme

/-! ## What lexemes look like -/

theorem measured_of_mem_chop {text : List Char} {lexeme : Lexeme} (h : lexeme ∈ chop text) :
    ∃ first rest, lexeme.text = first :: rest.take (measure first rest).2 ∧
      lexeme.cls = (measure first rest).1 := by
  fun_induction chop text with
  | case1 => cases h
  | case2 first rest cls length hm ih =>
      rcases List.mem_cons.mp h with rfl | hrest
      · exact ⟨first, rest, by rw [hm], by rw [hm]⟩
      · exact ih hrest

/-- A string literal ends in a quote. -/
theorem measureString_ends {rest : List Char} (h : (measureString rest).1 = .string) :
    ∃ inside, rest.take (measureString rest).2 = inside ++ ['"'] := by
  fun_induction measureString rest with
  | case1 => exact ⟨[], rfl⟩
  | case2 | case3 | case4 => cases h
  | case5 c rest hc cls length hinside ih =>
      obtain ⟨inside, htake⟩ := ih (by rw [hinside]; exact h)
      rw [hinside] at htake
      exact ⟨'\\' :: c :: inside, by simp [htake]⟩
  | case6 c rest _ _ _ _ _ cls length hinside ih =>
      obtain ⟨inside, htake⟩ := ih (by rw [hinside]; exact h)
      rw [hinside] at htake
      exact ⟨c :: inside, by simp [htake]⟩
  | case7 => cases h

theorem measureString_ne_hexadecimal (rest : List Char) :
    (measureString rest).1 ≠ .hexadecimal := by
  fun_induction measureString rest <;> simp_all

theorem markOrStray_class (first : Char) (rest : List Char) :
    (∃ sign, (measure.markOrStray first rest).1 = .mark sign) ∨
      (measure.markOrStray first rest).1 = .stray := by
  unfold measure.markOrStray
  split
  · exact .inl ⟨_, rfl⟩
  · exact .inr rfl

theorem measureComment_class {rest : List Char} {found : Class × Nat}
    (h : measureComment rest = some found) : found.1 = .skipped ∨ found.1 = .openComment := by
  unfold measureComment at h
  split at h
  · cases h
    exact .inl rfl
  · split at h <;> cases h
    · exact .inl rfl
    · exact .inr rfl
  · cases h

theorem decimalOrFloat_class (rest : List Char) (whole : Nat) :
    (measureNumber.decimalOrFloat rest whole).1 = .float ∨
      (measureNumber.decimalOrFloat rest whole).1 = .decimal := by
  unfold measureNumber.decimalOrFloat
  split
  · exact .inl rfl
  · exact .inr rfl

theorem measureNumber_class (first : Char) (rest : List Char) :
    (measureNumber first rest).1 ≠ .string ∧ ((measureNumber first rest).1 = .hexadecimal →
      first = '0' ∧ ∃ mark digits, rest = mark :: digits ∧ (mark = 'x' ∨ mark = 'X') ∧
        (measureNumber first rest).2 = 1 + run isHexDigit digits) := by
  have hother : ∀ whole, (measureNumber.decimalOrFloat rest whole).1 ≠ .string ∧
      (measureNumber.decimalOrFloat rest whole).1 ≠ .hexadecimal := by
    intro whole
    rcases decimalOrFloat_class rest whole with h | h <;> rw [h] <;> exact ⟨nofun, nofun⟩
  unfold measureNumber
  simp only
  split
  · rename_i mark digits
    split
    · rename_i hmark
      have hx : mark = 'x' ∨ mark = 'X' := by
        rw [Bool.and_eq_true, Bool.or_eq_true, beq_iff_eq, beq_iff_eq] at hmark
        exact hmark.1
      exact ⟨nofun, fun _ => ⟨rfl, mark, digits, rfl, hx, rfl⟩⟩
    · exact ⟨(hother _).1, fun h => absurd h (hother _).2⟩
  · exact ⟨(hother _).1, fun h => absurd h (hother _).2⟩

theorem measure_class (first : Char) (rest : List Char) :
    ((measure first rest).1 = .string → first = '"' ∧ measure first rest = measureString rest) ∧
      ((measure first rest).1 = .hexadecimal → measure first rest = measureNumber first rest) := by
  have hmark : (measure.markOrStray first rest).1 ≠ .string ∧
      (measure.markOrStray first rest).1 ≠ .hexadecimal := by
    rcases markOrStray_class first rest with ⟨sign, h⟩ | h <;> rw [h] <;> exact ⟨nofun, nofun⟩
  unfold measure
  split
  · exact ⟨nofun, nofun⟩
  · split
    · exact ⟨nofun, nofun⟩
    · split
      · exact ⟨fun h => absurd h (measureNumber_class first rest).1, fun _ => rfl⟩
      · split
        · exact ⟨nofun, nofun⟩
        · exact ⟨nofun, nofun⟩
        · refine ⟨fun _ => ⟨rfl, rfl⟩, fun h => ?_⟩
          exact absurd h (measureString_ne_hexadecimal rest)
        · split
          · rcases measureComment_class ‹_› with h | h <;> rw [h] <;> exact ⟨nofun, nofun⟩
          · exact ⟨fun h => absurd h hmark.1, fun h => absurd h hmark.2⟩
        · exact ⟨fun h => absurd h hmark.1, fun h => absurd h hmark.2⟩

/-- A string literal stands between two quotes. -/
theorem text_of_string {text : List Char} {lexeme : Lexeme} (h : lexeme ∈ chop text)
    (hcls : lexeme.cls = .string) : ∃ inside, lexeme.text = '"' :: (inside ++ ['"']) := by
  obtain ⟨first, rest, htext, hmeasured⟩ := measured_of_mem_chop h
  rw [hcls] at hmeasured
  obtain ⟨rfl, hsame⟩ := (measure_class first rest).1 hmeasured.symm
  rw [hsame] at htext hmeasured
  obtain ⟨inside, htake⟩ := measureString_ends hmeasured.symm
  exact ⟨inside, by rw [htext, htake]⟩

/-- A hexadecimal literal has a prefix of two characters. -/
theorem text_of_hexadecimal {text : List Char} {lexeme : Lexeme} (h : lexeme ∈ chop text)
    (hcls : lexeme.cls = .hexadecimal) :
    ∃ mark digits, lexeme.text = '0' :: mark :: digits ∧ (mark = 'x' ∨ mark = 'X') := by
  obtain ⟨first, rest, htext, hmeasured⟩ := measured_of_mem_chop h
  rw [hcls] at hmeasured
  have hsame := (measure_class first rest).2 hmeasured.symm
  rw [hsame] at htext hmeasured
  obtain ⟨rfl, mark, digits, rfl, hmark, hlength⟩ :=
    (measureNumber_class first rest).2 hmeasured.symm
  refine ⟨mark, digits.take (run isHexDigit digits), ?_, hmark⟩
  rw [htext, hlength, Nat.add_comm, List.take_succ_cons]

end Lexeme

namespace Lexer

/-! ## Reading by offsets -/

/-- The digits behind a prefix of two bytes. -/
def slicedHexadecimal? (text : List Char) : Option (Option TokenKind) := do
  let digits ← Text.sliceFrom? text 2
  let n := digits.foldl (fun n c => n * 16 + hexValue c) 0
  return if maxWord < n then none else some (intOfWord n)

/-- What stands between the first byte and the last one. -/
def slicedString? (text : List Char) : Option (Option TokenKind) := do
  let stop ← pred? (utf8Len text)
  let inside ← Text.slice? text 1 stop
  return (Quoted.decode? inside).map fun chars => .str (String.ofList chars)

/-- Do what a directive says. -/
def obey (s : State) : Directive → State
  | .inclusion path =>
    if '\x00' ∈ path then s.report (.malformedDirective "include")
    else s.emit (.included (String.ofList path))
  | .lineMarker line none => { s with marker := s.marker.reset (saturate s.line) line none }
  | .lineMarker line (some name) =>
    let (id, files) := s.files.add ⟨String.ofList name⟩
    { s with marker := s.marker.reset (saturate s.line) line (some id), files := files }
  | .ignored => s
  | .unknown name => s.report (.unknownDirective (String.ofList name))
  | .malformed name => s.report (.malformedDirective (String.ofList name))

/-- Read one lexeme; nothing is cut out of those of most classes. -/
def read? (s : State) (lexeme : Lexeme) : Option State :=
  let text := lexeme.text
  match lexeme.cls with
  | .directive => (Directive.classify? (text.drop 1)).map (obey s)
  | .hexadecimal =>
    (slicedHexadecimal? text).map (emitOr s (.malformedNumber (String.ofList text)))
  | .string => (slicedString? text).map (emitOr s .nulInString)
  | _ => some (read s lexeme)

/-- The state at a line and column. -/
def State.moved (s : State) (line column : Nat) : State := { s with line := line, column := column }

/-- Read one lexeme, which starts at an offset. -/
def step? (source : List Char) (reached : Nat × State) (lexeme : Lexeme) :
    Option (Nat × State) := do
  let (line, column) ← LineMap.place? source reached.1
  let s ← read? (reached.2.moved line column) lexeme
  return (reached.1 + utf8Len lexeme.text, s)

/-- Read a text as the contents of `file`. -/
def lex? (text : String) (file : FileId) (files : FileTable) : Option Lexed := do
  let source := text.toList
  let (stop, last) ← (Lexeme.chop source).foldlM (step? source) (0, .start file files)
  let (line, column) ← LineMap.place? source stop
  return ⟨last.tokens.toList, (last.moved line column).pos, last.errors.toList, last.files⟩

theorem slicedHexadecimal?_eq {mark : Char} (h : mark = 'x' ∨ mark = 'X') (digits : List Char) :
    slicedHexadecimal? ('0' :: mark :: digits) = some (hexadecimal? ('0' :: mark :: digits)) := by
  have hlength : utf8Len ['0', mark] = 2 := by rcases h with rfl | rfl <;> rfl
  have hslice := Text.sliceFrom?_append ['0', mark] digits
  rw [hlength] at hslice
  unfold slicedHexadecimal? hexadecimal?
  show (Text.sliceFrom? (['0', mark] ++ digits) 2).bind _ = _
  rw [hslice]
  rfl

theorem slicedString?_eq (inside : List Char) :
    slicedString? ('"' :: (inside ++ ['"'])) = some (string? ('"' :: (inside ++ ['"']))) := by
  have hstop : pred? (utf8Len ('"' :: (inside ++ ['"']))) = some (utf8Len (['"'] ++ inside)) := by
    have hlength : utf8Len ('"' :: (inside ++ ['"'])) = utf8Len (['"'] ++ inside) + 1 := by
      rw [← List.singleton_append, ← List.append_assoc, String.utf8Len_append]
      rfl
    rw [hlength]
    rfl
  have hslice : Text.slice? ('"' :: (inside ++ ['"'])) 1 (utf8Len (['"'] ++ inside)) =
      some inside :=
    Text.slice?_append ['"'] inside ['"']
  have hinside : (('"' :: (inside ++ ['"'])).drop 1).dropLast = inside := by simp
  simp only [slicedString?, string?, hstop, hslice, hinside, Option.bind_eq_bind, Option.bind_some]
  rfl

theorem readDirective_eq (s : State) (text : List Char) :
    readDirective s text = obey s (Directive.ofBody (text.drop 1)) := by
  unfold readDirective obey
  split <;> simp_all

/-- Whatever is cut out of a lexeme of a text can be cut out. -/
theorem read?_eq {text : List Char} {lexeme : Lexeme} (h : lexeme ∈ Lexeme.chop text) (s : State) :
    read? s lexeme = some (read s lexeme) := by
  unfold read? read
  cases hcls : lexeme.cls with
  | directive => simp only [Directive.classify?_eq, Option.map_some, readDirective_eq]
  | hexadecimal =>
      obtain ⟨mark, digits, htext, hmark⟩ := Lexeme.text_of_hexadecimal h hcls
      simp only [htext, slicedHexadecimal?_eq hmark, Option.map_some]
  | string =>
      obtain ⟨inside, htext⟩ := Lexeme.text_of_string h hcls
      simp only [htext, slicedString?_eq, Option.map_some]
  | _ => rfl

theorem saturate_saturate (n : Nat) : saturate (saturate n) = saturate n := by
  simp only [saturate]
  omega

namespace State

/-- The state with its line and column cut off at the largest word. -/
def cut (s : State) : State := s.moved (saturate s.line) (saturate s.column)

theorem pos_cut (s : State) : s.cut.pos = s.pos := by
  simp only [pos, cut, moved, saturate_saturate]

theorem emit_cut (s : State) (kind : TokenKind) : s.cut.emit kind = (s.emit kind).cut := by
  unfold emit
  rw [pos_cut]
  rfl

theorem report_cut (s : State) (kind : LexError.Kind) :
    s.cut.report kind = (s.report kind).cut := by
  unfold report
  rw [pos_cut]
  rfl

theorem reject_cut (s : State) (kind : LexError.Kind) :
    s.cut.reject kind = (s.reject kind).cut := by
  unfold reject
  rw [report_cut, emit_cut]

theorem emitOr_cut (s : State) (error : LexError.Kind) (kind : Option TokenKind) :
    emitOr s.cut error kind = (emitOr s error kind).cut := by
  cases kind with
  | none => exact s.reject_cut error
  | some kind => exact s.emit_cut kind

theorem obey_cut (s : State) (directive : Directive) :
    obey s.cut directive = (obey s directive).cut := by
  cases directive with
  | inclusion path =>
      simp only [obey]
      split
      · exact s.report_cut _
      · exact s.emit_cut _
  | lineMarker line file =>
      cases file <;> simp only [obey, cut, moved, saturate_saturate]
  | ignored => rfl
  | unknown name | malformed name => exact s.report_cut _

end State

/-- Where a lexeme is read only counts as far as words go. -/
theorem read_cut (s : State) (lexeme : Lexeme) : read s.cut lexeme = (read s lexeme).cut := by
  obtain ⟨cls, text⟩ := lexeme
  cases cls with
  | skipped => rfl
  | openComment => exact s.report_cut _
  | directive =>
      show readDirective s.cut text = (readDirective s text).cut
      rw [readDirective_eq, readDirective_eq, State.obey_cut]
  | decimal | hexadecimal | float | string => exact s.emitOr_cut _ _
  | openString | stray => exact s.reject_cut _
  | word | mark sign => exact s.emit_cut _

theorem advance_eq_moved (s : State) (text : List Char) :
    ∃ line column, s.advance text = s.moved line column := by
  unfold State.advance
  induction text generalizing s with
  | nil => exact ⟨s.line, s.column, rfl⟩
  | cons c rest ih =>
      rw [List.foldl_cons]
      split
      · exact ih (s.moved (s.line + 1) 1)
      · exact ih (s.moved s.line (s.column + 1))

/-- A lexer that has read some lexemes of a text: it knows their length in bytes, and
apart from lines and columns it is where the other one is. -/
structure State.Abreast (start : State) (before : List Lexeme) (reached : Nat × State) : Prop where
  offset : reached.1 = utf8Len (textOf before)
  state : ∀ line column, reached.2.moved line column = (behind start before).moved line column

theorem State.Abreast.place {file : FileId} {files : FileTable} {before : List Lexeme}
    {reached : Nat × State} (h : (start file files).Abreast before reached)
    (lexemes : List Lexeme) :
    ∃ line column, LineMap.place? (textOf (before ++ lexemes)) reached.1 = some (line, column) ∧
      reached.2.moved line column = (behind (.start file files) before).cut := by
  have htracks := State.Tracks.behind file files before
  refine ⟨_, _, ?_, h.state _ _⟩
  rw [h.offset, textOf_append, LineMap.place?_append, htracks.line, htracks.column]

theorem step?_abreast {file : FileId} {files : FileTable} {before lexemes : List Lexeme}
    {lexeme : Lexeme} {reached : Nat × State} {text : List Char}
    (h : (State.start file files).Abreast before reached)
    (hchop : Lexeme.chop text = before ++ lexeme :: lexemes) :
    ∃ next, step? text reached lexeme = some next ∧
      (State.start file files).Abreast (before ++ [lexeme]) next := by
  have htext : text = textOf (before ++ lexeme :: lexemes) := by
    rw [← hchop, textOf, Lexeme.flatMap_text_chop]
  obtain ⟨line, column, hplace, hmoved⟩ := h.place (lexeme :: lexemes)
  have hmem : lexeme ∈ Lexeme.chop text := by simp [hchop]
  have hread := read?_eq hmem (behind (.start file files) before).cut
  rw [read_cut] at hread
  refine ⟨(reached.1 + utf8Len lexeme.text, (read (behind (.start file files) before) lexeme).cut),
    ?_, ?_, fun line column => ?_⟩
  · unfold step?
    rw [htext, hplace]
    simp only [Option.bind_eq_bind, Option.bind_some, hmoved, hread]
    rfl
  · rw [textOf_append, String.utf8Len_append, h.offset]
    simp
  · obtain ⟨line', column', hadvance⟩ :=
      advance_eq_moved (read (behind (.start file files) before) lexeme) lexeme.text
    rw [behind_concat, hadvance]
    rfl

/-- Reading a text takes no place in front of it and cuts nothing inside a character. -/
theorem lex?_eq (text : String) (file : FileId) (files : FileTable) :
    lex? text file files = some (lex text file files) := by
  have hfold : ∀ lexemes before reached, Lexeme.chop text.toList = before ++ lexemes →
      (State.start file files).Abreast before reached →
      ∃ last, lexemes.foldlM (step? text.toList) reached = some last ∧
        (State.start file files).Abreast (before ++ lexemes) last := by
    intro lexemes
    induction lexemes with
    | nil =>
        intro before reached hchop h
        exact ⟨reached, rfl, by rwa [List.append_nil]⟩
    | cons lexeme lexemes ih =>
        intro before reached hchop h
        obtain ⟨next, hstep, hnext⟩ := step?_abreast h hchop
        obtain ⟨last, hlast, hall⟩ := ih (before ++ [lexeme]) next (by simp [hchop]) hnext
        refine ⟨last, ?_, by simpa using hall⟩
        rw [List.foldlM_cons, hstep]
        exact hlast
  obtain ⟨last, hlast, hall⟩ := hfold _ [] (0, .start file files) rfl ⟨rfl, fun _ _ => rfl⟩
  rw [List.nil_append] at hall
  obtain ⟨line, column, hplace, hmoved⟩ := hall.place []
  rw [List.append_nil, textOf, Lexeme.flatMap_text_chop] at hplace
  have hpos : (last.2.moved line column).pos =
      (behind (.start file files) (Lexeme.chop text.toList)).pos := by
    rw [hmoved, State.pos_cut]
  -- Apart from the place, nothing is different at the end.
  have htokens := congrArg State.tokens hmoved
  have herrors := congrArg State.errors hmoved
  have hfiles := congrArg State.files hmoved
  simp only [State.moved, State.cut] at htokens herrors hfiles
  unfold lex?
  simp only [hlast, hplace, Option.bind_eq_bind, Option.bind_some, hpos, htokens, herrors, hfiles]
  rfl

end Lexer

end SslFrontend
