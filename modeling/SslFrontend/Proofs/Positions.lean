import SslFrontend.Proofs.Token.Apart
import SslFrontend.Proofs.Token.Lines
import SslFrontend.Proofs.Token.Markers
import SslFrontend.Proofs.Token.Reading

/-! # Positions under line markers

Physical lines and columns are counted in characters.  A line marker renumbers the
lines behind its own, and perhaps names their file.  The lexer keeps the last marker and
how far it has read; what it says of each place in the text can be told from the text in
front of the place alone.

Main statement: every token, every error and the end of the text stand where the text in
front of them says (`Lexer.lex_exact`).
-/

namespace SslFrontend

open Lexeme

/-! ## Places in a text -/

/-- The physical line behind a text. -/
def lineBehind (text : List Char) : Nat := 1 + text.count '\n'

/-- The physical column behind a text. -/
def columnBehind (text : List Char) : Nat := 1 + (text.reverse.takeWhile (· != '\n')).length

theorem lineBehind_concat (text : List Char) (c : Char) :
    lineBehind (text ++ [c]) = if c = '\n' then lineBehind text + 1 else lineBehind text := by
  simp only [lineBehind, List.count_append, List.count_singleton, beq_iff_eq]
  split <;> omega

theorem columnBehind_concat (text : List Char) (c : Char) :
    columnBehind (text ++ [c]) = if c = '\n' then 1 else columnBehind text + 1 := by
  simp only [columnBehind, List.reverse_append, List.reverse_singleton, List.singleton_append,
    List.takeWhile_cons]
  split
  · rename_i hc
    rw [if_neg (by simpa using hc), List.length_cons]
    omega
  · rename_i hc
    rw [if_pos (by simpa using hc)]
    rfl

theorem lineBehind_append (text more : List Char) :
    lineBehind (text ++ more) = lineBehind text + more.count '\n' := by
  rw [lineBehind, lineBehind, List.count_append, Nat.add_assoc]

/-- On one line columns are counted on. -/
theorem columnBehind_append {more : List Char} (h : '\n' ∉ more) (text : List Char) :
    columnBehind (text ++ more) = columnBehind text + more.length := by
  have hline : ∀ c ∈ more.reverse, (c != '\n') = true := by
    intro c hc
    simpa using fun heq : c = '\n' => h (heq ▸ List.mem_reverse.mp hc)
  rw [columnBehind, columnBehind, List.reverse_append, List.takeWhile_append_of_pos hline,
    List.length_append, List.length_reverse]
  omega

/-- The text of some lexemes. -/
abbrev textOf (lexemes : List Lexeme) : List Char := lexemes.flatMap Lexeme.text

theorem textOf_append (first second : List Lexeme) :
    textOf (first ++ second) = textOf first ++ textOf second := List.flatMap_append

theorem Lexer.State.advance_behind (s : State) (text more : List Char)
    (hline : s.line = lineBehind text) (hcolumn : s.column = columnBehind text) :
    (s.advance more).line = lineBehind (text ++ more) ∧
      (s.advance more).column = columnBehind (text ++ more) := by
  unfold State.advance
  induction more generalizing s text with
  | nil => simp [hline, hcolumn]
  | cons c rest ih =>
      rw [List.foldl_cons, List.append_cons]
      refine ih _ (text ++ [c]) ?_ ?_
      · rw [lineBehind_concat]
        split <;> simp [hline]
      · rw [columnBehind_concat]
        split <;> simp [hcolumn]

/-! ## Markers -/

/-- The lexeme is a marker for a line, and perhaps for a file. -/
def Lexeme.Marks (lexeme : Lexeme) (n : Nat) (name : Option (List Char)) : Prop :=
  lexeme.cls = .directive ∧ Directive.Marker (lexeme.text.drop 1) n name

theorem Lexeme.marker?_eq_some_iff {lexeme : Lexeme} {n : Nat} {name : Option (List Char)} :
    lexeme.marker? = some (n, name) ↔ lexeme.Marks n name := by
  rw [Marks, ← Directive.ofBody_eq_lineMarker_iff]
  unfold marker?
  split
  · rename_i hcls
    split
    · rename_i line file hbody
      rw [hbody, Option.some.injEq, Prod.mk.injEq, Directive.lineMarker.injEq, and_iff_right hcls]
    · rename_i hbody
      exact ⟨nofun, fun h => (hbody _ _ h.2).elim⟩
  · rename_i hcls
    exact ⟨nofun, fun h => (hcls h.1).elim⟩

theorem Lexeme.marker?_eq_none {lexeme : Lexeme} (h : ∀ n name, ¬lexeme.Marks n name) :
    lexeme.marker? = none := by
  refine Option.eq_none_iff_forall_ne_some.mpr ?_
  rintro ⟨n, name⟩ hmarker
  exact h n name (marker?_eq_some_iff.mp hmarker)

/-- The last lexeme of a kind is the one that was read last, or was there before. -/
theorem last_concat {p : Lexeme → Prop} {before front since : List Lexeme} {lexeme last : Lexeme}
    (hsplit : before ++ [lexeme] = front ++ last :: since) (hlast : ∀ other ∈ since, ¬p other) :
    since = [] ∧ front = before ∧ last = lexeme ∨
      ¬p lexeme ∧ ∃ between, since = between ++ [lexeme] ∧ before = front ++ last :: between := by
  rcases List.eq_nil_or_concat since with rfl | ⟨between, other, rfl⟩
  · obtain ⟨rfl, hsame⟩ := List.append_inj' hsplit rfl
    exact .inl ⟨rfl, rfl, (List.singleton_inj.mp hsame).symm⟩
  · rw [List.concat_eq_append] at hsplit hlast ⊢
    rw [← List.cons_append, ← List.append_assoc] at hsplit
    obtain ⟨rfl, hsame⟩ := List.append_inj' hsplit rfl
    obtain rfl := List.singleton_inj.mp hsame
    exact .inr ⟨hlast lexeme (by simp), between, rfl, rfl⟩

/-- What the text in front of a place says of its position.  The counts, the number behind
the marker's line and their sum are cut off at the largest word; on the marker's own line
nothing is added. -/
structure Lexed.At (lexed : Lexed) (file : FileId) (before : List Lexeme) (pos : Position) :
    Prop where
  column : pos.column = saturate (columnBehind (textOf before))
  unmarked : (∀ lexeme ∈ before, ∀ n name, ¬lexeme.Marks n name) →
    pos.line = saturate (lineBehind (textOf before))
  marked : ∀ front marker since n name, before = front ++ marker :: since → marker.Marks n name →
    (∀ lexeme ∈ since, ∀ n name, ¬lexeme.Marks n name) →
    pos.line = saturate (n + (saturate (lineBehind (textOf before)) -
      saturate (lineBehind (textOf front) + 1)))
  unnamed : (∀ lexeme ∈ before, ∀ n name, ¬lexeme.Marks n (some name)) → pos.file = file
  named : ∀ front marker since n name, before = front ++ marker :: since →
    marker.Marks n (some name) → (∀ lexeme ∈ since, ∀ n name, ¬lexeme.Marks n (some name)) →
    lexed.files.find? ⟨String.ofList name⟩ = some pos.file

/-! ## Files -/

namespace FileTable

variable {table grown : FileTable} {path : Path} {id : FileId}

theorem find?_grows (h : table.find? path = some id) (hg : table.Grows grown) :
    grown.find? path = some id := by
  obtain ⟨more, hmore⟩ := hg
  obtain ⟨i, hi, rfl⟩ := Option.map_eq_some_iff.mp h
  rw [find?, ← hmore, List.findIdx?_append, hi]
  rfl

theorem find?_add (table : FileTable) (path : Path) :
    (table.add path).2.find? path = some (table.add path).1 := by
  unfold add
  split
  · rename_i id hfound
    exact hfound
  · rename_i hnone
    have hpaths : table.paths.findIdx? (·.same path) = none := by simpa [find?] using hnone
    simp [find?, List.findIdx?_append, hpaths]

end FileTable

namespace Lexer

/-! ## What the lexer keeps -/

theorem saturate_saturate_add_one (n : Nat) : saturate (saturate n + 1) = saturate (n + 1) := by
  simp only [saturate]
  omega

/-- What a lexeme makes of the mapping of lines and files. -/
structure State.Remaps (s : State) (lexeme : Lexeme) (s' : State) : Prop where
  same : (∀ n name, ¬lexeme.Marks n name) → s'.marker = s.marker
  moved : ∀ n name, lexeme.Marks n name →
    s'.marker.physical = saturate (s.line + 1) ∧ s'.marker.mapped = n
  stays : (∀ n name, ¬lexeme.Marks n (some name)) →
    s'.marker.file = s.marker.file ∧ s'.files = s.files
  goes : ∀ n name, lexeme.Marks n (some name) →
    s'.files.find? ⟨String.ofList name⟩ = some s'.marker.file

theorem State.Reads.remaps {s s' : State} {lexeme : Lexeme} (h : s.Reads lexeme s') :
    s.Remaps lexeme s' where
  same hnone := (h.unmarked (marker?_eq_none hnone)).1
  moved n name hmarks := by
    cases name with
    | none =>
        rw [(h.marked n (marker?_eq_some_iff.mpr hmarks)).1]
        exact ⟨saturate_saturate_add_one _, rfl⟩
    | some name =>
        rw [(h.named n name (marker?_eq_some_iff.mpr hmarks)).1]
        exact ⟨saturate_saturate_add_one _, rfl⟩
  stays hnone := by
    cases hmarker : lexeme.marker? with
    | none =>
        obtain ⟨hmarker, hfiles⟩ := h.unmarked hmarker
        exact ⟨congrArg LineMarker.file hmarker, hfiles⟩
    | some found =>
        obtain ⟨n, _ | name⟩ := found
        · obtain ⟨hmarker, hfiles⟩ := h.marked n hmarker
          rw [hmarker]
          exact ⟨rfl, hfiles⟩
        · exact absurd (marker?_eq_some_iff.mp hmarker) (hnone n name)
  goes n name hmarks := by
    obtain ⟨hmarker, hfiles⟩ := h.named n name (marker?_eq_some_iff.mpr hmarks)
    rw [hmarker, hfiles]
    exact FileTable.find?_add _ _

theorem step_remaps (s : State) (lexeme : Lexeme) : s.Remaps lexeme (step s lexeme) := by
  obtain ⟨same, moved, stays, goes⟩ := (read_reads s lexeme).remaps
  have hmarker := (advance_moves (read s lexeme) lexeme.text).marker
  have hfiles := files_advance (read s lexeme) lexeme.text
  constructor
  all_goals rw [step, hmarker]
  · exact same
  · exact moved
  · rw [hfiles]
    exact stays
  · rw [hfiles]
    exact goes

/-- The lexer knows the place behind the lexemes, and the last marker among them. -/
structure State.Tracks (file : FileId) (before : List Lexeme) (s : State) : Prop where
  line : s.line = lineBehind (textOf before)
  column : s.column = columnBehind (textOf before)
  unmarked : (∀ lexeme ∈ before, ∀ n name, ¬lexeme.Marks n name) →
    s.marker.physical = 1 ∧ s.marker.mapped = 1
  marked : ∀ front marker since n name, before = front ++ marker :: since → marker.Marks n name →
    (∀ lexeme ∈ since, ∀ n name, ¬lexeme.Marks n name) →
    s.marker.physical = saturate (lineBehind (textOf front) + 1) ∧ s.marker.mapped = n
  unnamed : (∀ lexeme ∈ before, ∀ n name, ¬lexeme.Marks n (some name)) → s.marker.file = file
  named : ∀ front marker since n name, before = front ++ marker :: since →
    marker.Marks n (some name) → (∀ lexeme ∈ since, ∀ n name, ¬lexeme.Marks n (some name)) →
    s.files.find? ⟨String.ofList name⟩ = some s.marker.file

namespace State.Tracks

variable {file : FileId} {before : List Lexeme} {s : State}

theorem start (file : FileId) (files : FileTable) : (State.start file files).Tracks file [] where
  line := rfl
  column := rfl
  unmarked _ := ⟨rfl, rfl⟩
  marked front marker since n name h := by simp at h
  unnamed _ := rfl
  named front marker since n name h := by simp at h

theorem step (h : s.Tracks file before) (lexeme : Lexeme) :
    (step s lexeme).Tracks file (before ++ [lexeme]) := by
  have hread := read_reads s lexeme
  have hremaps := step_remaps s lexeme
  have htext : textOf (before ++ [lexeme]) = textOf before ++ lexeme.text := by
    rw [textOf_append, textOf, textOf, List.flatMap_singleton]
  obtain ⟨hline, hcolumn⟩ := (read s lexeme).advance_behind (textOf before) lexeme.text
    (hread.line.trans h.line) (hread.column.trans h.column)
  constructor
  · rw [htext]
    exact hline
  · rw [htext]
    exact hcolumn
  · intro hnone
    rw [List.forall_mem_append, List.forall_mem_singleton] at hnone
    rw [hremaps.same hnone.2]
    exact h.unmarked hnone.1
  · intro front marker since n name hsplit hmarks hlast
    have hcases := last_concat (p := fun lexeme => ∃ n name, lexeme.Marks n name) hsplit
      fun other hother ⟨m, file, hmarks⟩ => hlast other hother m file hmarks
    obtain ⟨rfl, rfl, rfl⟩ | ⟨hnone, between, rfl, rfl⟩ := hcases
    · rw [← h.line]
      exact hremaps.moved n name hmarks
    · rw [hremaps.same fun m file hmarks => hnone ⟨m, file, hmarks⟩]
      exact h.marked front marker between n name rfl hmarks
        fun other hother => hlast other (List.mem_append_left _ hother)
  · intro hnone
    rw [List.forall_mem_append, List.forall_mem_singleton] at hnone
    exact (hremaps.stays hnone.2).1.trans (h.unnamed hnone.1)
  · intro front marker since n name hsplit hmarks hlast
    have hcases := last_concat (p := fun lexeme => ∃ n name, lexeme.Marks n (some name)) hsplit
      fun other hother ⟨m, file, hmarks⟩ => hlast other hother m file hmarks
    obtain ⟨rfl, rfl, rfl⟩ | ⟨hnone, between, rfl, rfl⟩ := hcases
    · exact hremaps.goes n name hmarks
    · obtain ⟨hfile, hfiles⟩ := hremaps.stays fun m file hmarks => hnone ⟨m, file, hmarks⟩
      rw [hfile, hfiles]
      exact h.named front marker between n name rfl hmarks
        fun other hother => hlast other (List.mem_append_left _ hother)

theorem behind (file : FileId) (files : FileTable) (before : List Lexeme) :
    (behind (.start file files) before).Tracks file before := by
  induction before using List.reverseRecOn with
  | nil => exact .start file files
  | append_singleton before lexeme ih =>
      rw [behind_concat]
      exact ih.step lexeme

theorem pos_eq (h : s.Tracks file before) : s.pos = s.marker.position
    (saturate (lineBehind (textOf before))) (saturate (columnBehind (textOf before))) := by
  rw [State.pos, h.line, h.column]

/-- So the position is where the text in front says. -/
theorem at_pos (h : s.Tracks file before) {lexed : Lexed} (hfiles : s.files.Grows lexed.files) :
    lexed.At file before s.pos where
  column := by rw [h.pos_eq, LineMarker.position_column]
  unmarked hnone := by
    obtain ⟨hphysical, hmapped⟩ := h.unmarked hnone
    have hfirst : 1 ≤ lineBehind (textOf before) := Nat.le_add_right _ _
    rw [h.pos_eq]
    simp only [LineMarker.position, hphysical, hmapped, saturate]
    omega
  marked front marker since n name hsplit hmarks hlast := by
    obtain ⟨hphysical, hmapped⟩ := h.marked front marker since n name hsplit hmarks hlast
    rw [h.pos_eq, LineMarker.position, hphysical, hmapped]
  unnamed hnone := h.unnamed hnone
  named front marker since n name hsplit hmarks hlast :=
    FileTable.find?_grows (h.named front marker since n name hsplit hmarks hlast) hfiles

end State.Tracks

theorem State.Reads.files_grow {s s' : State} {lexeme : Lexeme} (h : s.Reads lexeme s') :
    s.files.Grows s'.files := by
  cases hmarker : lexeme.marker? with
  | none =>
      rw [(h.unmarked hmarker).2]
      exact .refl _
  | some found =>
      obtain ⟨n, _ | name⟩ := found
      · rw [(h.marked n hmarker).2]
        exact .refl _
      · rw [(h.named n name hmarker).2]
        exact (s.files.add_spec _).1

theorem files_behind (s : State) (before since : List Lexeme) :
    (behind s before).files.Grows (behind s (before ++ since)).files := by
  induction since using List.reverseRecOn with
  | nil =>
      rw [List.append_nil]
      exact .refl _
  | append_singleton since lexeme ih =>
      rw [← List.append_assoc, behind_concat, files_advance]
      exact ih.trans (read_reads _ lexeme).files_grow

theorem marker_behind (s : State) (before : List Lexeme) {since : List Lexeme}
    (h : ∀ lexeme ∈ since, ∀ n name, ¬lexeme.Marks n name) :
    (behind s (before ++ since)).marker = (behind s before).marker := by
  induction since using List.reverseRecOn with
  | nil => rw [List.append_nil]
  | append_singleton since lexeme ih =>
      rw [List.forall_mem_append, List.forall_mem_singleton] at h
      rw [← List.append_assoc, behind_concat]
      exact ((step_remaps _ lexeme).same h.2).trans (ih h.1)

/-! ## All places of a text -/

end Lexer

/-- A marker is passed over in silence. -/
theorem Lexeme.not_marks_of_read {lexeme : Lexeme}
    (h : lexeme.kind?.isSome ∨ lexeme.error?.isSome) : ∀ n name, ¬lexeme.Marks n name := by
  rintro n name ⟨hcls, hmarker⟩
  have hbody := Directive.ofBody_eq_lineMarker_iff.mpr hmarker
  simp only [kind?, error?, hcls, hbody, Option.isSome_none, Bool.false_eq_true, or_self] at h

theorem exists_last_marker (before : List Lexeme) :
    (∀ lexeme ∈ before, ∀ n name, ¬lexeme.Marks n name) ∨
      ∃ front marker since n name, before = front ++ marker :: since ∧ marker.Marks n name ∧
        ∀ lexeme ∈ since, ∀ n name, ¬lexeme.Marks n name := by
  induction before using List.reverseRecOn with
  | nil => exact .inl fun _ h => absurd h List.not_mem_nil
  | append_singleton before lexeme ih =>
      by_cases hmarks : ∃ n name, lexeme.Marks n name
      · obtain ⟨n, name, hmarks⟩ := hmarks
        exact .inr ⟨before, lexeme, [], n, name, rfl, hmarks, fun _ h => absurd h List.not_mem_nil⟩
      · have hlast : ∀ n name, ¬lexeme.Marks n name := fun n name h => hmarks ⟨n, name, h⟩
        obtain hnone | ⟨front, marker, since, n, name, rfl, hmarker, hsince⟩ := ih
        · refine .inl (List.forall_mem_append.mpr ⟨hnone, ?_⟩)
          exact List.forall_mem_singleton.mpr hlast
        · refine .inr ⟨front, marker, since ++ [lexeme], n, name, by simp, hmarker, ?_⟩
          exact List.forall_mem_append.mpr ⟨hsince, List.forall_mem_singleton.mpr hlast⟩

/-- What is read behind a marker is on a later line. -/
theorem lineBehind_lt_of_marks {text : List Char} {before front since : List Lexeme}
    {lexeme marker : Lexeme} {n : Nat} {name : Option (List Char)}
    (hplace : before ++ [lexeme] <+: chop text)
    (hread : lexeme.kind?.isSome ∨ lexeme.error?.isSome)
    (hsplit : before = front ++ marker :: since) (hmarks : marker.Marks n name) :
    lineBehind (textOf front) < lineBehind (textOf before) := by
  obtain ⟨rest, hrest⟩ := hplace
  have hchop : chop text = front ++ marker :: (since ++ lexeme :: rest) := by
    rw [← hrest, hsplit]
    simp
  rcases newline_after_directive hchop hmarks.1 with hend | ⟨more, hmore⟩
  · simp at hend
  · cases since with
    | nil =>
        obtain ⟨rfl, -⟩ := List.cons.inj hmore
        simp [kind?, error?] at hread
    | cons newline since =>
        obtain ⟨rfl, -⟩ := List.cons.inj hmore
        rw [hsplit, textOf_append, lineBehind_append]
        simp

theorem Lexer.State.Tracks.physical_le {file : FileId} {before : List Lexeme} {s : State}
    (h : s.Tracks file before) {text : List Char} {lexeme : Lexeme}
    (hplace : before ++ [lexeme] <+: chop text)
    (hread : lexeme.kind?.isSome ∨ lexeme.error?.isSome) :
    s.marker.physical ≤ lineBehind (textOf before) := by
  obtain hnone | ⟨front, marker, since, n, name, hsplit, hmarks, hlast⟩ :=
    exists_last_marker before
  · rw [(h.unmarked hnone).1]
    exact Nat.le_add_right _ _
  · rw [(h.marked front marker since n name hsplit hmarks hlast).1]
    exact Nat.le_trans (Nat.min_le_left _ _) (lineBehind_lt_of_marks hplace hread hsplit hmarks)

/-- Up to the next marker a later place has a greater position. -/
theorem Lexer.behind_increases {text : List Char} {before since : List Lexeme} {lexeme : Lexeme}
    (file : FileId) (files : FileTable) (hplace : before ++ lexeme :: since <+: chop text)
    (hread : lexeme.kind?.isSome ∨ lexeme.error?.isSome)
    (hsince : ∀ other ∈ since, ∀ n name, ¬other.Marks n name)
    (hphysical : lineBehind (textOf before) < maxWord) :
    let here := (behind (.start file files) before).pos
    let later := (behind (.start file files) (before ++ lexeme :: since)).pos
    here.line < maxWord → here.column < maxWord →
    here.file = later.file ∧
      (here.line < later.line ∨ here.line = later.line ∧ here.column < later.column) := by
  intro here later hline hcolumn
  have htracks := State.Tracks.behind file files before
  have hlater := State.Tracks.behind file files (before ++ lexeme :: since)
  have hmarker : (behind (.start file files) (before ++ lexeme :: since)).marker =
      (behind (.start file files) before).marker :=
    marker_behind _ _ (List.forall_mem_cons.mpr ⟨not_marks_of_read hread, hsince⟩)
  have hfirst : before ++ [lexeme] <+: chop text :=
    List.IsPrefix.trans ⟨since, by simp⟩ hplace
  have hle := htracks.physical_le hfirst hread
  have hsome : lexeme.text ≠ [] := text_ne_nil_of_mem_chop (hplace.subset (by simp))
  have hhere : here = _ := htracks.pos_eq
  have hthere : later = _ := hlater.pos_eq
  rw [hmarker, textOf_append, lineBehind_append] at hthere
  rw [hhere] at hline hcolumn
  rw [hhere, hthere]
  refine ⟨rfl, ?_⟩
  simp only [LineMarker.position, saturate] at hline hcolumn ⊢
  by_cases hbreak : '\n' ∈ textOf (lexeme :: since)
  · have hcount := List.count_pos_iff.mpr hbreak
    omega
  · have hcount := List.count_eq_zero.mpr hbreak
    have hlength : 1 ≤ (textOf (lexeme :: since)).length := by
      rw [textOf, List.flatMap_cons, List.length_append]
      have hpos := List.length_pos_iff.mpr hsome
      omega
    rw [columnBehind_append hbreak]
    omega

/-- What is read of the lexemes of a text stands where the text in front of each says. -/
structure Lexed.Exact (lexed : Lexed) (file : FileId) (lexemes : List Lexeme)
    (spot : List Lexeme → Position) : Prop where
  tokens : lexed.tokens = (placed [] lexemes).filterMap fun place =>
    place.2.kind?.map fun kind => (⟨kind, spot place.1⟩ : Token)
  errors : lexed.errors = (placed [] lexemes).filterMap fun place =>
    place.2.error?.map fun kind => (⟨spot place.1, kind⟩ : LexError)
  eof : lexed.eof = spot lexemes
  placed : ∀ before, before <+: lexemes → lexed.At file before (spot before)
  /-- Only the end of the text can stand on the line of a marker. -/
  below : ∀ before lexeme, before ++ [lexeme] <+: lexemes →
    (lexeme.kind?.isSome ∨ lexeme.error?.isSome) →
    ∀ front marker since n name, before = front ++ marker :: since → marker.Marks n name →
      lineBehind (textOf front) < lineBehind (textOf before)
  /-- Up to the next marker positions increase, until they are cut off. -/
  increasing : ∀ before lexeme since, before ++ lexeme :: since <+: lexemes →
    (lexeme.kind?.isSome ∨ lexeme.error?.isSome) →
    (∀ other ∈ since, ∀ n name, ¬other.Marks n name) →
    lineBehind (textOf before) < maxWord → (spot before).line < maxWord →
    (spot before).column < maxWord →
    (spot before).file = (spot (before ++ lexeme :: since)).file ∧
      ((spot before).line < (spot (before ++ lexeme :: since)).line ∨
        (spot before).line = (spot (before ++ lexeme :: since)).line ∧
          (spot before).column < (spot (before ++ lexeme :: since)).column)

theorem Lexer.lex_exact (text : String) (file : FileId) (files : FileTable) :
    ∃ spot, (lex text file files).Exact file (chop text.toList) spot := by
  refine ⟨fun before => (behind (.start file files) before).pos, ?_⟩
  have htokens := tokens_behind (.start file files) [] (chop text.toList)
  have herrors := errors_behind (.start file files) [] (chop text.toList)
  refine ⟨htokens, herrors, rfl, ?_, ?_, ?_⟩
  · rintro before ⟨rest, hrest⟩
    refine (State.Tracks.behind file files before).at_pos ?_
    have hgrows := files_behind (.start file files) before rest
    rwa [hrest] at hgrows
  · intro before lexeme hplace hread front marker since n name hsplit hmarks
    exact lineBehind_lt_of_marks hplace hread hsplit hmarks
  · intro before lexeme since hplace hread hsince hphysical hline hcolumn
    exact behind_increases file files hplace hread hsince hphysical hline hcolumn

/-- A text can end on the line of its marker.  The end has the number of the marker then,
and not the one before it. -/
theorem Lexer.eof_on_marker_line :
    let marker : Lexeme := ⟨.directive, "#line 5".toList⟩
    let line : Int := lineBehind (textOf [marker])
    chop "#line 5".toList = [marker] ∧ marker.Marks 5 none ∧
      ((lex "#line 5" .primary .empty).eof.line : Int) ≠
        min (5 + (line - (lineBehind (textOf []) + 1))) maxWord := by
  intro marker line
  refine ⟨by decide +kernel, marker?_eq_some_iff.mp (by decide +kernel), by decide +kernel⟩

end SslFrontend
