import Mathlib.Data.List.Basic
import SslFrontend.Diagnostic.Terminal

/-! # Colours do not change the text

With colours on, pieces of the text stand between escape sequences.  A reader that
removes the sequences (`Terminal.stripped`) comes to what is written with colours off.

Removing sequences can be done piece by piece: what a piece comes to does not depend on
what is written behind it (`Terminal.Shows`).  So every part of the output is looked at
by itself.  Main statement: `Terminal.colors_strip`.
-/

namespace SslFrontend.Terminal

/-- The character that escape sequences start with. -/
def escapeChar : Char := '\x1b'

/-- The number of characters that a sequence takes behind its first one, if one starts
here: a bracket, parameters, and the letter `m`. -/
def sequence? (first : Char) (rest : List Char) : Option Nat :=
  match first, rest with
  | '\x1b', '[' :: inside =>
    if 'm' ∈ inside then some ((inside.takeWhile (· != 'm')).length + 2) else none
  | _, _ => none

/-- A text without its escape sequences, behind so many characters that belong to one. -/
def strippedFrom : Nat → List Char → List Char
  | _, [] => []
  | inside + 1, _ :: rest => strippedFrom inside rest
  | 0, c :: rest =>
    match sequence? c rest with
    | some length => strippedFrom length rest
    | none => c :: strippedFrom 0 rest

/-- A text without its escape sequences. -/
def stripped (text : List Char) : List Char := strippedFrom 0 text

theorem strippedFrom_append (inside behind : List Char) :
    strippedFrom inside.length (inside ++ behind) = stripped behind := by
  induction inside with
  | nil => rfl
  | cons c inside ih => exact ih

/-- What starts no sequence stays. -/
theorem stripped_cons {c : Char} (h : c ≠ escapeChar) (rest : List Char) :
    stripped (c :: rest) = c :: stripped rest := by
  have hnone : sequence? c rest = none := by
    unfold sequence?
    split
    · exact absurd rfl h
    · rfl
  rw [stripped, strippedFrom, hnone]
  rfl

/-- A whole sequence goes. -/
theorem stripped_sequence {parameters : List Char} (h : 'm' ∉ parameters) (behind : List Char) :
    stripped (escapeChar :: '[' :: parameters ++ 'm' :: behind) = stripped behind := by
  have hlength : sequence? escapeChar ('[' :: parameters ++ 'm' :: behind) =
      some ('[' :: parameters ++ ['m']).length := by
    have htake : (parameters ++ 'm' :: behind).takeWhile (· != 'm') = parameters := by
      rw [List.takeWhile_append_of_pos fun c hc => by simpa using ne_of_mem_of_not_mem hc h]
      simp
    simp [sequence?, escapeChar, htake]
  rw [List.cons_append, stripped, strippedFrom, hlength, ← strippedFrom_append ('[' :: parameters ++ ['m'])]
  simp

/-! ## Pieces of the output -/

/-- Without its escape sequences, and whatever is written behind it, a piece of coloured
text is the plain one. -/
def Shows (colored plain : String) : Prop :=
  ∀ behind, stripped (colored.toList ++ behind) = plain.toList ++ stripped behind

/-- A text without the character that starts sequences. -/
def Plain (text : String) : Prop := escapeChar ∉ text.toList

instance (text : String) : Decidable (Plain text) := inferInstanceAs (Decidable (_ ∉ _))

theorem Plain.append {first second : String} (h₁ : Plain first) (h₂ : Plain second) :
    Plain (first ++ second) := by
  rw [Plain, String.toList_append, List.mem_append]
  exact fun h => h.elim h₁ h₂

theorem plain_number (n : Nat) : Plain (toString n) := by
  intro h
  rw [Nat.toString_eq_repr, Nat.toList_repr] at h
  exact absurd (Nat.isDigit_of_mem_toDigits (by decide) (by decide) h) (by decide)

theorem plain_position (pos : Position) : Plain pos.text :=
  ((plain_number pos.line).append (by decide)).append (plain_number pos.column)

namespace Shows

variable {colored plain : String}

theorem empty : Shows "" "" := fun _ => rfl

theorem of_plain {text : String} (h : Plain text) : Shows text text := by
  intro behind
  have hall : ∀ c ∈ text.toList, c ≠ escapeChar := fun c hc => ne_of_mem_of_not_mem hc h
  generalize text.toList = chars at hall
  induction chars with
  | nil => rfl
  | cons c chars ih =>
      rw [List.cons_append, stripped_cons (hall c List.mem_cons_self),
        ih fun d hd => hall d (List.mem_cons_of_mem _ hd)]
      rfl

theorem append {colored' plain' : String} (h : Shows colored plain) (h' : Shows colored' plain') :
    Shows (colored ++ colored') (plain ++ plain') := by
  intro behind
  simp only [String.toList_append, List.append_assoc]
  rw [h, h']

/-- A sequence shows nothing. -/
theorem escape (parameters : String) (h : 'm' ∉ parameters.toList) :
    Shows (Terminal.escape parameters) "" := by
  intro behind
  have hchars : (Terminal.escape parameters).toList ++ behind =
      escapeChar :: '[' :: parameters.toList ++ 'm' :: behind := by
    simp [Terminal.escape, escapeChar]
  rw [hchars, stripped_sequence h]
  rfl

theorem painted {color text : String} (hcolor : Shows color "") (h : Plain text) :
    Shows (Terminal.painted true color text) (Terminal.painted false color text) := by
  have hshows := (hcolor.append (of_plain h)).append (escape "0" (by decide))
  rwa [String.empty_append, String.append_empty] at hshows

theorem join {α : Type} {f g : α → String} {items : List α}
    (h : ∀ item ∈ items, Shows (f item) (g item)) :
    Shows (String.join (items.map f)) (String.join (items.map g)) := by
  induction items with
  | nil => exact empty
  | cons item items ih =>
      simp only [List.map_cons, String.join_cons]
      exact (h item List.mem_cons_self).append
        (ih fun other hother => h other (List.mem_cons_of_mem _ hother))

end Shows

theorem severityColor_shows (severity : Severity) : Shows (severityColor severity) "" := by
  cases severity <;> exact .escape _ (by decide)

/-! ## Parts of the output -/

/-- No text of a diagnostic holds the character that starts sequences. -/
structure PlainDiagnostic (d : Diagnostic) : Prop where
  message : Plain d.message
  labels : ∀ l ∈ d.labels, Plain l.message
  notes : ∀ note ∈ d.notes, Plain note

variable {files : FileTable}

theorem plain_display (h : ∀ path ∈ files.paths, Plain path.text) (id : FileId) :
    Plain (files.display id) := by
  unfold FileTable.display
  cases hpath : files.path? id with
  | none =>
      show Plain "<unknown>"
      decide
  | some path => exact h path (List.mem_of_getElem? hpath)

theorem label_shows (hfiles : ∀ path ∈ files.paths, Plain path.text) {l : Label}
    (h : Plain l.message) : Shows (label files true l) (label files false l) := by
  have harrow : Plain (if l.isPrimary then "-->" else "   ") := by
    cases l.isPrimary <;> decide
  have hcolor : Shows (if l.isPrimary then red else blue) "" := by
    cases l.isPrimary <;> exact .escape _ (by decide)
  have hplace : Plain ("  " ++ (if l.isPrimary then "-->" else "   ") ++ " " ++
      files.display l.pos.file ++ ":" ++ l.pos.text ++ ": ") :=
    (((((Plain.append (by decide) harrow).append (by decide)).append
      (plain_display hfiles _)).append (by decide)).append (plain_position _)).append (by decide)
  exact ((Shows.of_plain hplace).append (.painted hcolor h)).append (.of_plain (by decide))

theorem note_shows {text : String} (h : Plain text) : Shows (note true text) (note false text) := by
  have hcolor : Shows bold "" := .escape _ (by decide)
  have htext : Plain (": " ++ text ++ "\n") := (Plain.append (by decide) h).append (by decide)
  exact ((Shows.of_plain (by decide)).append (.painted hcolor (by decide))).append (.of_plain htext)

theorem diagnostic_shows (hfiles : ∀ path ∈ files.paths, Plain path.text) {d : Diagnostic}
    (h : PlainDiagnostic d) : Shows (diagnostic files true d) (diagnostic files false d) := by
  have hseverity : Plain d.severity.text := by
    cases d.severity <;> decide
  have hcode : Plain ("[" ++ d.cause.text ++ "]") := by
    cases d.cause <;> decide
  have hbold : Shows bold "" := .escape _ (by decide)
  have hmessage : Plain (": " ++ d.message ++ "\n") :=
    (Plain.append (by decide) h.message).append (by decide)
  have hheader := ((Shows.painted (severityColor_shows d.severity) hseverity).append
    (.painted hbold hcode)).append (.of_plain hmessage)
  have hlabels := Shows.join fun l hl => label_shows hfiles (h.labels l hl)
  have hnotes := Shows.join fun text htext => note_shows (h.notes text htext)
  exact ((hheader.append hlabels).append hnotes).append (.of_plain (by decide))

theorem plain_warningsEmitted (warnings : Nat) : Plain (warningsEmitted warnings) := by
  have hplural : Plain (plural warnings) := by
    unfold plural
    split <;> decide
  exact (((plain_number warnings).append (by decide)).append hplural).append (by decide)

/-- Each of the forms of the summary shows the plain one. -/
theorem summary_shows (errors warnings : Nat) :
    Shows (summary true errors warnings) (summary false errors warnings) := by
  unfold summary
  split
  · have hpart : Plain (if errors = 1 then "previous error" else s!"{errors} previous errors") := by
      split
      · decide
      · exact (plain_number errors).append (by decide)
    have hrest : Plain (if 0 < warnings then "; " ++ warningsEmitted warnings else "") := by
      split
      · exact Plain.append (by decide) (plain_warningsEmitted warnings)
      · decide
    have hcolor : Shows red "" := .escape _ (by decide)
    have hlead : Plain ": aborting due to " := by decide
    have hend : Plain "\n" := by decide
    exact (Shows.painted hcolor (by decide)).append
      (.of_plain (((hlead.append hpart).append hrest).append hend))
  · split
    · have hcolor : Shows yellow "" := .escape _ (by decide)
      have hlead : Plain ": " := by decide
      have hend : Plain "\n" := by decide
      exact (Shows.painted hcolor (by decide)).append
        (.of_plain ((hlead.append (plain_warningsEmitted warnings)).append hend))
    · exact .empty

/-- Without its escape sequences, what is written with colours is what is written
without them. -/
theorem colors_strip (files : FileTable) (ds : List Diagnostic) (errors warnings : Nat)
    (hfiles : ∀ path ∈ files.paths, Plain path.text) (hds : ∀ d ∈ ds, PlainDiagnostic d) :
    stripped (diagnostics files true ds ++ summary true errors warnings).toList =
      (diagnostics files false ds ++ summary false errors warnings).toList := by
  have hshows := (Shows.join fun d hd => diagnostic_shows hfiles (hds d hd)).append
    (summary_shows errors warnings)
  have hall := hshows []
  rwa [List.append_nil, show stripped [] = [] from rfl, List.append_nil] at hall

/-- A warning in an included file, with a related label and a note. -/
def mixedUp : Diagnostic :=
  ((Diagnostic.warning .repeatedQualifier "`pure` given twice" ⟨⟨1⟩, 4, 2⟩ "again").withRelated
    ⟨⟨0⟩, 3, 1⟩ "first").withNote "[1;31m is no sequence by itself"

theorem colors_strip_mixedUp :
    ((∀ path ∈ (FileTable.ofPaths [⟨"main.ssl"⟩, ⟨"lib/defs.h"⟩]).paths, Plain path.text) ∧
      ∀ d ∈ [mixedUp], PlainDiagnostic d) ∧
    stripped (diagnostics (.ofPaths [⟨"main.ssl"⟩, ⟨"lib/defs.h"⟩]) true [mixedUp] ++
        summary true 2 1).toList =
      (diagnostics (.ofPaths [⟨"main.ssl"⟩, ⟨"lib/defs.h"⟩]) false [mixedUp] ++
        summary false 2 1).toList := by
  have hfiles : ∀ path ∈ (FileTable.ofPaths [⟨"main.ssl"⟩, ⟨"lib/defs.h"⟩]).paths,
      Plain path.text := by decide
  have hds : ∀ d ∈ [mixedUp], PlainDiagnostic d := by
    rintro d hd
    obtain rfl := List.mem_singleton.mp hd
    exact ⟨by decide, by decide, by decide⟩
  exact ⟨⟨hfiles, hds⟩, colors_strip _ _ 2 1 hfiles hds⟩

end SslFrontend.Terminal
