import Mathlib.Data.List.Basic
import SslFrontend.Proofs.IncludeExpansion
import SslFrontend.Proofs.Token.Apart
import SslFrontend.Proofs.Token.Lines
import SslFrontend.Proofs.Token.Markers
import SslFrontend.Proofs.Token.Reading
import SslFrontend.Token.Lexer

/-! # Including is pasting

Each file is cut into lexemes by itself, and the tokens of an included file stand in
place of its directive.  Where the texts are whole lines that is what pasting the file
in place of the directive comes to, except for the positions.

What a text comes to with the positions forgotten does not depend on the file that it
is in, nor on the files that were met before (`bare_expand`).  The diagnostics of a text
do not hold its lexical errors themselves, but the kind of each error can be told from
its diagnostic (`LexError.isLexical_diagnostic`).  Main statement:
`TokenStream.included_pasted`.
-/

namespace SslFrontend

/-- The diagnostic with its positions forgotten. -/
def Diagnostic.unplaced (d : Diagnostic) : Diagnostic :=
  { d with labels := d.labels.map fun label => { label with pos := .unknown } }

/-- Whether the diagnostic reports a lexical error of a kind. -/
def Diagnostic.isLexical (kind : LexError.Kind) (d : Diagnostic) : Bool :=
  d.unplaced == LexError.diagnostic ⟨.unknown, kind⟩

namespace LexError

/-- The number that hexadecimal digits write. -/
theorem foldl_hexValue_toDigits (n : Nat) :
    (Nat.toDigits 16 n).foldl (fun n c => n * 16 + Lexer.hexValue c) 0 = n := by
  have hdigit : ∀ d < 16, Lexer.hexValue (Nat.digitChar d) = d := by decide
  induction n using Nat.strongRecOn with
  | ind n ih =>
      rw [Nat.toDigits_eq_if (by decide)]
      split
      · rename_i hn
        simp [hdigit n hn]
      · have hrest := ih (n / 16) (by omega)
        rw [List.foldl_append, hrest, List.foldl_cons, List.foldl_nil, hdigit _ (by omega)]
        omega

/-- The character behind a backslash that stands for another one. -/
def unescapedLetter : Char → Char
  | 't' => '\t'
  | 'r' => '\r'
  | 'n' => '\n'
  | c => c

/-- The character that was escaped: one by itself, one of two, or the number of one. -/
def unescaped : List Char → Char
  | [] => '\x00'
  | [c] => c
  | [_, c] => unescapedLetter c
  | _ :: _ :: _ :: digits =>
    Char.ofNat (digits.dropLast.foldl (fun n c => n * 16 + Lexer.hexValue c) 0)

theorem unescaped_escapedChar (c : Char) : unescaped (escapedChar c).toList = c := by
  unfold escapedChar
  split
  case h_7 =>
    split
    · rw [Char.toString, String.toList_singleton]
      rfl
    · have hchars : ("\\u\x7b" ++ String.ofList (Nat.toDigits 16 c.toNat) ++ "\x7d").toList =
          '\\' :: 'u' :: '\x7b' :: (Nat.toDigits 16 c.toNat ++ ['\x7d']) := by
        simp
      rw [hchars, unescaped, List.dropLast_concat, foldl_hexValue_toDigits, Char.ofNat_toNat]
  all_goals decide
namespace Kind

/-- The message names what is wrong, and so it tells the kind. -/
theorem eq_of_message {kind other : Kind} (hcause : kind.cause = other.cause)
    (hmessage : kind.message = other.message) : kind = other := by
  have hframed : ∀ {before after s t : String},
      before ++ s ++ after = before ++ t ++ after → s = t :=
    fun h => (String.append_right_inj _).mp ((String.append_left_inj _).mp h)
  have hunknown : ∀ name name',
      (unknownDirective name).message ≠ (malformedDirective name').message := by
    intro name name' h
    have hchars : ("unknown preprocessor directive `#" ++ name ++ "`").toList =
        ("malformed `#" ++ name' ++ "` directive").toList := congrArg String.toList h
    simp only [String.toList_append, List.append_assoc] at hchars
    have hhead := congrArg List.head? hchars
    simp at hhead
  match kind, other, hcause with
  | invalidChar c, invalidChar d, _ =>
      have hescaped : escapedChar c = escapedChar d := hframed hmessage
      rw [← unescaped_escapedChar c, hescaped, unescaped_escapedChar]
  | malformedNumber _, malformedNumber _, _ => exact congrArg malformedNumber (hframed hmessage)
  | unknownDirective _, unknownDirective _, _ => exact congrArg unknownDirective (hframed hmessage)
  | malformedDirective _, malformedDirective _, _ =>
      exact congrArg malformedDirective (hframed hmessage)
  | unterminatedString, unterminatedString, _ => rfl
  | nulInString, nulInString, _ => rfl
  | unterminatedComment, unterminatedComment, _ => rfl
  | unterminatedString, nulInString, _ => exact absurd hmessage (by decide)
  | nulInString, unterminatedString, _ => exact absurd hmessage (by decide)
  | unknownDirective _, malformedDirective _, _ => exact absurd hmessage (hunknown _ _)
  | malformedDirective _, unknownDirective _, _ => exact absurd hmessage.symm (hunknown _ _)

end Kind

theorem isLexical_diagnostic (error : LexError) (kind : Kind) :
    error.diagnostic.isLexical kind = true ↔ error.kind = kind := by
  constructor
  · intro h
    have hsame := beq_iff_eq.mp h
    exact Kind.eq_of_message (congrArg Diagnostic.cause hsame) (congrArg Diagnostic.message hsame)
  · rintro rfl
    exact beq_iff_eq.mpr rfl

end LexError

instance : DecidablePred TokenKind.IsIncluded
  | .included _ => isTrue trivial
  | .int _ | .float _ | .str _ | .ident _ | .keyword _ | .mark _ | .invalid | .eof => isFalse id

/-- Tokens and problems without their positions. -/
structure Bare where
  kinds : List TokenKind
  problems : List Diagnostic

namespace Bare

/-- The same tokens in the same order, and the same problems in any order. -/
structure Same (x y : Bare) : Prop where
  kinds : x.kinds = y.kinds
  problems : x.problems.Perm y.problems

def append (x y : Bare) : Bare := ⟨x.kinds ++ y.kinds, x.problems ++ y.problems⟩

namespace Same

variable {x y z : Bare}

theorem symm (h : x.Same y) : y.Same x := ⟨h.kinds.symm, h.problems.symm⟩

theorem trans (hxy : x.Same y) (hyz : y.Same z) : x.Same z :=
  ⟨hxy.kinds.trans hyz.kinds, hxy.problems.trans hyz.problems⟩

theorem append_left (w : Bare) (h : x.Same y) : (w.append x).Same (w.append y) :=
  ⟨congrArg (w.kinds ++ ·) h.kinds, h.problems.append_left w.problems⟩

/-- Each sort of problem is there as often. -/
theorem count (h : x.Same y) (p : Diagnostic → Bool) : x.problems.countP p = y.problems.countP p :=
  h.problems.countP_eq p

end Same

end Bare

def Spliced.bare (spliced : Spliced) : Bare :=
  ⟨spliced.tokens.map Token.kind, spliced.problems.map Diagnostic.unplaced⟩

namespace TokenStream

def bare (stream : TokenStream) : Bare :=
  ⟨stream.tokens.map Token.kind, stream.problems.items.map Diagnostic.unplaced⟩

/-- How many lexical errors of a kind the stream reports. -/
def lexicalErrors (stream : TokenStream) (kind : LexError.Kind) : Nat :=
  stream.problems.items.countP (Diagnostic.isLexical kind)

theorem lexicalErrors_eq {stream other : TokenStream} (h : stream.bare.Same other.bare)
    (kind : LexError.Kind) : stream.lexicalErrors kind = other.lexicalErrors kind := by
  have hcount := h.count (· == LexError.diagnostic ⟨.unknown, kind⟩)
  rwa [bare, bare, List.countP_map, List.countP_map] at hcount

end TokenStream

/-! ## The directive -/

namespace Directive

theorem includeWord_eq : includeWord = ['i', 'n', 'c', 'l', 'u', 'd', 'e'] := by
  simp [includeWord]

/-- The directive that includes the file of a name, without its `#`. -/
def inclusionBody (name : List Char) : List Char :=
  includeWord ++ ' ' :: '"' :: (name ++ ['"'])

theorem quoted?_append {name : List Char} (hname : '"' ∉ name) :
    quoted? ('"' :: (name ++ ['"'])) = some name := by
  have hall : ∀ c ∈ name, (c != '"') = true := by
    intro c hc
    simpa using fun heq : c = '"' => hname (heq ▸ hc)
  have hclosed : (name ++ ['"']).contains '"' = true := by simp
  show quoted?.upTo? '"' (name ++ ['"']) = some name
  rw [quoted?.upTo?, if_pos hclosed, List.takeWhile_append_of_pos hall]
  simp

/-- What is behind the word `include` names the file. -/
theorem ofBody_inclusionBody {name : List Char} (hname : name ≠ []) (hquote : '"' ∉ name) :
    ofBody (inclusionBody name) = .inclusion name := by
  have hlast : ∀ text : List Char, (text ++ '"' :: (name ++ ['"'])).getLast? = some '"' := by
    intro text
    rw [← List.cons_append, ← List.append_assoc, List.getLast?_concat]
  have hfirst : (inclusionBody name).head? = some 'i' := by
    rw [inclusionBody, includeWord_eq]
    rfl
  have hbody : Text.trim (inclusionBody name) = inclusionBody name :=
    Text.trim_eq_self hfirst (hlast (includeWord ++ [' '])) (by decide) (by decide)
  have hquoted : Text.trim ('"' :: (name ++ ['"'])) = '"' :: (name ++ ['"']) :=
    Text.trim_eq_self List.head?_cons (hlast []) (by decide) (by decide)
  have hargs : Text.trim (' ' :: '"' :: (name ++ ['"'])) = '"' :: (name ++ ['"']) := hquoted
  have hletters : ∀ c ∈ includeWord, Lexeme.isWordChar c = true := by
    rw [includeWord_eq, ← List.all_eq_true]
    decide
  have hword : (inclusionBody name).takeWhile Lexeme.isWordChar = includeWord := by
    rw [inclusionBody, List.takeWhile_append_of_pos hletters]
    simp [Lexeme.isWordChar, Lexeme.isWordStart, Lexeme.isDigit]
  have hdrop : (inclusionBody name).drop includeWord.length = ' ' :: '"' :: (name ++ ['"']) :=
    List.drop_left
  obtain ⟨rest, hrest⟩ := List.head?_eq_some_iff.mp hfirst
  obtain ⟨c, path, rfl⟩ := List.exists_cons_of_ne_nil hname
  unfold ofBody
  rw [hbody]
  simp only [hword, hdrop, hargs, quoted?_append hquote]
  rw [hrest]
  rfl

end Directive

/-! ## What a text comes to -/

namespace Include

/-- What a token comes to, told by what the directives come to. -/
def pasted (what : String → Bare) : TokenKind → Bare
  | .included name => what name
  | kind => ⟨[kind], []⟩

/-- What lexemes come to, told by what the directives come to. -/
def told (what : String → Bare) (lexemes : List Lexeme) : Bare :=
  let kinds := lexemes.filterMap Lexeme.kind?
  ⟨kinds.flatMap fun kind => (pasted what kind).kinds,
    (lexemes.filterMap Lexeme.error?).map (fun kind => LexError.diagnostic ⟨.unknown, kind⟩) ++
      kinds.flatMap fun kind => (pasted what kind).problems⟩

variable (fs : FileSystem) (options : IncludeOptions)

/-- What the directives of a file with a chain come to. -/
def what (beside : Option Path) (chain : List Path) (name : String) : Bare :=
  (outcome fs options ⟨"", .primary, beside, chain⟩ .empty name .unknown).bare

variable {fs options} {source : SourceText} {files : FileTable} {name : String} {pos : Position}

theorem bare_spliceTokens {one : FileTable → String → Position → Spliced} {what : String → Bare}
    (hone : ∀ files name pos, (one files name pos).bare = what name) (files : FileTable)
    (tokens : List Token) : (spliceTokens one files tokens).bare =
      ⟨(tokens.map Token.kind).flatMap fun kind => (pasted what kind).kinds,
        (tokens.map Token.kind).flatMap fun kind => (pasted what kind).problems⟩ := by
  induction tokens generalizing files with
  | nil => rfl
  | cons token rest ih =>
      unfold spliceTokens
      split
      · rename_i name hkind
        have hfirst := hone files name token.pos
        have hrest := ih (one files name token.pos).files
        simp only [Spliced.bare, Bare.mk.injEq] at hfirst hrest ⊢
        simp only [List.map_append, List.map_cons, List.flatMap_cons, hkind, pasted, ← hfirst,
          hrest.1, hrest.2, and_self]
      · rename_i hkind
        have hrest := ih files
        simp only [Spliced.bare, Bare.mk.injEq] at hrest ⊢
        have hplain : pasted what token.kind = ⟨[token.kind], []⟩ := by
          unfold pasted
          split
          · exact absurd ‹_› (hkind _)
          · rfl
        simp only [List.map_cons, List.flatMap_cons, hplain, hrest.1, hrest.2, List.cons_append,
          List.nil_append, and_self]

theorem unplaced_notFound (candidates : List Path) :
    (notFound candidates name pos).unplaced = notFound candidates name .unknown := by
  have hnotes : ∀ (d : Diagnostic) (paths : List Path),
      (paths.foldl (fun d path => d.withNote s!"searched {path.text}") d).unplaced =
        paths.foldl (fun d path => d.withNote s!"searched {path.text}") d.unplaced := by
    intro d paths
    induction paths generalizing d with
    | nil => rfl
    | cons path rest ih => exact ih _
  exact hnotes _ candidates

/-- Where a directive stands makes a difference only to where it is reported. -/
theorem open?_cases (fs : FileSystem) (options : IncludeOptions) (source : SourceText)
    (name : String) (pos : Position) :
    let elsewhere := open? fs options ⟨"", .primary, source.beside, source.chain⟩ name .unknown
    (∃ found, open? fs options source name pos = .ok found ∧ elsewhere = .ok found) ∨
      ∃ here there, open? fs options source name pos = .error here ∧ elsewhere = .error there ∧
        here.unplaced = there.unplaced := by
  unfold open?
  simp only
  cases (options.candidates source.beside ⟨name⟩).find? fs.isFile with
  | none => exact .inr ⟨_, _, rfl, rfl, (unplaced_notFound _).trans (unplaced_notFound _).symm⟩
  | some path =>
      by_cases hcycle : source.chain.any (fs.canonical path).same = true
      · simp only [if_pos hcycle]
        exact .inr ⟨_, _, rfl, rfl, rfl⟩
      · simp only [if_neg hcycle]
        cases fs.read path with
        | ok text => exact .inl ⟨_, rfl, rfl⟩
        | error error => exact .inr ⟨_, _, rfl, rfl, rfl⟩

theorem bare_expand_of {left : Nat} (h : source.chain.length + left = options.maxDepth + 1)
    (hone : ∀ files name pos, (outcome fs options source files name pos).bare =
      what fs options source.beside source.chain name) (files : FileTable) :
    (expand fs options left source files).1.bare =
      told (what fs options source.beside source.chain) (Lexeme.chop source.text.toList) := by
  have hspliced := bare_spliceTokens hone (Lexer.lex source.text source.file files).files
    (Lexer.lex source.text source.file files).tokens
  have herrors : ((Lexer.lex source.text source.file files).errors.map LexError.diagnostic).map
      Diagnostic.unplaced = ((Lexeme.chop source.text.toList).filterMap Lexeme.error?).map
        fun kind => LexError.diagnostic ⟨.unknown, kind⟩ := by
    rw [← Lexer.errorKinds_lex source.text source.file files, List.map_map, List.map_map]
    rfl
  rw [Lexer.kinds_lex] at hspliced
  simp only [Spliced.bare, Bare.mk.injEq] at hspliced
  rw [expand_eq h, told]
  simp only [Spliced.bare, List.map_append, herrors, hspliced.1, hspliced.2]

/-- What a directive comes to depends only on the directory and the chain of its file. -/
theorem bare_outcome {left : Nat} (h : source.chain.length + left = options.maxDepth + 1)
    (files : FileTable) (name : String) (pos : Position) :
    (outcome fs options source files name pos).bare =
      what fs options source.beside source.chain name := by
  -- Every file that is opened takes one of the levels that are left.
  induction left generalizing source files name pos with
  | zero =>
      have hdeep : options.maxDepth < source.chain.length := by omega
      rw [what, outcome, outcome, if_pos hdeep, if_pos hdeep]
      rfl
  | succ left ih =>
      have hopen : ¬options.maxDepth < source.chain.length := by omega
      have hinner : options.maxDepth - source.chain.length = left := by omega
      rw [what, outcome, outcome, if_neg hopen, if_neg hopen]
      unfold expandOne
      rcases open?_cases fs options source name pos with
        ⟨⟨path, text⟩, hhere, hthere⟩ | ⟨here, there, hhere, hthere, hsame⟩
      · have hlevels :
            (fs.canonical path :: source.chain).length + left = options.maxDepth + 1 := by
          rw [List.length_cons]
          omega
        have hfile : ∀ file files, (expand fs options left
            ⟨text, file, path.parent, fs.canonical path :: source.chain⟩ files).1.bare =
              told (what fs options path.parent (fs.canonical path :: source.chain))
                (Lexeme.chop text.toList) :=
          fun file files => @bare_expand_of fs options ⟨text, file, path.parent, _⟩ left hlevels
            (ih hlevels) files
        rw [hhere, hthere]
        simp only [hinner]
        exact (hfile _ _).trans (hfile _ _).symm
      · rw [hhere, hthere]
        simp only [Spliced.bare, List.map_cons, hsame, List.map_nil]

theorem bare_expand {left : Nat} (h : source.chain.length + left = options.maxDepth + 1)
    (files : FileTable) : (expand fs options left source files).1.bare =
      told (what fs options source.beside source.chain) (Lexeme.chop source.text.toList) :=
  bare_expand_of h (bare_outcome h) files

/-! ## Texts that are put together -/

/-- Each file reports its lexical errors before it follows its directives. -/
theorem told_append (what : String → Bare) (first second : List Lexeme) :
    (told what (first ++ second)).Same ((told what first).append (told what second)) where
  kinds := by simp only [told, Bare.append, List.filterMap_append, List.flatMap_append]
  problems := by
    simp only [told, Bare.append, List.filterMap_append, List.flatMap_append, List.map_append,
      List.append_assoc]
    exact .append_left _ (List.perm_append_comm_assoc _ _ _)

/-- Between other lexemes, what comes to the same can stand for each other. -/
theorem told_between {what : String → Bare} {inside inside' : List Lexeme}
    (h : told what inside = told what inside') (first last : List Lexeme) :
    (told what (first ++ (inside ++ last))).Same (told what (first ++ (inside' ++ last))) := by
  have hparts : ∀ part, (told what (first ++ (part ++ last))).Same
      ((told what first).append ((told what part).append (told what last))) := fun part =>
    (told_append what first (part ++ last)).trans (.append_left _ (told_append what part last))
  have hinside := hparts inside
  rw [h] at hinside
  exact hinside.trans (hparts inside').symm

/-- A file without directives comes to the same wherever it is included. -/
theorem told_congr {lexemes : List Lexeme}
    (h : ∀ kind ∈ lexemes.filterMap Lexeme.kind?, ¬kind.IsIncluded) (what what' : String → Bare) :
    told what lexemes = told what' lexemes := by
  have hpasted : ∀ kind ∈ lexemes.filterMap Lexeme.kind?, pasted what kind = pasted what' kind := by
    intro kind hkind
    cases kind with
    | included name => exact absurd trivial (h _ hkind)
    | _ => rfl
  simp only [told, List.flatMap_congr fun kind hkind => congrArg Bare.kinds (hpasted kind hkind),
    List.flatMap_congr fun kind hkind => congrArg Bare.problems (hpasted kind hkind)]

/-- The directive comes to what its name comes to. -/
theorem told_directive {name : String} (hname : name ≠ "") (hquote : '"' ∉ name.toList)
    (hnul : '\x00' ∉ name.toList) (what : String → Bare) :
    told what [⟨.directive, '#' :: Directive.inclusionBody name.toList⟩, ⟨.skipped, ['\n']⟩] =
      what name := by
  have hbody := Directive.ofBody_inclusionBody (by simpa using hname) hquote
  have hkind : Lexeme.kind? ⟨.directive, '#' :: Directive.inclusionBody name.toList⟩ =
      some (.included name) := by
    simp only [Lexeme.kind?, List.drop_succ_cons, List.drop_zero, hbody, if_neg hnul,
      String.ofList_toList]
  have herror : Lexeme.error? ⟨.directive, '#' :: Directive.inclusionBody name.toList⟩ = none := by
    simp only [Lexeme.error?, List.drop_succ_cons, List.drop_zero, hbody, if_neg hnul]
  have hbreak : Lexeme.kind? ⟨.skipped, ['\n']⟩ = none := rfl
  have hsilent : Lexeme.error? ⟨.skipped, ['\n']⟩ = none := rfl
  simp only [told, List.filterMap_cons, hkind, herror, hbreak, hsilent]
  simp [pasted]

/-- What a directive comes to that opens a file within the limit. -/
theorem what_of_open {beside : Option Path} {chain : List Path} {name text : String} {path : Path}
    (hfound : (options.candidates beside ⟨name⟩).find? fs.isFile = some path)
    (hclosed : chain.any (fs.canonical path).same = false) (hread : fs.read path = .ok text)
    (hdepth : chain.length ≤ options.maxDepth) :
    what fs options beside chain name = told
      (what fs options path.parent (fs.canonical path :: chain)) (Lexeme.chop text.toList) := by
  have hopen : open? fs options ⟨"", .primary, beside, chain⟩ name .unknown = .ok (path, text) := by
    simp only [open?, hfound, hclosed, hread, Bool.false_eq_true, if_false]
  rw [what, outcome, if_neg (Nat.not_lt.mpr hdepth), expandOne, hopen]
  let file : SourceText :=
    ⟨text, (FileTable.empty.add path).1, path.parent, fs.canonical path :: chain⟩
  have hlevels : file.chain.length + (options.maxDepth - chain.length) = options.maxDepth + 1 := by
    rw [List.length_cons]
    omega
  exact bare_expand hlevels _

end Include

namespace TokenStream

/-- The stream of a text has what its lexemes come to. -/
theorem bare_ofText (fs : FileSystem) (options : IncludeOptions) (text : String)
    (shown key : Path) : (ofText fs options text shown key).bare =
      Include.told (Include.what fs options shown.parent [key]) (Lexeme.chop text.toList) := by
  let primary : SourceText := ⟨text, (FileTable.empty.add shown).1, shown.parent, [key]⟩
  have hlevels : primary.chain.length + options.maxDepth = options.maxDepth + 1 := Nat.add_comm _ _
  exact Include.bare_expand hlevels (FileTable.empty.add shown).2

/-- A file that is whole lines, leaves no comment open and includes nothing can be pasted
in place of the directive that includes it, behind whole lines that leave no comment open. -/
theorem included_pasted (fs : FileSystem) (options : IncludeOptions) {a b name : String}
    (c : String) {shown key path : Path} (ha : Lexeme.Closed a.toList)
    (hb : Lexeme.Closed b.toList)
    (hplain : ∀ kind ∈ (Lexeme.chop b.toList).filterMap Lexeme.kind?, ¬kind.IsIncluded)
    (hname : name ≠ "") (hquote : '"' ∉ name.toList) (hbreak : '\n' ∉ name.toList)
    (hnul : '\x00' ∉ name.toList)
    (hfound : (options.candidates shown.parent ⟨name⟩).find? fs.isFile = some path)
    (hnew : (fs.canonical path).same key = false) (hread : fs.read path = .ok b)
    (hdepth : 1 ≤ options.maxDepth) :
    let including := ofText fs options (a ++ "#include \"" ++ name ++ "\"\n" ++ c) shown key
    let pasting := ofText fs options (a ++ b ++ c) shown key
    including.tokens.map Token.kind = pasting.tokens.map Token.kind ∧
      ∀ kind, including.lexicalErrors kind = pasting.lexicalErrors kind := by
  let line : List Lexeme :=
    [⟨.directive, '#' :: Directive.inclusionBody name.toList⟩, ⟨.skipped, ['\n']⟩]
  have hline : '\n' ∉ Directive.inclusionBody name.toList := by
    simp [Directive.inclusionBody, Directive.includeWord_eq, hbreak]
  have htext : (a ++ "#include \"" ++ name ++ "\"\n" ++ c).toList =
      a.toList ++ '#' :: (Directive.inclusionBody name.toList ++ '\n' :: c.toList) := by
    simp [Directive.inclusionBody, Directive.includeWord_eq]
  have hincluding : Lexeme.chop (a ++ "#include \"" ++ name ++ "\"\n" ++ c).toList =
      Lexeme.chop a.toList ++ (line ++ Lexeme.chop c.toList) := by
    rw [htext, Lexeme.chop_append ha, Lexeme.chop_directive hline]
    rfl
  have hpasting : Lexeme.chop (a ++ b ++ c).toList =
      Lexeme.chop a.toList ++ (Lexeme.chop b.toList ++ Lexeme.chop c.toList) := by
    rw [String.toList_append, String.toList_append, List.append_assoc, Lexeme.chop_append ha,
      Lexeme.chop_append hb]
  have hfile : Include.told (Include.what fs options shown.parent [key]) line =
      Include.told (Include.what fs options shown.parent [key]) (Lexeme.chop b.toList) := by
    have hclosed : [key].any (fs.canonical path).same = false := by simpa using hnew
    rw [Include.told_directive hname hquote hnul,
      Include.what_of_open hfound hclosed hread hdepth]
    exact Include.told_congr hplain _ _
  have hsame := Include.told_between hfile (Lexeme.chop a.toList) (Lexeme.chop c.toList)
  rw [← hincluding, ← hpasting, ← bare_ofText, ← bare_ofText] at hsame
  exact ⟨hsame.kinds, lexicalErrors_eq hsame⟩

/-- A file in the directory of the text that includes it. -/
theorem included_pasted_beside :
    let fs : FileSystem := ⟨fun path => if path = ⟨"lib/h.ssl"⟩ then .ok "variable y\n'\n"
      else .error .notFound, fun path => path == ⟨"lib/h.ssl"⟩, id⟩
    let including := ofText fs ⟨none, 1⟩ ("variable x\n" ++ "#include \"" ++ "h.ssl" ++ "\"\n" ++
      "variable z") ⟨"lib/main.ssl"⟩ ⟨"lib/main.ssl"⟩
    let pasting := ofText fs ⟨none, 1⟩ ("variable x\n" ++ "variable y\n'\n" ++ "variable z")
      ⟨"lib/main.ssl"⟩ ⟨"lib/main.ssl"⟩
    including.tokens.map Token.kind = pasting.tokens.map Token.kind ∧
      ∀ kind, including.lexicalErrors kind = pasting.lexicalErrors kind :=
  have hfound : (IncludeOptions.candidates ⟨none, 1⟩ (Path.parent ⟨"lib/main.ssl"⟩) ⟨"h.ssl"⟩).find?
      (· == ⟨"lib/h.ssl"⟩) = some ⟨"lib/h.ssl"⟩ := by decide +kernel
  included_pasted _ ⟨none, 1⟩ "variable z" (by decide +kernel) (by decide +kernel)
    (by decide +kernel) (by decide) (by decide) (by decide) (by decide) hfound
    (by decide +kernel) rfl (by decide)

end TokenStream

end SslFrontend
