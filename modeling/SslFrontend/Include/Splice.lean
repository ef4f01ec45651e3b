import SslFrontend.Include.FileSystem
import SslFrontend.Token.Lexer
import SslFrontend.Token.Stream

/-! # Includes

The tokens of an included file stand in place of its directive.  A file is
looked for in the include directory and then beside the file that includes it.
An include that is too deep, that is not found, that closes a cycle, or that
cannot be read is reported and leaves no token.

Files that are being read form a chain.  An include directive opens a file only
while the chain is not longer than the limit, so the number of levels that are
left bounds the recursion.
-/

namespace SslFrontend

/-- Where includes are looked for, and how deep they may go. -/
structure IncludeOptions where
  directory : Option Path
  maxDepth : Nat
deriving DecidableEq, Repr

namespace IncludeOptions

def defaultDepth : Nat := 16

def default : IncludeOptions := ⟨none, defaultDepth⟩

/-- The paths at which an include is looked for, in their order. -/
def candidates (options : IncludeOptions) (beside : Option Path) (name : Path) : List Path :=
  if name.isAbsolute then [name]
  else (options.directory.toList ++ beside.toList).map (·.join name)

end IncludeOptions

/-- A text that is to be read as the contents of a file. -/
structure SourceText where
  text : String
  file : FileId
  /-- The directory of the file. -/
  beside : Option Path
  /-- The files that are being read, this one first. -/
  chain : List Path

/-- What a text comes to with its includes expanded. -/
structure Spliced where
  tokens : List Token
  files : FileTable
  problems : List Diagnostic

namespace Include

def tooDeep (limit : Nat) (name : String) (pos : Position) : Diagnostic :=
  .error .includeTooDeep s!"`#include \"{name}\"` exceeds the include depth limit of {limit}"
    pos "include skipped"

def notFound (candidates : List Path) (name : String) (pos : Position) : Diagnostic :=
  candidates.foldl (fun d path => d.withNote s!"searched {path.text}")
    (.error .includeUnavailable s!"cannot find include file `{name}`" pos "include skipped")

def cycle (name : String) (pos : Position) : Diagnostic :=
  .error .includeCycle s!"`{name}` includes itself" pos "include cycle"

def unreadable (path : Path) (error : FileError) (pos : Position) : Diagnostic :=
  (Diagnostic.error .includeUnavailable s!"cannot read include file `{path.text}`" pos
    "include skipped").withNote error.message

/-- The file that an include directive opens, with its path. -/
def open? (fs : FileSystem) (options : IncludeOptions) (source : SourceText) (name : String)
    (pos : Position) : Except Diagnostic (Path × String) :=
  let candidates := options.candidates source.beside ⟨name⟩
  match candidates.find? fs.isFile with
  | none => .error (notFound candidates name pos)
  | some path =>
    if source.chain.any (fs.canonical path).same then .error (cycle name pos)
    else
      match fs.read path with
      | .ok text => .ok (path, text)
      | .error error => .error (unreadable path error pos)

/-- Put what each include directive stands for in its place. -/
def spliceTokens (expand : FileTable → String → Position → Spliced) :
    FileTable → List Token → Spliced
  | files, [] => ⟨[], files, []⟩
  | files, token :: rest =>
    match token.kind with
    | .included name =>
      let inner := expand files name token.pos
      let outer := spliceTokens expand inner.files rest
      ⟨inner.tokens ++ outer.tokens, outer.files, inner.problems ++ outer.problems⟩
    | _ =>
      let outer := spliceTokens expand files rest
      ⟨token :: outer.tokens, outer.files, outer.problems⟩

/-- What an include directive stands for while there are levels left. -/
def expandOne (fs : FileSystem) (options : IncludeOptions)
    (inner : SourceText → FileTable → Spliced × Position) (source : SourceText)
    (files : FileTable) (name : String) (pos : Position) : Spliced :=
  match open? fs options source name pos with
  | .error problem => ⟨[], files, [problem]⟩
  | .ok (path, text) =>
    let (file, files) := files.add path
    (inner ⟨text, file, path.parent, fs.canonical path :: source.chain⟩ files).1

/-- Read a text and expand its includes through so many levels.  The second
part of the answer is where the text ends. -/
def expand (fs : FileSystem) (options : IncludeOptions) :
    Nat → SourceText → FileTable → Spliced × Position
  | left, source, files =>
    let lexed := Lexer.lex source.text source.file files
    let one : FileTable → String → Position → Spliced :=
      match left with
      | 0 => fun files name pos => ⟨[], files, [tooDeep options.maxDepth name pos]⟩
      | inner + 1 => expandOne fs options (expand fs options inner) source
    let spliced := spliceTokens one lexed.files lexed.tokens
    (⟨spliced.tokens, spliced.files,
      lexed.errors.map LexError.diagnostic ++ spliced.problems⟩, lexed.eof)

end Include

namespace TokenStream

/-- The stream of a primary file with a text, reported under a path; `key` is
the one name of the file. -/
def ofText (fs : FileSystem) (options : IncludeOptions) (text : String) (shown key : Path) :
    TokenStream :=
  let (file, files) := FileTable.empty.add shown
  let (spliced, eof) :=
    Include.expand fs options options.maxDepth ⟨text, file, shown.parent, [key]⟩ files
  ⟨spliced.tokens, eof, spliced.files, ⟨spliced.problems⟩⟩

/-- The stream of a text that is in no file. -/
def ofString (fs : FileSystem) (options : IncludeOptions) (text : String) (shown : Path) :
    TokenStream :=
  ofText fs options text shown (fs.canonical shown)

/-- The stream of a file, reported under a path. -/
def ofFile (fs : FileSystem) (options : IncludeOptions) (path shown : Path) :
    Except FileError TokenStream := do
  return ofText fs options (← fs.read path) shown (fs.canonical path)

end TokenStream

end SslFrontend
