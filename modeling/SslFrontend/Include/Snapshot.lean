import SslFrontend.Include.Splice

/-! # Snapshots

A file system that is known at some paths only.  What a compilation asks about
is known beforehand: the primary file, and every place at which an include of a
text that it reads may be found.  `requests` lists those places for one text.
-/

namespace SslFrontend

/-- What there is at a path. -/
structure Finding where
  path : Path
  contents : Except FileError String
  isFile : Bool
  canonical : Path

structure Snapshot where
  findings : List Finding

namespace Snapshot

def empty : Snapshot := ⟨[]⟩

def find? (snapshot : Snapshot) (path : Path) : Option Finding :=
  snapshot.findings.find? (·.path == path)

/-- Add what was found at a path; the first finding at a path counts. -/
def add (snapshot : Snapshot) (finding : Finding) : Snapshot :=
  ⟨snapshot.findings ++ [finding]⟩

/-- Where nothing is known there is nothing. -/
def fileSystem (snapshot : Snapshot) : FileSystem where
  read path := ((snapshot.find? path).map Finding.contents).getD (.error .notFound)
  isFile path := ((snapshot.find? path).map Finding.isFile).getD false
  canonical path := ((snapshot.find? path).map Finding.canonical).getD path

end Snapshot

/-- Every place at which an include of a text is looked for. -/
def IncludeOptions.requests (options : IncludeOptions) (beside : Option Path)
    (text : String) : List Path :=
  (Lexer.lex text .primary .empty).tokens.flatMap fun token =>
    match token.kind with
    | .included name => options.candidates beside ⟨name⟩
    | _ => []

end SslFrontend
