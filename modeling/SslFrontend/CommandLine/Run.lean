import SslFrontend.CommandLine.Options
import SslFrontend.Include.Tree
import SslFrontend.Unit.Basic

/-! # A run of the command

The command compiles one file, writes its diagnostics and a summary of them, and
then writes the compiled unit if it was asked to.  The exit code tells success,
errors in the script, and failure of the run itself apart.
-/

namespace SslFrontend.CommandLine

/-- What a run writes on the error stream, and its exit code. -/
structure Report where
  stderr : String
  status : Status
deriving DecidableEq, Repr

/-- A run up to the point where the compiled unit is written. -/
inductive Run where
  | done (report : Report)
  | writes (path : Path) (unit : Parsed) (report : Report)

def usage : String :=
  "Usage: sslc [options] <file.ssl>\n" ++
  "\n" ++
  "Options:\n" ++
  "  -I <dir>                   Search <dir> for #include files first\n" ++
  "  --orig <path>              Path reported for the input file\n" ++
  "  --max-include-depth=<n>    Nesting limit for #include (default 16)\n" ++
  "  --emit=<path>              Write the compiled unit (bincode)\n" ++
  "  --color=<when>             auto, always or never\n"

def errorLine (message : String) : String := s!"error: {message}\n"

/-- The diagnostics of a unit; a summary follows if there are any. -/
def diagnosticText (colors : Bool) (parsed : Parsed) : String :=
  Terminal.diagnostics parsed.module.files colors parsed.diagnostics ++
    if parsed.diagnostics.isEmpty then ""
    else Terminal.summary colors parsed.errorCount parsed.warningCount

def runOptions (fs : FileSystem) (isTerminal : Bool) (options : CommandOptions) : Run :=
  match compileFile fs options.includes options.input (options.shown.getD options.input) with
  | .error fatal => .done ⟨errorLine fatal.message, .fatal⟩
  | .ok parsed =>
    let report : Report :=
      ⟨diagnosticText (options.color.usesColors isTerminal) parsed, parsed.status⟩
    match options.emit with
    | some path => .writes path parsed report
    | none => .done report

def run (fs : FileSystem) (isTerminal : Bool) (arguments : List String) : Run :=
  if arguments.isEmpty then .done ⟨usage, .fatal⟩
  else
    match options arguments with
    | .error e => .done ⟨errorLine e.message ++ usage, .fatal⟩
    | .ok options => runOptions fs isTerminal options

/-- The report after an attempt to write the compiled unit. -/
def Report.afterWriting (report : Report) (path : Path) : Except FileError Unit → Report
  | .ok () => report
  | .error e =>
    ⟨report.stderr ++ errorLine s!"cannot write `{path.text}`: io error: {e.message}", .fatal⟩

/-- A whole run on a file system that is a directory tree, and the tree it
leaves. -/
def runOn (tree : Tree) (isTerminal : Bool) (arguments : List String) : Report × Tree :=
  match run tree.fileSystem isTerminal arguments with
  | .done report => (report, tree)
  | .writes path _ report =>
    match tree.create path with
    | .ok written => (report, written)
    | .error e => (report.afterWriting path (.error e), tree)

end SslFrontend.CommandLine
