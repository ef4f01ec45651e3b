import SslFrontend.CommandLine.Run
import SslFrontend.Include.Snapshot
import SslFrontend.Unit.Listing

/-! # The command

Look at every file that the compilation can ask about, run the command on what
was found, and write what it answers.
-/

namespace SslFrontend.CommandLine

/-- Why a file operation failed. -/
def fileError : IO.Error → FileError
  | .noFileOrDirectory _ _ _ => .notFound
  | .inappropriateType _ 20 _ => .notDirectory
  | .inappropriateType _ 21 _ => .isDirectory
  | .invalidArgument _ 36 _ => .nameTooLong
  | error => .other error.toString

def readText (path : Path) : IO (Except FileError String) := do
  if path.text.contains '\x00' then return .error .nulInPath
  match ← (IO.FS.readBinFile path.text).toBaseIO with
  | .error error => return .error (fileError error)
  | .ok bytes =>
    match String.fromUTF8? bytes with
    | some text => return .ok text
    | none => return .error .notText

/-- The canonical path of an entry, and whether it is a plain file. -/
def inspect (path : Path) : IO (Option (Path × Bool)) := do
  let found ← (do
    let real ← IO.FS.realPath path.text
    let kind := (← real.metadata).type
    return (⟨real.toString⟩, kind == .file) : IO (Path × Bool)).toBaseIO
  return found.toOption

def lookAt (path : Path) : IO Finding := do
  let (canonical, isFile) := (← inspect path).getD (path, false)
  return ⟨path, ← readText path, isFile, canonical⟩

/-- Look at a file and at everything that its includes, through so many levels,
may name. -/
def gather (includes : IncludeOptions) : Nat → List Path → Option Path → Snapshot → Path →
    IO Snapshot
  | left, chain, beside, snapshot, path => do
    let finding ← lookAt path
    let snapshot := snapshot.add finding
    match left, finding.contents with
    | inner + 1, .ok text =>
      if chain.contains finding.canonical then return snapshot
      else
        (includes.requests beside text).foldlM
          (fun snapshot next =>
            gather includes inner (finding.canonical :: chain) next.parent snapshot next)
          snapshot
    | _, _ => return snapshot

def snapshotFor (arguments : List String) : IO Snapshot := do
  match options arguments with
  | .error _ => return .empty
  | .ok options =>
    let shown := options.shown.getD options.input
    gather options.includes options.includes.maxDepth [] shown.parent .empty options.input

def writeUnit (path : Path) (unit : Parsed) : IO (Except FileError Unit) := do
  match ← (IO.FS.writeFile path.text unit.module.listing).toBaseIO with
  | .ok () => return .ok ()
  | .error error => return .error (fileError error)

def finish (report : Report) : IO UInt32 := do
  (← IO.getStderr).putStr report.stderr
  return report.status.code.toUInt32

def command (arguments : List String) : IO UInt32 := do
  let isTerminal ← (← IO.getStderr).isTty
  let snapshot ← snapshotFor arguments
  match run snapshot.fileSystem isTerminal arguments with
  | .done report => finish report
  | .writes path unit report => finish (report.afterWriting path (← writeUnit path unit))

end SslFrontend.CommandLine

def main (arguments : List String) : IO UInt32 := SslFrontend.CommandLine.command arguments
