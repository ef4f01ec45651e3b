import SslFrontend.Include.Splice
import SslFrontend.Parser.Module
import SslFrontend.Unit.Namespace

/-! # Compilation units

A unit is a parsed module as a host queries it: by index, by name, and as bytes.
Compiling a file fails only when the file itself cannot be read; everything else
is a diagnostic, and a unit with errors is a unit.
-/

namespace SslFrontend

/-- What the outcome of a compilation means to the caller. -/
inductive Status where
  | ok
  | errors
  | fatal
deriving DecidableEq, Repr

def Status.code : Status → Nat
  | .ok => 0
  | .errors => 1
  | .fatal => 2

/-- The primary file cannot be read. -/
structure FatalError where
  path : Path
  error : FileError
deriving DecidableEq, Repr

def FatalError.message (e : FatalError) : String :=
  s!"cannot read `{e.path.text}`: {e.error.message}"

namespace Parsed

def errorCount (parsed : Parsed) : Nat := parsed.diagnostics.countP Diagnostic.isError

def warningCount (parsed : Parsed) : Nat :=
  parsed.diagnostics.countP fun d => d.cause.isWarning

/-- Warnings alone are no failure. -/
def status (parsed : Parsed) : Status :=
  if parsed.diagnostics.any Diagnostic.isError then .errors else .ok

end Parsed

/-- Compile a text that is in no file. -/
def compileString (text : String) (shown : Path) : Parsed :=
  (TokenStream.ofString .none .default text shown).parse

/-- Compile a file, reported under a path. -/
def compileFile (fs : FileSystem) (options : IncludeOptions) (path shown : Path) :
    Except FatalError Parsed :=
  match TokenStream.ofFile fs options path shown with
  | .ok stream => .ok stream.parse
  | .error error => .error ⟨path, error⟩

namespace Module

def procName? (m : Module) (index : Nat) : Option String :=
  m.procs[index]?.map fun p => m.strings.lookup p.name

def varName? (m : Module) (index : Nat) : Option String :=
  m.vars[index]?.map fun v => m.strings.lookup v.name

/-- A parameter or local. -/
def local? (m : Module) (proc index : Nat) : Option Variable :=
  m.procs[proc]?.bind fun p => p.locals[index]?

def localName? (m : Module) (proc index : Nat) : Option String :=
  m.procs[proc]?.bind (·.localName? index)

def findProc? (m : Module) (name : String) : Option Nat := do
  let handle ← m.strings.find? name
  m.procs.findIdx? (·.name == handle)

def findVar? (m : Module) (name : String) : Option Nat := do
  let handle ← m.strings.find? name
  m.vars.findIdx? (·.name == handle)

/-- The packed variables of the unit. -/
def namespace? (m : Module) : Option Namespace := Namespace.layout m.vars

/-- The packed parameters and locals of a procedure. -/
def procNamespace? (m : Module) (proc : Nat) : Option Namespace :=
  m.procs[proc]?.bind fun p => Namespace.layout p.locals

/-- Size of a namespace in bytes, -1 where there is none. -/
def sizeOrAbsent (ns : Option Namespace) : Int :=
  match ns with
  | some ns => ns.size
  | none => -1

def namespaceBytes (m : Module) : Except LayoutError (List UInt8) :=
  match m.namespace? with
  | some ns => .ok ns.bytes
  | none => .error (.empty .unit)

def procNamespaceBytes (m : Module) (proc : Nat) : Except LayoutError (List UInt8) :=
  match m.procs[proc]? with
  | none => .error (.unknownProcedure (saturate proc))
  | some p =>
    match Namespace.layout p.locals with
    | some ns => .ok ns.bytes
    | none => .error (.empty (.procedure (saturate proc)))

/-- A mention with the path of its file. -/
structure CrossReference where
  line : Nat
  path : Path
deriving DecidableEq, Repr

def crossReferences (m : Module) (sites : List Site) : List CrossReference :=
  sites.map fun site => ⟨site.line, (m.files.path? site.file).getD ⟨""⟩⟩

def procReferences? (m : Module) (index : Nat) : Option (List CrossReference) :=
  m.procs[index]?.map fun p => m.crossReferences p.references

def varReferences? (m : Module) (index : Nat) : Option (List CrossReference) :=
  m.vars[index]?.map fun v => m.crossReferences v.references

def localReferences? (m : Module) (proc index : Nat) : Option (List CrossReference) :=
  (m.local? proc index).map fun v => m.crossReferences v.references

end Module

end SslFrontend
