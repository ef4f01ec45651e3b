import SslFrontend.Diagnostic.Terminal
import SslFrontend.Include.Splice

/-! # Command-line options

Arguments are read from left to right.  `-I` and `--orig` take the argument that
follows, whatever it is; every other argument stands alone.  Of options that set
the same thing the last one counts, and one argument names the input.
-/

namespace SslFrontend

structure CommandOptions where
  input : Path
  /-- The path under which the input is reported. -/
  shown : Option Path
  /-- Where the compiled unit goes. -/
  emit : Option Path
  color : ColorMode
  includes : IncludeOptions
deriving DecidableEq, Repr

inductive ArgumentError where
  | missingValue (option : String)
  | badDepth (text : String)
  | badColor (text : String)
  | unknownOption (text : String)
  | unexpected (text : String)
  | missingInput
deriving DecidableEq, Repr

def ArgumentError.message : ArgumentError → String
  | .missingValue option => s!"missing value after `{option}`"
  | .badDepth text => s!"invalid include depth `{text}`"
  | .badColor text => s!"invalid color mode `{text}`"
  | .unknownOption text => s!"unknown option `{text}`"
  | .unexpected text => s!"unexpected argument `{text}`"
  | .missingInput => "missing input file"

namespace CommandLine

/-- What has been read of the arguments. -/
structure Draft where
  input : Option Path
  shown : Option Path
  emit : Option Path
  color : ColorMode
  includes : IncludeOptions
deriving DecidableEq, Repr

def Draft.start : Draft := ⟨none, none, none, .auto, .default⟩

/-- What follows a text at the start of an argument. -/
def after? (start argument : String) : Option String :=
  if start.toList.isPrefixOf argument.toList then
    some (String.ofList (argument.toList.drop start.length))
  else none

/-- The greatest depth that can be asked for. -/
def maxDepth : Nat := 0xFFFFFFFFFFFFFFFF

/-- A depth in decimal digits, with an optional plus sign. -/
def depth? (text : String) : Option Nat :=
  let digits :=
    match text.toList with
    | '+' :: rest => rest
    | all => all
  if digits.isEmpty || !digits.all Lexeme.isDigit then none
  else
    let n := Directive.natOfDigits digits
    if maxDepth < n then none else some n

def Draft.withDirectory (d : Draft) (directory : String) : Draft :=
  { d with includes := { d.includes with directory := some ⟨directory⟩ } }

/-- Read an argument that stands alone. -/
def single (d : Draft) (argument : String) : Except ArgumentError Draft :=
  match after? "-I" argument, after? "--max-include-depth=" argument,
    after? "--emit=" argument, after? "--color=" argument with
  | some directory, _, _, _ => .ok (d.withDirectory directory)
  | _, some text, _, _ =>
    match depth? text with
    | some depth => .ok { d with includes := { d.includes with maxDepth := depth } }
    | none => .error (.badDepth text)
  | _, _, some path, _ => .ok { d with emit := some ⟨path⟩ }
  | _, _, _, some text =>
    match ColorMode.ofText? text with
    | some mode => .ok { d with color := mode }
    | none => .error (.badColor text)
  | none, none, none, none =>
    if (after? "-" argument).isSome then .error (.unknownOption argument)
    else
      match d.input with
      | none => .ok { d with input := some ⟨argument⟩ }
      | some _ => .error (.unexpected argument)

/-- Read all arguments. -/
def read : Draft → List String → Except ArgumentError Draft
  | d, [] => .ok d
  | d, argument :: rest =>
    if argument = "-I" then
      match rest with
      | value :: more => read (d.withDirectory value) more
      | [] => .error (.missingValue argument)
    else if argument = "--orig" then
      match rest with
      | value :: more => read { d with shown := some ⟨value⟩ } more
      | [] => .error (.missingValue argument)
    else
      match single d argument with
      | .ok d => read d rest
      | .error e => .error e

def options (arguments : List String) : Except ArgumentError CommandOptions := do
  let d ← read .start arguments
  match d.input with
  | some input => return ⟨input, d.shown, d.emit, d.color, d.includes⟩
  | none => throw .missingInput

end CommandLine

end SslFrontend
