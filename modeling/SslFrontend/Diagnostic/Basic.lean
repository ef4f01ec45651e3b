import SslFrontend.Source.Position

/-! # Diagnostics

A diagnostic carries a code, a severity, a message, labelled positions and
notes.  The first primary label says where it is; one without a primary label
sorts before everything else.
-/

namespace SslFrontend

/-- What went wrong.  The code of each cause is its `text`. -/
inductive Cause where
  | unexpectedToken | expectedExpression | unclosedBlock | expectedIdentifier | notConstant
  | badTriggerTime | requiredAfterOptional | invalidCharacter | badString | badDirective
  | malformedNumber
  | undeclared
  | redeclared | headerMismatch
  | importWithBody | exportWithoutBody | triggerConflict | scopeConflict | misplacedQualifier
  | importInitialized
  | includeUnavailable | includeCycle | includeTooDeep
  | wrongArity | notProcedure | badTarget
  | unreadableInput
  | neverDefined | repeatedQualifier
deriving DecidableEq, Repr

namespace Cause

def text : Cause → String
  | .unexpectedToken => "E1001"
  | .expectedExpression => "E1002"
  | .unclosedBlock => "E1003"
  | .expectedIdentifier => "E1004"
  | .notConstant => "E1005"
  | .badTriggerTime => "E1006"
  | .requiredAfterOptional => "E1007"
  | .invalidCharacter => "E1008"
  | .badString => "E1009"
  | .badDirective => "E1010"
  | .malformedNumber => "E1011"
  | .undeclared => "E2001"
  | .redeclared => "E3001"
  | .headerMismatch => "E3002"
  | .importWithBody => "E4001"
  | .exportWithoutBody => "E4002"
  | .triggerConflict => "E4003"
  | .scopeConflict => "E4004"
  | .misplacedQualifier => "E4005"
  | .importInitialized => "E4006"
  | .includeUnavailable => "E5001"
  | .includeCycle => "E5002"
  | .includeTooDeep => "E5003"
  | .wrongArity => "E6001"
  | .notProcedure => "E6002"
  | .badTarget => "E6003"
  | .unreadableInput => "E9001"
  | .neverDefined => "W0001"
  | .repeatedQualifier => "W0002"

def all : List Cause :=
  [.unexpectedToken, .expectedExpression, .unclosedBlock, .expectedIdentifier,
    .notConstant, .badTriggerTime, .requiredAfterOptional, .invalidCharacter, .badString,
    .badDirective, .malformedNumber, .undeclared, .redeclared, .headerMismatch,
    .importWithBody, .exportWithoutBody, .triggerConflict, .scopeConflict,
    .misplacedQualifier, .importInitialized, .includeUnavailable, .includeCycle,
    .includeTooDeep, .wrongArity, .notProcedure, .badTarget, .unreadableInput,
    .neverDefined, .repeatedQualifier]

theorem mem_all (cause : Cause) : cause ∈ all := by cases cause <;> decide

def ofText? (text : String) : Option Cause := all.find? (·.text == text)

/-- Codes of the first thousand are about the form of the input. -/
def isGrammatical (cause : Cause) : Bool := "E1".toList.isPrefixOf cause.text.toList

def isWarning (cause : Cause) : Bool := "W".toList.isPrefixOf cause.text.toList

end Cause

/-- The group a diagnostic belongs to, as a host sees it. -/
inductive Category where
  | grammar | undeclaredIdentifier | redeclaration | scopeViolation | includeResolution
  | primaryFile | invalidUse
deriving DecidableEq, Repr

def Category.text : Category → String
  | .grammar => "syntax error"
  | .undeclaredIdentifier => "undeclared identifier"
  | .redeclaration => "redeclaration"
  | .scopeViolation => "scope violation"
  | .includeResolution => "include resolution"
  | .primaryFile => "primary file"
  | .invalidUse => "invalid use"

def Cause.category : Cause → Category
  | .unexpectedToken | .expectedExpression | .unclosedBlock | .expectedIdentifier
  | .notConstant | .badTriggerTime | .requiredAfterOptional | .invalidCharacter
  | .badString | .badDirective | .malformedNumber => .grammar
  | .undeclared => .undeclaredIdentifier
  | .redeclared | .headerMismatch => .redeclaration
  | .importWithBody | .exportWithoutBody | .triggerConflict | .scopeConflict
  | .misplacedQualifier | .importInitialized | .neverDefined | .repeatedQualifier =>
    .scopeViolation
  | .includeUnavailable | .includeCycle | .includeTooDeep => .includeResolution
  | .wrongArity | .notProcedure | .badTarget => .invalidUse
  | .unreadableInput => .primaryFile

theorem Cause.isGrammatical_iff (cause : Cause) :
    cause.isGrammatical = true ↔ cause.category = .grammar := by
  cases cause <;> decide

inductive Severity where
  | error | warning | note
deriving DecidableEq, Repr

namespace Severity

def text : Severity → String
  | .error => "error"
  | .warning => "warning"
  | .note => "note"

def ofText? (text : String) : Option Severity :=
  [error, warning, note].find? (·.text == text)

end Severity

structure Label where
  pos : Position
  message : String
  isPrimary : Bool
deriving DecidableEq, Repr

structure Diagnostic where
  cause : Cause
  severity : Severity
  message : String
  labels : List Label
  notes : List String
deriving DecidableEq, Repr

namespace Diagnostic

/-- An error at one position. -/
def error (cause : Cause) (message : String) (pos : Position) (label : String) : Diagnostic :=
  ⟨cause, .error, message, [⟨pos, label, true⟩], []⟩

def warning (cause : Cause) (message : String) (pos : Position) (label : String) :
    Diagnostic :=
  ⟨cause, .warning, message, [⟨pos, label, true⟩], []⟩

/-- Point to a related position. -/
def withRelated (d : Diagnostic) (pos : Position) (label : String) : Diagnostic :=
  ⟨d.cause, d.severity, d.message, d.labels ++ [⟨pos, label, false⟩], d.notes⟩

def withNote (d : Diagnostic) (note : String) : Diagnostic :=
  ⟨d.cause, d.severity, d.message, d.labels, d.notes ++ [note]⟩

def primaryPos? (d : Diagnostic) : Option Position :=
  (d.labels.find? Label.isPrimary).map Label.pos

def pos (d : Diagnostic) : Position := d.primaryPos?.getD .unknown

def isError (d : Diagnostic) : Bool := d.severity == .error

def text (d : Diagnostic) : String :=
  let label (l : Label) : String :=
    let arrow := if l.isPrimary then "-->" else "   "
    s!"\n  {arrow} {l.pos.text}: {l.message}"
  let note (n : String) : String := s!"\n  = note: {n}"
  s!"{d.severity.text} [{d.cause.text}]: {d.message}" ++
    String.join (d.labels.map label) ++ String.join (d.notes.map note)

def undeclared (pos : Position) (name : String) : Diagnostic :=
  error .undeclared s!"undeclared identifier `{name}`" pos "not found in this scope"

/-- The name declared at `pos` was first declared at `first`. -/
def redeclared (pos first : Position) (name : String) : Diagnostic :=
  (error .redeclared
    s!"`{name}` redeclared on line {pos.line}, first declared on line {first.line}"
    pos "redeclared here").withRelated first "first declared here"

end Diagnostic

end SslFrontend
