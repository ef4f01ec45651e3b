import SslFrontend.Diagnostic.Basic
import SslFrontend.Source.FileTable

/-! # Diagnostics on a terminal

Each diagnostic is a header line, a line for every label, a line for every note
and an empty line; a summary counts errors and warnings.  With colours on, the
severity, the code, the label texts and the word `note` stand between escape
sequences; the text itself is the same.
-/

namespace SslFrontend

inductive ColorMode where
  /-- Colours on a terminal only. -/
  | auto
  | always
  | never
deriving DecidableEq, Repr

namespace ColorMode

def usesColors (mode : ColorMode) (isTerminal : Bool) : Bool :=
  match mode with
  | .auto => isTerminal
  | .always => true
  | .never => false

def ofText? : String → Option ColorMode
  | "auto" => some .auto
  | "always" => some .always
  | "never" => some .never
  | _ => none

end ColorMode

namespace Terminal

/-- An escape sequence that selects a colour. -/
def escape (parameters : String) : String := "\x1b[" ++ parameters ++ "m"

def red : String := escape "1;31"
def yellow : String := escape "1;33"
def cyan : String := escape "1;36"
def blue : String := escape "1;34"
def bold : String := escape "1"
def reset : String := escape "0"

def painted (colors : Bool) (color text : String) : String :=
  if colors then color ++ text ++ reset else text

def severityColor : Severity → String
  | .error => red
  | .warning => yellow
  | .note => cyan

def label (files : FileTable) (colors : Bool) (l : Label) : String :=
  let arrow := if l.isPrimary then "-->" else "   "
  let color := if l.isPrimary then red else blue
  s!"  {arrow} {files.display l.pos.file}:{l.pos.text}: " ++ painted colors color l.message ++
    "\n"

def note (colors : Bool) (text : String) : String :=
  "  = " ++ painted colors bold "note" ++ s!": {text}\n"

def diagnostic (files : FileTable) (colors : Bool) (d : Diagnostic) : String :=
  painted colors (severityColor d.severity) d.severity.text ++
    painted colors bold ("[" ++ d.cause.text ++ "]") ++ s!": {d.message}\n" ++
    String.join (d.labels.map (label files colors)) ++
    String.join (d.notes.map (note colors)) ++ "\n"

def diagnostics (files : FileTable) (colors : Bool) (ds : List Diagnostic) : String :=
  String.join (ds.map (diagnostic files colors))

def plural (count : Nat) : String := if count = 1 then "" else "s"

def warningsEmitted (warnings : Nat) : String :=
  s!"{warnings} warning{plural warnings} emitted"

/-- The closing line; nothing when nothing was wrong. -/
def summary (colors : Bool) (errors warnings : Nat) : String :=
  if 0 < errors then
    let part := if errors = 1 then "previous error" else s!"{errors} previous errors"
    let rest := if 0 < warnings then "; " ++ warningsEmitted warnings else ""
    painted colors red "error" ++ s!": aborting due to {part}{rest}\n"
  else if 0 < warnings then
    painted colors yellow "warning" ++ s!": {warningsEmitted warnings}\n"
  else ""

end Terminal

end SslFrontend
