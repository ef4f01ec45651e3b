import SslFrontend.Token.Quoted
import SslFrontend.Unit.Basic

/-! # Listings

A compiled unit as text: its variables, its procedures with their code, the code
of its top level, and its string space.  Every entry is one line, so texts are
quoted.
-/

namespace SslFrontend

namespace Module

def variableLine (names : Pool) (v : Variable) : String :=
  s!"variable {names.lookup v.name} slots {v.slotCount} value {v.value.text}\n"

def triggerLine : Trigger → String
  | .none => ""
  | .timed time => s!"  in {time.toInt}\n"
  | .conditional condition => s!"  when {Code.text condition}\n"

def procedureLines (m : Module) (p : Procedure) : String :=
  s!"procedure {m.strings.lookup p.name} flags {p.flags} takes {p.minArgs} to {p.numArgs}\n" ++
    triggerLine p.trigger ++
    String.join (p.locals.map fun v => "  " ++ variableLine p.namelist v) ++
    s!"  code {Code.text p.body}\n"

def stringLine (offset : Nat) (text : String) : String :=
  s!"string {offset} \"" ++ String.ofList (Quoted.encode text.toList) ++ "\"\n"

def listing (m : Module) : String :=
  String.join (m.vars.map (variableLine m.strings)) ++
    String.join (m.procs.map m.procedureLines) ++
    s!"main {Code.text m.main}\n" ++
    String.join (m.strings.entries.map fun (offset, text) => stringLine offset text)

end Module

end SslFrontend
