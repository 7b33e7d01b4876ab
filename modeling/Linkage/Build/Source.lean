import Linkage.Build.Problem
import Linkage.Script.Parse

/-!
# Linkage.Build.Source

The units of source text that a module is compiled from, and what is read from them.
-/

namespace Linkage

structure Source where
  text : String
  /-- Where the text came from; diagnostics do not need it and debug symbols record it. -/
  origin : Option String
  deriving DecidableEq

/-- Blank units are skipped by a compile. -/
def Source.isBlank (s : Source) : Bool := Text.isBlank s.text

/-- The script of each unit that is not blank, and the diagnostics of the text. -/
def readUnits : List (Source × Nat) → List (Nat × Script) × List Diagnostic
  | [] => ([], [])
  | (source, unit) :: units =>
    let (scripts, ds) := readUnits units
    if source.isBlank then
      let problem := Problem.blankSource unit
      (scripts, ⟨problem.code, problem.message, none⟩ :: ds)
    else
      let (script, errors) := Script.parse source.text
      ((unit, script) :: scripts,
        errors.map (fun e => (Problem.malformed e).located unit e.span) ++ ds)

/-- The origins that debug symbols record, made up from the unit's number where there is none. -/
def origins (sources : List Source) : List String :=
  sources.zipIdx.map fun (s, unit) => s.origin.getD ("<unit " ++ toString unit ++ ">")

end Linkage
