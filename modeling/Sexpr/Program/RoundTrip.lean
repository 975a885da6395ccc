import Sexpr.Form.Formatter
import Sexpr.Program.Reader

/-!
# Writing and reading back

A report on how a text survives: its raw program is written and read back, and so is its expansion,
in full and abbreviated. Each reading gives the program it came from, another one, or an error.
-/

namespace Sexpr

/-- How an expanded program survives. -/
structure ExpandedReport where
  /-- The program written in full. -/
  text : String
  /-- The program written with markers for tags. -/
  abbreviated : String
  /-- Whether a marker is left anywhere. -/
  markers : Bool
  /-- Whether the full text reads as the program. -/
  reread : Except Error Bool
  /-- Whether the abbreviated text reads as the program. -/
  abbreviatedReread : Except Error Bool
  /-- Whether expanding once more changes nothing. -/
  again : Except Error Bool

/-- How a text survives. -/
structure RoundTripReport where
  /-- The raw program written in full. -/
  rawText : String
  /-- Which top-level forms of the raw program hold a marker. -/
  rawMarkers : List Bool
  /-- Whether that text parses as the raw program. -/
  rawReread : Except Error Bool
  expanded : Except Error ExpandedReport

namespace Reader

/-- Whether a result is a given program. -/
def sameAs (expected : Program) : Except Error Program → Except Error Bool
  | .ok p => .ok (Form.beqAll p expected)
  | .error e => .error e

/-- Writes an expanded program and reads it back. -/
def reportExpanded (r : Reader) (p : Program) : ExpandedReport × Reader :=
  let text := p.print
  let abbreviated := Formatter.abbreviating.printProgram p
  let (reread, r) := r.read text
  let (abbreviatedReread, r) := r.read abbreviated
  let (again, r) := r.expand p
  ({ text, abbreviated
     markers := p.any Form.containsMarker
     reread := sameAs p reread
     abbreviatedReread := sameAs p abbreviatedReread
     again := sameAs p again }, r)

/-- Parses a text, then writes and reads back what came of it. -/
def roundTrip (r : Reader) (text : String) : Except Error RoundTripReport × Reader :=
  match r.parse text with
  | (.error e, r) => (.error e, r)
  | (.ok raw, r) =>
    let rawText := raw.print
    let (reread, r) := r.parse rawText
    let rawMarkers := raw.map Form.containsMarker
    let rawReread := sameAs raw reread
    match r.expand raw with
    | (.error e, r) => (.ok { rawText, rawMarkers, rawReread, expanded := .error e }, r)
    | (.ok p, r) =>
      let (report, r) := r.reportExpanded p
      (.ok { rawText, rawMarkers, rawReread, expanded := .ok report }, r)

end Reader

end Sexpr
