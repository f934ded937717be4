-- SUMMARY: Diagnostics: a coded message with labelled spans and notes, and its written form.
import SsaFlow.Source.Span

/-!
# Diagnostics

A diagnostic has a code, a severity and a message; labels point into the source and notes follow at the
end. The first primary label anchors the diagnostic.
-/

namespace SsaFlow

/-- How grave a diagnostic is. -/
inductive Severity where
  | error | warning
deriving DecidableEq, Inhabited

def Severity.text : Severity → String
  | .error => "error"
  | .warning => "warning"

/-- What a diagnostic is about. -/
inductive DiagnosticCode where
  | unreachableCode
  | internalError
deriving DecidableEq, Inhabited

def DiagnosticCode.text : DiagnosticCode → String
  | .unreachableCode => "W1001"
  | .internalError => "E9001"

def DiagnosticCode.isWarning : DiagnosticCode → Bool
  | .unreachableCode => true
  | .internalError => false

structure Label where
  span : Span
  message : String
  isPrimary : Bool
deriving DecidableEq

/-- The written form of a label: an arrow marks the primary ones. -/
def Label.text : Label → String
  | ⟨span, message, isPrimary⟩ =>
    let arrow := if isPrimary then "-->" else "   "
    s!"\n  {arrow} {span}: {message}"

structure Diagnostic where
  code : DiagnosticCode
  severity : Severity
  message : String
  labels : List Label
  notes : List String
deriving DecidableEq

namespace Diagnostic

/-- The span of the first primary label. -/
def anchor? (d : Diagnostic) : Option Span := (d.labels.find? Label.isPrimary).map Label.span

def isError (d : Diagnostic) : Bool := d.severity == .error

/-- The written form: a headline, then labels and notes, each on a line of its own. -/
def text (d : Diagnostic) : String :=
  let severity := d.severity.text
  let code := d.code.text
  let message := d.message
  s!"{severity} [{code}]: {message}" ++ String.join (d.labels.map Label.text)
    ++ String.join (d.notes.map ("\n  = note: " ++ ·))

/-! ## Dead code -/

/-- The least span that covers all of the given ones. -/
def cover : List Span → Span
  | [] => .nowhere
  | s :: rest => rest.foldl Span.merge s

/-- The warning about statements that are never executed. It points at the region as a whole, and at
the single statements where there are several. -/
def unreachableCode (statements : List Span) : Diagnostic where
  code := .unreachableCode
  severity := .warning
  message := "unreachable code"
  labels :=
    ⟨cover statements, "this code will never be executed", true⟩ ::
      (if statements.length < 2 then []
       else statements.map fun span => ⟨span, "unreachable statement", false⟩)
  notes := []

end Diagnostic

end SsaFlow
