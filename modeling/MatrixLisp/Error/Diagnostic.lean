import MatrixLisp.Error.Kind
import MatrixLisp.Span

/-!
# Diagnostics

A diagnostic tells where a failure comes from: its message and span, labels on parts of the source,
notes, and a help text that comes with the code.
-/
namespace MatrixLisp

inductive Stage where
  | reader
  | evaluation
  deriving DecidableEq

structure Label where
  span : Span
  message : String
  deriving DecidableEq

structure Diagnostic where
  stage : Stage
  code : Option ErrorCode
  message : String
  span : Span
  labels : List Label
  notes : List String
  help : Option String
  deriving DecidableEq

namespace Diagnostic

def new (stage : Stage) (span : Span) (message : String) : Diagnostic :=
  ⟨stage, none, message, span, [], [], none⟩

/-- Sets the code; its suggestion, if any, becomes the help text. -/
def withCode (d : Diagnostic) (code : ErrorCode) : Diagnostic :=
  { d with code := some code, help := code.suggestion? }

def withLabel (d : Diagnostic) (label : Label) : Diagnostic :=
  { d with labels := d.labels ++ [label] }

def withNote (d : Diagnostic) (note : String) : Diagnostic :=
  { d with notes := d.notes ++ [note] }

/-- The diagnostic of a top-level form whose evaluation failed. -/
def ofReport (report : Report) (span : Span) : Diagnostic :=
  let code := report.kind.code
  new .evaluation span report.text
    |>.withCode code
    |>.withLabel ⟨span, "while evaluating this form"⟩
    |>.withNote code.description

end Diagnostic

end MatrixLisp
