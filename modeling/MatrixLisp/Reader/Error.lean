import MatrixLisp.Error.Diagnostic
import MatrixLisp.Error.Fault

/-!
# Read errors

A read error is a fault at a place in the source, with the code under which it is reported.
-/
namespace MatrixLisp

structure ReadError where
  fault : Fault
  span : Span
  code : ErrorCode

namespace ReadError

def report (e : ReadError) : Report := e.fault.report

def text (e : ReadError) : String := e.report.text

def labelText (e : ReadError) : String :=
  match e.code with
  | .unclosedDelimiter => "opened here"
  | .unterminatedString => "string starts here"
  | _ => "here"

def diagnostic (e : ReadError) : Diagnostic :=
  Diagnostic.new .reader e.span e.text
    |>.withCode e.code
    |>.withLabel ⟨e.span, e.labelText⟩

end ReadError

end MatrixLisp
