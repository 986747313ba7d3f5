/-!
# Special forms

A list headed by one of six symbols follows its own rule of evaluation.
-/
namespace MatrixLisp

inductive SpecialForm where
  | define
  | bindIn
  | sequence
  | branch
  | function
  | quote
  deriving DecidableEq

namespace SpecialForm

def name : SpecialForm → String
  | define => "def!"
  | bindIn => "let*"
  | sequence => "do"
  | branch => "if"
  | function => "fn*"
  | quote => "quote"

def all : List SpecialForm := [define, bindIn, sequence, branch, function, quote]

/-- The special form headed by a symbol. -/
def ofName? (name : String) : Option SpecialForm :=
  all.find? fun form => form.name == name

theorem ofName?_eq_some_iff {name : String} {form : SpecialForm} :
    ofName? name = some form ↔ form.name = name := by
  constructor
  · intro h
    simpa using List.find?_some h
  · rintro rfl
    cases form <;> decide

end SpecialForm

end MatrixLisp
