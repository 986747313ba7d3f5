import MatrixLisp.Builtin.Basic
import MatrixLisp.Builtin.Call
import MatrixLisp.Console.Command
import MatrixLisp.Console.Settings
import MatrixLisp.Decimal.FloatText
import MatrixLisp.Decimal.Shortest
import MatrixLisp.Error.Code
import MatrixLisp.Error.Diagnostic
import MatrixLisp.Error.Fault
import MatrixLisp.Error.Kind
import MatrixLisp.Eval.Evaluate
import MatrixLisp.Eval.Machine
import MatrixLisp.Eval.Rules
import MatrixLisp.Eval.SpecialForm
import MatrixLisp.Eval.Store
import MatrixLisp.Linear.Matrix
import MatrixLisp.Linear.NumVector
import MatrixLisp.Main
import MatrixLisp.Number.Arithmetic
import MatrixLisp.Number.Basic
import MatrixLisp.Random
import MatrixLisp.Reader.Error
import MatrixLisp.Reader.Form
import MatrixLisp.Reader.Literal
import MatrixLisp.Session
import MatrixLisp.Span
import MatrixLisp.Text.Blank
import MatrixLisp.Token.Basic
import MatrixLisp.Token.Lexer
import MatrixLisp.Value.Basic
import MatrixLisp.Value.Dict
import MatrixLisp.Value.Equality
import MatrixLisp.Value.IndexedDict
import MatrixLisp.Value.Operator
import MatrixLisp.Value.Render
import MatrixLisp.Value.TypeName
import MatrixLisp.Proofs.Number.Fraction
import MatrixLisp.Proofs.Number.Wide
import MatrixLisp.Proofs.Number.Exact
import MatrixLisp.Proofs.Reader.Grammar
import MatrixLisp.Proofs.Reader.Numeral
import MatrixLisp.Proofs.Value.Dictionary
import MatrixLisp.Proofs.Reader.RoundTrip
import MatrixLisp.Proofs.Eval.Invariant
import MatrixLisp.Proofs.Eval.Store
import MatrixLisp.Proofs.Value.WellFormed
import MatrixLisp.Proofs.Builtin.Results
import MatrixLisp.Proofs.Eval.Frames
import MatrixLisp.Proofs.Eval.WellFormed
import MatrixLisp.Proofs.Reader.WellFormed
import MatrixLisp.Proofs.Session
import MatrixLisp.Proofs.Eval.Rules
import MatrixLisp.Proofs.Reader.Recognition
import MatrixLisp.Proofs.Token.Scan
import MatrixLisp.Proofs.Token.MaximalMunch
import MatrixLisp.Proofs.Value.Renaming
import MatrixLisp.Proofs.Eval.Coupling
import MatrixLisp.Proofs.Builtin.Effects
import MatrixLisp.Proofs.Eval.Depth
import MatrixLisp.Proofs.Reader.Lines
import MatrixLisp.Proofs.Program
import MatrixLisp.Proofs.Eval.Mirror
import MatrixLisp.Proofs.Repetition
import MatrixLisp.Proofs.Reader.Shift
import MatrixLisp.Proofs.Reader.Continuation
import MatrixLisp.Proofs.Reader.Completion
import MatrixLisp.Proofs.Number.Nearness
import MatrixLisp.Proofs.Decimal.Rounding
import MatrixLisp.Proofs.Decimal.Shortest
import MatrixLisp.Proofs.Decimal.FloatText
import MatrixLisp.Proofs.Reader.Printed
import MatrixLisp.Proofs.Value.Equality
import MatrixLisp.Proofs.Reader.Keys
import MatrixLisp.Proofs.Value.OrderedDictionary
import MatrixLisp.Proofs.Value.Symmetry
import MatrixLisp.Proofs.Reachable
import MatrixLisp.Proofs.Value.Symbols
import MatrixLisp.Proofs.Eval.Unrelated
import MatrixLisp.Proofs.Eval.Bindings
import MatrixLisp.Proofs.Eval.Termination
import MatrixLisp.Proofs.Eval.History
import MatrixLisp.Proofs.Value.EqualKeys
import MatrixLisp.Proofs.Linear.Bounds
import MatrixLisp.Proofs.Number.Packing
import MatrixLisp.Proofs.Number.Whole
import MatrixLisp.Proofs.Number.Order
import MatrixLisp.Proofs.Value.Reflexivity
import MatrixLisp.Proofs.Token.Cut
import MatrixLisp.Proofs.Reader.Spans
import MatrixLisp.Proofs.Number.Canonical
import MatrixLisp.Proofs.Number.Comparison
import MatrixLisp.Proofs.Reader.Shapes
import MatrixLisp.Reader.Parser
import MatrixLisp.Proofs.Reader.Descent
import MatrixLisp.Proofs.Reader.Resumption
import MatrixLisp.Proofs.Token.Layout
import MatrixLisp.Proofs.Reader.Blame
import MatrixLisp.Proofs.Linear.Entries
import MatrixLisp.Proofs.Linear.Access
import MatrixLisp.Proofs.Linear.Product
import MatrixLisp.Proofs.Collect
import MatrixLisp.Proofs.Linear.Elementwise
import MatrixLisp.Proofs.Builtin.MatrixRows
import MatrixLisp.Proofs.Linear.Printed
import MatrixLisp.Proofs.Linear.Words
import MatrixLisp.Proofs.Eval.Literals
import MatrixLisp.Proofs.Builtin.Draws
import MatrixLisp.Proofs.Linear.Widths
import MatrixLisp.Proofs.Value.Checked
import MatrixLisp.Proofs.Builtin.Safety
