import Sexpr.Text.Blank
import Sexpr.Text.Decimal
import Sexpr.Text.Position
import Sexpr.Marker
import Sexpr.Form.Atom
import Sexpr.Form.Basic
import Sexpr.Form.Shape
import Sexpr.Form.Edit
import Sexpr.Token.Basic
import Sexpr.Log
import Sexpr.Token.Scan
import Sexpr.Token.Scanner
import Sexpr.Form.Parser
import Sexpr.Form.Expander
import Sexpr.Error
import Sexpr.Form.Formatter
import Sexpr.Form.Printer
import Sexpr.Program.Reader
import Sexpr.Program.Stream
import Sexpr.Program.RoundTrip
import Sexpr.Template.Host
import Sexpr.Template.Basic
import Sexpr.Template.Segment
import Sexpr.Template.Parser
import Sexpr.Template.Code
import Sexpr.Command
import Sexpr.Main
import Sexpr.Proofs.Token.Grammar
import Sexpr.Proofs.Token.Layout
import Sexpr.Proofs.Token.Turns
import Sexpr.Proofs.Token.Seam
import Sexpr.Proofs.Token.Place
import Sexpr.Proofs.Token.Region
import Sexpr.Proofs.Token.Comments
import Sexpr.Proofs.Token.Unclosed
import Sexpr.Proofs.Form.CallTree
import Sexpr.Proofs.Form.Descent
import Sexpr.Proofs.Form.Stack
import Sexpr.Proofs.Form.Offence
import Sexpr.Proofs.Form.Nesting
import Sexpr.Proofs.Form.Unfinished
import Sexpr.Proofs.Form.Sequel
import Sexpr.Proofs.Form.Spelling
import Sexpr.Proofs.Form.Flatten
import Sexpr.Proofs.Form.Resumption
import Sexpr.Proofs.Form.Readable
import Sexpr.Proofs.Form.Written
import Sexpr.Proofs.Form.Expansion
import Sexpr.Proofs.Form.Passes
import Sexpr.Proofs.Form.Reuse
import Sexpr.Proofs.Form.Applied
import Sexpr.Proofs.Form.Conservation
import Sexpr.Proofs.Form.Depth
import Sexpr.Proofs.Form.Search
import Sexpr.Proofs.Form.Again
import Sexpr.Proofs.Program.Reading
import Sexpr.Proofs.Program.Printing
import Sexpr.Proofs.Program.Concatenation
import Sexpr.Proofs.Program.Completion
import Sexpr.Proofs.Program.Image
import Sexpr.Proofs.Program.Diagnosis
import Sexpr.Proofs.Text.Decimal
import Sexpr.Proofs.Form.Refusal
import Sexpr.Proofs.Program.Numeral
import Sexpr.Proofs.Token.Progress
import Sexpr.Proofs.Form.Fusing
import Sexpr.Proofs.Program.Record
import Sexpr.Proofs.Template.Grammar
import Sexpr.Proofs.Template.Value
import Sexpr.Proofs.Template.Written
