import BraceLisp.Highlight
import BraceLisp.Main
import BraceLisp.Prompt
import BraceLisp.Proofs.Discipline
import BraceLisp.Proofs.Nested
import BraceLisp.Proofs.Limit
import BraceLisp.Proofs.Arguments
import BraceLisp.Proofs.Occurrence
import BraceLisp.Proofs.Lasting
import BraceLisp.Proofs.Settled
import BraceLisp.Proofs.Numeral
import BraceLisp.Proofs.Reading
import BraceLisp.Proofs.Scanning
import BraceLisp.Proofs.WellFormed
import BraceLisp.Proofs.Printable
import BraceLisp.Proofs.RoundTrip
import BraceLisp.Proofs.Tokens
import BraceLisp.Proofs.Grouping
import BraceLisp.Proofs.Recognition
import BraceLisp.Proofs.Peg
import BraceLisp.Proofs.PegTokens
import BraceLisp.Proofs.Language
import BraceLisp.Proofs.PegTree
import BraceLisp.Proofs.Acceptance
import BraceLisp.Proofs.NestingLimit
import BraceLisp.Proofs.LongestMatch
import BraceLisp.Proofs.Lexemes
import BraceLisp.Proofs.OpenBrackets
import BraceLisp.Proofs.Currying
import BraceLisp.Proofs.Completion
import BraceLisp.Proofs.ErrorPosition
import BraceLisp.Proofs.Unclosed
import BraceLisp.Proofs.InnermostOpener
import BraceLisp.Proofs.FirstError
import BraceLisp.Proofs.Application
import BraceLisp.Proofs.Gap
import BraceLisp.Proofs.Layout
import BraceLisp.Proofs.InputLines
import BraceLisp.Proofs.OneLine
import BraceLisp.Proofs.StandardOutput
import BraceLisp.Proofs.AllOrNothing
import BraceLisp.Proofs.Formula
import BraceLisp.Proofs.Machine
import BraceLisp.Proofs.Termination
import BraceLisp.Proofs.Lossless
import BraceLisp.Proofs.LambdaSource
import BraceLisp.Proofs.LineBlocks
import BraceLisp.Proofs.Highlighting
import BraceLisp.Proofs.Bisection
import BraceLisp.Proofs.FiniteMap
import BraceLisp.Proofs.ClosedForm
import BraceLisp.Proofs.Mirror
import BraceLisp.Proofs.Attempts
import BraceLisp.Proofs.Budget
import BraceLisp.Proofs.FurthestFailure
import BraceLisp.Proofs.FrameHistory
