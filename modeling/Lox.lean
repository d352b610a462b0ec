import Lox.Binary64
import Lox.Decimal
import Lox.Numeral
import Lox.Token
import Lox.Diagnostic
import Lox.Piece
import Lox.Value
import Lox.Environment
import Lox.Sink
import Lox.Syntax
import Lox.Outline
import Lox.Grammar.Reading
import Lox.Grammar.Expression
import Lox.Grammar.Program
import Lox.Failure
import Lox.Evaluation
import Lox.Execution
import Lox.Session
import Lox.Invocation
import Lox.Transcript
import Lox.Main
import Lox.Proofs.Grammar.Clean
import Lox.Proofs.Grammar.Derivation
import Lox.Proofs.Grammar.Expressions
import Lox.Proofs.Grammar.Statements
import Lox.Proofs.Grammar.Unambiguous
import Lox.Proofs.Scopes.Course
import Lox.Proofs.Grammar.WellFormed
import Lox.Proofs.Runs
import Lox.Proofs.Scopes.Restored
import Lox.Proofs.Scopes.Lookups
import Lox.Proofs.Scopes.Lexical
import Lox.Proofs.Lines.Cutting
import Lox.Proofs.Lines.Running
import Lox.Proofs.Lines.Splitting
import Lox.Proofs.Lines.Texts
import Lox.Proofs.Steps
import Lox.Proofs.Rounds
import Lox.Proofs.Histories
import Lox.Proofs.Output
import Lox.Proofs.Lines.Prompted
import Lox.Proofs.Lines.Whole
import Lox.Proofs.Pieces.Lexemes
import Lox.Proofs.Pieces.Longest
import Lox.Proofs.Pieces.Layout
import Lox.Proofs.Scopes.Padded
import Lox.Proofs.Scopes.ForLoop
import Lox.Proofs.Sinks.Seen
import Lox.Proofs.Sinks.Growing
import Lox.Proofs.Sinks.Refused
import Lox.Proofs.Sinks.Limited
import Lox.Proofs.Records
import Lox.Proofs.Parts
import Lox.Proofs.Operators
import Lox.Proofs.Scopes.Unmentioned
import Lox.Proofs.Recovery.Ahead
import Lox.Proofs.Recovery.OneLine
import Lox.Proofs.Recovery.Depth
import Lox.Proofs.Recovery.Attempts
import Lox.Proofs.Recovery.Progress
import Lox.Proofs.Recovery.Chunks
import Lox.Proofs.Recovery.Gaps
import Lox.Proofs.Recovery.Blocks
import Lox.Proofs.Recovery.Passage
import Lox.Proofs.Recovery.Blame
import Lox.Proofs.Drivers.Replies
import Lox.Proofs.Drivers.Transcripts
import Lox.Proofs.Numbers.Patterns
import Lox.Proofs.Numbers.ReadBack
import Lox.Proofs.Numbers.Shortest
import Lox.Proofs.Scopes.Stored
import Lox.Proofs.Scopes.Hidden
import Lox.Proofs.Grammar.Material
import Lox.Proofs.Outlines.Forms
import Lox.Proofs.Outlines.Decoded
import Lox.Proofs.Outlines.Determined
import Lox.Proofs.Listings
import Lox.Proofs.Strings
import Lox.Proofs.Grammar.Kept
import Lox.Proofs.Recovery.Swallowed
import Lox.Proofs.Recovery.Targets
import Lox.Proofs.Recovery.Boundaries
import Lox.Proofs.Recovery.Cursors
