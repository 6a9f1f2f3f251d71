import LineLang.Text.Alphabetic
import LineLang.Text.Numeric
import LineLang.Number.Binary
import LineLang.Number.Shortest
import LineLang.Number.Text
import LineLang.Number.Remainder
import LineLang.Kind
import LineLang.Operator
import LineLang.Diagnostic
import LineLang.Value
import LineLang.Operator.Apply
import LineLang.Token
import LineLang.Token.Scan
import LineLang.Token.Instructions
import LineLang.Name
import LineLang.Window
import LineLang.Layout
import LineLang.Layout.Size
import LineLang.Phrase
import LineLang.Phrase.Unfold
import LineLang.Effect
import LineLang.Expr
import LineLang.Memory
import LineLang.Typing
import LineLang.Evaluation
import LineLang.Resolution
import LineLang.Session
import LineLang.Script
import LineLang.Command
import LineLang.Main
import LineLang.Proofs.Effect
import LineLang.Proofs.Expr
import LineLang.Proofs.Places
import LineLang.Proofs.Memory
import LineLang.Proofs.Operator
import LineLang.Proofs.Evaluation.Ownership
import LineLang.Proofs.Evaluation.Bound
import LineLang.Proofs.Evaluation.Flags
import LineLang.Proofs.Typing.Assignment
import LineLang.Proofs.Typing.Given
import LineLang.Proofs.Typing.Declaration
import LineLang.Proofs.Typing.Precision
import LineLang.Proofs.Typing.Passes
import LineLang.Proofs.Window
import LineLang.Proofs.Window.Nesting
import LineLang.Proofs.Name
import LineLang.Proofs.Layout
import LineLang.Proofs.Phrase
import LineLang.Proofs.Grammar.Derivation
import LineLang.Proofs.Grammar.Sequence
import LineLang.Proofs.Grammar.Statements
import LineLang.Proofs.Resolution.Growth
import LineLang.Proofs.Resolution.Phrases
import LineLang.Proofs.Session.Valid
import LineLang.Proofs.Session.Parse
import LineLang.Proofs.Session.Reachable
import LineLang.Proofs.Session.Representation
import LineLang.Proofs.Session.Declaration
import LineLang.Proofs.Activation.Records
import LineLang.Proofs.Activation.Simulation
import LineLang.Proofs.Session.Records
import LineLang.Proofs.Resolution.Replay
import LineLang.Proofs.Resolution.Linked
import LineLang.Proofs.Grammar.Signs
import LineLang.Proofs.Session.Precomputation
import LineLang.Proofs.Activation.Soundness
import LineLang.Proofs.Session.Soundness
import LineLang.Proofs.Session.Termination
import LineLang.Proofs.Token.Joined
import LineLang.Proofs.Session.Batch
import LineLang.Proofs.Evaluation.Moments
import LineLang.Proofs.Evaluation.Calls
import LineLang.Proofs.Activation.Moments
import LineLang.Proofs.Resolution.Readings
import LineLang.Proofs.Resolution.Opening
import LineLang.Proofs.Session.Moments
import LineLang.Proofs.Session.Initialization
import LineLang.Proofs.Session.Enforcement
import LineLang.Proofs.Renaming.Expr
import LineLang.Proofs.Renaming.Memory
import LineLang.Proofs.Renaming.Activation
import LineLang.Proofs.Renaming.Resolution
import LineLang.Proofs.Renaming.Exchange
import LineLang.Proofs.Session.Renaming
import LineLang.Proofs.Session.Commutation
import LineLang.Proofs.Session.Calls
import LineLang.Proofs.Session.Success
import LineLang.Proofs.Session.Statements
import LineLang.Proofs.Session.Lossless
import LineLang.Proofs.Resolution.Allotment
import LineLang.Proofs.Resolution.Scoping
import LineLang.Proofs.Session.Scoping
import LineLang.Proofs.Evaluation.Modes
import LineLang.Proofs.Evaluation.Involved
import LineLang.Proofs.Session.Modes
import LineLang.Proofs.Evaluation.Layers
import LineLang.Proofs.Evaluation.Repetition
import LineLang.Proofs.Session.Probing
import LineLang.Proofs.Evaluation.Eager
import LineLang.Proofs.Session.Eager
import LineLang.Proofs.Evaluation.StraightLine
import LineLang.Proofs.Token.Longest
import LineLang.Proofs.Token.Rendering
import LineLang.Proofs.Evaluation.Typed
import LineLang.Proofs.Session.TypeSafety
import LineLang.Proofs.Resolution.Order
import LineLang.Proofs.Evaluation.Noninterference
import LineLang.Proofs.Evaluation.Flagging
import LineLang.Proofs.Session.Noninterference
import LineLang.Proofs.Window.Scanning
import LineLang.Proofs.Layout.Balance
import LineLang.Proofs.Resolution.Faults
import LineLang.Proofs.Token.Splitting
import LineLang.Proofs.Command
