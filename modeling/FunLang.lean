import FunLang.Command
import FunLang.Diagnostic
import FunLang.Env
import FunLang.FileSystem
import FunLang.Import.Discovery
import FunLang.Import.Loading
import FunLang.Import.Order
import FunLang.Layout
import FunLang.Lint
import FunLang.Lint.Naming
import FunLang.Lint.Reachability
import FunLang.Lint.Scope
import FunLang.Log
import FunLang.Machine.Failure
import FunLang.Machine.Matching
import FunLang.Machine.Run
import FunLang.Machine.Step
import FunLang.Main
import FunLang.Names
import FunLang.Number.Binary64
import FunLang.Number.Reading
import FunLang.Output
import FunLang.Parser.Exprs
import FunLang.Parser.Patterns
import FunLang.Parser.Programs
import FunLang.Parser.State
import FunLang.Parser.Types
import FunLang.Path
import FunLang.Position
import FunLang.Random.Integers
import FunLang.Random.Programs
import FunLang.Random.Words
import FunLang.Repl
import FunLang.Repl.Keys
import FunLang.Runner
import FunLang.Session
import FunLang.Settings
import FunLang.Settings.Duration
import FunLang.Settings.Flags
import FunLang.Settings.Level
import FunLang.Settings.Steps
import FunLang.Syntax
import FunLang.Syntax.Outline
import FunLang.Syntax.Surface
import FunLang.Text.Blank
import FunLang.Text.LetterCase
import FunLang.Text.Part
import FunLang.Text.Printable
import FunLang.Text.Quoted
import FunLang.Text.Utf8
import FunLang.Token
import FunLang.Token.Lexer
import FunLang.Value
import FunLang.Watch
import FunLang.Proofs.BigStep
import FunLang.Proofs.BigStep.Agreement
import FunLang.Proofs.BigStep.Runs
import FunLang.Proofs.Machine.Instances
import FunLang.Proofs.Knots.Spine
import FunLang.Proofs.Knots.AtRest
import FunLang.Proofs.Knots.Steps
import FunLang.Proofs.Knots.Reachable
import FunLang.Proofs.Knots.Discipline
import FunLang.Proofs.Grammar
import FunLang.Proofs.Grammar.Innermost
import FunLang.Proofs.Grammar.Lines
import FunLang.Proofs.Parser.Ensures
import FunLang.Proofs.Grammar.Starts
import FunLang.Proofs.Parser.Sound.Exprs
import FunLang.Proofs.Parser.Sound.Programs
import FunLang.Proofs.Parser.Yields
import FunLang.Proofs.Parser.Complete.Patterns
import FunLang.Proofs.Parser.Complete.Exprs
import FunLang.Proofs.Parser.Complete.Programs
import FunLang.Proofs.Token.Sequence
import FunLang.Proofs.Parser.Acceptance
import FunLang.Proofs.Text.Ascii
import FunLang.Proofs.Token.Spelling
import FunLang.Proofs.Syntax.Unplaced
import FunLang.Proofs.Syntax.WellFormed
import FunLang.Proofs.Syntax.Tables
import FunLang.Proofs.Layout.Patterns
import FunLang.Proofs.Layout.Exprs
import FunLang.Proofs.Layout.Programs
import FunLang.Proofs.Layout.RoundTrip
import FunLang.Proofs.Lint.Unbound
import FunLang.Proofs.Lint.Kinds
import FunLang.Proofs.Lint.Mentions
import FunLang.Proofs.Lint.Tracking
import FunLang.Proofs.Lint.Choice
import FunLang.Proofs.Lint.Scoping
import FunLang.Proofs.Machine.Stops
import FunLang.Proofs.Syntax.Free
import FunLang.Proofs.Syntax.Parts
import FunLang.Proofs.Twins.Values
import FunLang.Proofs.Twins.Bindings
import FunLang.Proofs.Twins.Knots
import FunLang.Proofs.Twins.Exprs
import FunLang.Proofs.Twins.Steps
import FunLang.Proofs.Twins.Runs
import FunLang.Proofs.Twins.Coincidence
import FunLang.Proofs.Twins.Evaluations
import FunLang.Proofs.Parser.Sound.Lines
import FunLang.Proofs.Parser.Complete.Lines
import FunLang.Proofs.Session.Definitions
import FunLang.Proofs.Session.Lines
import FunLang.Proofs.Import.Order
import FunLang.Proofs.Import.Discovery
import FunLang.Proofs.Import.Constructors
import FunLang.Proofs.Import.Loading
import FunLang.Proofs.Import.Visibility
import FunLang.Proofs.Import.Completeness
import FunLang.Proofs.Annotations.Erased
import FunLang.Proofs.Annotations.Evaluations
import FunLang.Proofs.Values.Equality
import FunLang.Proofs.Values.ReadBack
import FunLang.Proofs.Values.Text
import FunLang.Proofs.Grammar.WellFormed
import FunLang.Proofs.Layout.Canonical
import FunLang.Proofs.Knots.Settled
import FunLang.Proofs.Application.Arguments
import FunLang.Proofs.Application.Currying
import FunLang.Proofs.Session.Atomicity
import FunLang.Proofs.Session.Visibility
import FunLang.Proofs.Layout.Traces
import FunLang.Proofs.Grammar.Legal
import FunLang.Proofs.Parser.Completion
import FunLang.Proofs.Parser.Completion.Exprs
import FunLang.Proofs.Parser.Completion.Lines
import FunLang.Proofs.Parser.Cut.Exprs
import FunLang.Proofs.Parser.Cut.Lines
import FunLang.Proofs.Repl.Continuation
import FunLang.Proofs.Token.Gaps
import FunLang.Proofs.Token.Spans
import FunLang.Proofs.Token.Splits
import FunLang.Proofs.Token.Places
import FunLang.Proofs.Parser.Places
import FunLang.Proofs.Text.Quoted
import FunLang.Proofs.Random.Draws
import FunLang.Proofs.Layout.Imports
import FunLang.Proofs.Random.Programs
import FunLang.Proofs.Random.Integers
import FunLang.Proofs.Random.Words
import FunLang.Proofs.Parser.Code
import FunLang.Proofs.Token.Scan
import FunLang.Proofs.Parser.Termination
import FunLang.Proofs.Arithmetic.Trees
import FunLang.Proofs.Arithmetic.Sums
