import SslFrontend.Code.Fold
import SslFrontend.Code.Node
import SslFrontend.Code.Value
import SslFrontend.CommandLine.Options
import SslFrontend.CommandLine.Run
import SslFrontend.Diagnostic.Basic
import SslFrontend.Diagnostic.Queue
import SslFrontend.Diagnostic.Terminal
import SslFrontend.Include.FileSystem
import SslFrontend.Include.Snapshot
import SslFrontend.Include.Splice
import SslFrontend.Include.Tree
import SslFrontend.Main
import SslFrontend.Number.Binary32
import SslFrontend.Number.Rounding
import SslFrontend.Number.Shortest
import SslFrontend.Parser.Cursor
import SslFrontend.Parser.Declaration
import SslFrontend.Parser.Expression
import SslFrontend.Parser.Module
import SslFrontend.Parser.Procedure
import SslFrontend.Parser.State
import SslFrontend.Parser.Statement
import SslFrontend.Proofs.Access.Cursor
import SslFrontend.Proofs.Access.Lexing
import SslFrontend.Proofs.Access.Machine
import SslFrontend.Proofs.Access.Slice
import SslFrontend.Proofs.Access.Table
import SslFrontend.Proofs.AccessesInRange
import SslFrontend.Proofs.Along.Productions
import SslFrontend.Proofs.Along.Rules
import SslFrontend.Proofs.AssignmentLookahead
import SslFrontend.Proofs.Binding
import SslFrontend.Proofs.BlockDelimiters
import SslFrontend.Proofs.Closed
import SslFrontend.Proofs.ConstantFolding
import SslFrontend.Proofs.DeclarationOrder
import SslFrontend.Proofs.DeclarationReferences
import SslFrontend.Proofs.Definitions
import SslFrontend.Proofs.DiagnosticReports
import SslFrontend.Proofs.FileIdentity
import SslFrontend.Proofs.Grammar.Exact
import SslFrontend.Proofs.Grammar.ExpressionRecovery
import SslFrontend.Proofs.Grammar.ExpressionRuns
import SslFrontend.Proofs.Grammar.ExpressionTree
import SslFrontend.Proofs.Grammar.Lookahead
import SslFrontend.Proofs.Grammar.OperatorChain
import SslFrontend.Proofs.Grammar.Silence
import SslFrontend.Proofs.Grammar.StatementRuns
import SslFrontend.Proofs.Grammar.StatementTree
import SslFrontend.Proofs.ImportLinkage
import SslFrontend.Proofs.Include.Registered
import SslFrontend.Proofs.IncludeExpansion
import SslFrontend.Proofs.IncludePasting
import SslFrontend.Proofs.InvalidTokens
import SslFrontend.Proofs.Journal.Accounts
import SslFrontend.Proofs.Journal.Declarations
import SslFrontend.Proofs.Journal.Growth
import SslFrontend.Proofs.Journal.Pass
import SslFrontend.Proofs.Journal.Run
import SslFrontend.Proofs.Journal.Settled
import SslFrontend.Proofs.KindSets
import SslFrontend.Proofs.MisuseReports
import SslFrontend.Proofs.NameQueries
import SslFrontend.Proofs.NamespaceLayout
import SslFrontend.Proofs.OptionOrder
import SslFrontend.Proofs.PanicRecovery
import SslFrontend.Proofs.ParameterArity
import SslFrontend.Proofs.PoolContents
import SslFrontend.Proofs.PoolHistory
import SslFrontend.Proofs.Positions
import SslFrontend.Proofs.Postfix.Leaves
import SslFrontend.Proofs.Postfix.Linked
import SslFrontend.Proofs.Postfix.Resolved
import SslFrontend.Proofs.Postfix.Shape
import SslFrontend.Proofs.Postfix.Stack
import SslFrontend.Proofs.ProperUse
import SslFrontend.Proofs.Reference.Numbers
import SslFrontend.Proofs.Reference.Sites
import SslFrontend.Proofs.References
import SslFrontend.Proofs.RejectedDefinitions
import SslFrontend.Proofs.ResolvedCode
import SslFrontend.Proofs.Run.Coded
import SslFrontend.Proofs.Run.Declaration
import SslFrontend.Proofs.Run.Expression
import SslFrontend.Proofs.Run.Finish
import SslFrontend.Proofs.Run.Growth
import SslFrontend.Proofs.Run.Known
import SslFrontend.Proofs.Run.Module
import SslFrontend.Proofs.Run.Primitives
import SslFrontend.Proofs.Run.Reading
import SslFrontend.Proofs.Run.Resolution
import SslFrontend.Proofs.Run.Statement
import SslFrontend.Proofs.Run.Yields
import SslFrontend.Proofs.StatementGrammar
import SslFrontend.Proofs.Symbol.Binds
import SslFrontend.Proofs.Symbol.Declares
import SslFrontend.Proofs.Symbol.Edit
import SslFrontend.Proofs.Symbol.Extends
import SslFrontend.Proofs.Symbol.Linkage
import SslFrontend.Proofs.Symbol.Places
import SslFrontend.Proofs.Symbol.Pool
import SslFrontend.Proofs.Symbol.Sound
import SslFrontend.Proofs.SymbolTableInvariant
import SslFrontend.Proofs.TerminalColors
import SslFrontend.Proofs.Termination
import SslFrontend.Proofs.Token.Clean
import SslFrontend.Proofs.Token.Registered
import SslFrontend.Proofs.TokenSpelling
import SslFrontend.Proofs.TriggerMerging
import SslFrontend.Proofs.Twin.Seam
import SslFrontend.Proofs.UnclosedBodies
import SslFrontend.Proofs.UndeclaredNames
import SslFrontend.Proofs.WellFormed
import SslFrontend.Reference.Ledger
import SslFrontend.Reference.Pending
import SslFrontend.Reference.Usage
import SslFrontend.Source.FileTable
import SslFrontend.Source.LineMarker
import SslFrontend.Source.Path
import SslFrontend.Source.Position
import SslFrontend.Symbol.Builtin
import SslFrontend.Symbol.Header
import SslFrontend.Symbol.Procedure
import SslFrontend.Symbol.Table
import SslFrontend.Symbol.Variable
import SslFrontend.Text.Blank
import SslFrontend.Text.Pool
import SslFrontend.Token.Directive
import SslFrontend.Token.Kind
import SslFrontend.Token.KindSet
import SslFrontend.Token.LexError
import SslFrontend.Token.Lexeme
import SslFrontend.Token.Lexer
import SslFrontend.Token.Quoted
import SslFrontend.Token.Stream
import SslFrontend.Unit.Basic
import SslFrontend.Unit.Listing
import SslFrontend.Unit.Namespace
