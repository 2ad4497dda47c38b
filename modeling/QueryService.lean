import QueryService.Main
import QueryService.Proofs.Cache.Bounds
import QueryService.Proofs.Cache.History
import QueryService.Proofs.Cache.Inclusion
import QueryService.Proofs.Checker.Completeness
import QueryService.Proofs.Diagnostic.Reporting
import QueryService.Proofs.Diagnostic.Unterminated
import QueryService.Proofs.Document.Selection
import QueryService.Proofs.Grammar.Completion
import QueryService.Proofs.Highlighter.Settling
import QueryService.Proofs.Highlighter.Underlines
import QueryService.Proofs.Statement.Case
import QueryService.Proofs.Statement.Isolation
import QueryService.Proofs.Statement.Versions
import QueryService.Proofs.Token.Lines
import QueryService.Proofs.Timer.Debouncing
import QueryService.Proofs.Grammar.PrefixFree
import QueryService.Proofs.Grammar.Trivia
import QueryService.Proofs.Grammar.Consistency
import QueryService.Proofs.Statement.Cursor
import QueryService.Proofs.Token.Maximal
import QueryService.Proofs.Checker.OutputLines
import QueryService.Proofs.Settings.Numbers
import QueryService.Proofs.Color
import QueryService.Proofs.Keyword
import QueryService.Proofs.Spelling.Metric
import QueryService.Proofs.Spelling.Suggestion
