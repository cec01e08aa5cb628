import ProcLang.Main
import ProcLang.Window
import ProcLang.Proofs.ScopeNeutral
import ProcLang.Proofs.OpenScopes
import ProcLang.Proofs.ProcedurePhrases
import ProcLang.Proofs.Continuing
import ProcLang.Proofs.Faults
import ProcLang.Proofs.FirstViolation
import ProcLang.Proofs.MaximalMunch
import ProcLang.Proofs.DeclarationList
import ProcLang.Proofs.OnDemand
import ProcLang.Proofs.FrontEnds
import ProcLang.Proofs.ClosingNames
import ProcLang.Proofs.DeclaredAttributes
import ProcLang.Proofs.FailedRuns
import ProcLang.Proofs.Grouping
import ProcLang.Proofs.WindowRuns
import ProcLang.Proofs.Renaming
import ProcLang.Proofs.FreeFormat
import ProcLang.Proofs.SourceLines
import ProcLang.Proofs.Printing
import ProcLang.Proofs.ExpressionLists
import ProcLang.Proofs.Tracing
import ProcLang.Proofs.JoinedTexts
import ProcLang.Proofs.Requests
import ProcLang.Proofs.Enumeration
import ProcLang.Proofs.Termination
import ProcLang.Proofs.SingleLines
import ProcLang.Proofs.Columns
import ProcLang.Proofs.SymbolHistories
