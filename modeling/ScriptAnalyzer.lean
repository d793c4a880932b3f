import ScriptAnalyzer.Main
import ScriptAnalyzer.Text.CaseTable
import ScriptAnalyzer.Proofs.Syntax.Annotations
import ScriptAnalyzer.Proofs.Syntax.Expressions
import ScriptAnalyzer.Proofs.Syntax.Declarations
import ScriptAnalyzer.Proofs.Token.Order
import ScriptAnalyzer.Proofs.Syntax.Division
import ScriptAnalyzer.Proofs.Syntax.Recovery
import ScriptAnalyzer.Proofs.Analysis.Calls
import ScriptAnalyzer.Proofs.Analysis.Answers
import ScriptAnalyzer.Proofs.Typing.Steps
import ScriptAnalyzer.Proofs.Typing.Rules
import ScriptAnalyzer.Proofs.Typing.SafeDeclarations
import ScriptAnalyzer.Proofs.Typing.Constraints
import ScriptAnalyzer.Proofs.Typing.Inference
import ScriptAnalyzer.Proofs.Typing.Bindings
import ScriptAnalyzer.Proofs.Typing.Callees
import ScriptAnalyzer.Proofs.Typing.Calls
import ScriptAnalyzer.Proofs.Typing.Constructs
import ScriptAnalyzer.Proofs.Typing.Soundness
import ScriptAnalyzer.Proofs.Typing.Flow
import ScriptAnalyzer.Proofs.Typing.Declarations
import ScriptAnalyzer.Proofs.Typing.Results
import ScriptAnalyzer.Proofs.Syntax.ErrorNodes
import ScriptAnalyzer.Proofs.Typing.Generalization
import ScriptAnalyzer.Proofs.Text.Offsets
import ScriptAnalyzer.Proofs.Token.Spelling
import ScriptAnalyzer.Proofs.Project.Regions
import ScriptAnalyzer.Proofs.Query.Uses
import ScriptAnalyzer.Proofs.Query.Paths
import ScriptAnalyzer.Proofs.Query.Completions
import ScriptAnalyzer.Proofs.Query.Signatures
import ScriptAnalyzer.Proofs.Query.Candidates
import ScriptAnalyzer.Proofs.Query.CallScan
import ScriptAnalyzer.Proofs.Analysis.Files
import ScriptAnalyzer.Proofs.Analysis.Closing
import ScriptAnalyzer.Proofs.Analysis.Publication
import ScriptAnalyzer.Proofs.Analysis.Readiness
import ScriptAnalyzer.Proofs.Analysis.Queueing
import ScriptAnalyzer.Proofs.Analysis.Sharing
import ScriptAnalyzer.Proofs.Server.Publishing
import ScriptAnalyzer.Proofs.Token.Delimited
import ScriptAnalyzer.Proofs.Token.Relexing
import ScriptAnalyzer.Proofs.Token.LongestMatch
import ScriptAnalyzer.Proofs.Typing.Termination
import ScriptAnalyzer.Proofs.Syntax.Indentation
import ScriptAnalyzer.Proofs.Syntax.RoundTrip
import ScriptAnalyzer.Proofs.Typing.Dues
import ScriptAnalyzer.Proofs.Typing.ExpressionDues
import ScriptAnalyzer.Proofs.Syntax.ValidTrees
import ScriptAnalyzer.Proofs.Syntax.NestedTrees
import ScriptAnalyzer.Proofs.Typing.AccountedNames
import ScriptAnalyzer.Proofs.Typing.UnusedNames
import ScriptAnalyzer.Proofs.Typing.TypeScoping
import ScriptAnalyzer.Proofs.Typing.ModuleScopes
import ScriptAnalyzer.Proofs.Typing.FormatStrings
import ScriptAnalyzer.Proofs.Typing.Displays
import ScriptAnalyzer.Proofs.Syntax.OperatorChains
import ScriptAnalyzer.Proofs.Typing.Signatures
import ScriptAnalyzer.Proofs.Text.Positions
import ScriptAnalyzer.Proofs.Editor.Columns
import ScriptAnalyzer.Proofs.Editor.Lines
import ScriptAnalyzer.Proofs.Syntax.Methods
import ScriptAnalyzer.Proofs.Syntax.Progress
