import ShapedQuery.Config.File
import ShapedQuery.Config.Validation
import ShapedQuery.Format.Request
import ShapedQuery.Query.Index
import ShapedQuery.Proofs.Inline
import ShapedQuery.Proofs.Placeholders
import ShapedQuery.Proofs.SelectorValues
import ShapedQuery.Proofs.Accounts
import ShapedQuery.Proofs.Simulation
import ShapedQuery.Proofs.Binding
import ShapedQuery.Proofs.SelectorShape
import ShapedQuery.Proofs.ValueIndependence
import ShapedQuery.Proofs.Lexer
import ShapedQuery.Proofs.LexicalSafety
import ShapedQuery.Proofs.Every
import ShapedQuery.Proofs.Steps
import ShapedQuery.Proofs.SelectorForm
import ShapedQuery.Proofs.Script
import ShapedQuery.Proofs.WellFormed
import ShapedQuery.Proofs.Spelling
import ShapedQuery.Proofs.Readability
import ShapedQuery.Proofs.Growth
import ShapedQuery.Proofs.Validation
import ShapedQuery.Proofs.Soundness
import ShapedQuery.Proofs.Failures
import ShapedQuery.Proofs.References
import ShapedQuery.Proofs.OutputShape
import ShapedQuery.Proofs.Projecting
import ShapedQuery.Proofs.Labels
import ShapedQuery.Proofs.Runs
import ShapedQuery.Proofs.Scoping
import ShapedQuery.Proofs.Sharing
import ShapedQuery.Proofs.Nesting
import ShapedQuery.Proofs.Relabel
import ShapedQuery.Proofs.AliasChoice
import ShapedQuery.Proofs.SelectorGrammar
import ShapedQuery.Proofs.Keyed
import ShapedQuery.Proofs.Privileges
import ShapedQuery.Proofs.Showing
import ShapedQuery.Proofs.Decoding
import ShapedQuery.Proofs.JsonText
import ShapedQuery.Proofs.Assembly
import ShapedQuery.Proofs.Parts
import ShapedQuery.Proofs.Coverage
import ShapedQuery.Proofs.Truncation
import ShapedQuery.Proofs.FileRoundTrip
import ShapedQuery.Proofs.DocumentOrder
import ShapedQuery.Proofs.Truth
import ShapedQuery.Proofs.Meaning
import ShapedQuery.Proofs.Comments
import ShapedQuery.Proofs.Rows
import ShapedQuery.Proofs.Membership
import ShapedQuery.Proofs.Legend
import ShapedQuery.Proofs.Writing
import ShapedQuery.Proofs.AbsentRows
import ShapedQuery.Proofs.ResolverArguments
import ShapedQuery.Proofs.Sessions
import ShapedQuery.Proofs.FailedSteps
import ShapedQuery.Proofs.Extension
import ShapedQuery.Proofs.Sorting
import ShapedQuery.Proofs.Indexing
import ShapedQuery.Proofs.IndexElements
import ShapedQuery.Proofs.ArgumentTrees
import ShapedQuery.Proofs.ObjectCalls
import ShapedQuery.Proofs.FieldNames
import ShapedQuery.Proofs.Places
import ShapedQuery.Proofs.IndexNames
