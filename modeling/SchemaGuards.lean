import SchemaGuards.Config
import SchemaGuards.Context
import SchemaGuards.Decimal.Binary64
import SchemaGuards.Decimal.Literal
import SchemaGuards.Decimal.Shortest
import SchemaGuards.Diagnostic
import SchemaGuards.Distinct
import SchemaGuards.Draft.Basic
import SchemaGuards.Draft.Linking
import SchemaGuards.Draft.Reading
import SchemaGuards.Emission.LifecycleFile
import SchemaGuards.Emission.NamespaceFile
import SchemaGuards.Emission.RouteFile
import SchemaGuards.Emission.Storage
import SchemaGuards.Expansion.Basic
import SchemaGuards.Expansion.Numbering
import SchemaGuards.Expansion.Terminal
import SchemaGuards.GenerationError
import SchemaGuards.Generator
import SchemaGuards.Layout
import SchemaGuards.Lifecycle
import SchemaGuards.Markup.Attribute
import SchemaGuards.Markup.Element
import SchemaGuards.Markup.Error
import SchemaGuards.Markup.Tag
import SchemaGuards.Resolution
import SchemaGuards.Sample
import SchemaGuards.Schema.Error
import SchemaGuards.Schema.Graph
import SchemaGuards.Schema.IndexedRegistry
import SchemaGuards.Schema.Node
import SchemaGuards.Schema.Reachability
import SchemaGuards.Schema.Registry
import SchemaGuards.Schema.Validation
import SchemaGuards.Session
import SchemaGuards.Text.Blank
import SchemaGuards.Text.Comment
import SchemaGuards.Text.Disjunction
import SchemaGuards.Text.Quoted
import SchemaGuards.Traced
import SchemaGuards.Visibility
import SchemaGuards.Written.Guard
import SchemaGuards.Written.Reference
import SchemaGuards.Written.TypeExpr
import SchemaGuards.Proofs.Acceptance
import SchemaGuards.Proofs.Aliases
import SchemaGuards.Proofs.Brackets.Resolutions
import SchemaGuards.Proofs.CommentEnds
import SchemaGuards.Proofs.Conjunctions
import SchemaGuards.Proofs.Decimal.Grammar
import SchemaGuards.Proofs.Enforcement
import SchemaGuards.Proofs.Expansion.Failures
import SchemaGuards.Proofs.Expansion.Finite
import SchemaGuards.Proofs.Expansion.Inlining
import SchemaGuards.Proofs.Expansion.Keys
import SchemaGuards.Proofs.Expansion.Restrictions
import SchemaGuards.Proofs.Exports
import SchemaGuards.Proofs.FilePaths
import SchemaGuards.Proofs.Format.Values
import SchemaGuards.Proofs.Generation
import SchemaGuards.Proofs.Grouping
import SchemaGuards.Proofs.Imports
import SchemaGuards.Proofs.IndexedRegistry
import SchemaGuards.Proofs.Layout
import SchemaGuards.Proofs.Lifecycle
import SchemaGuards.Proofs.Lines.Resolutions
import SchemaGuards.Proofs.Linkage
import SchemaGuards.Proofs.Linking.Growth
import SchemaGuards.Proofs.Linking.Linked
import SchemaGuards.Proofs.Linking.Segments
import SchemaGuards.Proofs.Linking.Unfolding
import SchemaGuards.Proofs.Linking.WellFormed
import SchemaGuards.Proofs.MemberValues
import SchemaGuards.Proofs.ModeAgreement
import SchemaGuards.Proofs.Nesting
import SchemaGuards.Proofs.Occurrences
import SchemaGuards.Proofs.Order.Generation
import SchemaGuards.Proofs.OutputPaths
import SchemaGuards.Proofs.Renderings
import SchemaGuards.Proofs.Reporting
import SchemaGuards.Proofs.Roots
import SchemaGuards.Proofs.Routes
import SchemaGuards.Proofs.ScalarChains
import SchemaGuards.Proofs.Scaling.Generation
import SchemaGuards.Proofs.Script.Quotation
import SchemaGuards.Proofs.Session
import SchemaGuards.Proofs.VisibilityTexts
