import FlowPlan.CommandLine
import FlowPlan.CommandLine.Help
import FlowPlan.Condition.Basic
import FlowPlan.Condition.Nesting
import FlowPlan.Condition.Parser
import FlowPlan.Condition.Printer
import FlowPlan.Condition.Reference
import FlowPlan.Condition.Simplify
import FlowPlan.Definition.Basic
import FlowPlan.Definition.Build
import FlowPlan.Definition.Field
import FlowPlan.Definition.Load
import FlowPlan.Definition.Names
import FlowPlan.Definition.Position
import FlowPlan.Definition.Reader
import FlowPlan.Definition.Writer
import FlowPlan.Document
import FlowPlan.Error
import FlowPlan.Graph.Basic
import FlowPlan.Graph.Closure
import FlowPlan.Graph.Cycle
import FlowPlan.Graph.Encounter
import FlowPlan.Graph.Order
import FlowPlan.Graph.Priority
import FlowPlan.Graph.RunCondition
import FlowPlan.Job
import FlowPlan.List.Distinct
import FlowPlan.List.Total
import FlowPlan.Main
import FlowPlan.Number.Binary64
import FlowPlan.Number.Decimal
import FlowPlan.Number.Shortest
import FlowPlan.Proofs.Acyclic
import FlowPlan.Proofs.AlikeClosure
import FlowPlan.Proofs.AlikeConditions
import FlowPlan.Proofs.AlikeGraphs
import FlowPlan.Proofs.AlikeItems
import FlowPlan.Proofs.AlikeOrders
import FlowPlan.Proofs.Alternatives
import FlowPlan.Proofs.Arrangement
import FlowPlan.Proofs.BareConditions
import FlowPlan.Proofs.BuiltJobs
import FlowPlan.Proofs.ChainText
import FlowPlan.Proofs.Chronicle
import FlowPlan.Proofs.Chronicled
import FlowPlan.Proofs.ChronicledJobs
import FlowPlan.Proofs.Circles
import FlowPlan.Proofs.ClosedGraph
import FlowPlan.Proofs.Closure
import FlowPlan.Proofs.ComesAfter
import FlowPlan.Proofs.Complement
import FlowPlan.Proofs.ComposedConditions
import FlowPlan.Proofs.ConsumedNeeds
import FlowPlan.Proofs.CoveredConditions
import FlowPlan.Proofs.CoveredConstruction
import FlowPlan.Proofs.CoveredSteps
import FlowPlan.Proofs.CoveredTexts
import FlowPlan.Proofs.Declared
import FlowPlan.Proofs.DeclaredNeeds
import FlowPlan.Proofs.DeclaredReads
import FlowPlan.Proofs.Demand
import FlowPlan.Proofs.DependenciesFirst
import FlowPlan.Proofs.Depth
import FlowPlan.Proofs.DocumentOrder
import FlowPlan.Proofs.Documents
import FlowPlan.Proofs.EarlierReads
import FlowPlan.Proofs.Edges
import FlowPlan.Proofs.Elements
import FlowPlan.Proofs.EmbeddedSteps
import FlowPlan.Proofs.Embeddings
import FlowPlan.Proofs.Ensures
import FlowPlan.Proofs.ExactComplements
import FlowPlan.Proofs.ExactConditions
import FlowPlan.Proofs.Explanations
import FlowPlan.Proofs.ExtraFields
import FlowPlan.Proofs.Failures
import FlowPlan.Proofs.FixedTexts
import FlowPlan.Proofs.Grammar
import FlowPlan.Proofs.GreedyOrder
import FlowPlan.Proofs.Growth
import FlowPlan.Proofs.Index
import FlowPlan.Proofs.Involution
import FlowPlan.Proofs.Irredundance
import FlowPlan.Proofs.ItemGraph
import FlowPlan.Proofs.JoinedPieces
import FlowPlan.Proofs.Leaves
import FlowPlan.Proofs.LibraryOrder
import FlowPlan.Proofs.Listing
import FlowPlan.Proofs.LiteralTexts
import FlowPlan.Proofs.Members
import FlowPlan.Proofs.MergeRounds
import FlowPlan.Proofs.Merging
import FlowPlan.Proofs.NamePrecedence
import FlowPlan.Proofs.NamedSteps
import FlowPlan.Proofs.Needs
import FlowPlan.Proofs.Nesting
import FlowPlan.Proofs.Nodes
import FlowPlan.Proofs.NoneSkipped
import FlowPlan.Proofs.NumberTexts
import FlowPlan.Proofs.Numerals
import FlowPlan.Proofs.OperandTexts
import FlowPlan.Proofs.Operands
import FlowPlan.Proofs.ParsedLeaves
import FlowPlan.Proofs.PartsOfValues
import FlowPlan.Proofs.PlacedItems
import FlowPlan.Proofs.PlacedJobs
import FlowPlan.Proofs.Placing
import FlowPlan.Proofs.PlainText
import FlowPlan.Proofs.Priorities
import FlowPlan.Proofs.QuotedLiterals
import FlowPlan.Proofs.QuotedText
import FlowPlan.Proofs.ReadDefinitions
import FlowPlan.Proofs.ReadRecords
import FlowPlan.Proofs.Reading
import FlowPlan.Proofs.Reads
import FlowPlan.Proofs.ReducedDefinitions
import FlowPlan.Proofs.ReducedJobs
import FlowPlan.Proofs.ReferenceText
import FlowPlan.Proofs.ReferencedSteps
import FlowPlan.Proofs.RenderedReads
import FlowPlan.Proofs.Rendering
import FlowPlan.Proofs.ReportedCycles
import FlowPlan.Proofs.Requirements
import FlowPlan.Proofs.Rereading
import FlowPlan.Proofs.RoundedQuotients
import FlowPlan.Proofs.RunCondition
import FlowPlan.Proofs.SettledTexts
import FlowPlan.Proofs.SharedSteps
import FlowPlan.Proofs.ShortestDecimals
import FlowPlan.Proofs.ShownReferences
import FlowPlan.Proofs.SimplifiedMeaning
import FlowPlan.Proofs.SoundConstruction
import FlowPlan.Proofs.SourceOrder
import FlowPlan.Proofs.Spacing
import FlowPlan.Proofs.Splitting
import FlowPlan.Proofs.Stages
import FlowPlan.Proofs.Standing
import FlowPlan.Proofs.Terms
import FlowPlan.Proofs.Truth
import FlowPlan.Proofs.TwoScopes
import FlowPlan.Proofs.Unordered
import FlowPlan.Proofs.VaryingOperands
import FlowPlan.Proofs.Walk
import FlowPlan.Proofs.WrittenBack
import FlowPlan.Proofs.WrittenDefinitions
import FlowPlan.Proofs.WrittenValues
import FlowPlan.Step
import FlowPlan.Text.Basic
import FlowPlan.Text.Blank
import FlowPlan.Text.Hidden
import FlowPlan.Text.Quoted
import FlowPlan.Value
import FlowPlan.Workflow
import FlowPlan.Yaml.Basic
import FlowPlan.Yaml.Content
import FlowPlan.Yaml.Cursor
import FlowPlan.Yaml.Description
import FlowPlan.Yaml.Directive
import FlowPlan.Yaml.Node
import FlowPlan.Yaml.Plain
import FlowPlan.Yaml.Scalar
import FlowPlan.Yaml.ScalarStyle
import FlowPlan.Yaml.Tag
import FlowPlan.Yaml.TagText
import FlowPlan.Yaml.Token
import FlowPlan.Yaml.Writer
