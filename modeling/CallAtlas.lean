import CallAtlas.Analysis
import CallAtlas.CallGraph.Basic
import CallAtlas.CallGraph.Depth
import CallAtlas.CallGraph.OfRegistry
import CallAtlas.CallGraph.Reach
import CallAtlas.CallGraph.Table
import CallAtlas.Callable.Basic
import CallAtlas.Callable.Definition
import CallAtlas.CommandLine.Options
import CallAtlas.CommandLine.Run
import CallAtlas.ConfigFault
import CallAtlas.Decimal.NumberStyle
import CallAtlas.Decimal.Reader
import CallAtlas.Decimal.Shortest
import CallAtlas.Drawing.Basic
import CallAtlas.Drawing.Dot
import CallAtlas.Drawing.Export
import CallAtlas.Error
import CallAtlas.Files.Corpus
import CallAtlas.Files.Failure
import CallAtlas.Files.FileTree
import CallAtlas.Files.Host
import CallAtlas.Files.Path
import CallAtlas.Files.Settings
import CallAtlas.Filter.Basic
import CallAtlas.Filter.OfToml
import CallAtlas.Json.Basic
import CallAtlas.Json.Number
import CallAtlas.Json.Printer
import CallAtlas.Json.Reader
import CallAtlas.KeyedList
import CallAtlas.Layout.Engine
import CallAtlas.Layout.Program
import CallAtlas.Main
import CallAtlas.NameMap
import CallAtlas.NameSet
import CallAtlas.Parameters.Basic
import CallAtlas.Parameters.Key
import CallAtlas.Parameters.OfToml
import CallAtlas.Parameters.Value
import CallAtlas.Proofs.InducedSubgraph
import CallAtlas.Proofs.Reachability
import CallAtlas.Proofs.BreadthFirst
import CallAtlas.Registry.Basic
import CallAtlas.Registry.Interfaces
import CallAtlas.Registry.Resolution
import CallAtlas.Source.Document
import CallAtlas.Source.Kind
import CallAtlas.Source.Tree
import CallAtlas.Text.Blank
import CallAtlas.Text.CaseTable
import CallAtlas.Text.LowerCase
import CallAtlas.Text.Split
import CallAtlas.Toml.Assembly
import CallAtlas.Toml.Datetime
import CallAtlas.Toml.Reader
import CallAtlas.Toml.Scalar
import CallAtlas.Toml.Value
import CallAtlas.View
import CallAtlas.Proofs.ViewExactness
import CallAtlas.Proofs.DepthCutoff
import CallAtlas.Proofs.Islands
import CallAtlas.Proofs.DefinitionRecord
import CallAtlas.Proofs.RegistryLookup
import CallAtlas.Proofs.RelationGraph
import CallAtlas.Proofs.CallEdges
import CallAtlas.Proofs.FilterEffect
import CallAtlas.Proofs.DepthZero
import CallAtlas.Proofs.JointView
import CallAtlas.Proofs.SecondRun
import CallAtlas.Proofs.DefinitionOrder
import CallAtlas.Proofs.ResolvedReferences
import CallAtlas.Proofs.InterfaceUnions
import CallAtlas.Proofs.Renumbering
import CallAtlas.Proofs.InnermostScope
import CallAtlas.Proofs.DefinedNames
import CallAtlas.Proofs.CorpusGrowth
import CallAtlas.Proofs.PreorderImage
import CallAtlas.Proofs.PendingTrees
import CallAtlas.Proofs.GraphHistory
import CallAtlas.Proofs.EdgeAge
import CallAtlas.Proofs.LastWriter
import CallAtlas.Proofs.DefaultsFirst
import CallAtlas.Proofs.DotLines
import CallAtlas.Proofs.FirstOffence
import CallAtlas.Proofs.ExportAgreement
import CallAtlas.Proofs.Distances
import CallAtlas.Proofs.WalkLaw
import CallAtlas.Proofs.AtomicAggregation
import CallAtlas.Proofs.WrittenFiles
import CallAtlas.Proofs.SeparateRoots
import CallAtlas.Proofs.OrderedUnion
import CallAtlas.Proofs.CorpusReports
import CallAtlas.Proofs.ConstructionOrder
import CallAtlas.Proofs.WellFormedDefinitions
import CallAtlas.Proofs.SubtreeSearch
import CallAtlas.Proofs.RegistryHistory
import CallAtlas.Proofs.DocumentLeaves
import CallAtlas.Proofs.PathComponents
import CallAtlas.Proofs.CollectedPaths
import CallAtlas.Proofs.KeySpellings
