import Lineage.Main
import Lineage.Session.Graph
import Lineage.Session.Nodes
import Lineage.Session.Reports
import Lineage.Text.Base64
import Lineage.Proofs.Linearization.Merge
import Lineage.Proofs.Linearization.Rule
import Lineage.Proofs.Linearization.Culprit
import Lineage.Proofs.Linearization.Search
import Lineage.Proofs.Linearization.Turns
import Lineage.Proofs.Graph.Ingest
import Lineage.Proofs.Graph.View
import Lineage.Proofs.Unfolding
import Lineage.Proofs.Graph.Flatten
import Lineage.Proofs.Graph.Order
import Lineage.Proofs.Graph.Build
import Lineage.Proofs.Linearization.History
import Lineage.Proofs.Graph.DeclarationOrder
import Lineage.Proofs.Declaration.References
import Lineage.Proofs.Graph.Cycles
import Lineage.Proofs.Check.Verdict
import Lineage.Proofs.Output.Encoding
import Lineage.Proofs.Output.Taken
import Lineage.Proofs.Load.Names
import Lineage.Proofs.Graph.Names
import Lineage.Proofs.CommandLine.ExitCodes
import Lineage.Proofs.MixedPaths
import Lineage.Proofs.Graph.Edges
import Lineage.Proofs.Graph.DependencyOrder
import Lineage.Proofs.Check.Acyclic
import Lineage.Proofs.Graph.Ascent
import Lineage.Proofs.Check.Termination
import Lineage.Proofs.Session.Queries
import Lineage.Proofs.Graph.Relevance
import Lineage.Proofs.Session.Soundness
import Lineage.Proofs.Session.Staleness
import Lineage.Proofs.Check.CycleReport
import Lineage.Proofs.Session.Frozen
import Lineage.Proofs.Declaration.Document
import Lineage.Proofs.Load.Outcome
import Lineage.Proofs.Linearization.Leftmost
import Lineage.Proofs.Graph.Visits
import Lineage.Proofs.Graph.FinalParents
import Lineage.Proofs.Declaration.Line
import Lineage.Proofs.Check.Culprits
import Lineage.Proofs.Session.Reports
import Lineage.Proofs.Session.Locality
import Lineage.Proofs.Session.Freezing
import Lineage.Proofs.Graph.Mentions
import Lineage.Proofs.Graph.Inverses
import Lineage.Proofs.Check.ReferenceReport
import Lineage.Proofs.Declaration.Joined
import Lineage.Proofs.Load.Newlines
import Lineage.Proofs.Load.SetOrder
import Lineage.Proofs.Declaration.WrittenDocument
import Lineage.Proofs.Yaml.Room
import Lineage.Proofs.Graph.Export
