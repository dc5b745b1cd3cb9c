import QueryGraph.Main
import QueryGraph.Proofs.Graph.Cascade
import QueryGraph.Proofs.Graph.Counting
import QueryGraph.Proofs.Graph.Depth
import QueryGraph.Proofs.Graph.Parallel
import QueryGraph.Proofs.Graph.Reported
import QueryGraph.Proofs.Graph.Succession
import QueryGraph.Proofs.Graph.Summary
import QueryGraph.Proofs.Graph.Traversal
import QueryGraph.Proofs.Node.Literal
import QueryGraph.Proofs.Node.Outcome
import QueryGraph.Proofs.Node.Predicate
import QueryGraph.Proofs.Plan.Account
import QueryGraph.Proofs.Plan.Comment
import QueryGraph.Proofs.Plan.Grammar
import QueryGraph.Proofs.Plan.Literal
import QueryGraph.Proofs.Plan.Locality
import QueryGraph.Proofs.Plan.Masked
import QueryGraph.Proofs.Plan.Normal
import QueryGraph.Proofs.Plan.Policy
import QueryGraph.Proofs.Plan.Programs
import QueryGraph.Proofs.Plan.Propagation
import QueryGraph.Proofs.Plan.Remainder
import QueryGraph.Proofs.Plan.Sides
import QueryGraph.Proofs.Plan.Spelling
import QueryGraph.Proofs.Plan.Success
import QueryGraph.Proofs.Query.Nesting
import QueryGraph.Proofs.Toml.Settings
import QueryGraph.Proofs.Wire.Document
import QueryGraph.Proofs.Wire.Plan
import QueryGraph.Proofs.Wire.Respelling
import QueryGraph.Wire.Settings
