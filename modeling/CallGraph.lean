import CallGraph.Log.Setup
import CallGraph.Main
import CallGraph.Proofs.CallSites
import CallGraph.Proofs.Collection
import CallGraph.Proofs.Descriptions
import CallGraph.Proofs.Erasure
import CallGraph.Proofs.ErrorPositions
import CallGraph.Proofs.Lexing.Escapes
import CallGraph.Proofs.Lexing.LongestMatch
import CallGraph.Proofs.Nodes
import CallGraph.Proofs.Parsing.Contexts
import CallGraph.Proofs.Parsing.Loops
import CallGraph.Proofs.Phase.Observers
import CallGraph.Proofs.Run.Discovery
import CallGraph.Proofs.Run.Interleaving
import CallGraph.Proofs.Run.Isolation
import CallGraph.Proofs.Truncation
