import Acceptor.CommandLine.FileTree
import Acceptor.Main
import Acceptor.Proofs.Diagnosis
import Acceptor.Proofs.Graph.Dot
import Acceptor.Proofs.Graph.RoundTrip
import Acceptor.Proofs.Graph.Termination
import Acceptor.Proofs.Graph.Trace
import Acceptor.Proofs.Graph.Tracking
import Acceptor.Proofs.Table.Document
import Acceptor.Proofs.Table.EpsilonFree
import Acceptor.Proofs.Table.Faults
import Acceptor.Proofs.Table.Fixpoint
import Acceptor.Proofs.Table.Marker
import Acceptor.Proofs.Table.Relabelling
import Acceptor.Proofs.Table.Stability
import Acceptor.Proofs.Token.Printing
import Acceptor.Proofs.WalkOptions
import Acceptor.Proofs.Token.Calls
import Acceptor.Proofs.Pattern.Decomposition
import Acceptor.Proofs.Table.Precomputed
