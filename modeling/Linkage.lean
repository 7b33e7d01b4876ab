import Linkage.Proofs.Interface.RoundTrip
import Linkage.Proofs.Graph
import Linkage.Proofs.Wire.Canonical
import Linkage.Proofs.Symbols
import Linkage.Proofs.Interface.Decoded
import Linkage.Proofs.Interface.Canonical
import Linkage.Proofs.Script.Parses
import Linkage.Proofs.Build.External
import Linkage.Proofs.Build.WellFormed
import Linkage.Proofs.Build.Paths
import Linkage.Proofs.Build.Registration
import Linkage.Proofs.Build.Typing
import Linkage.Proofs.Build.Terms
import Linkage.Proofs.Build.Values
import Linkage.Proofs.Build.Acceptance
import Linkage.Proofs.Evaluation.Meaning
import Linkage.Proofs.Build.Accepted
import Linkage.Proofs.Build.Agreement
import Linkage.Proofs.Host.LateBinding
import Linkage.Proofs.Host.Coherence
import Linkage.Proofs.Host.Atomicity
import Linkage.Proofs.Host.Loading
import Linkage.Proofs.Host.Referenceable
import Linkage.Proofs.Host.Resolution
import Linkage.Proofs.Evaluation.Composition
import Linkage.Proofs.Build.Budget
import Linkage.Proofs.Build.Faithful
import Linkage.Proofs.Build.References
import Linkage.Proofs.Token.Ahead
import Linkage.Proofs.Token.Places
import Linkage.Proofs.Build.Symbols
import Linkage.Proofs.Token.Joined
import Linkage.Proofs.Token.Spaced
import Linkage.Proofs.Script.Beside
import Linkage.Proofs.Script.Recovery
import Linkage.Proofs.Script.Extension
import Linkage.Proofs.Script.Layout
import Linkage.Proofs.Build.Rearranged
import Linkage.Proofs.Host.Initialization
import Linkage.Proofs.Host.Notification
import Linkage.Proofs.Build.Unrelated
import Linkage.Proofs.Build.RootCauses
import Linkage.Proofs.Token.Lossless
import Linkage.Proofs.Script.ErrorOrder
import Linkage.Proofs.Build.Reports
import Linkage.Proofs.Build.Blank
import Linkage.Proofs.Build.Resolution
import Linkage.Proofs.Interface.PrefixFree
import Linkage.Proofs.Evaluation.Levels
import Linkage.Proofs.Build.Lookup
import Linkage.Proofs.Build.Shadowing
import Linkage.Proofs.Build.Qualifiers
import Linkage.Proofs.Script.StringLiteral
import Linkage.Proofs.Ring
import Linkage.Proofs.Build.BaseCycles
import Linkage.Proofs.Token.Extent
import Linkage.Proofs.Script.Extent
import Linkage.Proofs.Build.Pointing
import Linkage.Proofs.Value.Kinds
import Linkage.Proofs.Value.Integers
import Linkage.Proofs.Snapshot.FirstWins
import Linkage.Proofs.Hash.Member
import Linkage.Proofs.Graph.DepthFirst
import Linkage.Proofs.Graph.Components
import Linkage.Proofs.Script.Stepwise
import Linkage.Proofs.Script.Depth
import Linkage.Proofs.Script.Progress
