import Manifest.Builtin
import Manifest.Discovery
import Manifest.Document
import Manifest.Project
import Manifest.Query
import Manifest.Resolver
import Manifest.Proofs.Resolver.Reference
import Manifest.Proofs.Resolver.Call
import Manifest.Proofs.Resolver.State
import Manifest.Proofs.Resolver.Invariant
import Manifest.Proofs.Resolver.Depth
import Manifest.Proofs.Resolver.Memory
import Manifest.Proofs.Resolver.Circle
import Manifest.Proofs.Value.Child
import Manifest.Proofs.Resolver.Whole
import Manifest.Proofs.Resolver.Record
import Manifest.Proofs.Resolver.DepthFirst
import Manifest.Proofs.Resolver.Once
import Manifest.Proofs.Path.Expand
import Manifest.Proofs.Query.Congruence
import Manifest.Proofs.Query.Steady
import Manifest.Proofs.Project.Entry
import Manifest.Proofs.Project.Cache
import Manifest.Proofs.Placeholder.Grammar
import Manifest.Proofs.Placeholder.Scan
import Manifest.Proofs.Resolver.Local
import Manifest.Proofs.Value.Texts
import Manifest.Proofs.Resolver.Coherent
import Manifest.Proofs.Resolver.Again
import Manifest.Proofs.Function.Fetch
import Manifest.Proofs.Builtin.Package
import Manifest.Proofs.Value.Normal
import Manifest.Proofs.Text.Octets
import Manifest.Proofs.Query.Normal
import Manifest.Proofs.Query.Trace
import Manifest.Proofs.Query.Errors
import Manifest.Proofs.Project.Along
import Manifest.Proofs.Project.Lookups
import Manifest.Proofs.Resolver.Origin
import Manifest.Proofs.Resolver.Text
import Manifest.Proofs.Query.Direct
import Manifest.Proofs.Builtin.Target
import Manifest.Proofs.Project.Export
import Manifest.Proofs.Project.Current
import Manifest.Proofs.Query.Refusal
import Manifest.Proofs.Builtin.Versions
import Manifest.Proofs.Builtin.Time
import Manifest.Proofs.Builtin.License
import Manifest.Proofs.Value.Node
import Manifest.Proofs.Placeholder.Substitute
import Manifest.Proofs.Builtin.Strict
import Manifest.Proofs.Project.Discovery
