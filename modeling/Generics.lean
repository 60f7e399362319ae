import Generics.Ascending
import Generics.Capture
import Generics.Count
import Generics.Course
import Generics.Diagnostic
import Generics.Failure
import Generics.Json
import Generics.Main
import Generics.Nominal
import Generics.Proofs.Dependency
import Generics.Proofs.Entries
import Generics.Proofs.Nodes
import Generics.Proofs.NormalForm
import Generics.Proofs.Skeleton
import Generics.Proofs.Substitution
import Generics.Registry
import Generics.Report
import Generics.Session
import Generics.Supertypes
import Generics.Table
import Generics.Table.Record
import Generics.Table.Resolve
import Generics.Trace
import Generics.Ty
import Generics.Ty.Array
import Generics.Ty.Compare
import Generics.Ty.Site
import Generics.Ty.Text
import Generics.Ty.Vars
import Generics.Unifier
import Generics.VarKey
import Generics.Workload
import Generics.Proofs.Resolution
import Generics.Proofs.Acyclic
import Generics.Proofs.Unification
import Generics.Proofs.Matching
import Generics.Proofs.Captures
import Generics.Proofs.Instantiation
import Generics.Proofs.OwnResolution
import Generics.Proofs.Descent
import Generics.Proofs.Identity
import Generics.Proofs.Idempotence
import Generics.Proofs.Links
import Generics.Proofs.Survey
import Generics.Proofs.Visits
import Generics.Proofs.Exchange
import Generics.Proofs.Rollback
import Generics.Proofs.Numbering
import Generics.Proofs.Release
import Generics.Proofs.Freshness
import Generics.Proofs.Normality
import Generics.Proofs.SelfBinding
import Generics.Proofs.Tracing
import Generics.Proofs.Survivors
import Generics.Proofs.Staging
import Generics.Proofs.Congruence
import Generics.Proofs.Clashes
import Generics.Proofs.Closure
import Generics.Proofs.Independence
import Generics.Proofs.Chains
import Generics.Proofs.Arrays
import Generics.Proofs.Extension
import Generics.Proofs.Outcomes
import Generics.Proofs.Relevance
import Generics.Proofs.NestedPairs
import Generics.Proofs.NumberedChains
import Generics.Proofs.Paths
import Generics.Proofs.Shortcut
