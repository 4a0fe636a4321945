import HygienicLisp.Config.Document
import HygienicLisp.Config.Printer
import HygienicLisp.Session
import HygienicLisp.Proofs.Settings
import HygienicLisp.Proofs.LazyContext
import HygienicLisp.Proofs.Hygiene
import HygienicLisp.Proofs.Soundness.WellScoped
import HygienicLisp.Proofs.Renaming.Invariance
import HygienicLisp.Proofs.Namespaces.Growth
import HygienicLisp.Proofs.Namespaces.Stability
import HygienicLisp.Proofs.Namespaces.Capture
import HygienicLisp.Proofs.Namespaces.LateReferences
import HygienicLisp.Proofs.Namespaces.Policy
import HygienicLisp.Proofs.Isolation.Immutability
import HygienicLisp.Proofs.ReadPaths
import HygienicLisp.Proofs.Scoping.Addressing
import HygienicLisp.Proofs.Evaluation.Direct
import HygienicLisp.Proofs.Evaluation.Parameters
import HygienicLisp.Proofs.FullExpansion.FixedPoint
import HygienicLisp.Proofs.Definitions.Passes
import HygienicLisp.Proofs.Modules.Histories
import HygienicLisp.Proofs.Modules.Cycles
import HygienicLisp.Proofs.Reexports.Chains
import HygienicLisp.Proofs.ModuleScope.Order
import HygienicLisp.Proofs.Notation.RoundTrip
import HygienicLisp.Proofs.Nesting.Transparency
import HygienicLisp.Proofs.Spans.Sessions
import HygienicLisp.Proofs.Namespaces.ImportOrder
import HygienicLisp.Proofs.Namespaces.Matching
import HygienicLisp.Proofs.TopLevel.Definitions
import HygienicLisp.Proofs.Spans.Faithful
import HygienicLisp.Proofs.BoundIdentifiers
import HygienicLisp.Proofs.Conversion
import HygienicLisp.Proofs.TopLevel.Sequencing
import HygienicLisp.Proofs.FullExpansion.MacroFree
import HygienicLisp.Proofs.Modules.Paths
import HygienicLisp.Proofs.Arithmetic.Integers
import HygienicLisp.Proofs.TopLevel.HostImport
import HygienicLisp.Proofs.Reader.Failures
import HygienicLisp.Proofs.Namespaces.Exports
