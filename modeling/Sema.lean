import Sema.Analysis
import Sema.Binary64
import Sema.Catalog
import Sema.Command.Arguments
import Sema.Command.Run
import Sema.Config
import Sema.Effect
import Sema.Env
import Sema.Files.Path
import Sema.Files.Tree
import Sema.Json.Basic
import Sema.Json.Printer
import Sema.Json.Reader
import Sema.Json.Record
import Sema.LiveRange
import Sema.Main
import Sema.Manifest
import Sema.Ownership.Check
import Sema.Ownership.Flow
import Sema.Proofs.Json.Encoding
import Sema.Proofs.Json.Layout
import Sema.Proofs.Json.Token
import Sema.Proofs.LiveRange
import Sema.Proofs.Manifest
import Sema.Proofs.Ownership.AllPaths
import Sema.Proofs.Ownership.Captures
import Sema.Proofs.Ownership.Independence
import Sema.Proofs.Ownership.Invariant
import Sema.Proofs.Ownership.LoopCondition
import Sema.Proofs.Ownership.Machine
import Sema.Proofs.Ownership.Merging
import Sema.Proofs.Ownership.Path
import Sema.Proofs.Ownership.Plan
import Sema.Proofs.Ownership.Shape
import Sema.Proofs.Ownership.StoredBorrows
import Sema.Proofs.Ownership.Temporaries
import Sema.Proofs.Ownership.Tracking
import Sema.Proofs.Ownership.View
import Sema.Proofs.Solver.Acyclic
import Sema.Proofs.Solver.Incremental
import Sema.Proofs.Solver.Locality
import Sema.Proofs.Solver.Order
import Sema.Proofs.Solver.Orientation
import Sema.Proofs.Solver.Principal
import Sema.Proofs.Solver.Reduction
import Sema.Proofs.Solver.Soundness
import Sema.Proofs.Solver.Termination
import Sema.Proofs.Solver.Triangular
import Sema.Proofs.Syntax.Addresses
import Sema.Proofs.Syntax.Numbering
import Sema.Proofs.Syntax.Relabelling
import Sema.Proofs.Syntax.RoundTrip
import Sema.Proofs.Ty.Compatible
import Sema.Proofs.Ty.Substitution
import Sema.Proofs.Typing.Accepted
import Sema.Proofs.Typing.AliasScope
import Sema.Proofs.Typing.Alternatives
import Sema.Proofs.Typing.Ambiguity
import Sema.Proofs.Typing.Arrays
import Sema.Proofs.Typing.Binding
import Sema.Proofs.Typing.Callers
import Sema.Proofs.Typing.Confinement
import Sema.Proofs.Typing.Consistency
import Sema.Proofs.Typing.Containment
import Sema.Proofs.Typing.Coverage
import Sema.Proofs.Typing.EffectCheck
import Sema.Proofs.Typing.Emission
import Sema.Proofs.Typing.Enactment
import Sema.Proofs.Typing.Events
import Sema.Proofs.Typing.Expansion
import Sema.Proofs.Typing.Fields
import Sema.Proofs.Typing.Filter
import Sema.Proofs.Typing.Freshness
import Sema.Proofs.Typing.Generalization
import Sema.Proofs.Typing.Generics
import Sema.Proofs.Typing.Lowering
import Sema.Proofs.Typing.Members
import Sema.Proofs.Typing.MissingEffects
import Sema.Proofs.Typing.Moments
import Sema.Proofs.Typing.Origins
import Sema.Proofs.Typing.Passes
import Sema.Proofs.Typing.PatternChecks
import Sema.Proofs.Typing.Recorded
import Sema.Proofs.Typing.Registration
import Sema.Proofs.Typing.Restoration
import Sema.Proofs.Typing.RootBindings
import Sema.Proofs.Typing.Rounds
import Sema.Proofs.Typing.Scoping
import Sema.Proofs.Typing.Settling
import Sema.Proofs.Typing.Steps
import Sema.Proofs.Typing.Verdict
import Sema.Proofs.Typing.Walk
import Sema.Proofs.Typing.Work
import Sema.Report
import Sema.Solver.Constraint
import Sema.Solver.Unify
import Sema.Span
import Sema.Syntax.Build
import Sema.Syntax.Decode
import Sema.Syntax.Encode
import Sema.Syntax.Expr
import Sema.Syntax.Item
import Sema.Syntax.Pattern
import Sema.Syntax.Type
import Sema.Syntax.Walk
import Sema.Table
import Sema.Text.Decimal
import Sema.Text.Uppercase
import Sema.Toml.Basic
import Sema.Toml.Reader
import Sema.Toml.Scalar
import Sema.Ty.Basic
import Sema.Ty.Scheme
import Sema.Ty.Subst
import Sema.Typing.Declare
import Sema.Typing.Expr
import Sema.Typing.Fault
import Sema.Typing.Lower
import Sema.Typing.Member
import Sema.Typing.Pattern
import Sema.Typing.Program
import Sema.Typing.Session
