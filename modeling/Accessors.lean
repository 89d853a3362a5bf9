import Accessors.Accessor.Adapter
import Accessors.Accessor.Partial
import Accessors.Collect
import Accessors.Log.Console
import Accessors.Plan.Composite
import Accessors.Proofs.Accessor.Adapter
import Accessors.Proofs.Accessor.Chain
import Accessors.Proofs.Accessor.Erasure
import Accessors.Proofs.Accessor.Failable
import Accessors.Proofs.Accessor.Fused
import Accessors.Proofs.Accessor.InTurn
import Accessors.Proofs.Accessor.LensChain
import Accessors.Proofs.Accessor.Local
import Accessors.Proofs.Accessor.Prism
import Accessors.Proofs.Catalog.History
import Accessors.Proofs.Classification.Coherence
import Accessors.Proofs.Classification.Opaque
import Accessors.Proofs.Classification.Refused
import Accessors.Proofs.Classification.Renamed
import Accessors.Proofs.Classification.Strict
import Accessors.Proofs.Collect
import Accessors.Proofs.Flavor.Folds
import Accessors.Proofs.Guard.History
import Accessors.Proofs.Log.Defects
import Accessors.Proofs.Log.Thresholds
import Accessors.Proofs.Named
import Accessors.Proofs.Plan.Cases
import Accessors.Proofs.Plan.Declared
import Accessors.Proofs.Plan.Defects
import Accessors.Proofs.Plan.Scopes
import Accessors.Proofs.Plan.SinglePayload
import Accessors.Proofs.Plan.UnionNames
import Accessors.Proofs.Plan.Unwrapped
import Accessors.Proofs.Query
import Accessors.Proofs.Session.Cases
import Accessors.Proofs.Session.Elements
import Accessors.Proofs.Session.Lens
import Accessors.Proofs.Session.Sharing
import Accessors.Proofs.Session.Taking
import Accessors.Proofs.Store.Agreement
import Accessors.Proofs.Ty.Found
import Accessors.Proofs.TypeExpr
import Accessors.Proofs.Wrapper.Found
import Accessors.Query
import Accessors.Sample.Chain
import Accessors.Sample.Criterion
import Accessors.Session.Written
import Accessors.Ty.Classified
import Accessors.TypeExpr.Reader
