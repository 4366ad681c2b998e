import BoundedAuthority.ContentAssertion.Lineage
import BoundedAuthority.Go.ChainAgreement
import BoundedAuthority.Go.Ed25519Agreement
import BoundedAuthority.Go.JsonSpec
import BoundedAuthority.Go.Selector
import BoundedAuthority.Go.UriAuthority
import BoundedAuthority.LaterMajors
import BoundedAuthority.ProducerClosure
import BoundedAuthority.Python.Json
import BoundedAuthority.Rust.Digest
import BoundedAuthority.Rust.JsonNumber
import BoundedAuthority.Rust.ProofClaimsAgreement
import BoundedAuthority.Rust.UriAgreement
import BoundedAuthority.Separation
import BoundedAuthority.V1.ArchiveHistory
import BoundedAuthority.V1.ArchiveRoundTrip
import BoundedAuthority.V1.ChainProducer
import BoundedAuthority.V1.HolderBinding
import BoundedAuthority.V1.HonestCredentials
import BoundedAuthority.V1.JcsRoundTrip
import BoundedAuthority.V1.JsonSpec
import BoundedAuthority.V1.KeyLocator
import BoundedAuthority.V1.RuntimeTightening
import BoundedAuthority.V1.SemanticEquality
import BoundedAuthority.V3.Es256
import BoundedAuthority.V3.GrantRoundTrip
