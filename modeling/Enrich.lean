import Enrich.Proofs.Bindings
import Enrich.Proofs.Dropped
import Enrich.Proofs.Emission
import Enrich.Proofs.Failure
import Enrich.Proofs.Hygiene
import Enrich.Proofs.Interning
import Enrich.Proofs.Shadowing
import Enrich.Proofs.Unannotated
import Enrich.Session.Basic
import Enrich.Tree.Passes
import Enrich.Tree.Trace
import Enrich.Interner.Table
import Enrich.Proofs.Persistence
import Enrich.Proofs.Reporting
import Enrich.Proofs.Freshness
import Enrich.Proofs.Renaming
import Enrich.Proofs.Wording
import Enrich.Proofs.Asking
import Enrich.Proofs.Mirror
import Enrich.Proofs.Histories
import Enrich.Proofs.Faults
import Enrich.Proofs.Guarding
import Enrich.Proofs.Unsplicing
import Enrich.Proofs.Preconditions
import Enrich.Proofs.Clashes
import Enrich.Proofs.Decisions
import Enrich.Proofs.Conversion
import Enrich.Proofs.Attempts
import Enrich.Proofs.Pairing
import Enrich.Proofs.Counterparts
import Enrich.Proofs.Lockstep
import Enrich.Proofs.Respelling
import Enrich.Proofs.Stability
import Enrich.Proofs.AttachedTypes
import Enrich.Proofs.Numbering
import Enrich.Proofs.Limits
import Enrich.Proofs.Lines
import Enrich.Proofs.Traversals
import Enrich.Proofs.Safety
