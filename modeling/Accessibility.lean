import Accessibility.Document.Flat
import Accessibility.Proofs.Document.Insertion
import Accessibility.Relation.Name
import Accessibility.Service.Step
import Accessibility.Session.Run
import Accessibility.Snapshot.Outline
import Accessibility.Snapshot.View
import Accessibility.Tree.WellFormed
import Accessibility.Proofs.Arena
import Accessibility.Proofs.Change.Cancelling
import Accessibility.Proofs.Change.Kinds
import Accessibility.Proofs.Change.Merging
import Accessibility.Proofs.Change.Pairs
import Accessibility.Proofs.Change.Settling
import Accessibility.Proofs.Change.Truth
import Accessibility.Proofs.Derivation.Reading
import Accessibility.Proofs.Derivation.Renaming
import Accessibility.Proofs.Derivation.Renewal
import Accessibility.Proofs.Document.Layout
import Accessibility.Proofs.Document.Readback
import Accessibility.Proofs.Session.Alignment
import Accessibility.Proofs.Session.Batches
import Accessibility.Proofs.Snapshot.Views
import Accessibility.Proofs.Document.Edits
import Accessibility.Proofs.Session.Consistency
import Accessibility.Proofs.Session.Identity
import Accessibility.Proofs.Session.Incremental
import Accessibility.Proofs.Session.Mirroring
import Accessibility.Proofs.Session.Notices
import Accessibility.Proofs.Session.Retirement
import Accessibility.Proofs.Session.Dependence
import Accessibility.Proofs.Session.Exactness
import Accessibility.Proofs.Session.Scopes
import Accessibility.Proofs.Tree.Pending
import Accessibility.Proofs.Document.Flat
import Accessibility.Proofs.Service.Delivery
import Accessibility.Proofs.Snapshot.Retention
import Accessibility.Proofs.Document.Failing
import Accessibility.Proofs.Document.Grounding
import Accessibility.Proofs.Session.Needless
import Accessibility.Proofs.Document.Slots
import Accessibility.Proofs.Document.Undoing
import Accessibility.Proofs.Tree.Lookup
import Accessibility.Proofs.Tree.Faults
import Accessibility.Proofs.Tree.Lifecycles
import Accessibility.Proofs.Session.Groups
import Accessibility.Proofs.Session.Labels
import Accessibility.Proofs.Change.NormalForm
import Accessibility.Proofs.Session.Details
import Accessibility.Proofs.Session.Links
import Accessibility.Proofs.Change.Remainder
import Accessibility.Proofs.Relation.Name
import Accessibility.Proofs.Session.Outlines
import Accessibility.Hub.Actions
import Accessibility.Proofs.Hub.Streams
import Accessibility.Proofs.Hub.Listeners
import Accessibility.Proofs.Hub.Telling
