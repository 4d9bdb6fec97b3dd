import PeerBook.Text.Blank
import PeerBook.Text.Numeral
import PeerBook.Text.Affix
import PeerBook.Text.Base64
import PeerBook.Text.Percent
import PeerBook.Text.Quoted
import PeerBook.Table
import PeerBook.Uuid
import PeerBook.Operation
import PeerBook.Address
import PeerBook.Json.Decoder
import PeerBook.Json.ReadBack
import PeerBook.Peer
import PeerBook.Storage.Memory
import PeerBook.Storage.Sequential
import PeerBook.Storage.Guarded
import PeerBook.Storage.Journaled
import PeerBook.Storage.Files
import PeerBook.Redirects
import PeerBook.Account.Resolve
import PeerBook.Command.Run
import PeerBook.Main
import PeerBook.Proofs.Address.ByKind
import PeerBook.Proofs.AddressTable.Lawful
import PeerBook.Proofs.PeerId.Order
import PeerBook.Proofs.Reconcile.Choice
import PeerBook.Proofs.Reconcile.Plan
import PeerBook.Proofs.Operation
import PeerBook.Proofs.Reconcile.Run
import PeerBook.Proofs.Account.Calls
import PeerBook.Proofs.Account.Permanence
import PeerBook.Proofs.Account.Reopening
import PeerBook.Proofs.Account.Uniqueness
import PeerBook.Proofs.Reconcile.Conflation
import PeerBook.Proofs.Directory.Standing
import PeerBook.Proofs.Account.Convergence
import PeerBook.Proofs.Directory.Kinship
import PeerBook.Proofs.Account.Evidence
import PeerBook.Proofs.Directory.Interrupted
import PeerBook.Proofs.Reconcile.Recorded
import PeerBook.Proofs.Account.Interruption
import PeerBook.Proofs.Directory.Orphans
import PeerBook.Proofs.Account.Orphans
import PeerBook.Proofs.Account.Retries
import PeerBook.Proofs.Account.Contested
import PeerBook.Proofs.Directory.Forgetting
import PeerBook.Proofs.Account.Refreshing
import PeerBook.Proofs.Stores.Clearing
import PeerBook.Proofs.Account.Residue
import PeerBook.Proofs.Stores.CutShort
import PeerBook.Proofs.Stores.Messages
import PeerBook.Proofs.AddressTable.Stable
import PeerBook.Proofs.Reconcile.Commuting
import PeerBook.Proofs.Operation.Simulates
import PeerBook.Proofs.Reconcile.Simulation
import PeerBook.Proofs.AddressTable.Listing
import PeerBook.Proofs.Directory.Kept
import PeerBook.Proofs.Directory.Faithful
import PeerBook.Proofs.Reconcile.Changes
import PeerBook.Proofs.Directory.News
import PeerBook.Proofs.Account.Attended
import PeerBook.Proofs.Account.Telling
import PeerBook.Proofs.Account.Occasions
import PeerBook.Proofs.Account.Indifference
import PeerBook.Proofs.Reconcile.Idempotence
import PeerBook.Proofs.Stores.Format
import PeerBook.Proofs.Storage.Files
import PeerBook.Proofs.Directory.Own
import PeerBook.Proofs.Account.Own
import PeerBook.Proofs.Reconcile.Disposition
import PeerBook.Proofs.Directory.Inherited
import PeerBook.Proofs.Account.Lookups
import PeerBook.Proofs.Directory.Foresight
import PeerBook.Proofs.Stores.Freshness
import PeerBook.Proofs.Stores.Upload
import PeerBook.Proofs.Stores.Isolation
import PeerBook.Proofs.Stores.Trust
import PeerBook.Proofs.Account.Batches
import PeerBook.Proofs.Json.Checks
import PeerBook.Proofs.Address.Validity
import PeerBook.Proofs.Address.Algebra
import PeerBook.Proofs.Redirects.Destination
