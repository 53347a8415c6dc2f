import PeerBook.Main
import PeerBook.Proofs.Command.Assign
import PeerBook.Proofs.Desk.Damage
import PeerBook.Proofs.Desk.Paging
import PeerBook.Proofs.Desk.Reopen
import PeerBook.Proofs.Desk.Representation
import PeerBook.Proofs.Engine.Attempts
import PeerBook.Proofs.Journal.Calls
import PeerBook.Proofs.Journal.Damage
import PeerBook.Proofs.Journal.Decoded
import PeerBook.Proofs.Office.Tally
import PeerBook.Proofs.Office.Twins
import PeerBook.Proofs.Store.Failures
import PeerBook.Proofs.Store.Integrity
import PeerBook.Proofs.Store.Layouts
import PeerBook.Proofs.Store.Listing
import PeerBook.Proofs.Store.Lookup
import PeerBook.Proofs.Store.Scan
import PeerBook.Rehearsal
import PeerBook.Proofs.Versions.Groups
import PeerBook.Proofs.Versions.Pruning
import PeerBook.Proofs.Versions.Size
import PeerBook.Proofs.Versions.Scan
import PeerBook.Proofs.Wire.Inverse
import PeerBook.Proofs.Peer.Decoded
import PeerBook.Proofs.Peer.Identity
