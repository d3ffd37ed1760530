import PeerShare.Node.Answers
import PeerShare.Node.Commands
import PeerShare.Node.Peers
import PeerShare.Proofs.Chunking.Agreement
import PeerShare.Proofs.Chunking.Words
import PeerShare.Proofs.Disk.Landing
import PeerShare.Proofs.Fetch.Arrivals
import PeerShare.Proofs.Fetch.Completion
import PeerShare.Proofs.Fetch.Eviction
import PeerShare.Proofs.Fetch.Independence
import PeerShare.Proofs.Fetch.Lifetime
import PeerShare.Proofs.Fetch.Retries
import PeerShare.Proofs.Node.Acceptances
import PeerShare.Proofs.Node.Availability
import PeerShare.Proofs.Node.Destination
import PeerShare.Proofs.Node.Exclusion
import PeerShare.Proofs.Node.Places
import PeerShare.Proofs.Node.Unsent
import PeerShare.Proofs.Packing.Sets
import PeerShare.Proofs.Tracker.Answers
import PeerShare.Proofs.Tracker.Coherence
import PeerShare.Proofs.Tracker.Discipline
import PeerShare.Proofs.Tracker.Replies
import PeerShare.Proofs.TransferLog
import PeerShare.Proofs.Wire.Accesses
import PeerShare.Proofs.Wire.Sending
import PeerShare.Proofs.Wire.Truncation
import PeerShare.Settings
import PeerShare.Tracker.Server
