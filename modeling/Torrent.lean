import Torrent.Cli.Memory
import Torrent.Connection
import Torrent.Main
import Torrent.Proofs.Archive.Bitmap
import Torrent.Proofs.Archive.Crash
import Torrent.Proofs.Archive.Finished
import Torrent.Proofs.Archive.Footprint
import Torrent.Proofs.Archive.ReadBack
import Torrent.Proofs.Attempt.Counting
import Torrent.Proofs.Attempt.Dialogue
import Torrent.Proofs.Attempt.Serving
import Torrent.Proofs.Download.Progress
import Torrent.Proofs.Queue.Conservation
import Torrent.Proofs.Session.Deadline
import Torrent.Proofs.Session.Greeting
import Torrent.Proofs.Session.Opening
import Torrent.Proofs.Stream.Timed
import Torrent.Proofs.Swarm.Exclusive
import Torrent.Proofs.Swarm.Integrity
import Torrent.Proofs.Bitmap.Bits
import Torrent.Proofs.Bitmap.Count
import Torrent.Proofs.Store.Partition
import Torrent.Proofs.Swarm.Seeding
import Torrent.Proofs.Cli.Status
import Torrent.Proofs.Json.Taking
import Torrent.Proofs.Json.Text
import Torrent.Proofs.Json.Number
import Torrent.Proofs.Descriptor.RoundTrip
import Torrent.Proofs.Archive.Lengths
import Torrent.Proofs.Archive.FailedWrite
import Torrent.Proofs.Attempt.Outstanding
import Torrent.Proofs.Attempt.Refused
import Torrent.Proofs.Attempt.Tally
import Torrent.Proofs.Attempt.Assembly
import Torrent.Proofs.Queue.Order
import Torrent.Proofs.Session.Advertised
import Torrent.Proofs.Files.Containment
import Torrent.Proofs.Peers.Table
import Torrent.Proofs.Throughput.Samples
