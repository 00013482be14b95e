import Torrent.Descriptor.Json
import Torrent.Swarm.Step

/-!
# Downloading a torrent

A download checks the description, takes at most as many peers as the settings
allow, opens the store on the download directory and lets a swarm fetch what is
missing.  Called again on the same directory, it goes on where it stopped.
-/

namespace Torrent.Download

/-- Our own name: what the settings give, and random bytes. -/
def localId (settings : Settings) (random : Bytes) : PeerId :=
  PeerId.ofFront (Bytes.ofText settings.clientId) random

/-- A swarm on a directory, whose description is not checked. -/
def open_ (tree : FileTree) (peers : List PeerRecord) (d : Descriptor) (directory : List Char)
    (settings : Settings) (random : Bytes) : Except StorageError Swarm × FileTree :=
  let set := PeerSet.ofCandidates peers settings.maxPeers.toNat
  match Store.open_ tree directory d settings.resumeFileName.toList with
  | (.error e, tree) => (.error e, tree)
  | (.ok store, tree) => (.ok (.seed d store tree set settings (localId settings random)), tree)

/-- A download begun on a directory. -/
def start (tree : FileTree) (peers : List PeerRecord) (d : Descriptor) (directory : List Char)
    (settings : Settings) (random : Bytes) (now : Nat) : Except TorrentError Swarm × FileTree :=
  match d.check with
  | .error fault => (.error (.invalidDescriptor fault), tree)
  | .ok () =>
    match open_ tree peers d directory settings random with
    | (.error e, tree) => (.error (.storage e), tree)
    | (.ok w, tree) => (.ok (w.begin_ now none), tree)

end Torrent.Download
