import Torrent.Endpoint
import Torrent.Piece

/-!
# Peers to try

A peer is an endpoint and, where it is known, the name it goes by.  Two records
of one endpoint are the same peer whatever their names.

A set of peers holds each endpoint once, in its normalized form.  `merge` takes
candidates in order until the set is full and says how many were new.
-/

namespace Torrent

/-- A peer to try. -/
structure PeerRecord where
  endpoint : Endpoint
  /-- The name it goes by, where it is known. -/
  id : Option PeerId
deriving DecidableEq

namespace PeerRecord

/-- The same peer with its endpoint normalized. -/
def normalized (r : PeerRecord) : PeerRecord := { r with endpoint := r.endpoint.normalized }

/-- Whether two records are the same peer. -/
def same (r s : PeerRecord) : Bool := decide (r.endpoint = s.endpoint)

/-- The peer at the endpoint that a text spells. -/
def ofText? (text : String) : Option PeerRecord :=
  (Endpoint.ofText? text).map fun e => normalized ⟨e, none⟩

end PeerRecord

/-- A set of peers, in the order in which they came. -/
structure PeerSet where
  members : List PeerRecord
deriving DecidableEq

namespace PeerSet

/-- The set without peers. -/
def empty : PeerSet := ⟨[]⟩

/-- The number of peers. -/
def size (s : PeerSet) : Nat := s.members.length

/-- Whether there is no peer. -/
def isEmpty (s : PeerSet) : Bool := s.members.isEmpty

/-- The member at an endpoint. -/
def find? (s : PeerSet) (e : Endpoint) : Option PeerRecord :=
  s.members.find? fun r => decide (r.endpoint = e)

/-- Whether a member is at an endpoint. -/
def contains (s : PeerSet) (e : Endpoint) : Bool := (s.find? e).isSome

/-- The set with a peer, unless its endpoint is there already, and whether it is new. -/
def insert (s : PeerSet) (r : PeerRecord) : Bool × PeerSet :=
  if s.contains r.normalized.endpoint then (false, s)
  else (true, ⟨s.members ++ [r.normalized]⟩)

/-- The set with candidates in order until it holds `max`, and the number of new ones. -/
def merge (s : PeerSet) (candidates : List PeerRecord) (max : Nat) : Nat × PeerSet :=
  match candidates with
  | [] => (0, s)
  | r :: rest =>
    if max ≤ s.size then (0, s)
    else
      match s.insert r with
      | (true, s) =>
        let (added, s) := s.merge rest max
        (added + 1, s)
      | (false, s) => s.merge rest max

/-- The set of at most `max` candidates. -/
def ofCandidates (candidates : List PeerRecord) (max : Nat) : PeerSet :=
  (empty.merge candidates max).2

/-- The member at an endpoint, taken out, and the set without it. -/
def remove (s : PeerSet) (e : Endpoint) : Option PeerRecord × PeerSet :=
  (s.find? e, ⟨s.members.filter fun r => decide (r.endpoint ≠ e)⟩)

end PeerSet

end Torrent
