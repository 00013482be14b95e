import Mathlib.Data.Finmap
import Torrent.Proofs.Peers.Merging

/-!
# The table of peers

Everyone who holds the set of peers holds the same one, so their acts come one after the
other.  What they share is a table from endpoints to peers (`PeerTable`), and the set is
the list of its peers in the order in which they came.  The two answer alike
(`PeerTable.Holds`), one act after the other.

So after whatever was done to it, the table holds every peer under its own normalized
endpoint, as the record that added it gave it (`PeerTable.peers_kept`).
-/

namespace Torrent

/-- A table of peers under their endpoints. -/
abbrev PeerTable := Finmap fun _ : Endpoint => PeerRecord

namespace PeerTable

/-- The number of peers. -/
def size (t : PeerTable) : Nat := t.keys.card

/-- The table with a peer under its normalized endpoint. -/
def add (t : PeerTable) (r : PeerRecord) : PeerTable :=
  Finmap.insert r.normalized.endpoint r.normalized t

/-- The table with a peer, unless its endpoint is there already, and whether it is new. -/
def enter (t : PeerTable) (r : PeerRecord) : Bool × PeerTable :=
  if r.normalized.endpoint ∈ t then (false, t) else (true, t.add r)

/-- The table with candidates in order until it holds `max`, and the number of new ones on top of
those counted before. -/
def mergeFrom (max counted : Nat) (t : PeerTable) : List PeerRecord → Nat × PeerTable
  | [] => (counted, t)
  | r :: rest =>
    if max ≤ t.size then (counted, t)
    else if r.normalized.endpoint ∈ t then t.mergeFrom max counted rest
    else (t.add r).mergeFrom max (counted + 1) rest

/-- The table with candidates in order until it holds `max`, and the number of new ones. -/
def merge (t : PeerTable) (candidates : List PeerRecord) (max : Nat) : Nat × PeerTable :=
  t.mergeFrom max 0 candidates

/-- The member at an endpoint, taken out, and the table without it. -/
def remove (t : PeerTable) (e : Endpoint) : Option PeerRecord × PeerTable :=
  (t.lookup e, t.erase e)

/-- What comes of an act. -/
def act (t : PeerTable) : PeerSet.Act → PeerTable
  | .merge candidates max => (t.merge candidates max).2
  | .insert r => (t.enter r).2
  | .remove e => (t.remove e).2

/-- What comes of a row of acts. -/
def run (t : PeerTable) (acts : List PeerSet.Act) : PeerTable := acts.foldl act t

/-- The table of at most `max` candidates. -/
def ofCandidates (candidates : List PeerRecord) (max : Nat) : PeerTable :=
  (merge ∅ candidates max).2

/-! ## The table and the set -/

variable {t : PeerTable} {s : PeerSet} {r : PeerRecord} {e : Endpoint}
  {candidates : List PeerRecord} {max : Nat}

/-- A table holds a set where they find the same peer at every endpoint. -/
def Holds (t : PeerTable) (s : PeerSet) : Prop := ∀ e, t.lookup e = s.find? e

theorem holds_empty : Holds ∅ PeerSet.empty := fun _ => Finmap.lookup_empty _

theorem Holds.mem_iff (h : t.Holds s) (e : Endpoint) : e ∈ t ↔ s.contains e = true := by
  rw [← Finmap.lookup_isSome, h e, PeerSet.contains]

theorem Holds.size (h : t.Holds s) (hs : s.Proper) : t.size = s.size := by
  have hkeys : t.keys = (s.members.map PeerRecord.endpoint).toFinset := by
    ext e
    rw [Finmap.mem_keys, h.mem_iff, PeerSet.contains_iff, List.mem_toFinset, List.mem_map]
  rw [PeerTable.size, hkeys, List.toFinset_card_of_nodup hs.distinct, List.length_map,
    PeerSet.size]

theorem Holds.add (h : t.Holds s) (hnew : s.contains r.normalized.endpoint = false) :
    (t.add r).Holds (s.add r) := by
  intro e
  rw [PeerSet.find?, PeerSet.add, List.find?_append]
  by_cases hat : r.normalized.endpoint = e
  · subst hat
    have hnone : s.find? r.normalized.endpoint = none := by
      simpa [PeerSet.contains] using hnew
    rw [PeerSet.find?] at hnone
    rw [PeerTable.add, Finmap.lookup_insert, hnone]
    simp
  · rw [PeerTable.add, Finmap.lookup_insert_of_ne _ (Ne.symm hat), h e, PeerSet.find?]
    simp [hat]

theorem Holds.enter (h : t.Holds s) (r : PeerRecord) :
    (t.enter r).1 = (s.insert r).1 ∧ (t.enter r).2.Holds (s.insert r).2 := by
  cases hold : s.contains r.normalized.endpoint with
  | true =>
      rw [PeerTable.enter, if_pos ((h.mem_iff _).2 hold), PeerSet.insert_of_contains hold]
      exact ⟨rfl, h⟩
  | false =>
      have hout : r.normalized.endpoint ∉ t := by simp [h.mem_iff, hold]
      rw [PeerTable.enter, if_neg hout, PeerSet.insert_of_new hold]
      exact ⟨rfl, h.add hold⟩

theorem Holds.remove (h : t.Holds s) (e : Endpoint) :
    (t.remove e).1 = (s.remove e).1 ∧ (t.remove e).2.Holds (s.remove e).2 := by
  refine ⟨h e, fun e' => ?_⟩
  rw [PeerSet.find?, PeerSet.remove, List.find?_filter]
  by_cases hat : e' = e
  · subst hat
    rw [PeerTable.remove, Finmap.lookup_erase, eq_comm, List.find?_eq_none]
    simp
  · rw [PeerTable.remove, Finmap.lookup_erase_ne hat, h e', PeerSet.find?]
    congr
    funext member
    by_cases hsame : member.endpoint = e' <;> simp [hsame, hat]

theorem Holds.mergeFrom (h : t.Holds s) (hs : s.Proper) (candidates : List PeerRecord)
    (max counted : Nat) :
    (t.mergeFrom max counted candidates).1 = counted + (s.merge candidates max).1 ∧
      (t.mergeFrom max counted candidates).2.Holds (s.merge candidates max).2 := by
  induction candidates generalizing t s counted with
  | nil => exact ⟨rfl, h⟩
  | cons r rest ih =>
      rw [PeerTable.mergeFrom, h.size hs]
      by_cases hroom : s.size < max
      · rw [if_neg (Nat.not_le.2 hroom)]
        cases hold : s.contains r.normalized.endpoint with
        | true =>
            rw [if_pos ((h.mem_iff _).2 hold), PeerSet.merge_cons_of_contains hroom hold]
            exact ih h hs counted
        | false =>
            have hout : r.normalized.endpoint ∉ t := by simp [h.mem_iff, hold]
            rw [if_neg hout, PeerSet.merge_cons_of_new hroom hold]
            obtain ⟨hcount, hholds⟩ := ih (h.add hold) (hs.add hold) (counted + 1)
            exact ⟨by rw [hcount]; omega, hholds⟩
      · have hfull := Nat.le_of_not_lt hroom
        rw [if_pos hfull, PeerSet.merge_of_full hfull]
        exact ⟨rfl, h⟩

theorem Holds.merge (h : t.Holds s) (hs : s.Proper) (candidates : List PeerRecord) (max : Nat) :
    (t.merge candidates max).1 = (s.merge candidates max).1 ∧
      (t.merge candidates max).2.Holds (s.merge candidates max).2 := by
  simpa [PeerTable.merge] using h.mergeFrom hs candidates max 0

theorem Holds.act (h : t.Holds s) (hs : s.Proper) (a : PeerSet.Act) :
    (t.act a).Holds (s.act a) := by
  cases a with
  | merge candidates max => exact (h.merge hs candidates max).2
  | insert r => exact (h.enter r).2
  | remove e => exact (h.remove e).2

theorem Holds.run (h : t.Holds s) (hs : s.Proper) (acts : List PeerSet.Act) :
    (t.run acts).Holds (s.run acts) := by
  induction acts generalizing t s with
  | nil => exact h
  | cons a acts ih => exact ih (h.act hs a) (hs.act a)

/-- A set is held by no second table. -/
theorem Holds.unique {t' : PeerTable} (h : t.Holds s) (h' : t'.Holds s) : t = t' :=
  Finmap.ext_lookup fun e => (h e).trans (h' e).symm

/-- Merging what is put together is merging one after the other. -/
theorem Holds.merge_append (h : t.Holds s) (hs : s.Proper) (more rest : List PeerRecord)
    (bound : Nat) : t.merge (more ++ rest) bound =
      ((t.merge more bound).1 + ((t.merge more bound).2.merge rest bound).1,
        ((t.merge more bound).2.merge rest bound).2) := by
  have hmore := h.merge hs more bound
  have hrest := hmore.2.merge (hs.act (.merge more bound)) rest bound
  have hall := h.merge hs (more ++ rest) bound
  rw [s.merge_append] at hall
  exact Prod.ext (by rw [hall.1, hmore.1, hrest.1]) (hall.2.unique hrest.2)

/-- After whatever is done to it the table holds each peer of the set under its own endpoint.  The
endpoints are normalized and no two peers share one, and each peer is as the record gave it that was
last added there.  Merging answers how many peers it adds, never goes past its bound, adds the first
candidates that are new, and may be done in parts. -/
theorem peers_kept (candidates : List PeerRecord) (max : Nat) (acts : List PeerSet.Act) :
    let t := (ofCandidates candidates max).run acts
    let s := (PeerSet.ofCandidates candidates max).run acts
    let log := PeerSet.empty.addedAlong (.merge candidates max :: acts)
    t.size = s.size ∧
    (∀ e r, t.lookup e = some r ↔ r ∈ s.members ∧ r.endpoint = e) ∧
    (∀ r ∈ s.members, r.endpoint.normalized = r.endpoint ∧
      ∃ before given behind, log = before ++ given :: behind ∧
        r = given.normalized ∧ r.id = given.id ∧
        ∀ other ∈ behind, other.normalized.endpoint ≠ r.endpoint) ∧
    s.members.Pairwise (fun r r' => r.endpoint.normalized ≠ r'.endpoint.normalized) ∧
    (∀ more bound,
      (t.merge more bound).1 = (s.merge more bound).1 ∧
      (t.merge more bound).2.Holds (s.merge more bound).2 ∧
      (t.merge more bound).2.size = t.size + (t.merge more bound).1 ∧
      (t.merge more bound).2.size ≤ Nat.max t.size bound ∧
      (s.merge more bound).2.members = s.members ++
        ((s.fresh more).take (bound - s.size)).map PeerRecord.normalized) ∧
    ∀ more rest bound, t.merge (more ++ rest) bound =
      ((t.merge more bound).1 + ((t.merge more bound).2.merge rest bound).1,
        ((t.merge more bound).2.merge rest bound).2) := by
  intro t s log
  have hproper : s.Proper := PeerSet.proper_empty.run (.merge candidates max :: acts)
  have hholds : t.Holds s := holds_empty.run PeerSet.proper_empty (.merge candidates max :: acts)
  have hrecorded : s.Recorded log := PeerSet.recorded_empty.run (.merge candidates max :: acts)
  refine ⟨hholds.size hproper, fun e r => by rw [hholds e, hproper.find?_iff], fun r hr => ?_,
    ?_, fun more bound => ?_, hholds.merge_append hproper⟩
  next =>
    obtain ⟨before, given, behind, hlog, hgiven, hbehind⟩ := hrecorded r hr
    have hid : r.id = given.id := by
      rw [hgiven]
      rfl
    exact ⟨hproper.normalized r hr, before, given, behind, hlog, hgiven, hid, hbehind⟩
  next =>
    refine (List.pairwise_map.1 hproper.distinct).imp_of_mem fun hr hr' hne => ?_
    rwa [hproper.normalized _ hr, hproper.normalized _ hr']
  next =>
    obtain ⟨hcount, hmerged⟩ := hholds.merge hproper more bound
    obtain ⟨hsize, hbound, hmembers⟩ := s.merge_spec more bound
    rw [hmerged.size (hproper.act (.merge more bound)), hholds.size hproper, hcount]
    exact ⟨rfl, hmerged, hsize, hbound, hmembers⟩

/-- Somebody known in the long notation is let go and comes back with a name.  Merged again in both
notations he takes no room, and of the two behind him one fills the table. -/
theorem peers_kept_returning :
    let mapped : Address := .long ⟨[0, 0, 0, 0, 0, 0xffff, 0x7f00, 1], rfl⟩ 0 0
    let plain : Address := .short ⟨127, 0, 0, 1⟩
    let name : PeerId := .ofFront [1] []
    let t := (ofCandidates [⟨⟨mapped, 1⟩, none⟩, ⟨⟨plain, 1⟩, none⟩] 5).run
      [.remove ⟨plain, 1⟩, .insert ⟨⟨mapped, 1⟩, some name⟩]
    let more : List PeerRecord :=
      [⟨⟨plain, 1⟩, none⟩, ⟨⟨mapped, 1⟩, none⟩, ⟨⟨plain, 2⟩, none⟩, ⟨⟨plain, 3⟩, none⟩]
    t.size = 1 ∧ t.lookup ⟨plain, 1⟩ = some ⟨⟨plain, 1⟩, some name⟩ ∧
      (t.merge more 2).1 = 1 ∧ (t.merge more 2).2.size = 2 := by
  intro mapped plain name t more
  obtain ⟨hsize, hlookup, -, -, hmerge, -⟩ :=
    peers_kept [⟨⟨mapped, 1⟩, none⟩, ⟨⟨plain, 1⟩, none⟩] 5
      [.remove ⟨plain, 1⟩, .insert ⟨⟨mapped, 1⟩, some name⟩]
  obtain ⟨hcount, -, hgrown, -, -⟩ := hmerge more 2
  have hone : (t.merge more 2).1 = 1 := hcount.trans (by decide)
  have hbefore : t.size = 1 := hsize.trans (by decide)
  have hafter : (t.merge more 2).2.size = t.size + (t.merge more 2).1 := hgrown
  exact ⟨hbefore, (hlookup _ _).2 ⟨by decide, rfl⟩, hone, by rw [hafter, hbefore, hone]⟩

end PeerTable

end Torrent
