import Mathlib.Data.List.Basic
import Torrent.Proofs.Bitmap.Count
import Torrent.Proofs.Store.Fresh
import Torrent.Proofs.Swarm.Seed

/-!
# Seeding

A download begins with the pieces that its store lacks, in order, each with its own
digest and length, and counts the others as complete (`Swarm.seeding`).  It is over at
once exactly if it has nothing to fetch.

The numbers of pieces are 32-bit words, and a description may have more pieces than
there are such numbers.  Only the numbers below the remainder are looked at then, and
every other piece counts as complete whatever its bit says
(`Swarm.seeding_wraps`).
-/

namespace Torrent.Swarm

variable {d : Descriptor} {s : Store}

/-- The numbers that are looked at, as pieces, are those that are queued. -/
theorem missing_indices (hd : d.Sound) (s : Store) :
    (missing d s).map (fun spec => spec.index.toNat) =
      (List.range (d.pieceCount % UInt32.size)).filter fun i => !s.completed.bit i := by
  have hlooked : ∀ i ∈ List.range (d.pieceCount % UInt32.size),
      (UInt32.ofNat i).toNat = i ∧ i < d.pieceCount := fun i hi =>
    ⟨toNat_ofNat_of_lt_mod (List.mem_range.1 hi),
      Nat.lt_of_lt_of_le (List.mem_range.1 hi) (Nat.mod_le _ _)⟩
  have hbits : (List.range (d.pieceCount % UInt32.size)).filter
      (fun i => !s.hasPiece (UInt32.ofNat i)) =
      (List.range (d.pieceCount % UInt32.size)).filter fun i => !s.completed.bit i := by
    refine List.filter_congr fun i hi => ?_
    simp only [Store.hasPiece, Bitfield.has]
    rw [(hlooked i hi).1]
  simp only [missing]
  rw [hbits, List.map_filterMap]
  refine (List.filterMap_eq_map_iff_forall_eq_some.2 fun i hi => ?_).trans (List.map_id _)
  obtain ⟨hword, hlt⟩ := hlooked i (List.mem_filter.1 hi).1
  rw [hd.piece?_eq (hword.symm ▸ hlt)]
  simp [hword]

/-- Every number that is looked at is queued or has its bit set. -/
theorem length_missing_add (hd : d.Sound) (s : Store) :
    (missing d s).length +
      (List.range (d.pieceCount % UInt32.size)).countP s.completed.bit =
      d.pieceCount % UInt32.size := by
  have hlength := congrArg List.length (missing_indices hd s)
  rw [List.length_map, ← List.countP_eq_length_filter] at hlength
  have hparts := List.length_eq_countP_add_countP s.completed.bit
    (l := List.range (d.pieceCount % UInt32.size))
  rw [List.length_range] at hparts
  simp only [Bool.not_eq_true, Bool.decide_eq_false] at hparts
  omega

/-- Nothing is missing exactly if all bits that are looked at are set. -/
theorem missing_eq_nil_iff (hd : d.Sound) (s : Store) :
    missing d s = [] ↔ ∀ i < d.pieceCount % UInt32.size, s.completed.bit i = true := by
  rw [← List.map_eq_nil_iff (f := fun spec => spec.index.toNat), missing_indices hd,
    List.filter_eq_nil_iff]
  simp

variable {t : FileTree} {peers : PeerSet} {settings : Settings} {localId : PeerId}

theorem pending_seed :
    (seed d s t peers settings localId).queue.pending = missing d s := rfl

theorem completed_seed :
    (seed d s t peers settings localId).completed = d.pieceCount - (missing d s).length := rfl

theorem isDrained_seed :
    (seed d s t peers settings localId).queue.isDrained = true ↔ missing d s = [] := by
  simp [seed, WorkQueue.isDrained, WorkQueue.ofPieces]

theorem completed_seed_eq_iff (t : FileTree) (peers : PeerSet) (settings : Settings)
    (localId : PeerId) :
    (seed d s t peers settings localId).completed = d.pieceCount ↔ missing d s = [] := by
  have hle := length_missing_le d s
  rw [completed_seed, ← List.length_eq_zero_iff]
  omega

/-- A download succeeds at once exactly if nothing is to be fetched and its files can be closed. -/
theorem outcome_begin_iff (w : Swarm) (hw : w.outcome = none) (now : Nat)
    (fault : Option Fault) :
    (w.begin_ now fault).outcome = some (.ok true) ↔ w.queue.isDrained = true ∧ fault = none := by
  simp only [begin_, closeStore]
  by_cases hdrained : w.queue.isDrained
  · cases fault with
    | none => simp [hdrained]
    | some fault => simp [hdrained]
  · by_cases hpeers : w.peers.isEmpty
    · simp [hdrained, hpeers]
    · simp [hdrained, hpeers, hw]

/-- A download that has nobody to ask is over at once. -/
theorem outcome_begin_ne_none (w : Swarm) (hpeers : w.peers.isEmpty = true) (now : Nat)
    (fault : Option Fault) : (w.begin_ now fault).outcome ≠ none := by
  simp only [begin_, closeStore]
  by_cases hdrained : w.queue.isDrained
  · cases fault with
    | none => simp [hdrained]
    | some fault => simp [hdrained]
  · simp [hdrained, hpeers]

/-- The pieces whose bit is not set are queued, in order, each with its own digest and length, and
as many as have their bit set count as complete.  The download is over at once exactly if all have
it.  For a description with more pieces than numbers this holds of the numbers below the remainder,
and the other pieces count as complete. -/
theorem seeding (hcheck : d.check = .ok ()) (s : Store) (t : FileTree) (peers : PeerSet)
    (settings : Settings) (localId : PeerId) :
    let w := seed d s t peers settings localId
    let seen := d.pieceCount % UInt32.size
    (d.pieceCount < UInt32.size → seen = d.pieceCount) ∧
    (w.queue.pending.map (fun spec => spec.index.toNat) =
      (List.range seen).filter fun i => !s.completed.bit i) ∧
    (∀ spec ∈ w.queue.pending, d.pieceHashes[spec.index.toNat]? = some spec.hash ∧
      d.pieceLen? spec.index = some spec.length) ∧
    w.completed = (List.range seen).countP s.completed.bit + (d.pieceCount - seen) ∧
    w.queue.pending.length + w.completed = d.pieceCount ∧
    (w.queue.isDrained = true ↔ ∀ i < seen, s.completed.bit i = true) ∧
    ∀ now fault, (w.begin_ now fault).outcome = some (.ok true) ↔
      (∀ i < seen, s.completed.bit i = true) ∧ fault = none := by
  intro w seen
  have hd : d.Sound := Descriptor.sound_of_check hcheck
  have hparts : (missing d s).length + (List.range seen).countP s.completed.bit = seen :=
    length_missing_add hd s
  have hle := length_missing_le d s
  have hseen : seen ≤ d.pieceCount := Nat.mod_le _ _
  have hdrained : w.queue.isDrained = true ↔ ∀ i < seen, s.completed.bit i = true :=
    isDrained_seed.trans (missing_eq_nil_iff hd s)
  have hcompleted : w.completed = d.pieceCount - (missing d s).length := completed_seed
  refine ⟨Nat.mod_eq_of_lt, missing_indices hd s, fun spec hspec => ?_, ?_, ?_, hdrained,
    fun now fault => ?_⟩
  · have hpiece := (mem_missing.1 hspec).2.2
    exact ⟨Descriptor.hash_of_piece? hpiece, Descriptor.length_of_piece? hpiece⟩
  · rw [hcompleted]
    omega
  · rw [hcompleted]
    exact Nat.add_sub_cancel' hle
  · rw [outcome_begin_iff w rfl, hdrained]

/-- The middle one of three pieces is there, and the padding behind them is set. -/
theorem seeding_middle_piece :
    let d : Descriptor := ⟨⟨.zero 20⟩, 5, 2, List.replicate 3 (.zero 20), [⟨"a", 5⟩]⟩
    let s : Store := ⟨[], [], 2, 5, 3, [], 0, false, ⟨[0x5F]⟩⟩
    let w := seed d s (.empty []) .empty .standard ⟨.zero 20⟩
    d.check = .ok () ∧
      w.queue.pending = [⟨0, .zero 20, 2⟩, ⟨2, .zero 20, 1⟩] ∧ w.completed = 1 ∧
      w.queue.pending.length + w.completed = d.pieceCount ∧
      ¬w.queue.isDrained = true ∧ (w.begin_ 0 none).outcome ≠ some (.ok true) := by
  intro d s w
  have hcheck : d.check = .ok () := by decide +kernel
  obtain ⟨hseen, -, -, -, hsum, hdrained, houtcome⟩ :=
    seeding hcheck s (.empty []) .empty .standard ⟨.zero 20⟩
  have hlacks : ¬∀ i < d.pieceCount % UInt32.size, s.completed.bit i = true := by decide +kernel
  exact ⟨hcheck, by decide +kernel, by decide +kernel, hsum, fun h => hlacks (hdrained.1 h),
    fun h => hlacks ((houtcome 0 none).1 h).1⟩

/-- A store can be opened where nothing is. -/
theorem open_fresh (d : Descriptor) :
    ∃ s t, Store.open_ (.empty []) ['t'] d Settings.standard.resumeFileName.toList = (.ok s, t) :=
  ⟨_, _, rfl⟩

/-- A description with as many pieces as there are 32-bit numbers, and an empty directory.  Nothing
is there, and nothing is to be fetched: all pieces count as complete. -/
theorem seeding_wraps :
    let d : Descriptor := ⟨⟨.zero 20⟩, 0x100000000, 1, List.replicate UInt32.size (.zero 20),
      [⟨"a", 0x100000000⟩]⟩
    let name := Settings.standard.resumeFileName.toList
    d.check = .ok () ∧ ∃ s t, Store.open_ (.empty []) ['t'] d name = (.ok s, t) ∧
      (∀ i, s.hasPiece i = false) ∧
      let w := seed d s t .empty .standard ⟨.zero 20⟩
      w.queue.pending = [] ∧ w.completed = UInt32.size ∧
        (w.begin_ 0 none).outcome = some (.ok true) := by
  intro d name
  have hcount : d.pieceCount = UInt32.size := List.length_replicate
  have hcheck : d.check = .ok () := by
    unfold Descriptor.check
    rw [hcount]
    decide +kernel
  obtain ⟨s, t, hopen⟩ := open_fresh d
  -- The number of pieces has remainder zero, so no number is looked at.
  have hnothing : missing d s = [] := by
    refine (missing_eq_nil_iff (Descriptor.sound_of_check hcheck) s).2 fun i hi => ?_
    rw [hcount, Nat.mod_self] at hi
    exact absurd hi (Nat.not_lt_zero i)
  refine ⟨hcheck, s, t, hopen,
    Store.hasPiece_open hopen fun id => FileTree.entryAt_empty_ne [] _ id, ?_, ?_, ?_⟩
  · rw [pending_seed]
    exact hnothing
  · rw [completed_seed, hnothing, List.length_nil, Nat.sub_zero, hcount]
  · exact (outcome_begin_iff _ rfl 0 none).2 ⟨isDrained_seed.2 hnothing, rfl⟩

end Torrent.Swarm
