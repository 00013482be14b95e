import Mathlib.Data.List.Nodup
import Torrent.PeerSet

/-!
# Peers that come and go

A set of peers grows one peer after the other, each at an endpoint that is new to it
(`PeerSet.Takes`).  Merging takes the candidates that are new, of several at one
endpoint the first, until the set is full (`PeerSet.takes_merge`).

So whatever is merged, inserted and removed, the members are normalized and at
different endpoints (`PeerSet.Proper`), and each is as it was last added
(`PeerSet.Recorded`).
-/

namespace Torrent.PeerSet

variable {s s' : PeerSet} {r : PeerRecord} {e : Endpoint} {candidates rest : List PeerRecord}
  {max : Nat}

/-! ## One peer -/

theorem contains_iff : s.contains e = true ↔ ∃ r ∈ s.members, r.endpoint = e := by
  simp [contains, find?, List.find?_isSome]

/-- No member is at an endpoint that is new. -/
theorem endpoint_ne_of_new (hnew : s.contains e = false) (hr : r ∈ s.members) : r.endpoint ≠ e := by
  intro hsame
  rw [contains_iff.2 ⟨r, hr, hsame⟩] at hnew
  cases hnew

/-- The set with one more peer. -/
def add (s : PeerSet) (r : PeerRecord) : PeerSet := ⟨s.members ++ [r.normalized]⟩

theorem size_add (s : PeerSet) (r : PeerRecord) : (s.add r).size = s.size + 1 := by
  simp [size, add]

theorem contains_add (s : PeerSet) (r : PeerRecord) (e : Endpoint) :
    (s.add r).contains e = (s.contains e || decide (r.normalized.endpoint = e)) := by
  rw [Bool.eq_iff_iff, Bool.or_eq_true, decide_eq_true_iff, contains_iff, contains_iff]
  simp [add, or_and_right, exists_or]

theorem insert_of_contains (h : s.contains r.normalized.endpoint = true) :
    s.insert r = (false, s) := by
  rw [insert, if_pos h]

theorem insert_of_new (h : s.contains r.normalized.endpoint = false) :
    s.insert r = (true, s.add r) := by
  rw [insert, h]
  rfl

/-! ## Candidates -/

/-- The candidates that are new, of several at one endpoint the first. -/
def fresh (s : PeerSet) (candidates : List PeerRecord) : List PeerRecord :=
  (candidates.filter fun r => !s.contains r.normalized.endpoint).eraseDupsBy
    fun r r' => r.normalized.same r'.normalized

theorem fresh_cons_of_contains (h : s.contains r.normalized.endpoint = true) :
    s.fresh (r :: rest) = s.fresh rest := by
  rw [fresh, List.filter_cons_of_neg (by simp [h])]
  rfl

/-- Behind a new candidate those are new that are so with it in the set. -/
theorem fresh_cons_of_new (h : s.contains r.normalized.endpoint = false) :
    s.fresh (r :: rest) = r :: (s.add r).fresh rest := by
  rw [fresh, List.filter_cons_of_pos (by simp [h]), List.eraseDupsBy_cons, List.filter_filter,
    fresh]
  congr 3
  funext other
  rw [contains_add, PeerRecord.same]
  cases s.contains other.normalized.endpoint <;>
    simp [eq_comm (b := other.normalized.endpoint)]

theorem merge_of_full (h : max ≤ s.size) : s.merge candidates max = (0, s) := by
  cases candidates with
  | nil => rfl
  | cons r rest => rw [merge, if_pos h]

theorem merge_cons_of_contains (hroom : s.size < max)
    (h : s.contains r.normalized.endpoint = true) :
    s.merge (r :: rest) max = s.merge rest max := by
  rw [merge, if_neg (Nat.not_le.2 hroom), insert_of_contains h]

theorem merge_cons_of_new (hroom : s.size < max)
    (h : s.contains r.normalized.endpoint = false) :
    s.merge (r :: rest) max =
      (((s.add r).merge rest max).1 + 1, ((s.add r).merge rest max).2) := by
  rw [merge, if_neg (Nat.not_le.2 hroom), insert_of_new h]

/-- Merging what is put together is merging one after the other. -/
theorem merge_append (s : PeerSet) (candidates rest : List PeerRecord) (max : Nat) :
    s.merge (candidates ++ rest) max =
      ((s.merge candidates max).1 + ((s.merge candidates max).2.merge rest max).1,
        ((s.merge candidates max).2.merge rest max).2) := by
  induction candidates generalizing s with
  | nil => simp [merge]
  | cons r candidates ih =>
      by_cases hroom : s.size < max
      · rw [List.cons_append]
        cases hold : s.contains r.normalized.endpoint with
        | true =>
            rw [merge_cons_of_contains hroom hold, merge_cons_of_contains hroom hold]
            exact ih s
        | false =>
            rw [merge_cons_of_new hroom hold, merge_cons_of_new hroom hold, ih (s.add r),
              Nat.add_right_comm]
      · have hfull := Nat.le_of_not_lt hroom
        simp only [merge_of_full hfull]

/-! ## Peers taken one after the other -/

/-- A set takes peers one after the other, each at an endpoint that is new to it. -/
inductive Takes : PeerSet → List PeerRecord → PeerSet → Prop
  | done (s : PeerSet) : Takes s [] s
  | takes {s s' : PeerSet} {r : PeerRecord} {new : List PeerRecord}
    (hnew : s.contains r.normalized.endpoint = false) (h : Takes (s.add r) new s') :
    Takes s (r :: new) s'

theorem Takes.members {new : List PeerRecord} (h : s.Takes new s') :
    s'.members = s.members ++ new.map PeerRecord.normalized := by
  induction h with
  | done => simp
  | takes hnew h ih => simp [ih, add]

theorem takes_insert (s : PeerSet) (r : PeerRecord) : s.Takes (s.fresh [r]) (s.insert r).2 := by
  cases hold : s.contains r.normalized.endpoint with
  | true =>
      rw [fresh_cons_of_contains hold, insert_of_contains hold]
      exact .done s
  | false =>
      rw [fresh_cons_of_new hold, insert_of_new hold]
      exact .takes hold (.done _)

/-- Merging takes the new candidates until the set is full, and counts them. -/
theorem takes_merge (s : PeerSet) (candidates : List PeerRecord) (max : Nat) :
    s.Takes ((s.fresh candidates).take (max - s.size)) (s.merge candidates max).2 ∧
      (s.merge candidates max).1 = ((s.fresh candidates).take (max - s.size)).length := by
  induction candidates generalizing s with
  | nil =>
      rw [show s.fresh [] = [] from rfl, List.take_nil]
      exact ⟨.done s, rfl⟩
  | cons r rest ih =>
      by_cases hroom : s.size < max
      · cases hold : s.contains r.normalized.endpoint with
        | true =>
            rw [merge_cons_of_contains hroom hold, fresh_cons_of_contains hold]
            exact ih s
        | false =>
            have hleft : max - s.size = (max - (s.add r).size) + 1 := by
              rw [size_add]
              omega
            obtain ⟨htakes, hcount⟩ := ih (s.add r)
            rw [merge_cons_of_new hroom hold, fresh_cons_of_new hold, hleft, List.take_succ_cons]
            exact ⟨.takes hold htakes, congrArg (· + 1) hcount⟩
      · have hfull := Nat.le_of_not_lt hroom
        rw [merge_of_full hfull, Nat.sub_eq_zero_of_le hfull, List.take_zero]
        exact ⟨.done s, rfl⟩

/-- Merging counts what it adds, goes no further than its bound, and adds the new candidates in
order. -/
theorem merge_spec (s : PeerSet) (candidates : List PeerRecord) (max : Nat) :
    (s.merge candidates max).2.size = s.size + (s.merge candidates max).1 ∧
      (s.merge candidates max).2.size ≤ Nat.max s.size max ∧
      (s.merge candidates max).2.members = s.members ++
        ((s.fresh candidates).take (max - s.size)).map PeerRecord.normalized := by
  obtain ⟨htakes, hcount⟩ := s.takes_merge candidates max
  have hsize : (s.merge candidates max).2.size = s.size + (s.merge candidates max).1 := by
    rw [size, htakes.members, List.length_append, List.length_map, hcount]
    rfl
  refine ⟨hsize, ?_, htakes.members⟩
  have hbound := List.length_take_le (max - s.size) (s.fresh candidates)
  rw [hsize, hcount]
  rcases Nat.le_total s.size max with hle | hle
  · exact Nat.le_trans (by omega) (Nat.le_max_right s.size max)
  · exact Nat.le_trans (by omega) (Nat.le_max_left s.size max)

/-! ## Everything that is done to a set -/

/-- What is done to a set of peers. -/
inductive Act
  | merge (candidates : List PeerRecord) (max : Nat)
  | insert (r : PeerRecord)
  | remove (e : Endpoint)

/-- What comes of it. -/
def act (s : PeerSet) : Act → PeerSet
  | .merge candidates max => (s.merge candidates max).2
  | .insert r => (s.insert r).2
  | .remove e => (s.remove e).2

/-- What comes of a row of acts. -/
def run (s : PeerSet) (acts : List Act) : PeerSet := acts.foldl act s

/-- The records that an act adds, as they were given. -/
def added (s : PeerSet) : Act → List PeerRecord
  | .merge candidates max => (s.fresh candidates).take (max - s.size)
  | .insert r => s.fresh [r]
  | .remove _ => []

/-- The records that a row of acts adds, first the earliest. -/
def addedAlong (s : PeerSet) : List Act → List PeerRecord
  | [] => []
  | a :: acts => s.added a ++ (s.act a).addedAlong acts

/-- An act takes peers, or removes them. -/
theorem act_cases (s : PeerSet) (a : Act) :
    s.Takes (s.added a) (s.act a) ∨ s.added a = [] ∧ ∃ e, s.act a = (s.remove e).2 := by
  cases a with
  | merge candidates max => exact .inl (s.takes_merge candidates max).1
  | insert r => exact .inl (s.takes_insert r)
  | remove e => exact .inr ⟨rfl, e, rfl⟩

theorem members_remove (s : PeerSet) (e : Endpoint) :
    (s.remove e).2.members.Sublist s.members :=
  List.filter_sublist

/-- The members are normalized and at different endpoints. -/
structure Proper (s : PeerSet) : Prop where
  normalized : ∀ r ∈ s.members, r.endpoint.normalized = r.endpoint
  distinct : (s.members.map PeerRecord.endpoint).Nodup

theorem proper_empty : empty.Proper := ⟨nofun, List.nodup_nil⟩

theorem Proper.add (h : s.Proper) (hnew : s.contains r.normalized.endpoint = false) :
    (s.add r).Proper := by
  constructor
  · intro member hmember
    obtain hold | hlast := List.mem_append.1 hmember
    · exact h.normalized member hold
    · obtain rfl := List.mem_singleton.1 hlast
      exact r.endpoint.normalized_normalized
  · rw [PeerSet.add, List.map_append, List.nodup_append]
    refine ⟨h.distinct, by simp, ?_⟩
    rintro e hold e' hlast rfl
    obtain rfl := List.mem_singleton.1 hlast
    obtain ⟨member, hmember, hsame⟩ := List.mem_map.1 hold
    exact endpoint_ne_of_new hnew hmember hsame

theorem Proper.remove (h : s.Proper) (e : Endpoint) : (s.remove e).2.Proper where
  normalized := fun r hr => h.normalized r ((s.members_remove e).subset hr)
  distinct := h.distinct.sublist ((s.members_remove e).map _)

theorem Proper.takes {new : List PeerRecord} (h : s.Proper) (htakes : s.Takes new s') :
    s'.Proper := by
  induction htakes with
  | done => exact h
  | takes hnew _ ih => exact ih (h.add hnew)

theorem Proper.act (h : s.Proper) (a : Act) : (s.act a).Proper := by
  obtain htakes | ⟨-, e, hremove⟩ := s.act_cases a
  · exact h.takes htakes
  · rw [hremove]
    exact h.remove e

theorem Proper.run (h : s.Proper) (acts : List Act) : (s.run acts).Proper := by
  induction acts generalizing s with
  | nil => exact h
  | cons a acts ih => exact ih (h.act a)

/-- A member is found under its own endpoint, and nobody else is. -/
theorem Proper.find?_iff (h : s.Proper) : s.find? e = some r ↔ r ∈ s.members ∧ r.endpoint = e := by
  constructor
  · intro hfind
    exact ⟨List.mem_of_find?_eq_some hfind, by simpa using List.find?_some hfind⟩
  · rintro ⟨hmember, rfl⟩
    obtain ⟨found, hfound⟩ := Option.isSome_iff_exists.1 (contains_iff.2 ⟨r, hmember, rfl⟩)
    have hsame : found.endpoint = r.endpoint := by simpa using List.find?_some hfound
    have hfoundMember := List.mem_of_find?_eq_some hfound
    rw [hfound, List.inj_on_of_nodup_map h.distinct hfoundMember hmember hsame]

/-- Every member is as it was given by the record that was last added at its endpoint. -/
def Recorded (log : List PeerRecord) (s : PeerSet) : Prop :=
  ∀ r ∈ s.members, ∃ before given behind, log = before ++ given :: behind ∧
    r = given.normalized ∧ ∀ other ∈ behind, other.normalized.endpoint ≠ r.endpoint

theorem recorded_empty : empty.Recorded [] := nofun

theorem Recorded.add {log : List PeerRecord} (h : s.Recorded log)
    (hnew : s.contains r.normalized.endpoint = false) : (s.add r).Recorded (log ++ [r]) := by
  intro member hmember
  obtain hold | hlast := List.mem_append.1 hmember
  · obtain ⟨before, given, behind, rfl, hgiven, hbehind⟩ := h member hold
    refine ⟨before, given, behind ++ [r], by simp, hgiven, fun other hother => ?_⟩
    obtain hearlier | hlater := List.mem_append.1 hother
    · exact hbehind other hearlier
    · obtain rfl := List.mem_singleton.1 hlater
      exact (endpoint_ne_of_new hnew hold).symm
  · exact ⟨log, r, [], rfl, List.mem_singleton.1 hlast, nofun⟩

theorem Recorded.takes {log new : List PeerRecord} (h : s.Recorded log)
    (htakes : s.Takes new s') : s'.Recorded (log ++ new) := by
  induction htakes generalizing log with
  | done => simpa using h
  | takes hnew _ ih =>
      rw [List.append_cons]
      exact ih (h.add hnew)

theorem Recorded.act {log : List PeerRecord} (h : s.Recorded log) (a : Act) :
    (s.act a).Recorded (log ++ s.added a) := by
  obtain htakes | ⟨hadded, e, hremove⟩ := s.act_cases a
  · exact h.takes htakes
  · rw [hadded, hremove, List.append_nil]
    exact fun r hr => h r ((s.members_remove e).subset hr)

theorem Recorded.run {log : List PeerRecord} (h : s.Recorded log) (acts : List Act) :
    (s.run acts).Recorded (log ++ s.addedAlong acts) := by
  induction acts generalizing s log with
  | nil => simpa [addedAlong, PeerSet.run] using h
  | cons a acts ih =>
      rw [addedAlong, ← List.append_assoc]
      exact ih (h.act a)

end Torrent.PeerSet
