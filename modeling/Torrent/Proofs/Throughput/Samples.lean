import Mathlib.Data.List.Induction
import Torrent.Throughput

/-!
# Samples of the throughput

The blocks of a session come one after the other, each with its bytes and a reading of
the clock, which may go back.  They are cut into samples: a sample closes with the first
block half a second or more after its start, and the next one starts there
(`Throughput.Samples.Of`).  Every sequence of blocks is cut in one way and no other
(`Throughput.Samples.Of.unique`).

A block is added either to the open sample or as the one that closes it
(`Throughput.Samples.add`), and the numbers of a session follow
(`Throughput.Shows.add`).  So the rate and the window are those of the last closed
sample, and no block is lost or counted twice (`Throughput.sampled`).  Nothing depends
on how a rate is found: it may be any function of the bytes and the span of a sample.
-/

namespace Torrent.Throughput

/-! ## Blocks and samples -/

/-- The bytes of a block and the reading of the clock when it came. -/
structure Arrival where
  bytes : UInt64
  time : Nat

/-- How many bytes came. -/
def bytesOf : List Arrival → Nat
  | [] => 0
  | a :: as => a.bytes.toNat + bytesOf as

/-- A closed sample. -/
structure Sample where
  start : Nat
  /-- Those that did not close it. -/
  early : List Arrival
  /-- The one that closed it. -/
  last : Arrival

/-- The blocks of a sample, in the order in which they came. -/
def Sample.arrivals (s : Sample) : List Arrival := s.early ++ [s.last]

/-- The rate of a sample, by a rule that finds it from the bytes and the span. -/
def Sample.rate (rule : UInt64 → Nat → UInt64) (s : Sample) : UInt64 :=
  rule (UInt64.ofNat (bytesOf s.arrivals)) (s.last.time - s.start)

/-- Blocks cut into samples. -/
structure Samples where
  closed : List Sample
  /-- When the open sample started. -/
  start : Nat
  /-- The blocks in the open sample. -/
  waiting : List Arrival

namespace Samples

/-- These are the samples of a sequence of blocks, the first of them started at a time. -/
structure Of (c : Samples) (start : Nat) (as : List Arrival) : Prop where
  /-- Each block is in one sample, and they stand in the order in which they came. -/
  parts : as = c.closed.flatMap Sample.arrivals ++ c.waiting
  /-- Each sample, the open one too, starts where the one before it closed. -/
  starts : c.closed.map Sample.start ++ [c.start] = start :: c.closed.map fun s => s.last.time
  /-- A sample closes with the first block half a second or more after its start. -/
  early : ∀ s ∈ c.closed, ∀ a ∈ s.early, a.time < s.start + leastSpan
  late : ∀ s ∈ c.closed, s.start + leastSpan ≤ s.last.time
  waiting : ∀ a ∈ c.waiting, a.time < c.start + leastSpan

/-- One more block: it joins the open sample or closes it. -/
def add (c : Samples) (a : Arrival) : Samples :=
  if a.time < c.start + leastSpan then { c with waiting := c.waiting ++ [a] }
  else ⟨c.closed ++ [⟨c.start, c.waiting, a⟩], a.time, []⟩

end Samples

/-! ## Numbers of a session -/

/-- Bytes received at a time, as `Throughput.record` takes them, with any rule for the rate. -/
def recordBy (rule : UInt64 → Nat → UInt64) (t : Throughput) (a : Arrival) : Throughput :=
  let gathered := t.sampleBytes + a.bytes
  let total := t.totalBytes + a.bytes
  let span := a.time - t.sampleStart
  if span < leastSpan then { t with sampleBytes := gathered, totalBytes := total }
  else
    let rate := rule gathered span
    ⟨a.time, 0, total, rate, windowFor rate⟩

/-- Blocks received one after the other. -/
def run (rule : UInt64 → Nat → UInt64) (start : Nat) (as : List Arrival) : Throughput :=
  as.foldl (recordBy rule) (startingAt start)

/-- The numbers are those of the samples of the blocks that came. -/
structure Shows (rule : UInt64 → Nat → UInt64) (t : Throughput) (as : List Arrival) (c : Samples) :
    Prop where
  sampleStart : t.sampleStart = c.start
  sampleBytes : t.sampleBytes = UInt64.ofNat (bytesOf c.waiting)
  totalBytes : t.totalBytes = UInt64.ofNat (bytesOf as)
  rate : t.rate = (c.closed.getLast?.map (Sample.rate rule)).getD 0
  window : t.window = (c.closed.getLast?.map fun s => windowFor (s.rate rule)).getD 5

section

variable {rule : UInt64 → Nat → UInt64} {t : Throughput} {start : Nat} {as : List Arrival}
  {a a' : Arrival} {c c' : Samples}

theorem bytesOf_append (as as' : List Arrival) :
    bytesOf (as ++ as') = bytesOf as + bytesOf as' := by
  induction as with
  | nil => rw [List.nil_append, bytesOf, Nat.zero_add]
  | cons a as ih => rw [List.cons_append, bytesOf, bytesOf, ih, Nat.add_assoc]

/-- One more block adds its bytes, also to a sum in a word. -/
theorem ofNat_bytesOf_concat (as : List Arrival) (a : Arrival) :
    UInt64.ofNat (bytesOf (as ++ [a])) = UInt64.ofNat (bytesOf as) + a.bytes := by
  rw [bytesOf_append, UInt64.ofNat_add, bytesOf, bytesOf, Nat.add_zero, UInt64.ofNat_toNat]

/-- A part of what came is no more than what came. -/
theorem bytesOf_le_of_mem {closed : List Sample} {s : Sample} (hs : s ∈ closed) :
    bytesOf s.arrivals ≤ bytesOf (closed.flatMap Sample.arrivals) := by
  obtain ⟨before, behind, rfl⟩ := List.append_of_mem hs
  rw [List.flatMap_append, List.flatMap_cons, bytesOf_append, bytesOf_append]
  omega

theorem run_concat (rule : UInt64 → Nat → UInt64) (start : Nat) (as : List Arrival) (a : Arrival) :
    run rule start (as ++ [a]) = (run rule start as).recordBy rule a := by
  rw [run, List.foldl_append]
  rfl

/-- With the rule that a session has for its rate, the numbers are those of the session. -/
theorem run_rateOf (start : Nat) (as : List Arrival) :
    run rateOf start as = as.foldl (fun t a => t.record a.bytes a.time) (startingAt start) := rfl

/-! ## Cutting -/

/-- Where the first late block stands is settled by the blocks alone. -/
theorem split_unique (late : Arrival → Prop) {early early' rest rest' : List Arrival}
    (h : early ++ a :: rest = early' ++ a' :: rest') (hearly : ∀ x ∈ early, ¬late x) (ha : late a)
    (hearly' : ∀ x ∈ early', ¬late x) (ha' : late a') :
    early = early' ∧ a = a' ∧ rest = rest' := by
  induction early generalizing early' with
  | nil =>
      cases early' with
      | nil => simpa using h
      | cons x early' =>
          obtain ⟨rfl, -⟩ := List.cons_eq_cons.1 h
          exact absurd ha (hearly' a List.mem_cons_self)
  | cons x early ih =>
      cases early' with
      | nil =>
          obtain ⟨rfl, -⟩ := List.cons_eq_cons.1 h
          exact absurd ha' (hearly x List.mem_cons_self)
      | cons x' early' =>
          obtain ⟨rfl, hbehind⟩ := List.cons_eq_cons.1 h
          obtain ⟨rfl, hsame⟩ := ih hbehind (List.forall_mem_cons.1 hearly).2
            (List.forall_mem_cons.1 hearly').2
          exact ⟨rfl, hsame⟩

namespace Samples

/-- Nothing came yet. -/
theorem of_nil (start : Nat) : (⟨[], start, []⟩ : Samples).Of start [] where
  parts := rfl
  starts := rfl
  early := nofun
  late := nofun
  waiting := nofun

/-- One more block is in one sample more, or in the open one. -/
theorem Of.add (h : c.Of start as) (a : Arrival) : (c.add a).Of start (as ++ [a]) := by
  rw [Samples.add]
  split
  next hearly =>
    refine ⟨?_, h.starts, h.early, h.late, List.forall_mem_append.2 ⟨h.waiting, ?_⟩⟩
    · rw [h.parts, List.append_assoc]
    · exact List.forall_mem_singleton.2 hearly
  next hlate =>
    refine ⟨?_, ?_, ?_, ?_, nofun⟩
    · rw [h.parts]
      simp [Sample.arrivals]
    · rw [List.map_append, List.map_append, List.map_singleton, List.map_singleton, h.starts]
      rfl
    · exact List.forall_mem_append.2 ⟨h.early, List.forall_mem_singleton.2 h.waiting⟩
    · exact List.forall_mem_append.2
        ⟨h.late, List.forall_mem_singleton.2 (Nat.le_of_not_lt hlate)⟩

/-- With no sample closed all blocks are early. -/
theorem Of.of_open {opened : Nat} {waiting : List Arrival}
    (h : (⟨[], opened, waiting⟩ : Samples).Of start as) :
    opened = start ∧ waiting = as ∧ ∀ a ∈ as, a.time < start + leastSpan := by
  obtain ⟨hparts, hstarts, -, -, hwaiting⟩ := h
  obtain rfl : as = waiting := hparts
  obtain ⟨rfl, -⟩ := List.cons_eq_cons.1 hstarts
  exact ⟨rfl, rfl, hwaiting⟩

/-- The first sample closed, and the others are those of the blocks behind it. -/
theorem Of.of_closed {s : Sample} {closed : List Sample} {opened : Nat} {waiting : List Arrival}
    (h : (⟨s :: closed, opened, waiting⟩ : Samples).Of start as) :
    s.start = start ∧ (∀ a ∈ s.early, a.time < start + leastSpan) ∧
      start + leastSpan ≤ s.last.time ∧
      ∃ rest, as = s.early ++ s.last :: rest ∧
        (⟨closed, opened, waiting⟩ : Samples).Of s.last.time rest := by
  obtain ⟨rfl, hstarts⟩ := List.cons_eq_cons.1 h.starts
  obtain ⟨hearly, hearlies⟩ := List.forall_mem_cons.1 h.early
  obtain ⟨hlate, hlates⟩ := List.forall_mem_cons.1 h.late
  refine ⟨rfl, hearly, hlate, closed.flatMap Sample.arrivals ++ waiting, ?_,
    rfl, hstarts, hearlies, hlates, h.waiting⟩
  rw [h.parts]
  simp [Sample.arrivals]

/-- Blocks are cut into samples in one way only. -/
theorem Of.unique (h : c.Of start as) (h' : c'.Of start as) : c' = c := by
  obtain ⟨closed, opened, waiting⟩ := c
  obtain ⟨closed', opened', waiting'⟩ := c'
  -- over the closed samples: the first late block ends the first sample of both
  induction closed generalizing closed' start as with
  | nil =>
      obtain ⟨rfl, rfl, hall⟩ := h.of_open
      cases closed' with
      | nil =>
          obtain ⟨rfl, rfl, -⟩ := h'.of_open
          rfl
      | cons s' closed' =>
          obtain ⟨-, -, hlate, rest, rfl, -⟩ := h'.of_closed
          have hlast := hall s'.last (List.mem_append_right _ List.mem_cons_self)
          omega
  | cons s closed ih =>
      obtain ⟨rfl, hearly, hlate, rest, rfl, hrest⟩ := h.of_closed
      cases closed' with
      | nil =>
          obtain ⟨-, -, hall⟩ := h'.of_open
          have hlast := hall s.last (List.mem_append_right _ List.mem_cons_self)
          omega
      | cons s' closed' =>
          obtain ⟨hstart, hearly', hlate', rest', hsame, hrest'⟩ := h'.of_closed
          obtain ⟨hearlies, hlast, rfl⟩ := split_unique
            (fun a => s.start + leastSpan ≤ a.time) hsame
            (fun a ha => Nat.not_le_of_lt (hearly a ha)) hlate
            (fun a ha => Nat.not_le_of_lt (hearly' a ha)) hlate'
          rw [← hlast] at hrest'
          obtain ⟨start', early', last'⟩ := s'
          cases ih hrest closed' hrest'
          cases hstart
          cases hearlies
          cases hlast
          rfl

end Samples

/-! ## Numbers and samples -/

/-- A block that does not close the sample changes neither the rate nor the window. -/
theorem recordBy_of_early (h : a.time < t.sampleStart + leastSpan) :
    t.recordBy rule a = { t with
      sampleBytes := t.sampleBytes + a.bytes, totalBytes := t.totalBytes + a.bytes } := by
  have hspan : a.time - t.sampleStart < leastSpan := by
    simp only [leastSpan] at h ⊢
    omega
  simp only [recordBy]
  rw [if_pos hspan]

/-- A block that closes the sample sets the rate and the window from the bytes of the sample and
its span. -/
theorem recordBy_of_late (h : ¬a.time < t.sampleStart + leastSpan) :
    let rate := rule (t.sampleBytes + a.bytes) (a.time - t.sampleStart)
    t.recordBy rule a = ⟨a.time, 0, t.totalBytes + a.bytes, rate, windowFor rate⟩ := by
  have hspan : ¬a.time - t.sampleStart < leastSpan := by omega
  simp only [recordBy]
  rw [if_neg hspan]

theorem shows_startingAt (rule : UInt64 → Nat → UInt64) (start : Nat) :
    Shows rule (startingAt start) [] ⟨[], start, []⟩ :=
  ⟨rfl, rfl, rfl, rfl, rfl⟩

/-- The numbers follow one more block. -/
theorem Shows.add (h : Shows rule t as c) (a : Arrival) :
    Shows rule (t.recordBy rule a) (as ++ [a]) (c.add a) := by
  have htotal : t.totalBytes + a.bytes = UInt64.ofNat (bytesOf (as ++ [a])) := by
    rw [h.totalBytes, ofNat_bytesOf_concat]
  have hsample : t.sampleBytes + a.bytes = UInt64.ofNat (bytesOf (c.waiting ++ [a])) := by
    rw [h.sampleBytes, ofNat_bytesOf_concat]
  by_cases hearly : a.time < c.start + leastSpan
  · rw [recordBy_of_early (h.sampleStart.symm ▸ hearly), Samples.add, if_pos hearly]
    exact ⟨h.sampleStart, hsample, htotal, h.rate, h.window⟩
  · rw [recordBy_of_late (h.sampleStart.symm ▸ hearly), Samples.add, if_neg hearly]
    refine ⟨rfl, rfl, htotal, ?_, ?_⟩
    all_goals
      rw [List.getLast?_concat, hsample, h.sampleStart]
      rfl

/-- Every sequence of blocks is cut into samples, and the numbers are those of the samples. -/
theorem exists_samples (rule : UInt64 → Nat → UInt64) (start : Nat) (as : List Arrival) :
    ∃ c : Samples, c.Of start as ∧ Shows rule (run rule start as) as c := by
  induction as using List.reverseRecOn with
  | nil => exact ⟨_, Samples.of_nil start, shows_startingAt rule start⟩
  | append_singleton as a ih =>
      obtain ⟨c, hof, hshows⟩ := ih
      refine ⟨c.add a, hof.add a, ?_⟩
      rw [run_concat]
      exact hshows.add a

/-- A larger rate has no smaller window. -/
theorem windowFor_mono {r r' : UInt64} (h : r ≤ r') : windowFor r ≤ windowFor r' := by
  have hrate := UInt64.le_iff_toNat_le.1 h
  -- the two branches meet between the rates 19 and 20, where they give 21 and 22
  have hwanted : (if r.toNat < 20 then r.toNat + 2 else r.toNat / 5 + 18) ≤
      if r'.toNat < 20 then r'.toNat + 2 else r'.toNat / 5 + 18 := by
    split
    next hslow => split <;> omega
    next hfast =>
      have hfast' : ¬r'.toNat < 20 := by omega
      rw [if_neg hfast']
      omega
  rw [UInt32.le_iff_toNat_le]
  simp only [windowFor, leastWindow, UInt32.toNat_ofNat', UInt32.size]
  omega

/-- The window is never below the least one. -/
theorem Shows.leastWindow_le (h : Shows rule t as c) : leastWindow ≤ t.window.toNat := by
  rw [h.window]
  cases c.closed.getLast? with
  | none => exact Nat.le_refl 5
  | some s => exact leastWindow_le_windowFor _

end

/-- The throughput of a session, for any rule for the rate and any readings of the clock, as long as
the bytes fit into a word.  The total is the sum of all bytes.  The blocks are cut into samples, in
one way only, and the open sample has started where the last one closed.  The rate is that of the
last closed sample and the window is the one for this rate, five where no sample has closed; a block
that does not close a sample changes neither.  The window is never below five, and a larger rate has
no smaller window. -/
theorem sampled (rule : UInt64 → Nat → UInt64) (start : Nat) (as : List Arrival)
    (hfits : bytesOf as < UInt64.size) :
    run rateOf start as = as.foldl (fun t a => t.record a.bytes a.time) (startingAt start) ∧
    (run rule start as).totalBytes.toNat = bytesOf as ∧
    (∃ c : Samples, c.Of start as ∧ (∀ c' : Samples, c'.Of start as → c' = c) ∧
      (run rule start as).sampleStart = c.start ∧
      (run rule start as).sampleBytes.toNat = bytesOf c.waiting ∧
      (∀ s ∈ c.closed, ∃ bytes : UInt64, bytes.toNat = bytesOf s.arrivals ∧
        s.rate rule = rule bytes (s.last.time - s.start)) ∧
      (run rule start as).rate = (c.closed.getLast?.map fun s => s.rate rule).getD 0 ∧
      (run rule start as).window =
        (c.closed.getLast?.map fun s => windowFor (s.rate rule)).getD 5 ∧
      ∀ a : Arrival, a.time < c.start + leastSpan →
        (run rule start (as ++ [a])).rate = (run rule start as).rate ∧
        (run rule start (as ++ [a])).window = (run rule start as).window) ∧
    5 ≤ (run rule start as).window.toNat ∧
    ∀ r r' : UInt64, r ≤ r' → windowFor r ≤ windowFor r' := by
  obtain ⟨c, hof, hshows⟩ := exists_samples rule start as
  have hparts : bytesOf as = bytesOf (c.closed.flatMap Sample.arrivals) + bytesOf c.waiting := by
    rw [← bytesOf_append, ← hof.parts]
  refine ⟨run_rateOf start as, ?_, ⟨c, hof, fun c' hof' => hof.unique hof', hshows.sampleStart, ?_,
    fun s hs => ⟨_, ?_, rfl⟩, hshows.rate, hshows.window, fun a hearly => ?_⟩,
    hshows.leastWindow_le, fun r r' => windowFor_mono⟩
  · rw [hshows.totalBytes, UInt64.toNat_ofNat_of_lt' hfits]
  · rw [hshows.sampleBytes, UInt64.toNat_ofNat_of_lt' (by omega)]
  · have hpart := bytesOf_le_of_mem hs
    rw [UInt64.toNat_ofNat_of_lt' (by omega)]
  · rw [run_concat, recordBy_of_early (hshows.sampleStart.symm ▸ hearly)]
    exact ⟨rfl, rfl⟩

/-- A block from before the start, one just half a second after it, and one with the clock back at
zero.  The rate of a sample is its bytes here. -/
theorem sampled_clock_back :
    let as : List Arrival := [⟨7, 3⟩, ⟨100, 500000010⟩, ⟨1, 0⟩]
    let t := run (fun bytes _ => bytes) 10 as
    bytesOf as < UInt64.size ∧ t.totalBytes.toNat = 108 ∧ t.sampleBytes.toNat = 1 ∧
    t.sampleStart = 500000010 ∧ t.rate = 107 ∧ t.window = 39 ∧
    ∀ c : Samples, c.Of 10 as →
      c = ⟨[⟨10, [⟨7, 3⟩], ⟨100, 500000010⟩⟩], 500000010, [⟨1, 0⟩]⟩ := by
  intro as t
  have hfits : bytesOf as < UInt64.size := by decide
  have hof : (⟨[⟨10, [⟨7, 3⟩], ⟨100, 500000010⟩⟩], 500000010, [⟨1, 0⟩]⟩ : Samples).Of 10 as :=
    ⟨rfl, rfl, by decide, by decide, by decide⟩
  obtain ⟨-, htotal, ⟨c, -, hunique, hstart, hbytes, -, hrate, hwindow, -⟩, -, -⟩ :=
    sampled (fun bytes _ => bytes) 10 as hfits
  obtain rfl := hunique _ hof
  exact ⟨hfits, htotal, hbytes, hstart, hrate, hwindow, fun c' hof' => hunique c' hof'⟩

end Torrent.Throughput
