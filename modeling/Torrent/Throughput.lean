/-!
# Throughput and the request window

How many requests may be open at once depends on how fast blocks have come.
Bytes are gathered into a sample.  A sample closes with the first block that
comes half a second or more after its start; its rate sets the window, and the
next sample starts there.  Until then the window stays as it was.

`Throughput.windowFor` is the rule for the window: a slow peer gets two more than
its rate, a fast one a fifth of its rate and eighteen, and nobody less than five.
-/

namespace Torrent

/-- The bytes of a session and the rate last found. -/
structure Throughput where
  /-- When the open sample started, in nanoseconds. -/
  sampleStart : Nat
  /-- The bytes in the open sample. -/
  sampleBytes : UInt64
  totalBytes : UInt64
  /-- The rate of the last closed sample, in KiB a second. -/
  rate : UInt64
  /-- How many requests may be open. -/
  window : UInt32

namespace Throughput

/-- The window of a peer whose rate is not known, and the smallest one. -/
def leastWindow : Nat := 5

/-- The shortest span of a sample, in nanoseconds. -/
def leastSpan : Nat := 500000000

/-- The window for a rate. -/
def windowFor (rate : UInt64) : UInt32 :=
  let wanted := if rate.toNat < 20 then rate.toNat + 2 else rate.toNat / 5 + 18
  UInt32.ofNat (min (max wanted leastWindow) (UInt32.size - 1))

/-- The rate of some bytes over a span in nanoseconds, in whole KiB a second. -/
def rateOf (bytes : UInt64) (span : Nat) : UInt64 :=
  let seconds := (UInt64.ofNat (span / 1000000000)).toFloat +
    (UInt64.ofNat (span % 1000000000)).toFloat / 1000000000.0
  (bytes.toFloat / 1024.0 / seconds).toUInt64

/-- Nothing received yet. -/
def startingAt (now : Nat) : Throughput := ⟨now, 0, 0, 0, UInt32.ofNat leastWindow⟩

/-- Bytes received at a time.  A time before the start of the sample counts as its start. -/
def record (t : Throughput) (bytes : UInt64) (now : Nat) : Throughput :=
  let gathered := t.sampleBytes + bytes
  let total := t.totalBytes + bytes
  let span := now - t.sampleStart
  if span < leastSpan then { t with sampleBytes := gathered, totalBytes := total }
  else
    let rate := rateOf gathered span
    ⟨now, 0, total, rate, windowFor rate⟩

/-- Whether the bytes of a session make more than their word holds together with some more.  Then
recording these wraps, or stops where sums are checked. -/
def overflows (t : Throughput) (bytes : UInt64) : Bool :=
  decide (UInt64.size ≤ t.totalBytes.toNat + bytes.toNat)

theorem totalBytes_record (t : Throughput) (bytes : UInt64) (now : Nat) :
    (t.record bytes now).totalBytes = t.totalBytes + bytes := by
  simp only [record]
  split <;> rfl

/-- What is recorded is counted exactly just where it does not overflow. -/
theorem overflows_eq_false_iff (t : Throughput) (bytes : UInt64) (now : Nat) :
    t.overflows bytes = false ↔
      (t.record bytes now).totalBytes.toNat = t.totalBytes.toNat + bytes.toNat := by
  have htotal := (t.totalBytes + bytes).toNat_lt
  rw [totalBytes_record, overflows, decide_eq_false_iff_not, Nat.not_le, UInt64.toNat_add]
  exact ⟨Nat.mod_eq_of_lt, fun hexact => hexact ▸ Nat.mod_lt _ (by decide)⟩

theorem leastWindow_le_windowFor (rate : UInt64) : leastWindow ≤ (windowFor rate).toNat := by
  simp only [windowFor, leastWindow, UInt32.toNat_ofNat', UInt32.size]
  omega

end Throughput

end Torrent
