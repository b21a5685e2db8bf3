/-
Timestamps (`Reader::timestamp` of `truenas_chrony`).

Three words stand for a time: the two halves of a number of seconds, and nanoseconds.  The code
goes from the epoch forward, or, for a negative number of seconds, back by the seconds and then
forward by the nanoseconds, on `u64` seconds and `Duration`s.

* `SystemTime` — what is assumed of the system's clock: it holds the instants of an `i64`
  number of seconds, and its checked operations fail outside of these only;
* `clock_time` — the words of the code compute what `Clock.time` says of numbers;
* `timestamp_exact` — every timestamp is read, and is the instant that its words stand for.
-/
import RosUtils.ChronyReports

namespace Chrony

open BigEndian FixedFields

/-! ### Durations -/

/-- `NANOS_PER_SEC`. -/
def nanosPerSec : ℕ := 1000000000

/-- `Duration`: seconds, and fewer nanoseconds than there are in one. -/
structure Duration where
  secs : UInt64
  nanos : UInt32
  lt : nanos.toNat < nanosPerSec

namespace Duration

/-- The nanoseconds of a duration. -/
def toNat (d : Duration) : ℕ := d.secs.toNat * nanosPerSec + d.nanos.toNat

/-- The duration of a number of nanoseconds, if there is one. -/
def ofNat? (n : ℕ) : Option Duration :=
  if n < 2 ^ 64 * nanosPerSec then
    some ⟨UInt64.ofNat (n / nanosPerSec), UInt32.ofNat (n % nanosPerSec), by
      unfold nanosPerSec
      rw [UInt32.toNat_ofNat']
      omega⟩
  else none

/-- `Duration::new`, or its panic. -/
def new (secs : UInt64) (nanos : UInt32) : Option Duration :=
  if h : nanos.toNat < nanosPerSec then some ⟨secs, nanos, h⟩
  else if secs.toNat + nanos.toNat / nanosPerSec < 2 ^ 64 then
    some ⟨secs + UInt64.ofNat (nanos.toNat / nanosPerSec),
      UInt32.ofNat (nanos.toNat % nanosPerSec), by
        unfold nanosPerSec
        rw [UInt32.toNat_ofNat']
        omega⟩
  else none

/-- `Duration::from_secs`. -/
def fromSecs (secs : UInt64) : Duration := ⟨secs, 0, by decide⟩

/-- `Duration::from_nanos`. -/
def fromNanos (nanos : UInt64) : Duration where
  secs := UInt64.ofNat (nanos.toNat / nanosPerSec)
  nanos := UInt32.ofNat (nanos.toNat % nanosPerSec)
  lt := by
    unfold nanosPerSec
    rw [UInt32.toNat_ofNat']
    omega

theorem eq_of_toNat {d d' : Duration} (h : d.toNat = d'.toNat) : d = d' := by
  have hlt := d.lt
  have hlt' := d'.lt
  unfold toNat at h
  unfold nanosPerSec at h hlt hlt'
  have hsecs : d.secs = d'.secs := UInt64.toNat_inj.mp (by omega)
  have hnanos : d.nanos = d'.nanos := UInt32.toNat_inj.mp (by omega)
  cases d
  cases d'
  cases hsecs
  cases hnanos
  rfl

theorem toNat_lt (d : Duration) : d.toNat < 2 ^ 64 * nanosPerSec := by
  have hlt := d.lt
  have hsecs := d.secs.toNat_lt
  unfold toNat
  unfold nanosPerSec at hlt ⊢
  omega

theorem ofNat?_toNat (d : Duration) : ofNat? d.toNat = some d := by
  rw [ofNat?, if_pos d.toNat_lt]
  refine congrArg some (eq_of_toNat ?_)
  have hlt := d.toNat_lt
  show (UInt64.ofNat (d.toNat / nanosPerSec)).toNat * nanosPerSec +
    (UInt32.ofNat (d.toNat % nanosPerSec)).toNat = d.toNat
  rw [UInt64.toNat_ofNat', UInt32.toNat_ofNat']
  unfold nanosPerSec at hlt ⊢
  omega

end Duration

/-! ### Words -/

/-- `i64::unsigned_abs`. -/
def unsignedAbs (n : Int64) : UInt64 := if 0 ≤ n then n.toUInt64 else -n.toUInt64

/-- The number that 64 bits stand for in two's complement. -/
def twosComplement (n : ℕ) : ℤ := if n < 2 ^ 63 then n else n - 2 ^ 64

/-- The seconds of a timestamp.  A sender whose `time_t` has 32 bits has no high word. -/
def seconds (high low : UInt32) : ℤ :=
  twosComplement ((if high = noHighWord then 0 else high.toNat) * 2 ^ 32 + low.toNat)

theorem joined_toNat (high low : UInt32) :
    (high.toUInt64 <<< 32 ||| low.toUInt64).toNat = high.toNat * 2 ^ 32 + low.toNat := by
  have hhigh := high.toNat_lt
  have hlow : low.toNat < 2 ^ 32 := low.toNat_lt
  have hshift : (high.toUInt64 <<< 32).toNat = high.toNat <<< 32 := by
    rw [UInt64.toNat_shiftLeft, UInt32.toNat_toUInt64]
    show high.toNat <<< 32 % 2 ^ 64 = high.toNat <<< 32
    rw [Nat.shiftLeft_eq]
    omega
  rw [UInt64.toNat_or, hshift, UInt32.toNat_toUInt64, ← Nat.shiftLeft_add_eq_or_of_lt hlow,
    Nat.shiftLeft_eq]

theorem toInt_toInt64 (x : UInt64) : x.toInt64.toInt = twosComplement x.toNat := by
  rw [twosComplement]
  show x.toBitVec.toInt = _
  rw [BitVec.toInt_eq_toNat_cond]
  show (if 2 * x.toNat < 2 ^ 64 then (x.toNat : ℤ) else x.toNat - (2 ^ 64 : ℕ)) = _
  split <;> split <;> omega

/-- The seconds that the code computes. -/
theorem secs_toInt (high low : UInt32) :
    ((if high = noHighWord then 0 else high).toUInt64 <<< 32 ||| low.toUInt64).toInt64.toInt =
      seconds high low := by
  rw [toInt_toInt64, joined_toNat, seconds, apply_ite UInt32.toNat]
  rfl

theorem unsignedAbs_toNat (n : Int64) : (unsignedAbs n).toNat = n.toInt.natAbs := by
  have hn : n.toInt = twosComplement n.toUInt64.toNat := toInt_toInt64 n.toUInt64
  have hlt := n.toUInt64.toNat_lt
  rw [unsignedAbs]
  rw [twosComplement] at hn
  split
  · next h =>
    have h : 0 ≤ n.toInt := Int64.le_iff_toInt_le.mp h
    split at hn <;> omega
  · next h =>
    have h : ¬ 0 ≤ n.toInt := fun hle => h (Int64.le_iff_toInt_le.mpr hle)
    rw [UInt64.toNat_neg, show UInt64.size = 2 ^ 64 from rfl]
    split at hn <;> omega

/-! ### The system's clock -/

/-- `SystemTime`.  It holds exactly the instants of an `i64` number of seconds and 0 to
999999999 nanoseconds, and its checked operations fail only outside that range. -/
structure SystemTime (τ : Type) where
  epoch : τ
  checkedAdd : τ → Duration → Option τ
  checkedSub : τ → Duration → Option τ
  /-- Nanoseconds from the epoch. -/
  nanos : τ → ℤ
  nanos_injective : Function.Injective nanos
  nanos_range : ∀ n, (∃ t, nanos t = n) ↔
    ∃ (s : ℤ) (k : ℕ), -2 ^ 63 ≤ s ∧ s < 2 ^ 63 ∧ k < nanosPerSec ∧ n = s * nanosPerSec + k
  nanos_epoch : nanos epoch = 0
  checkedAdd_eq : ∀ t d t', checkedAdd t d = some t' ↔ nanos t' = nanos t + d.toNat
  checkedSub_eq : ∀ t d t', checkedSub t d = some t' ↔ nanos t' = nanos t - d.toNat

namespace SystemTime

variable {τ : Type} (sys : SystemTime τ)

/-- The time of a timestamp as `Reader::timestamp` computes it. -/
def time (high low nsec : UInt32) : Option τ :=
  let nsec := min nsec maxNsec
  let high := if high = noHighWord then 0 else high
  let secs := (high.toUInt64 <<< 32 ||| low.toUInt64).toInt64
  if 0 ≤ secs then (Duration.new (unsignedAbs secs) nsec).bind (sys.checkedAdd sys.epoch)
  else (sys.checkedSub sys.epoch (.fromSecs (unsignedAbs secs))).bind
    (sys.checkedAdd · (.fromNanos nsec.toUInt64))

/-- The operations on numbers of nanoseconds, of which some make no `Duration`. -/
def clock : Clock τ where
  epoch := sys.epoch
  checkedAdd t n := (Duration.ofNat? n).bind (sys.checkedAdd t)
  checkedSub t n := (Duration.ofNat? n).bind (sys.checkedSub t)

end SystemTime

theorem nsec_toNat (nsec : UInt32) : (min nsec maxNsec).toNat = min nsec.toNat 999999999 := by
  show (if nsec ≤ maxNsec then nsec else maxNsec).toNat = _
  have hle : nsec ≤ maxNsec ↔ nsec.toNat ≤ 999999999 := UInt32.le_iff_toNat_le
  split
  · next h => exact (Nat.min_eq_left (hle.mp h)).symm
  · next h => exact (Nat.min_eq_right (Nat.le_of_not_le fun h' => h (hle.mpr h'))).symm

/-- The instants that `SystemTime` holds, as numbers. -/
abbrev Instant := { n : ℤ // -2 ^ 63 * 10 ^ 9 ≤ n ∧ n < 2 ^ 63 * 10 ^ 9 }

def Instant.ofInt? (n : ℤ) : Option Instant :=
  if h : -2 ^ 63 * 10 ^ 9 ≤ n ∧ n < 2 ^ 63 * 10 ^ 9 then some ⟨n, h⟩ else none

theorem Instant.ofInt?_eq {n : ℤ} {t : Instant} : Instant.ofInt? n = some t ↔ t.val = n := by
  rw [ofInt?]
  constructor
  · intro h
    split at h
    · cases h
      rfl
    · cases h
  · rintro rfl
    rw [dif_pos t.property]

/-- A clock on these instants. -/
def SystemTime.unix : SystemTime Instant where
  epoch := ⟨0, by decide⟩
  checkedAdd t d := Instant.ofInt? (t.val + d.toNat)
  checkedSub t d := Instant.ofInt? (t.val - d.toNat)
  nanos := Subtype.val
  nanos_injective := Subtype.val_injective
  nanos_range n := by
    unfold nanosPerSec
    constructor
    · rintro ⟨t, rfl⟩
      have ht := t.property
      exact ⟨t.val / 1000000000, (t.val % 1000000000).toNat, by omega, by omega, by omega, by omega⟩
    · rintro ⟨s, k, hlow, hhigh, hk, rfl⟩
      exact ⟨⟨_, by omega⟩, rfl⟩
  nanos_epoch := rfl
  checkedAdd_eq _ _ _ := Instant.ofInt?_eq
  checkedSub_eq _ _ _ := Instant.ofInt?_eq

/-! ### The durations that are made -/

section Durations

variable (secs : Int64) {nsec : UInt32} (hnsec : nsec.toNat < nanosPerSec)

include hnsec

theorem new_unsignedAbs :
    Duration.new (unsignedAbs secs) nsec = some ⟨unsignedAbs secs, nsec, hnsec⟩ :=
  dif_pos hnsec

theorem ofNat?_forward :
    Duration.ofNat? (secs.toInt.natAbs * 1000000000 + nsec.toNat) =
      Duration.new (unsignedAbs secs) nsec := by
  rw [new_unsignedAbs secs hnsec, ← unsignedAbs_toNat]
  exact Duration.ofNat?_toNat ⟨unsignedAbs secs, nsec, hnsec⟩

theorem toNat_fromNanos : (Duration.fromNanos nsec.toUInt64).toNat = nsec.toNat := by
  show (UInt64.ofNat (nsec.toNat / nanosPerSec)).toNat * nanosPerSec +
    (UInt32.ofNat (nsec.toNat % nanosPerSec)).toNat = nsec.toNat
  have hlt := nsec.toNat_lt
  rw [Nat.div_eq_of_lt hnsec, Nat.mod_eq_of_lt hnsec, UInt32.ofNat_toNat]
  exact Nat.zero_add _

omit hnsec

theorem toNat_fromSecs : (Duration.fromSecs (unsignedAbs secs)).toNat =
    secs.toInt.natAbs * 1000000000 := by
  show (unsignedAbs secs).toNat * nanosPerSec + 0 = _
  rw [unsignedAbs_toNat, Nat.add_zero, nanosPerSec]

end Durations

namespace SystemTime

variable {τ : Type} (sys : SystemTime τ)

/-- The words of the code compute what `Clock.time` says of numbers. -/
theorem clock_time (high low nsec : UInt32) :
    sys.clock.time high low nsec = sys.time high low nsec := by
  have hnsec : (min nsec maxNsec).toNat < nanosPerSec := by
    rw [nsec_toNat, nanosPerSec]
    omega
  simp only [Clock.time, time, clock, ofNat?_forward _ hnsec]
  rw [← toNat_fromSecs, Duration.ofNat?_toNat, ← toNat_fromNanos hnsec, Duration.ofNat?_toNat]
  rfl

/-- An instant that the clock holds. -/
theorem exists_instant {s : ℤ} {k : ℕ} (hlow : -2 ^ 63 ≤ s) (hhigh : s < 2 ^ 63)
    (hk : k < nanosPerSec) : ∃ t, sys.nanos t = s * nanosPerSec + k :=
  (sys.nanos_range _).mpr ⟨s, k, hlow, hhigh, hk, rfl⟩

/-- The instant that is reached from the epoch by the seconds and the nanoseconds. -/
theorem instant_exact (secs : Int64) {nsec : UInt32} (hnsec : nsec.toNat < nanosPerSec) :
    ∃ t, (if 0 ≤ secs then (Duration.new (unsignedAbs secs) nsec).bind (sys.checkedAdd sys.epoch)
        else (sys.checkedSub sys.epoch (.fromSecs (unsignedAbs secs))).bind
          (sys.checkedAdd · (.fromNanos nsec.toUInt64))) = some t ∧
      sys.nanos t = secs.toInt * nanosPerSec + nsec.toNat := by
  obtain ⟨t, ht⟩ := sys.exists_instant secs.le_toInt secs.toInt_lt hnsec
  refine ⟨t, ?_, ht⟩
  by_cases hsign : 0 ≤ secs
  -- forward in one step
  · have habs : (secs.toInt.natAbs : ℤ) = secs.toInt :=
      Int.natAbs_of_nonneg (Int64.le_iff_toInt_le.mp hsign)
    rw [if_pos hsign, new_unsignedAbs secs hnsec, Option.bind_some, sys.checkedAdd_eq, ht,
      sys.nanos_epoch, Duration.toNat, unsignedAbs_toNat, Nat.cast_add, Nat.cast_mul, habs,
      zero_add]
  · -- back by whole seconds, to an instant that is held even for the least number of them
    have habs : (secs.toInt.natAbs : ℤ) = -secs.toInt :=
      Int.ofNat_natAbs_of_nonpos (le_of_not_ge fun h => hsign (Int64.le_iff_toInt_le.mpr h))
    obtain ⟨t₀, ht₀⟩ := sys.exists_instant (k := 0) secs.le_toInt secs.toInt_lt (by decide)
    have hback : sys.checkedSub sys.epoch (.fromSecs (unsignedAbs secs)) = some t₀ := by
      rw [sys.checkedSub_eq, ht₀, sys.nanos_epoch, toNat_fromSecs, nanosPerSec, Nat.cast_mul,
        habs, Nat.cast_zero, neg_mul, sub_neg_eq_add, add_zero, zero_add]
    rw [if_neg hsign, hback, Option.bind_some, sys.checkedAdd_eq, ht, ht₀,
      toNat_fromNanos hnsec, Nat.cast_zero, add_zero]

theorem time_exact (high low nsec : UInt32) :
    ∃ t, sys.time high low nsec = some t ∧
      sys.nanos t = seconds high low * nanosPerSec + (min nsec.toNat 999999999 : ℕ) := by
  have hnsec : (min nsec maxNsec).toNat < nanosPerSec := by
    rw [nsec_toNat, nanosPerSec]
    omega
  rw [← secs_toInt, ← nsec_toNat]
  exact sys.instant_exact _ hnsec

/-- Every timestamp stands for a time. -/
theorem representsAll : sys.clock.RepresentsAll := by
  intro high low nsec
  obtain ⟨t, ht, -⟩ := sys.time_exact high low nsec
  rw [sys.clock_time, ht]
  rfl

end SystemTime

/-- **Timestamps are exact.**  Every 12 bytes are read as the instant that lies the seconds of
the first two words and the nanoseconds of the third, or 999999999, from the epoch.  On the way
no `Duration` and no checked operation of the clock fails. -/
theorem timestamp_exact {τ : Type} (sys : SystemTime τ) (data : List UInt8)
    (hlen : 12 ≤ data.length) :
    ∃ t, (Reader.timestamp sys.clock).run data = .ok (t, data.drop 12) ∧
      sys.time (wordAt 0 data) (wordAt 4 data) (wordAt 8 data) = some t ∧
      sys.nanos t = seconds (wordAt 0 data) (wordAt 4 data) * 10 ^ 9 +
        (min (wordAt 8 data).toNat 999999999 : ℕ) := by
  obtain ⟨t, htime, hnanos⟩ := sys.time_exact (wordAt 0 data) (wordAt 4 data) (wordAt 8 data)
  refine ⟨t, ?_, htime, hnanos⟩
  exact Reader.timestamp_at (i := 0) (by omega) ((sys.clock_time _ _ _).trans htime)

/-- The least number of seconds, with nanoseconds that are held to a second. -/
theorem timestamp_exact_least :
    let data : List UInt8 := [0x80, 0, 0, 0, 0, 0, 0, 0, 0xff, 0xff, 0xff, 0xff]
    ∃ t, (Reader.timestamp SystemTime.unix.clock).run data = .ok (t, []) ∧
      t.val = -2 ^ 63 * 10 ^ 9 + 999999999 := by
  intro data
  obtain ⟨t, hrun, -, hnanos⟩ := timestamp_exact SystemTime.unix data (by decide)
  have hseconds : seconds (wordAt 0 data) (wordAt 4 data) = -2 ^ 63 := by decide
  have hnsec : min (wordAt 8 data).toNat 999999999 = 999999999 := by decide
  rw [hseconds, hnsec] at hnanos
  exact ⟨t, hrun, hnanos⟩

end Chrony
