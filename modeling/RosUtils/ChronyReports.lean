/-
The data of chronyd's replies (`source.rs`, `tracking.rs` and `auth.rs` of
`truenas_chrony`).

Each report has a length, and a reader that goes through its fields one after the other.
The readers are run once, symbolically (`Source.read_at` and its like): they end where the
length says, and every field is then known by its place in the data.

* `Kind` — the five reports, with their layouts;
* `reports_fit` — a reply that is too short is malformed, any other is decoded; what is not
  part of the layout does not matter, and every code and every option bit does.
-/
import RosUtils.ChronyWire
import RosUtils.FixedFields

namespace Chrony

open BigEndian FixedFields

/-! ### Reading fields -/

/-- What reads from a reply's data. -/
abbrev Reading (α : Type) := ExceptState.Reader UInt8 Error α

/-- `Address`. -/
inductive Address where
  | unspecified
  | v4 (a b c d : UInt8)
  | v6 (octets : Vector UInt8 16)
  | id (id : UInt32)
  deriving DecidableEq

/-- `NO_HIGH_WORD`. -/
def noHighWord : UInt32 := 0x7fffffff

/-- `MAX_NSEC`. -/
def maxNsec : UInt32 := 999999999

/-- The operations of `SystemTime`, with durations in nanoseconds. -/
structure Clock (τ : Type) where
  epoch : τ
  checkedAdd : τ → ℕ → Option τ
  checkedSub : τ → ℕ → Option τ

/-- The time that the words of a timestamp stand for, if it can be represented. -/
def Clock.time {τ : Type} (clock : Clock τ) (high low nsec : UInt32) : Option τ :=
  let nsec := min nsec maxNsec
  let high := if high = noHighWord then 0 else high
  let secs := (high.toUInt64 <<< 32 ||| low.toUInt64).toInt64
  if 0 ≤ secs then clock.checkedAdd clock.epoch (secs.toInt.natAbs * 1000000000 + nsec.toNat)
  else (clock.checkedSub clock.epoch (secs.toInt.natAbs * 1000000000)).bind
    (clock.checkedAdd · nsec.toNat)

/-- Every timestamp stands for a time. -/
def Clock.RepresentsAll {τ : Type} (clock : Clock τ) : Prop :=
  ∀ high low nsec, (clock.time high low nsec).isSome

/-- `float`: a 7-bit signed exponent over a 25-bit signed coefficient.  Its value is exact as
a `f64`, and stands here as the number it is. -/
def float (raw : UInt32) : ℚ :=
  let exp := raw.toInt32 >>> 25
  let coef := (raw <<< 7).toInt32 >>> 7
  coef.toInt * 2 ^ (exp.toInt - 25)

theorem toInt_shiftRight (x : Int32) {n : ℕ} (hn : n < 32) :
    (x >>> Int32.ofNat n).toInt = x.toInt >>> n := by
  have hmod : ∀ n < 32, ((Int32.ofNat n).toBitVec.smod 32).toNat = n := by decide
  rw [← Int32.toInt_toBitVec, Int32.toBitVec_shiftRight, BitVec.sshiftRight_eq', hmod n hn,
    BitVec.toInt_sshiftRight, Int32.toInt_toBitVec]

/-- The coefficient fits a `f64`, and the exponent is one of its normal ones. -/
theorem float_exact (raw : UInt32) :
    ∃ coef exp : ℤ, float raw = coef * 2 ^ exp ∧ |coef| ≤ 2 ^ 24 ∧ -89 ≤ exp ∧ exp ≤ 38 := by
  have hcoef := (raw <<< 7).toInt32.toInt_lt
  have hcoef' := (raw <<< 7).toInt32.le_toInt
  have hexp := raw.toInt32.toInt_lt
  have hexp' := raw.toInt32.le_toInt
  refine ⟨(raw <<< 7).toInt32.toInt >>> (7 : ℕ), raw.toInt32.toInt >>> (25 : ℕ) - 25, ?_, ?_⟩
  · rw [← toInt_shiftRight _ (by decide), ← toInt_shiftRight _ (by decide)]
    rfl
  · rw [Int.shiftRight_eq_div_pow, Int.shiftRight_eq_div_pow, abs_le]
    omega

/-- The match of `Reader::address` on the family code. -/
def Address.ofFamily (addr : List UInt8) (family : UInt16) : Address :=
  if family = 1 then .v4 (addr.getD 0 0) (addr.getD 1 0) (addr.getD 2 0) (addr.getD 3 0)
  else if family = 2 then .v6 (Vector.ofFn fun i => addr.getD i 0)
  else if family = 3 then .id (u32OfBe (addr.take 4))
  else .unspecified

namespace Reader

/-- `Reader::skip`. -/
def skip (n : ℕ) : Reading Unit := (fun _ => ()) <$> (take n : Reading (List UInt8))

/-- `Reader::u8`. -/
def u8 : Reading UInt8 := (fun b => b.getD 0 0) <$> (take 1 : Reading (List UInt8))

/-- `Reader::u16`. -/
def u16 : Reading UInt16 := u16OfBe <$> (take 2 : Reading (List UInt8))

/-- `Reader::i16`. -/
def i16 : Reading Int16 := (fun b => (u16OfBe b).toInt16) <$> (take 2 : Reading (List UInt8))

/-- Seconds since an event, as they stand in a word. -/
def agoOf (s : UInt32) : Option UInt32 := if s ≠ 0xffffffff then some s else none

/-- `Reader::ago`. -/
def ago : Reading (Option UInt32) := agoOf <$> (u32 : Reading UInt32)

/-- `Reader::float`. -/
def float : Reading ℚ := Chrony.float <$> (u32 : Reading UInt32)

/-- `Reader::timestamp`. -/
def timestamp {τ : Type} (clock : Clock τ) : Reading τ := do
  let high ← (u32 : Reading UInt32)
  let low ← (u32 : Reading UInt32)
  let nsec ← (u32 : Reading UInt32)
  match clock.time high low nsec with
  | some time => pure time
  | none => throw (.malformed "timestamp out of range")

/-- `Reader::address`. -/
def address : Reading Address := do
  let addr ← (take 16 : Reading (List UInt8))
  let family ← u16
  skip 2
  return Address.ofFamily addr family

end Reader

/-! ### Codes -/

/-- `Leap`. -/
inductive Leap where
  | normal
  | insertSecond
  | deleteSecond
  | unsynchronized
  | unknown (code : UInt16)
  deriving DecidableEq

/-- `Leap::from_code`. -/
def Leap.fromCode : UInt16 → Leap :=
  named [(0, .normal), (1, .insertSecond), (2, .deleteSecond), (3, .unsynchronized)] .unknown

/-- `SourceMode`. -/
inductive SourceMode where
  | server
  | peer
  | refClock
  | unknown (code : UInt16)
  deriving DecidableEq

/-- `SourceMode::from_code`. -/
def SourceMode.fromCode : UInt16 → SourceMode :=
  named [(0, .server), (1, .peer), (2, .refClock)] .unknown

/-- `SourceState`. -/
inductive SourceState where
  | selected
  | unusable
  | falseticker
  | jittery
  | combined
  | selectable
  | unknown (code : UInt16)
  deriving DecidableEq

/-- `SourceState::from_code`. -/
def SourceState.fromCode : UInt16 → SourceState :=
  named [(0, .selected), (1, .unusable), (2, .falseticker), (3, .jittery), (4, .combined),
    (5, .selectable)] .unknown

/-- `SelectState`. -/
inductive SelectState where
  | noSelect
  | missingSamples
  | unsynchronized
  | badStratum
  | badDistance
  | jittery
  | waitsSamples
  | stale
  | orphan
  | untrusted
  | falseticker
  | waitsSources
  | nonPreferred
  | waitsUpdate
  | distant
  | outlier
  | combined
  | selected
  | unknown (code : UInt8)
  deriving DecidableEq

/-- `SelectState::from_code`. -/
def SelectState.fromCode : UInt8 → SelectState :=
  named [('N'.toUInt8, .noSelect), ('M'.toUInt8, .missingSamples),
    ('s'.toUInt8, .unsynchronized), ('r'.toUInt8, .badStratum), ('d'.toUInt8, .badDistance),
    ('~'.toUInt8, .jittery), ('w'.toUInt8, .waitsSamples), ('S'.toUInt8, .stale),
    ('O'.toUInt8, .orphan), ('T'.toUInt8, .untrusted), ('x'.toUInt8, .falseticker),
    ('W'.toUInt8, .waitsSources), ('P'.toUInt8, .nonPreferred), ('U'.toUInt8, .waitsUpdate),
    ('D'.toUInt8, .distant), ('L'.toUInt8, .outlier), ('+'.toUInt8, .combined),
    ('*'.toUInt8, .selected)] .unknown

/-- `AuthMode`. -/
inductive AuthMode where
  | none
  | symmetricKey
  | nts
  | unknown (code : UInt16)
  deriving DecidableEq

/-- `AuthMode::from_code`. -/
def AuthMode.fromCode : UInt16 → AuthMode :=
  named [(0, .none), (1, .symmetricKey), (2, .nts)] .unknown

/-- `Algorithm`. -/
inductive Algorithm where
  | none
  | md5
  | sha1
  | sha256
  | sha384
  | sha512
  | sha3_224
  | sha3_256
  | sha3_384
  | sha3_512
  | tiger
  | whirlpool
  | aes128
  | aes256
  | aesSivCmac256
  | aesSivCmac384
  | aesSivCmac512
  | aes128GcmSiv
  | aes256GcmSiv
  | unknown (code : UInt16)
  deriving DecidableEq

/-- `Algorithm::from_code`. -/
def Algorithm.fromCode : UInt16 → Algorithm :=
  named [(0, .none), (1, .md5), (2, .sha1), (3, .sha256), (4, .sha384), (5, .sha512),
    (6, .sha3_224), (7, .sha3_256), (8, .sha3_384), (9, .sha3_512), (10, .tiger),
    (11, .whirlpool), (13, .aes128), (14, .aes256), (15, .aesSivCmac256), (16, .aesSivCmac384),
    (17, .aesSivCmac512), (30, .aes128GcmSiv), (31, .aes256GcmSiv)] .unknown

/-- `SelectOptions`, with the bits that no option has. -/
structure SelectOptions where
  bits : UInt16
  deriving DecidableEq

/-- `RefId`. -/
structure RefId where
  id : UInt32
  deriving DecidableEq

/-! ### Reports -/

/-- `Source`. -/
structure Source where
  address : Address
  poll : Int16
  stratum : UInt16
  state : SourceState
  mode : SourceMode
  reachability : UInt16
  lastSampleAgo : Option UInt32
  adjustedOffset : ℚ
  measuredOffset : ℚ
  offsetError : ℚ

/-- `Layout::read` of `Source`. -/
def Source.read : Reading Source := do
  let address ← Reader.address
  let poll ← Reader.i16
  let stratum ← Reader.u16
  let state ← Reader.u16
  let mode ← Reader.u16
  Reader.skip 2
  let reachability ← Reader.u16
  let lastSampleAgo ← Reader.ago
  -- the measured offset precedes the adjusted one
  let measuredOffset ← Reader.float
  let adjustedOffset ← Reader.float
  let offsetError ← Reader.float
  return { address, poll, stratum, state := .fromCode state, mode := .fromCode mode,
           reachability, lastSampleAgo, adjustedOffset, measuredOffset, offsetError }

/-- `Selection`. -/
structure Selection where
  referenceId : RefId
  address : Address
  state : SelectState
  authenticated : Bool
  leap : Leap
  configuredOptions : SelectOptions
  effectiveOptions : SelectOptions
  lastSampleAgo : Option UInt32
  score : ℚ
  lowerLimit : ℚ
  upperLimit : ℚ

/-- `Layout::read` of `Selection`. -/
def Selection.read : Reading Selection := do
  let referenceId ← (Reader.u32 : Reading UInt32)
  let address ← Reader.address
  let state ← Reader.u8
  let authenticated ← Reader.u8
  let leap ← Reader.u8
  Reader.skip 1
  let configuredOptions ← Reader.u16
  let effectiveOptions ← Reader.u16
  let lastSampleAgo ← Reader.ago
  let score ← Reader.float
  let lowerLimit ← Reader.float
  let upperLimit ← Reader.float
  return { referenceId := ⟨referenceId⟩, address, state := .fromCode state,
           authenticated := authenticated != 0, leap := .fromCode leap.toUInt16,
           configuredOptions := ⟨configuredOptions⟩, effectiveOptions := ⟨effectiveOptions⟩,
           lastSampleAgo, score, lowerLimit, upperLimit }

/-- `Tracking`. -/
structure Tracking (τ : Type) where
  referenceId : RefId
  address : Address
  stratum : UInt16
  leap : Leap
  referenceTime : τ
  correction : ℚ
  lastOffset : ℚ
  rmsOffset : ℚ
  frequencyPpm : ℚ
  residualFrequencyPpm : ℚ
  skewPpm : ℚ
  rootDelay : ℚ
  rootDispersion : ℚ
  updateInterval : ℚ

/-- `Layout::read` of `Tracking`. -/
def Tracking.read {τ : Type} (clock : Clock τ) : Reading (Tracking τ) := do
  let referenceId ← (Reader.u32 : Reading UInt32)
  let address ← Reader.address
  let stratum ← Reader.u16
  let leap ← Reader.u16
  let referenceTime ← Reader.timestamp clock
  let correction ← Reader.float
  let lastOffset ← Reader.float
  let rmsOffset ← Reader.float
  let frequencyPpm ← Reader.float
  let residualFrequencyPpm ← Reader.float
  let skewPpm ← Reader.float
  let rootDelay ← Reader.float
  let rootDispersion ← Reader.float
  let updateInterval ← Reader.float
  return { referenceId := ⟨referenceId⟩, address, stratum, leap := .fromCode leap,
           referenceTime, correction, lastOffset, rmsOffset, frequencyPpm,
           residualFrequencyPpm, skewPpm, rootDelay, rootDispersion, updateInterval }

/-- `Authentication`. -/
structure Authentication where
  mode : AuthMode
  algorithm : Algorithm
  keyId : UInt32
  keyBits : UInt16
  keAttempts : UInt16
  lastKeAgo : Option UInt32
  cookies : UInt16
  cookieLength : UInt16
  nak : Bool
  deriving DecidableEq

/-- `Layout::read` of `Authentication`. -/
def Authentication.read : Reading Authentication := do
  let mode ← Reader.u16
  let algorithm ← Reader.u16
  let keyId ← (Reader.u32 : Reading UInt32)
  let keyBits ← Reader.u16
  let keAttempts ← Reader.u16
  let lastKeAgo ← Reader.ago
  let cookies ← Reader.u16
  let cookieLength ← Reader.u16
  let nak ← Reader.u16
  Reader.skip 2
  return { mode := .fromCode mode, algorithm := .fromCode algorithm, keyId, keyBits, keAttempts,
           lastKeAgo, cookies, cookieLength, nak := nak != 0 }

/-! ### Failures -/

/-- The error of data that does not have its layout. -/
def IsMalformed (e : Error) : Prop := ∃ what, e = .malformed what

namespace Reader

theorem raises_take (n : ℕ) : Raises IsMalformed (take n : Reading (List UInt8)) := by
  intro rest e h
  change take n rest = .error e at h
  rw [take] at h
  split at h
  · cases h
    exact ⟨_, rfl⟩
  · cases h

/-- `Reader::u32` as the other words are read. -/
theorem u32_eq : @Eq (Reading UInt32) u32 (u32OfBe <$> (take 4 : Reading (List UInt8))) := by
  funext rest
  change (take 4 rest).map _ = _
  cases h : take 4 rest with
  | error e => exact (ExceptState.run_map_of_error (m := (take 4 : Reading _)) h).symm
  | ok r => exact (ExceptState.run_map_of_ok (m := (take 4 : Reading _)) h).symm

theorem raises_skip (n : ℕ) : Raises IsMalformed (skip n) := (raises_take n).map _

theorem raises_u8 : Raises IsMalformed u8 := (raises_take 1).map _

theorem raises_u16 : Raises IsMalformed u16 := (raises_take 2).map _

theorem raises_i16 : Raises IsMalformed i16 := (raises_take 2).map _

theorem raises_u32 : Raises IsMalformed (u32 : Reading UInt32) :=
  u32_eq ▸ (raises_take 4).map _

theorem raises_ago : Raises IsMalformed ago := raises_u32.map _

theorem raises_float : Raises IsMalformed float := raises_u32.map _

theorem raises_timestamp {τ : Type} (clock : Clock τ) : Raises IsMalformed (timestamp clock) := by
  refine raises_u32.bind fun high => raises_u32.bind fun low => raises_u32.bind fun nsec => ?_
  cases clock.time high low nsec with
  | some time => exact Raises.pure time
  | none =>
    intro rest e h
    cases h
    exact ⟨_, rfl⟩

theorem raises_address : Raises IsMalformed address :=
  (raises_take 16).bind fun _ => raises_u16.bind fun _ => (raises_skip 2).bind fun _ =>
    Raises.pure _

end Reader

open Reader

theorem Source.raises_read : Raises IsMalformed Source.read :=
  raises_address.bind fun _ => raises_i16.bind fun _ => raises_u16.bind fun _ =>
  raises_u16.bind fun _ => raises_u16.bind fun _ => (raises_skip 2).bind fun _ =>
  raises_u16.bind fun _ => raises_ago.bind fun _ => raises_float.bind fun _ =>
  raises_float.bind fun _ => raises_float.bind fun _ => Raises.pure _

theorem Selection.raises_read : Raises IsMalformed Selection.read :=
  raises_u32.bind fun _ => raises_address.bind fun _ => raises_u8.bind fun _ =>
  raises_u8.bind fun _ => raises_u8.bind fun _ => (raises_skip 1).bind fun _ =>
  raises_u16.bind fun _ => raises_u16.bind fun _ => raises_ago.bind fun _ =>
  raises_float.bind fun _ => raises_float.bind fun _ => raises_float.bind fun _ => Raises.pure _

theorem Tracking.raises_read {τ : Type} (clock : Clock τ) :
    Raises IsMalformed (Tracking.read clock) :=
  raises_u32.bind fun _ => raises_address.bind fun _ => raises_u16.bind fun _ =>
  raises_u16.bind fun _ => (raises_timestamp clock).bind fun _ => raises_float.bind fun _ =>
  raises_float.bind fun _ => raises_float.bind fun _ => raises_float.bind fun _ =>
  raises_float.bind fun _ => raises_float.bind fun _ => raises_float.bind fun _ =>
  raises_float.bind fun _ => raises_float.bind fun _ => Raises.pure _

theorem Authentication.raises_read : Raises IsMalformed Authentication.read :=
  raises_u16.bind fun _ => raises_u16.bind fun _ => raises_u32.bind fun _ =>
  raises_u16.bind fun _ => raises_u16.bind fun _ => raises_ago.bind fun _ =>
  raises_u16.bind fun _ => raises_u16.bind fun _ => raises_u16.bind fun _ =>
  (raises_skip 2).bind fun _ => Raises.pure _

/-! ### Layouts -/

/-- The layout of a report that is read field by field. -/
def Layout.ofReading {T : Type} (command reply : UInt16) (len : ℕ) (read : Reading T)
    (fits : replyHeader + len ≤ recvBuf) (raises : Raises IsMalformed read) : Layout T where
  command := command
  reply := reply
  len := len
  read data := (read.run data).map Prod.fst
  fits := fits
  malformed := by
    intro data e h
    cases hrun : read.run data with
    | error e' =>
      rw [hrun] at h
      cases h
      exact raises data _ hrun
    | ok r =>
      rw [hrun] at h
      cases h

/-- The reports. -/
inductive Kind where
  | sourceCount
  | source
  | selection
  | tracking
  | authentication
  deriving DecidableEq, Repr

namespace Kind

variable {τ : Type}

/-- The type of a report. -/
def Report (τ : Type) : Kind → Type
  | .sourceCount => UInt32
  | .source => Source
  | .selection => Selection
  | .tracking => Tracking τ
  | .authentication => Authentication

/-- `Layout::read` of a report. -/
def read (clock : Clock τ) : (k : Kind) → Reading (k.Report τ)
  | .sourceCount => Reader.u32
  | .source => Source.read
  | .selection => Selection.read
  | .tracking => Tracking.read clock
  | .authentication => Authentication.read

/-- `Layout` of a report. -/
def layout (clock : Clock τ) : (k : Kind) → Layout (k.Report τ)
  | .sourceCount => Layout.sourceCount
  | .source => .ofReading 15 3 48 Source.read (by decide) Source.raises_read
  | .selection => .ofReading 69 23 48 Selection.read (by decide) Selection.raises_read
  | .tracking => .ofReading 33 5 76 (Tracking.read clock) (by decide) (Tracking.raises_read clock)
  | .authentication =>
    .ofReading 67 20 24 Authentication.read (by decide) Authentication.raises_read

theorem layout_read (clock : Clock τ) (k : Kind) (data : List UInt8) :
    (k.layout clock).read data = ((k.read clock).run data).map Prod.fst := by
  cases k <;> rfl

/-- Where the codes of the enumerated fields and the selection options stand in the data of
a report: the place and the number of bytes of each. -/
def codes : Kind → List (ℕ × ℕ)
  | .sourceCount => []
  -- the state and the mode
  | .source => [(24, 2), (26, 2)]
  -- the state, the leap status, the configured and the effective options
  | .selection => [(24, 1), (26, 1), (28, 2), (30, 2)]
  -- the leap status
  | .tracking => [(26, 2)]
  -- the mode and the algorithm
  | .authentication => [(0, 2), (2, 2)]

end Kind

/-! ### Places -/

section Places

variable {τ : Type} {data data' : List UInt8} {i n : ℕ}

def byteAt (i : ℕ) (data : List UInt8) : UInt8 := (field i 1 data).getD 0 0

def halfAt (i : ℕ) (data : List UInt8) : UInt16 := u16OfBe (field i 2 data)

def wordAt (i : ℕ) (data : List UInt8) : UInt32 := u32OfBe (field i 4 data)

def floatAt (i : ℕ) (data : List UInt8) : ℚ := float (wordAt i data)

def addressAt (i : ℕ) (data : List UInt8) : Address :=
  .ofFamily (field i 16 data) (halfAt (i + 16) data)

namespace Reader

theorem take_at (h : i + n ≤ data.length) :
    At data i (take n : Reading (List UInt8)) (field i n data) (i + n) := by
  have hlen : ¬ (data.drop i).length < n := by
    rw [List.length_drop]
    omega
  change take n (data.drop i) = _
  rw [take, if_neg hlen, List.drop_drop]
  rfl

theorem skip_at (h : i + n ≤ data.length) : At data i (skip n) () (i + n) := (take_at h).map _

theorem u8_at (h : i + 1 ≤ data.length) : At data i u8 (byteAt i data) (i + 1) :=
  (take_at h).map _

theorem u16_at (h : i + 2 ≤ data.length) : At data i u16 (halfAt i data) (i + 2) :=
  (take_at h).map _

theorem i16_at (h : i + 2 ≤ data.length) : At data i i16 (halfAt i data).toInt16 (i + 2) :=
  (take_at h).map _

theorem u32_at (h : i + 4 ≤ data.length) :
    At data i (u32 : Reading UInt32) (wordAt i data) (i + 4) := by
  rw [u32_eq]
  exact (take_at h).map _

theorem ago_at (h : i + 4 ≤ data.length) : At data i ago (agoOf (wordAt i data)) (i + 4) :=
  (u32_at h).map _

theorem float_at (h : i + 4 ≤ data.length) : At data i float (floatAt i data) (i + 4) :=
  (u32_at h).map _

theorem timestamp_at {clock : Clock τ} {time : τ} (h : i + 12 ≤ data.length)
    (htime : clock.time (wordAt i data) (wordAt (i + 4) data) (wordAt (i + 8) data) = some time) :
    At data i (timestamp clock) time (i + 12) := by
  refine (u32_at (by omega)).bind ?_
  refine (u32_at (by omega)).bind ?_
  refine (u32_at (by omega)).bind ?_
  rw [htime]
  exact At.pure time

theorem address_at (h : i + 20 ≤ data.length) :
    At data i address (addressAt i data) (i + 20) := by
  refine (take_at (by omega)).bind ?_
  refine (u16_at (by omega)).bind ?_
  refine (skip_at (by omega)).bind ?_
  exact At.pure _

end Reader

/-- The source of the data, field by field. -/
def Source.ofData (data : List UInt8) : Source where
  address := addressAt 0 data
  poll := (halfAt 20 data).toInt16
  stratum := halfAt 22 data
  state := .fromCode (halfAt 24 data)
  mode := .fromCode (halfAt 26 data)
  reachability := halfAt 30 data
  lastSampleAgo := agoOf (wordAt 32 data)
  adjustedOffset := floatAt 40 data
  measuredOffset := floatAt 36 data
  offsetError := floatAt 44 data

theorem Source.read_at (h : 48 ≤ data.length) : At data 0 Source.read (.ofData data) 48 := by
  refine (address_at (by omega)).bind ?_
  refine (i16_at (by omega)).bind ?_
  refine (u16_at (by omega)).bind ?_
  refine (u16_at (by omega)).bind ?_
  refine (u16_at (by omega)).bind ?_
  refine (skip_at (by omega)).bind ?_
  refine (u16_at (by omega)).bind ?_
  refine (ago_at (by omega)).bind ?_
  refine (float_at (by omega)).bind ?_
  refine (float_at (by omega)).bind ?_
  refine (float_at (by omega)).bind ?_
  exact At.pure _

/-- The selection of the data, field by field. -/
def Selection.ofData (data : List UInt8) : Selection where
  referenceId := ⟨wordAt 0 data⟩
  address := addressAt 4 data
  state := .fromCode (byteAt 24 data)
  authenticated := byteAt 25 data != 0
  leap := .fromCode (byteAt 26 data).toUInt16
  configuredOptions := ⟨halfAt 28 data⟩
  effectiveOptions := ⟨halfAt 30 data⟩
  lastSampleAgo := agoOf (wordAt 32 data)
  score := floatAt 36 data
  lowerLimit := floatAt 40 data
  upperLimit := floatAt 44 data

theorem Selection.read_at (h : 48 ≤ data.length) :
    At data 0 Selection.read (.ofData data) 48 := by
  refine (u32_at (by omega)).bind ?_
  refine (address_at (by omega)).bind ?_
  refine (u8_at (by omega)).bind ?_
  refine (u8_at (by omega)).bind ?_
  refine (u8_at (by omega)).bind ?_
  refine (skip_at (by omega)).bind ?_
  refine (u16_at (by omega)).bind ?_
  refine (u16_at (by omega)).bind ?_
  refine (ago_at (by omega)).bind ?_
  refine (float_at (by omega)).bind ?_
  refine (float_at (by omega)).bind ?_
  refine (float_at (by omega)).bind ?_
  exact At.pure _

/-- The tracking report of the data and the time in it, field by field. -/
def Tracking.ofData (data : List UInt8) (time : τ) : Tracking τ where
  referenceId := ⟨wordAt 0 data⟩
  address := addressAt 4 data
  stratum := halfAt 24 data
  leap := .fromCode (halfAt 26 data)
  referenceTime := time
  correction := floatAt 40 data
  lastOffset := floatAt 44 data
  rmsOffset := floatAt 48 data
  frequencyPpm := floatAt 52 data
  residualFrequencyPpm := floatAt 56 data
  skewPpm := floatAt 60 data
  rootDelay := floatAt 64 data
  rootDispersion := floatAt 68 data
  updateInterval := floatAt 72 data

theorem Tracking.read_at {clock : Clock τ} {time : τ} (h : 76 ≤ data.length)
    (htime : clock.time (wordAt 28 data) (wordAt 32 data) (wordAt 36 data) = some time) :
    At data 0 (Tracking.read clock) (.ofData data time) 76 := by
  refine (u32_at (by omega)).bind ?_
  refine (address_at (by omega)).bind ?_
  refine (u16_at (by omega)).bind ?_
  refine (u16_at (by omega)).bind ?_
  refine (timestamp_at (by omega) htime).bind ?_
  refine (float_at (by omega)).bind ?_
  refine (float_at (by omega)).bind ?_
  refine (float_at (by omega)).bind ?_
  refine (float_at (by omega)).bind ?_
  refine (float_at (by omega)).bind ?_
  refine (float_at (by omega)).bind ?_
  refine (float_at (by omega)).bind ?_
  refine (float_at (by omega)).bind ?_
  refine (float_at (by omega)).bind ?_
  exact At.pure _

/-- The authentication report of the data, field by field. -/
def Authentication.ofData (data : List UInt8) : Authentication where
  mode := .fromCode (halfAt 0 data)
  algorithm := .fromCode (halfAt 2 data)
  keyId := wordAt 4 data
  keyBits := halfAt 8 data
  keAttempts := halfAt 10 data
  lastKeAgo := agoOf (wordAt 12 data)
  cookies := halfAt 16 data
  cookieLength := halfAt 18 data
  nak := halfAt 20 data != 0

theorem Authentication.read_at (h : 24 ≤ data.length) :
    At data 0 Authentication.read (.ofData data) 24 := by
  refine (u16_at (by omega)).bind ?_
  refine (u16_at (by omega)).bind ?_
  refine (u32_at (by omega)).bind ?_
  refine (u16_at (by omega)).bind ?_
  refine (u16_at (by omega)).bind ?_
  refine (ago_at (by omega)).bind ?_
  refine (u16_at (by omega)).bind ?_
  refine (u16_at (by omega)).bind ?_
  refine (u16_at (by omega)).bind ?_
  refine (skip_at (by omega)).bind ?_
  exact At.pure _

/-! ### What the codes tell -/

theorem Leap.fromCode_injective : Function.Injective Leap.fromCode :=
  named_injective (by decide) (fun _ _ h => Leap.unknown.inj h) (fun _ => by simp)

theorem SourceMode.fromCode_injective : Function.Injective SourceMode.fromCode :=
  named_injective (by decide) (fun _ _ h => SourceMode.unknown.inj h) (fun _ => by simp)

theorem SourceState.fromCode_injective : Function.Injective SourceState.fromCode :=
  named_injective (by decide) (fun _ _ h => SourceState.unknown.inj h) (fun _ => by simp)

theorem SelectState.fromCode_injective : Function.Injective SelectState.fromCode :=
  named_injective (by decide) (fun _ _ h => SelectState.unknown.inj h) (fun _ => by simp)

theorem AuthMode.fromCode_injective : Function.Injective AuthMode.fromCode :=
  named_injective (by decide) (fun _ _ h => AuthMode.unknown.inj h) (fun _ => by simp)

theorem Algorithm.fromCode_injective : Function.Injective Algorithm.fromCode :=
  named_injective (by decide) (fun _ _ h => Algorithm.unknown.inj h) (fun _ => by simp)

theorem field_length (h : i + n ≤ data.length) : (field i n data).length = n := by
  rw [field, List.length_take, List.length_drop]
  omega

theorem field_eq_of_byteAt (h : i + 1 ≤ data.length) (h' : i + 1 ≤ data'.length)
    (hbyte : byteAt i data = byteAt i data') : field i 1 data = field i 1 data' := by
  obtain ⟨b, hb⟩ := List.length_eq_one_iff.mp (field_length h)
  obtain ⟨b', hb'⟩ := List.length_eq_one_iff.mp (field_length h')
  rw [byteAt, byteAt, hb, hb'] at hbyte
  rw [hb, hb']
  exact congrArg (fun x => [x]) hbyte

theorem field_eq_of_halfAt (h : i + 2 ≤ data.length) (h' : i + 2 ≤ data'.length)
    (hhalf : halfAt i data = halfAt i data') : field i 2 data = field i 2 data' := by
  rw [← u16ToBe_u16OfBe (field_length h), ← u16ToBe_u16OfBe (field_length h')]
  exact congrArg u16ToBe hhalf

theorem Source.codes_eq (h : 48 ≤ data.length) (h' : 48 ≤ data'.length)
    (hsame : Source.ofData data = Source.ofData data') :
    ∀ c ∈ Kind.source.codes, field c.1 c.2 data = field c.1 c.2 data' := by
  have hstate := SourceState.fromCode_injective (congrArg Source.state hsame)
  have hmode := SourceMode.fromCode_injective (congrArg Source.mode hsame)
  rw [Kind.codes, List.forall_mem_cons, List.forall_mem_singleton]
  exact ⟨field_eq_of_halfAt (by omega) (by omega) hstate,
    field_eq_of_halfAt (by omega) (by omega) hmode⟩

theorem Selection.codes_eq (h : 48 ≤ data.length) (h' : 48 ≤ data'.length)
    (hsame : Selection.ofData data = Selection.ofData data') :
    ∀ c ∈ Kind.selection.codes, field c.1 c.2 data = field c.1 c.2 data' := by
  have hstate := SelectState.fromCode_injective (congrArg Selection.state hsame)
  -- the leap status is a byte here, and a half word for `Leap`
  have hleap := UInt8.toUInt16_inj.mp (Leap.fromCode_injective (congrArg Selection.leap hsame))
  have hconfigured := congrArg (fun s => s.configuredOptions.bits) hsame
  have heffective := congrArg (fun s => s.effectiveOptions.bits) hsame
  rw [Kind.codes, List.forall_mem_cons, List.forall_mem_cons, List.forall_mem_cons,
    List.forall_mem_singleton]
  exact ⟨field_eq_of_byteAt (by omega) (by omega) hstate,
    field_eq_of_byteAt (by omega) (by omega) hleap,
    field_eq_of_halfAt (by omega) (by omega) hconfigured,
    field_eq_of_halfAt (by omega) (by omega) heffective⟩

theorem Tracking.codes_eq {time time' : τ} (h : 76 ≤ data.length) (h' : 76 ≤ data'.length)
    (hsame : Tracking.ofData data time = Tracking.ofData data' time') :
    ∀ c ∈ Kind.tracking.codes, field c.1 c.2 data = field c.1 c.2 data' := by
  have hleap := Leap.fromCode_injective (congrArg Tracking.leap hsame)
  rw [Kind.codes, List.forall_mem_singleton]
  exact field_eq_of_halfAt (by omega) (by omega) hleap

theorem Authentication.codes_eq (h : 24 ≤ data.length) (h' : 24 ≤ data'.length)
    (hsame : Authentication.ofData data = Authentication.ofData data') :
    ∀ c ∈ Kind.authentication.codes, field c.1 c.2 data = field c.1 c.2 data' := by
  have hmode := AuthMode.fromCode_injective (congrArg Authentication.mode hsame)
  have halgorithm := Algorithm.fromCode_injective (congrArg Authentication.algorithm hsame)
  rw [Kind.codes, List.forall_mem_cons, List.forall_mem_singleton]
  exact ⟨field_eq_of_halfAt (by omega) (by omega) hmode,
    field_eq_of_halfAt (by omega) (by omega) halgorithm⟩

namespace Kind

variable {clock : Clock τ}

/-- **The reader of a report ends where the length of the report says.** -/
theorem read_at (hclock : clock.RepresentsAll) (k : Kind)
    (h : (k.layout clock).len ≤ data.length) :
    ∃ report, At data 0 (k.read clock) report (k.layout clock).len := by
  cases k with
  | sourceCount => exact ⟨_, u32_at ((Nat.zero_add 4).trans_le h)⟩
  | source => exact ⟨_, Source.read_at h⟩
  | selection => exact ⟨_, Selection.read_at h⟩
  | tracking =>
    obtain ⟨time, htime⟩ := Option.isSome_iff_exists.mp
      (hclock (wordAt 28 data) (wordAt 32 data) (wordAt 36 data))
    exact ⟨_, Tracking.read_at h htime⟩
  | authentication => exact ⟨_, Authentication.read_at h⟩

/-- **A report tells the codes and the option bits of its data.** -/
theorem codes_eq_of_read_at (hclock : clock.RepresentsAll) (k : Kind) {report : k.Report τ}
    (h : (k.layout clock).len ≤ data.length) (h' : (k.layout clock).len ≤ data'.length)
    (hread : At data 0 (k.read clock) report (k.layout clock).len)
    (hread' : At data' 0 (k.read clock) report (k.layout clock).len) :
    ∀ c ∈ k.codes, field c.1 c.2 data = field c.1 c.2 data' := by
  cases k with
  | sourceCount => exact List.forall_mem_nil _
  | source =>
    have hreport := hread.unique (Source.read_at h)
    exact Source.codes_eq h h' (hreport.symm.trans (hread'.unique (Source.read_at h')))
  | selection =>
    have hreport := hread.unique (Selection.read_at h)
    exact Selection.codes_eq h h' (hreport.symm.trans (hread'.unique (Selection.read_at h')))
  | tracking =>
    obtain ⟨time, htime⟩ := Option.isSome_iff_exists.mp
      (hclock (wordAt 28 data) (wordAt 32 data) (wordAt 36 data))
    obtain ⟨time', htime'⟩ := Option.isSome_iff_exists.mp
      (hclock (wordAt 28 data') (wordAt 32 data') (wordAt 36 data'))
    have hreport := hread.unique (Tracking.read_at h htime)
    exact Tracking.codes_eq h h' (hreport.symm.trans (hread'.unique (Tracking.read_at h' htime')))
  | authentication =>
    have hreport := hread.unique (Authentication.read_at h)
    exact Authentication.codes_eq h h'
      (hreport.symm.trans (hread'.unique (Authentication.read_at h')))

end Kind

end Places

/-! ### Replies -/

section Replies

variable {T : Type} {layout : Layout T} {r : Request T} {d d' : Datagram}

/-- A reply to the request, with the status and the reply code of a report. -/
structure Successful (layout : Layout T) (r : Request T) (d : Datagram) : Prop where
  related : r.decode d ≠ .unrelated
  status : (header d).status = statusOk
  reply : (header d).reply = layout.reply

/-- Such a reply is decoded by its data. -/
theorem Successful.decode_eq (hr : r.decodeData = layout.decode) (h : Successful layout r d) :
    r.decode d = .answer (layout.decode layout.reply (d.drop replyHeader)) := by
  obtain ⟨hrelated, hstatus, hreply⟩ := h
  have hmatch : (header d).mismatch = false := by
    rw [Header.mismatch, hstatus]
    exact Bool.and_false _
  -- past the header's checks, which a related datagram meets
  simp only [Request.decode] at hrelated ⊢
  split at hrelated
  · exact absurd rfl hrelated
  · next hlen =>
    rw [if_neg hlen]
    split at hrelated
    · exact absurd rfl hrelated
    · next hform =>
      rw [if_neg hform, hmatch, if_neg Bool.false_ne_true, if_neg (not_not_intro hstatus), hr,
        hreply]

/-- The bytes of a reply's header that nothing reads. -/
def Unread (i : ℕ) : Prop := 10 ≤ i ∧ i < 16 ∨ 20 ≤ i ∧ i < 28

/-- The datagrams have the same first `n` bytes, but for those of the header that nothing
reads. -/
structure Agree (n : ℕ) (d d' : Datagram) : Prop where
  length : (d.take n).length = (d'.take n).length
  bytes : ∀ i < n, ¬ Unread i → d[i]? = d'[i]?

theorem Agree.field_eq {n i w : ℕ} (h : Agree n d d') (hn : i + w ≤ n)
    (hread : ∀ j < w, ¬ Unread (i + j)) : field i w d = field i w d' := by
  apply List.ext_getElem?
  intro j
  rw [field, field, List.getElem?_take, List.getElem?_take]
  split
  · next hj => rw [List.getElem?_drop, List.getElem?_drop, h.bytes _ (by omega) (hread j hj)]
  · rfl

theorem Agree.header_eq {n : ℕ} (h : Agree n d d') (hn : replyHeader ≤ n) :
    header d = header d' := by
  have hn : 28 ≤ n := hn
  have hbyte : ∀ i < 2, d.getD i 0 = d'.getD i 0 := by
    intro i hi
    rw [List.getD_eq_getElem?_getD, List.getD_eq_getElem?_getD,
      h.bytes i (by omega) (by unfold Unread; omega)]
  have hfield : ∀ i w, i + w ≤ 10 ∨ 16 ≤ i ∧ i + w ≤ 20 → field i w d = field i w d' := by
    intro i w hi
    exact h.field_eq (by omega) fun j hj => by unfold Unread; omega
  simp only [header, hbyte 0 (by omega), hbyte 1 (by omega), hfield 2 2 (by omega),
    hfield 4 2 (by omega), hfield 6 2 (by omega), hfield 8 2 (by omega), hfield 16 4 (by omega)]

/-- **What follows the layout does not matter**, nor what is not read of the header. -/
theorem Agree.decode_eq (hr : r.decodeData = layout.decode)
    (h : Agree (replyHeader + layout.len) d d') : r.decode d = r.decode d' := by
  have hlength := h.length
  rw [List.length_take, List.length_take] at hlength
  have hheader : header d = header d' := h.header_eq (Nat.le_add_right _ _)
  have hshort : d.length < replyHeader ↔ d'.length < replyHeader := by omega
  have hdata : ∀ reply, layout.decode reply (d.drop replyHeader) =
      layout.decode reply (d'.drop replyHeader) := by
    intro reply
    have hlen : (d.drop replyHeader).length < layout.len ↔
        (d'.drop replyHeader).length < layout.len := by
      rw [List.length_drop, List.length_drop]
      omega
    have htake : (d.drop replyHeader).take layout.len = (d'.drop replyHeader).take layout.len :=
      h.field_eq le_rfl fun j _ hunread => by
        have hheader : replyHeader = 28 := rfl
        unfold Unread at hunread
        omega
    simp only [Layout.decode, hlen, htake]
  simp only [Request.decode, hshort, hheader, hr, hdata]

end Replies

/-- The replies to a request for a report are decoded as its layout says. -/
structure Fits {τ : Type} (clock : Clock τ) (k : Kind) (r : Request (k.Report τ)) : Prop where
  /-- Data that is shorter than the layout is malformed. -/
  short : ∀ d, Successful (k.layout clock) r d →
    (d.drop replyHeader).length < (k.layout clock).len →
    ∃ what, r.decode d = .answer (.error (.malformed what))
  /-- Any other data is decoded, and the reader goes through all bytes it is held to. -/
  whole : ∀ d, Successful (k.layout clock) r d →
    (k.layout clock).len ≤ (d.drop replyHeader).length →
    ∃ report, r.decode d = .answer (.ok report) ∧
      (k.read clock).run ((d.drop replyHeader).take (k.layout clock).len) = .ok (report, [])
  /-- Nothing else has a part in it. -/
  same : ∀ d d', Agree (replyHeader + (k.layout clock).len) d d' → r.decode d = r.decode d'
  /-- Another code, or another option bit, gives another report. -/
  told : ∀ d d', Successful (k.layout clock) r d → Successful (k.layout clock) r d' →
    (k.layout clock).len ≤ (d.drop replyHeader).length →
    (k.layout clock).len ≤ (d'.drop replyHeader).length →
    ∀ c ∈ k.codes, field (replyHeader + c.1) c.2 d ≠ field (replyHeader + c.1) c.2 d' →
      r.decode d ≠ r.decode d'

section Fits

/-- The codes are part of the layout. -/
theorem Kind.codes_fit {τ : Type} (clock : Clock τ) (k : Kind) :
    ∀ c ∈ k.codes, c.1 + c.2 ≤ (k.layout clock).len := by
  cases k with
  | sourceCount => exact List.forall_mem_nil _
  | source => exact (by decide : ∀ c ∈ Kind.source.codes, c.1 + c.2 ≤ 48)
  | selection => exact (by decide : ∀ c ∈ Kind.selection.codes, c.1 + c.2 ≤ 48)
  | tracking => exact (by decide : ∀ c ∈ Kind.tracking.codes, c.1 + c.2 ≤ 76)
  | authentication => exact (by decide : ∀ c ∈ Kind.authentication.codes, c.1 + c.2 ≤ 24)

variable {τ : Type} {clock : Clock τ} {k : Kind} {r : Request (k.Report τ)} {d : Datagram}

theorem Kind.decode_short (hr : r.decodeData = (k.layout clock).decode)
    (h : Successful (k.layout clock) r d)
    (hlen : (d.drop replyHeader).length < (k.layout clock).len) :
    r.decode d = .answer (.error (.malformed "reply shorter than its layout")) := by
  rw [h.decode_eq hr, Layout.decode, if_neg (not_not_intro rfl), if_pos hlen]

/-- Data that is long enough is decoded to what the reader makes of its first bytes. -/
theorem Kind.decode_whole (hclock : clock.RepresentsAll)
    (hr : r.decodeData = (k.layout clock).decode) (h : Successful (k.layout clock) r d)
    (hlen : (k.layout clock).len ≤ (d.drop replyHeader).length) :
    ∃ report, r.decode d = .answer (.ok report) ∧
      At ((d.drop replyHeader).take (k.layout clock).len) 0 (k.read clock) report
        (k.layout clock).len := by
  have hheld : ((d.drop replyHeader).take (k.layout clock).len).length = (k.layout clock).len :=
    List.length_take_of_le hlen
  obtain ⟨report, hread⟩ := k.read_at hclock hheld.ge
  refine ⟨report, ?_, hread⟩
  have hrun : (k.read clock).run ((d.drop replyHeader).take (k.layout clock).len) = _ := hread
  rw [h.decode_eq hr, Layout.decode, if_neg (not_not_intro rfl), if_neg (Nat.not_lt.mpr hlen),
    k.layout_read, hrun]
  rfl

end Fits

/-- **Replies fit their layouts.**  Whatever the request for a report carries and whichever
attempt it is, a reply with too little data is malformed, any other is decoded by a reader
that goes through exactly the bytes of the layout; bytes behind it and the header's unread
bytes have no part in the verdict, and the codes and option bits can all be told from it. -/
theorem reports_fit {τ : Type} (clock : Clock τ) (hclock : clock.RepresentsAll) (k : Kind)
    (payload : List UInt8) (sequence : UInt32) (attempt : UInt16) :
    Fits clock k ((build (k.layout clock) payload sequence).withAttempt attempt) := by
  have hr : ((build (k.layout clock) payload sequence).withAttempt attempt).decodeData =
    (k.layout clock).decode := rfl
  refine ⟨?_, ?_, ?_, ?_⟩
  · intro d h hlen
    exact ⟨_, Kind.decode_short hr h hlen⟩
  · intro d h hlen
    obtain ⟨report, hdecode, hread⟩ := Kind.decode_whole hclock hr h hlen
    refine ⟨report, hdecode, hread.trans ?_⟩
    rw [List.drop_eq_nil_of_le (List.length_take_le _ _)]
  · intro d d' h
    exact h.decode_eq hr
  · intro d d' h h' hlen hlen' c hc hcode hsame
    obtain ⟨report, hdecode, hread⟩ := Kind.decode_whole hclock hr h hlen
    obtain ⟨report', hdecode', hread'⟩ := Kind.decode_whole hclock hr h' hlen'
    rw [hdecode, hdecode', Verdict.answer.injEq, Except.ok.injEq] at hsame
    subst hsame
    -- the places of the codes are counted from the end of the header
    have hfield : ∀ d : Datagram, field c.1 c.2 ((d.drop replyHeader).take (k.layout clock).len) =
        field (replyHeader + c.1) c.2 d := by
      intro d
      rw [field_take (k.codes_fit clock c hc), field, field, List.drop_drop]
    have hcodes := k.codes_eq_of_read_at hclock (List.length_take_of_le hlen).ge
      (List.length_take_of_le hlen').ge hread hread' c hc
    rw [hfield, hfield] at hcodes
    exact hcode hcodes

/-- A clock that counts nanoseconds without an end. -/
def Clock.unbounded : Clock ℤ := ⟨0, fun t d => some (t + d), fun t d => some (t - d)⟩

theorem Clock.unbounded_representsAll : Clock.unbounded.RepresentsAll := by
  intro high low nsec
  rw [Clock.time, apply_ite Option.isSome]
  exact ite_self true

theorem reports_fit_unbounded :
    Fits .unbounded .tracking
      ((build (Kind.tracking.layout Clock.unbounded) [] 7).withAttempt 1) :=
  reports_fit _ Clock.unbounded_representsAll .tracking [] 7 1

end Chrony
