/-
The record of how a dataset's files are laid out.

`MetaFmt.pack` writes the record and `MetaFmt.unpack` reads it: a magic word, a
version word, and the body of that version.  Both go through the XDR codec, with
the types `Header`, `Packed`, `BodyV1` and `StreamsV1` that the source derives.

`record_bijection` says that a record can be packed exactly when its strings are
free of NULs and within their bounds, and that `unpack` is the inverse of `pack`:
a byte string is read as a record exactly when the record is written as it.
`compareStored_exact` says what each verdict on a stored value means, over all byte
strings.
-/
import RosUtils.XdrParts
import RosUtils.Utf8

open BigEndian ExceptState Xdr

namespace Metafmt

/-! ### Settings -/

/-- How a named stream is stored. -/
structure StreamFormat where
  streamPrefix : String
  streamSuffix : String
  streamExtraNull : Bool
  deriving DecidableEq, Repr

/-- The settings that decide how a dataset's files are laid out on disk. -/
structure MetaFmt where
  filenameCharset : String
  smbSfmNormalized : Bool
  streams : Option StreamFormat
  deriving DecidableEq, Repr

inductive Error where
  | notARecord
  | newerVersion (version : UInt32)
  | xdr (e : Xdr.Error)
  deriving DecidableEq, Repr

/-- How a call can stop short: the codec's panics are passed on. -/
inductive Fault where
  | error (e : Error)
  | panic
  deriving DecidableEq, Repr

def Fault.ofXdr : Xdr.Fault → Fault
  | .error e => .error (.xdr e)
  | .panic => .panic

/-- "TNMF" in ASCII. -/
def magic : UInt32 := 0x544E4D46

/-- The version that is written, and the newest that is read. -/
def version : UInt32 := 1

def filenameCharsetMax : ℕ := 64

def streamAffixMax : ℕ := 255

/-! ### The types of the wire -/

/-- The declarations `Header`, `Packed`, `BodyV1` and `StreamsV1`. -/
def decls : Decls
  | 0 => .struct [.u32, .u32]
  | 1 => .struct [.u32, .u32, .named 2]
  | 2 => .struct [.bounded .str filenameCharsetMax, .bool, .option (.named 3)]
  | _ => .struct [.bounded .str streamAffixMax, .bounded .str streamAffixMax, .bool]

/-- The start of every version. -/
abbrev header : Ty := .named 0

abbrev packed : Ty := .named 1

abbrev bodyV1 : Ty := .named 2

abbrev streamsV1 : Ty := .named 3

def StreamFormat.toValue (s : StreamFormat) : Value :=
  .seq [.newtype (.string s.streamPrefix), .newtype (.string s.streamSuffix),
    .bool s.streamExtraNull]

def streamsToValue : Option StreamFormat → Value
  | none => .none
  | some s => .some s.toValue

/-- `From<&MetaFmt> for BodyV1`. -/
def MetaFmt.toBody (m : MetaFmt) : Value :=
  .seq [.newtype (.string m.filenameCharset), .bool m.smbSfmNormalized, streamsToValue m.streams]

def streamFormatOfValue : Value → Option StreamFormat
  | .seq [.newtype (.string streamPrefix), .newtype (.string streamSuffix),
      .bool streamExtraNull] => some ⟨streamPrefix, streamSuffix, streamExtraNull⟩
  | _ => none

def streamsOfValue : Value → Option (Option StreamFormat)
  | .none => some none
  | .some v => some <$> streamFormatOfValue v
  | _ => none

/-- `From<BodyV1> for MetaFmt`.  A value of another type has no settings. -/
def ofBody : Value → Option MetaFmt
  | .seq [.newtype (.string filenameCharset), .bool smbSfmNormalized, streams] =>
    MetaFmt.mk filenameCharset smbSfmNormalized <$> streamsOfValue streams
  | _ => none

/-! ### Packing and unpacking -/

/-- The strings of the settings. -/
def MetaFmt.strings (m : MetaFmt) : List String :=
  m.filenameCharset :: m.streams.toList.flatMap fun s => [s.streamPrefix, s.streamSuffix]

/-- The record of these settings, at the current version. -/
def MetaFmt.pack (m : MetaFmt) : Except Error Bytes :=
  if m.strings.any fun s => s.toList.contains '\x00' then .error (.xdr .embeddedNul)
  else (toBytes decls packed (.seq [.u32 magic, .u32 version, m.toBody])).mapError .xdr

/-- The settings in a body, of which the codec has checked the type. -/
def bodySettings (body : Value) : Except Fault MetaFmt :=
  match ofBody body with
  | some m => .ok m
  | none => .error (.error (.xdr (.unsupported "a value of another type")))

/-- What follows the header, by its version. -/
def unpackBody (v : UInt32) (body : Bytes) : Except Fault MetaFmt :=
  if v = 0 then .error (.error .notARecord)
  else if v = version then
    (fromBytesWith decls bodyV1 body .strict).mapError Fault.ofXdr >>= bodySettings
  else .error (.error (.newerVersion v))

/-- The settings that a record holds. -/
def unpack (bytes : Bytes) : Except Fault MetaFmt := do
  let (head, body) ← (fromPrefixWith decls header bytes .strict).mapError Fault.ofXdr
  match head with
  | .seq [.u32 m, .u32 v] =>
    if m ≠ magic then .error (.error .notARecord) else unpackBody v body
  | _ => .error (.error (.xdr (.unsupported "a value of another type")))

/-- How a stored record relates to the settings that a writer wants. -/
inductive Verdict where
  | unstamped
  | same
  | differs (found : MetaFmt)
  | newer (version : UInt32)
  | unreadable (e : Error)
  deriving DecidableEq, Repr

/-- How the value of the xattr relates to these settings. -/
def MetaFmt.compareStored (m : MetaFmt) (stored : Option Bytes) : Except Fault Verdict :=
  match stored with
  | none => .ok .unstamped
  | some bytes =>
    match unpack bytes with
    | .ok found => .ok (if found = m then .same else .differs found)
    | .error (.error (.newerVersion v)) => .ok (.newer v)
    | .error (.error e) => .ok (.unreadable e)
    | .error .panic => .error .panic

/-! ### Values of the wire types -/

theorem streamFormatOfValue_eq_some {v : Value} {s : StreamFormat} :
    streamFormatOfValue v = some s ↔ v = s.toValue := by
  constructor
  · intro h
    unfold streamFormatOfValue at h
    split at h
    · cases h
      rfl
    · cases h
  · rintro rfl
    rfl

theorem streamsOfValue_eq_some {v : Value} {streams : Option StreamFormat} :
    streamsOfValue v = some streams ↔ v = streamsToValue streams := by
  constructor
  · intro h
    unfold streamsOfValue at h
    split at h
    · cases h
      rfl
    · obtain ⟨s, hs, rfl⟩ := Option.map_eq_some_iff.mp h
      rw [streamFormatOfValue_eq_some.mp hs]
      rfl
    · cases h
  · rintro rfl
    cases streams with
    | none => rfl
    | some s => rfl

/-- The value of a body and the settings tell each other. -/
theorem ofBody_eq_some {v : Value} {m : MetaFmt} : ofBody v = some m ↔ v = m.toBody := by
  constructor
  · intro h
    unfold ofBody at h
    split at h
    · obtain ⟨streams, hs, rfl⟩ := Option.map_eq_some_iff.mp h
      rw [streamsOfValue_eq_some.mp hs]
      rfl
    · cases h
  · rintro rfl
    have hs : streamsOfValue (streamsToValue m.streams) = some m.streams :=
      streamsOfValue_eq_some.mpr rfl
    show MetaFmt.mk m.filenameCharset m.smbSfmNormalized <$> streamsOfValue _ = some m
    rw [hs]
    rfl

theorem bodySettings_ok {v : Value} {m : MetaFmt} : bodySettings v = .ok m ↔ v = m.toBody := by
  rw [← ofBody_eq_some, bodySettings]
  cases ofBody v with
  | none => simp
  | some m' => simp

/-! ### The header -/

theorem fromPrefixWith_header {b rest : Bytes} {head : Value} :
    fromPrefixWith decls header b .strict = .ok (head, rest) ↔
      ∃ m v, head = .seq [.u32 m, .u32 v] ∧ b = u32ToBe m ++ (u32ToBe v ++ rest) := by
  have hheader : ∀ P r, read P decls (r + 1) header
      = Value.seq <$> readFields (read P decls r) [.u32, .u32] := fun P r => by rw [read_eq]; rfl
  have hword : ∀ P r, read P decls r .u32 = Value.u32 <$> word := fun P r => by rw [read_eq]; rfl
  rw [fromPrefixWith_eq, decode_ok, Deserializer.defaultMaxDepth, hheader]
  simp only [readFields, hword, run_map_ok, run_bind_ok, run_pure_ok, word_ok]
  constructor
  · rintro ⟨vs, ⟨_, t, ⟨m, rfl, rfl⟩, _, t', ⟨_, _, ⟨v, rfl, rfl⟩, _, _, ⟨rfl, rfl⟩, rfl, rfl⟩, rfl,
      rfl⟩, rfl⟩
    exact ⟨m, v, rfl, rfl⟩
  · rintro ⟨m, v, rfl, rfl⟩
    exact ⟨_, ⟨_, _, ⟨m, rfl, rfl⟩, _, _, ⟨_, _, ⟨v, rfl, rfl⟩, _, _, ⟨rfl, rfl⟩, rfl, rfl⟩, rfl,
      rfl⟩, rfl⟩

/-- A record is the magic word, the version word and a body. -/
theorem unpack_ok {b : Bytes} {m : MetaFmt} :
    unpack b = .ok m ↔ ∃ body, b = u32ToBe magic ++ (u32ToBe version ++ body) ∧
      fromBytesWith decls bodyV1 body .strict = .ok m.toBody := by
  rw [unpack, except_bind_ok]
  constructor
  · rintro ⟨⟨head, body⟩, hhead, h⟩
    obtain ⟨mg, v, rfl, rfl⟩ := fromPrefixWith_header.mp (except_mapError_ok.mp hhead)
    dsimp only at h
    split at h
    · cases h
    rename_i hmagic
    -- another magic word is refused before the version is looked at
    obtain rfl : mg = magic := not_not.mp hmagic
    rw [unpackBody] at h
    split at h
    · cases h
    split at h
    · rename_i hv
      obtain ⟨value, hvalue, hsettings⟩ := except_bind_ok.mp h
      rw [bodySettings_ok] at hsettings
      exact ⟨body, by rw [hv], hsettings ▸ except_mapError_ok.mp hvalue⟩
    · cases h
  · rintro ⟨body, rfl, h⟩
    refine ⟨(.seq [.u32 magic, .u32 version], body), ?_, ?_⟩
    · exact except_mapError_ok.mpr (fromPrefixWith_header.mpr ⟨magic, version, rfl, rfl⟩)
    · have hzero : version ≠ 0 := by decide
      have hmagic : ¬ magic ≠ magic := fun h => h rfl
      dsimp only
      rw [if_neg hmagic, unpackBody, if_neg hzero, if_pos rfl]
      exact except_bind_ok.mpr ⟨m.toBody, except_mapError_ok.mpr h, bodySettings_ok.mpr rfl⟩

/-! ### The body -/

/-- The settings have no NUL in their strings. -/
def MetaFmt.NulFree (m : MetaFmt) : Prop := ∀ s ∈ m.strings, '\x00' ∉ s.toList

/-- The settings keep the bounds of their strings, in bytes. -/
structure MetaFmt.Bounded (m : MetaFmt) : Prop where
  filenameCharset : m.filenameCharset.toUTF8.size ≤ filenameCharsetMax
  streams : ∀ s ∈ m.streams, s.streamPrefix.toUTF8.size ≤ streamAffixMax ∧
    s.streamSuffix.toUTF8.size ≤ streamAffixMax

theorem noNul_string {s : String} : (Value.string s).NoNul ↔ '\x00' ∉ s.toList := by
  rw [Value.NoNul, Utf8.toUTF8_eq]
  exact not_congr (Utf8.mem_encode (d := '\x00') (by decide) s.toList)

theorem noNul_toBody {m : MetaFmt} : m.toBody.NoNul ↔ m.NulFree := by
  obtain ⟨charset, norm, _ | s⟩ := m <;>
    simp [MetaFmt.NulFree, MetaFmt.strings, MetaFmt.toBody, streamsToValue, StreamFormat.toValue,
      Value.NoNul, Value.NoNuls, ← noNul_string]

theorem decls_owned (T : Ty) (hT : T = header ∨ T = bodyV1) : T.Owned decls := by
  have hreach : ∀ t, T.Reaches decls t → t = header ∨ t = bodyV1 ∨ t = streamsV1 ∨
      t = .option streamsV1 ∨ t = .u32 ∨ t = .bool ∨ t = .counted .str ∨
      ∃ max, t = .bounded .str max := by
    intro t ht
    induction ht with
    | refl =>
      rcases hT with rfl | rfl
      · exact .inl rfl
      · exact .inr (.inl rfl)
    | tail _ hstep ih =>
      rcases ih with rfl | rfl | rfl | rfl | rfl | rfl | rfl | ⟨max, rfl⟩ <;>
        simp [Ty.components, CountedTy.components, Decl.components, decls] at hstep <;>
        aesop
  refine ⟨fun e h => ?_, fun e h => ?_, fun e h => ?_⟩
  all_goals simpa using hreach _ h

theorem hasType_toBody (m : MetaFmt) : HasType decls bodyV1 m.toBody := by
  have hstreams : HasType decls (.option streamsV1) (streamsToValue m.streams) := by
    cases m.streams with
    | none => exact .none _
    | some s =>
      exact .some (.struct rfl (.cons (.bounded (.str _)) (.cons (.bounded (.str _))
        (.cons (.bool _) .nil))))
  exact .struct rfl (.cons (.bounded (.str _)) (.cons (.bool _) (.cons hstreams .nil)))

theorem depth_toBody_le (m : MetaFmt) : m.toBody.depth ≤ Deserializer.defaultMaxDepth := by
  obtain ⟨charset, norm, _ | s⟩ := m
  · exact le_of_eq_of_le (rfl : _ = 2) (by decide)
  · exact le_of_eq_of_le (rfl : _ = 4) (by decide)

/-- A body is read exactly when it is the encoding of settings without NULs. -/
theorem fromBytesWith_body {body : Bytes} {m : MetaFmt} :
    fromBytesWith decls bodyV1 body .strict = .ok m.toBody ↔
      m.NulFree ∧ toBytes decls bodyV1 m.toBody = .ok body := by
  constructor
  · intro h
    have hread : (Place.mk ⟨none, bodyV1, m.toBody⟩ Deserializer.defaultMaxDepth body []).Read
        (Policy.ofInput .strict Deserializer.defaultMaxDepth) decls :=
      readB_of_read (fromBytesWith_ok.mp h)
    exact ⟨noNul_toBody.mp (hread.noNul rfl), toBytes_of_fromBytesWith h⟩
  · rintro ⟨hnul, h⟩
    exact (deserialize_toBytes decls bodyV1 m.toBody body .strict (decls_owned _ (.inr rfl))
      (hasType_toBody m) (fun _ => noNul_toBody.mpr hnul) h).2 (depth_toBody_le m)

theorem encodeVar_isOk {max : ℕ} (hmax : max ≤ u32Max) (data : Bytes) :
    (∃ b, encodeVar (some max) data = .ok b) ↔ data.length ≤ max := by
  constructor
  · rintro ⟨b, h⟩
    obtain ⟨w, -, -, hle⟩ := encodeVar_ok.mp h
    exact hle max rfl
  · intro h
    have hlt : data.length < 2 ^ 32 := lt_of_le_of_lt (h.trans hmax) (by decide)
    refine ⟨_, encodeVar_ok.mpr ⟨UInt32.ofNat data.length, rfl, ?_, fun n hn => ?_⟩⟩
    · exact UInt32.toNat_ofNat_of_lt' hlt
    · cases hn
      exact h

/-! ### The record -/

theorem toBytes_packed (m : MetaFmt) :
    toBytes decls packed (.seq [.u32 magic, .u32 version, m.toBody]) =
      (fun body => u32ToBe magic ++ (u32ToBe version ++ body)) <$>
        toBytes decls bodyV1 m.toBody := by
  rw [toBytes_eq, toBytes_eq]
  show encodeFields decls [.u32, .u32, bodyV1] [.u32 magic, .u32 version, m.toBody] = _
  simp only [encodeFields, encode]
  cases encode decls none bodyV1 m.toBody with
  | error e => rfl
  | ok body =>
    show Except.ok (u32ToBe magic ++ (u32ToBe version ++ (body ++ []))) = _
    rw [List.append_nil]
    rfl

theorem any_contains_nul {m : MetaFmt} :
    (m.strings.any fun s => s.toList.contains '\x00') = true ↔ ¬ m.NulFree := by
  simp [MetaFmt.NulFree]

theorem pack_ok {m : MetaFmt} {b : Bytes} :
    m.pack = .ok b ↔ m.NulFree ∧ ∃ body, b = u32ToBe magic ++ (u32ToBe version ++ body) ∧
      toBytes decls bodyV1 m.toBody = .ok body := by
  rw [MetaFmt.pack]
  split
  · rename_i hnul
    have hnul := any_contains_nul.mp hnul
    simp [hnul]
  · rename_i hnul
    have hnul : m.NulFree := not_not.mp fun h => hnul (any_contains_nul.mpr h)
    rw [except_mapError_ok, toBytes_packed, except_map_ok]
    constructor
    · rintro ⟨body, hbody, rfl⟩
      exact ⟨hnul, body, rfl, hbody⟩
    · rintro ⟨-, body, rfl, hbody⟩
      exact ⟨body, hbody, rfl⟩

/-- A string is encoded exactly when it is within its bound. -/
theorem encode_str_isOk {max : ℕ} (hmax : max ≤ u32Max) (s : String) :
    (∃ b, encode decls none (.bounded .str max) (.newtype (.string s)) = .ok b) ↔
      s.toUTF8.size ≤ max := by
  simp only [encode]
  exact encodeVar_isOk hmax _

theorem encodeFields_isOk {t : Ty} {ts : List Ty} {v : Value} {vs : List Value} :
    (∃ b, encodeFields decls (t :: ts) (v :: vs) = .ok b) ↔
      (∃ b, encode decls none t v = .ok b) ∧ ∃ b, encodeFields decls ts vs = .ok b := by
  simp only [encodeFields_cons]
  constructor
  · rintro ⟨b, a, c, ha, hc, -⟩
    exact ⟨⟨a, ha⟩, c, hc⟩
  · rintro ⟨⟨a, ha⟩, c, hc⟩
    exact ⟨a ++ c, a, c, ha, hc, rfl⟩

theorem encodeFields_nil_isOk : ∃ b, encodeFields decls [] [] = .ok b := ⟨[], by rw [encodeFields]⟩

theorem encode_bool_isOk (x : Bool) : ∃ b, encode decls none .bool (.bool x) = .ok b :=
  ⟨_, by rw [encode]⟩

theorem encode_streams_isOk {s : StreamFormat} :
    (∃ b, encode decls none streamsV1 s.toValue = .ok b) ↔
      s.streamPrefix.toUTF8.size ≤ streamAffixMax ∧
        s.streamSuffix.toUTF8.size ≤ streamAffixMax := by
  have hmax : streamAffixMax ≤ u32Max := by decide
  show (∃ b, encodeFields decls [.bounded .str streamAffixMax, .bounded .str streamAffixMax, .bool]
    [_, _, _] = .ok b) ↔ _
  rw [encodeFields_isOk, encodeFields_isOk, encodeFields_isOk, encode_str_isOk hmax,
    encode_str_isOk hmax]
  simp only [encode_bool_isOk, encodeFields_nil_isOk, and_true]

/-- A body is encoded exactly when its strings are within their bounds. -/
theorem toBytes_body_isOk {m : MetaFmt} :
    (∃ b, toBytes decls bodyV1 m.toBody = .ok b) ↔ m.Bounded := by
  have hmax : filenameCharsetMax ≤ u32Max := by decide
  have hstreams : (∃ b, encode decls none (.option streamsV1) (streamsToValue m.streams) = .ok b) ↔
      ∀ s ∈ m.streams, s.streamPrefix.toUTF8.size ≤ streamAffixMax ∧
        s.streamSuffix.toUTF8.size ≤ streamAffixMax := by
    cases m.streams with
    | none => exact iff_of_true ⟨_, by rw [streamsToValue, encode]⟩ (fun s hs => nomatch hs)
    | some s =>
      simp only [streamsToValue, encode, except_map_ok, Option.mem_some_iff, forall_eq']
      rw [← encode_streams_isOk]
      exact ⟨fun ⟨_, a, h, _⟩ => ⟨a, h⟩, fun ⟨a, h⟩ => ⟨_, a, h, rfl⟩⟩
  rw [toBytes_eq]
  show (∃ b, encodeFields decls [.bounded .str filenameCharsetMax, .bool, .option streamsV1]
    [_, _, _] = .ok b) ↔ _
  rw [encodeFields_isOk, encodeFields_isOk, encodeFields_isOk, encode_str_isOk hmax, hstreams]
  simp only [encode_bool_isOk, encodeFields_nil_isOk, and_true, true_and]
  exact ⟨fun h => ⟨h.1, h.2⟩, fun h => ⟨h.1, h.2⟩⟩

/-- A byte string is read as the settings it is packed from, and as no others. -/
theorem unpack_iff_pack {m : MetaFmt} {b : Bytes} : unpack b = .ok m ↔ m.pack = .ok b := by
  rw [unpack_ok, pack_ok]
  constructor
  · rintro ⟨body, rfl, h⟩
    obtain ⟨hnul, hbody⟩ := fromBytesWith_body.mp h
    exact ⟨hnul, body, rfl, hbody⟩
  · rintro ⟨hnul, body, rfl, hbody⟩
    exact ⟨body, rfl, fromBytesWith_body.mpr ⟨hnul, hbody⟩⟩

/-- **The record is a bijection.**  Settings are packed exactly when no string of theirs
holds a NUL and each is within its bound; and a byte string is read as the settings it is
packed from, and as no others. -/
theorem record_bijection :
    (∀ m : MetaFmt, (∃ b, m.pack = .ok b) ↔ m.NulFree ∧ m.Bounded) ∧
    ∀ (m : MetaFmt) (b : Bytes), unpack b = .ok m ↔ m.pack = .ok b := by
  refine ⟨fun m => ?_, fun m b => unpack_iff_pack⟩
  rw [← toBytes_body_isOk]
  constructor
  · rintro ⟨b, hb⟩
    obtain ⟨hnul, body, -, hbody⟩ := pack_ok.mp hb
    exact ⟨hnul, body, hbody⟩
  · rintro ⟨hnul, body, hbody⟩
    exact ⟨_, pack_ok.mpr ⟨hnul, body, rfl, hbody⟩⟩

/-- Settings without streams, as bytes. -/
example : (MetaFmt.mk "UTF-8" false none).pack = .ok
    [0x54, 0x4e, 0x4d, 0x46, 0, 0, 0, 1, 0, 0, 0, 5, 0x55, 0x54, 0x46, 0x2d, 0x38, 0, 0, 0,
      0, 0, 0, 0, 0, 0, 0, 0] := by
  rw [pack_ok]
  exact ⟨by simp [MetaFmt.NulFree, MetaFmt.strings], _, rfl, rfl⟩

/-! ### What is stored -/

theorem fromPrefixWith_ne_panic (T : Ty) (b : Bytes) :
    fromPrefixWith decls T b .strict ≠ .error .panic := by
  rw [fromPrefixWith_eq, decode_eq]
  cases (read (Policy.ofInput .strict Deserializer.defaultMaxDepth) decls
    Deserializer.defaultMaxDepth T).run b with
  | error e => exact nofun
  | ok x => exact nofun

theorem fromBytesWith_ne_panic (T : Ty) (b : Bytes) :
    fromBytesWith decls T b .strict ≠ .error .panic := by
  have hfirst := fromPrefixWith_ne_panic T b
  rw [fromBytesWith]
  cases h : fromPrefixWith decls T b .strict with
  | error e =>
    rintro ⟨⟩
    exact hfirst h
  | ok x =>
    obtain ⟨value, rest⟩ := x
    cases rest with
    | nil =>
      intro h
      cases h
    | cons y rest =>
      intro h
      cases h

theorem unpack_of_header (mg v : UInt32) (body : Bytes) :
    unpack (u32ToBe mg ++ (u32ToBe v ++ body)) =
      if mg ≠ magic then .error (.error .notARecord) else unpackBody v body := by
  have hhead : fromPrefixWith decls header (u32ToBe mg ++ (u32ToBe v ++ body)) .strict =
      .ok (.seq [.u32 mg, .u32 v], body) := fromPrefixWith_header.mpr ⟨mg, v, rfl, rfl⟩
  rw [unpack, hhead]
  rfl

/-- A version that is neither 0 nor the current one is above it. -/
theorem version_lt {v : UInt32} (hzero : v ≠ 0) (hone : v ≠ version) : version < v := by
  have hzero : v.toNat ≠ 0 := fun h => hzero (UInt32.toNat_inj.mp h)
  have hone : v.toNat ≠ 1 := fun h => hone (UInt32.toNat_inj.mp h)
  rw [UInt32.lt_iff_toNat_lt]
  show 1 < v.toNat
  omega

/-- Reading a record ends with settings, with an error that is not about its version, or with
a version above the current one right behind the magic word. -/
theorem unpack_cases (b : Bytes) :
    (∃ m, unpack b = .ok m) ∨
      (∃ e, unpack b = .error (.error e) ∧ ∀ v, e ≠ .newerVersion v) ∨
      ∃ v rest, version < v ∧ b = u32ToBe magic ++ (u32ToBe v ++ rest) ∧
        unpack b = .error (.error (.newerVersion v)) := by
  cases hhead : fromPrefixWith decls header b .strict with
  | error e =>
    cases e with
    | error e =>
      refine .inr (.inl ⟨.xdr e, ?_, nofun⟩)
      rw [unpack, hhead]
      rfl
    | panic => exact absurd hhead (fromPrefixWith_ne_panic header b)
  | ok x =>
    obtain ⟨mg, v, -, rfl⟩ := fromPrefixWith_header.mp hhead
    rw [unpack_of_header]
    split
    · exact .inr (.inl ⟨.notARecord, rfl, nofun⟩)
    · next hmagic =>
      obtain rfl : mg = magic := not_not.mp hmagic
      rw [unpackBody]
      split
      · exact .inr (.inl ⟨.notARecord, rfl, nofun⟩)
      · next hzero =>
        split
        · -- the current version: the body decides
          cases hbody : fromBytesWith decls bodyV1 x.2 .strict with
          | error e =>
            cases e with
            | error e => exact .inr (.inl ⟨.xdr e, rfl, nofun⟩)
            | panic => exact absurd hbody (fromBytesWith_ne_panic bodyV1 x.2)
          | ok value =>
            rw [except_mapError_ok.mpr rfl]
            show (∃ m, bodySettings value = .ok m) ∨
              (∃ e, bodySettings value = .error (.error e) ∧ ∀ v, e ≠ .newerVersion v) ∨ _
            rw [bodySettings]
            cases ofBody value with
            | none =>
              exact .inr (.inl ⟨.xdr (.unsupported "a value of another type"), rfl, nofun⟩)
            | some m => exact .inl ⟨m, rfl⟩
        · next hone => exact .inr (.inr ⟨v, x.2, version_lt hzero hone, rfl, rfl⟩)

/-- The stored bytes begin with the magic word and the version word. -/
def HasVersion (v : UInt32) (b : Bytes) : Prop :=
  ∃ rest, b = u32ToBe magic ++ (u32ToBe v ++ rest)

/-- A version above the current one is told from the header alone. -/
theorem unpack_newer_iff {v : UInt32} {b : Bytes} :
    unpack b = .error (.error (.newerVersion v)) ↔ version < v ∧ HasVersion v b := by
  constructor
  · intro h
    rcases unpack_cases b with ⟨m, hm⟩ | ⟨e, he, hne⟩ | ⟨v', rest, hv, hb, hnewer⟩
    · rw [hm] at h
      cases h
    · rw [he] at h
      cases h
      exact absurd rfl (hne v)
    · rw [hnewer] at h
      cases h
      exact ⟨hv, rest, hb⟩
  · rintro ⟨hv, rest, rfl⟩
    have hv : 1 < v.toNat := UInt32.lt_iff_toNat_lt.mp hv
    have hzero : v ≠ 0 := by
      rintro rfl
      exact absurd hv (by decide)
    have hone : v ≠ version := by
      rintro rfl
      exact absurd hv (by decide)
    rw [unpack_of_header, if_neg (not_not.mpr rfl), unpackBody, if_neg hzero, if_neg hone]

theorem compareStored_some (m : MetaFmt) (b : Bytes) :
    m.compareStored (some b) ≠ .ok .unstamped ∧
    (m.compareStored (some b) = .ok .same ↔ unpack b = .ok m) ∧
    (∀ m', m.compareStored (some b) = .ok (.differs m') ↔ m' ≠ m ∧ unpack b = .ok m') ∧
    (∀ v, m.compareStored (some b) = .ok (.newer v) ↔
      unpack b = .error (.error (.newerVersion v))) ∧
    ∀ e, m.compareStored (some b) = .ok (.unreadable e) ↔
      unpack b = .error (.error e) ∧ ∀ v, e ≠ .newerVersion v := by
  rcases unpack_cases b with ⟨found, h⟩ | ⟨e, h, hne⟩ | ⟨v, rest, -, -, h⟩
  · have hcompare : m.compareStored (some b) =
        .ok (if found = m then .same else .differs found) := by
      rw [MetaFmt.compareStored, h]
    rw [hcompare, h]
    by_cases hfound : found = m
    · simpa [hfound] using fun m' (hne : ¬ m' = m) (heq : m = m') => hne heq.symm
    · simp [hfound]
  · have hcompare : m.compareStored (some b) = .ok (.unreadable e) := by
      rw [MetaFmt.compareStored, h]
      cases e with
      | newerVersion v => exact absurd rfl (hne v)
      | notARecord => rfl
      | xdr e => rfl
    rw [hcompare, h]
    simpa using hne
  · have hcompare : m.compareStored (some b) = .ok (.newer v) := by
      rw [MetaFmt.compareStored, h]
    rw [hcompare, h]
    simp

/-- **A stored record is classified exactly.** -/
theorem compareStored_exact (m : MetaFmt) (stored : Option Bytes) :
    (m.compareStored stored = .ok .unstamped ↔ stored = none) ∧
    (m.compareStored stored = .ok .same ↔ ∃ b, stored = some b ∧ m.pack = .ok b) ∧
    (∀ m', m.compareStored stored = .ok (.differs m') ↔
      m' ≠ m ∧ ∃ b, stored = some b ∧ m'.pack = .ok b) ∧
    (∀ v, m.compareStored stored = .ok (.newer v) ↔
      version < v ∧ ∃ b, stored = some b ∧ HasVersion v b) ∧
    ((∃ e, m.compareStored stored = .ok (.unreadable e)) ↔
      ∃ b, stored = some b ∧ (∀ m' : MetaFmt, m'.pack ≠ .ok b) ∧
        ∀ v, version < v → ¬ HasVersion v b) ∧
    ∀ e, m.compareStored stored = .ok (.unreadable e) → ∀ v, e ≠ .newerVersion v := by
  cases stored with
  | none => simp [MetaFmt.compareStored]
  | some b =>
    obtain ⟨hstamped, hsame, hdiffers, hnewer, hunreadable⟩ := compareStored_some m b
    simp only [Option.some.injEq, exists_eq_left']
    refine ⟨iff_of_false hstamped nofun, ?_, ?_, ?_, ?_, fun e he => ((hunreadable e).mp he).2⟩
    · rw [hsame, unpack_iff_pack]
    · intro m'
      rw [hdiffers, unpack_iff_pack]
    · intro v
      rw [hnewer, unpack_newer_iff]
    · simp only [hunreadable]
      constructor
      · rintro ⟨e, he, hne⟩
        refine ⟨fun m' hm' => ?_, fun v hv hversion => ?_⟩
        · rw [unpack_iff_pack.mpr hm'] at he
          cases he
        · rw [unpack_newer_iff.mpr ⟨hv, hversion⟩] at he
          cases he
          exact hne v rfl
      · rintro ⟨hpack, hversion⟩
        -- neither packed nor newer, so the one case that is left
        rcases unpack_cases b with ⟨m', h⟩ | h | ⟨v, rest, hv, hb, -⟩
        · exact absurd (unpack_iff_pack.mp h) (hpack m')
        · exact h
        · exact absurd ⟨rest, hb⟩ (hversion v hv)

end Metafmt
