/-
Strict decoding is canonical.

`encode_read`: under a strict policy, whatever is read encodes back to the very
bytes it was read from.  The freedoms of the wire (pad bytes, booleans, narrow
integers, tags, the discriminant of a default arm) are each pinned down by what
the leaves accept, and a borrowed array or list holds its own bytes.  Again the
induction is on the room, and `WritesBack` is what it assumes of the parts.

For the codec this is `toBytes_of_fromBytesWith`, with the two consequences that
a value has one strict encoding and that every accepted input is an encoding.
-/
import RosUtils.XdrRoundTrip

open BigEndian ExceptState

namespace Xdr

variable {Δ : Decls}

/-- What `p` reads encodes to the bytes it was read from. -/
def WritesBack (Δ : Decls) (p : Ty → Parser Value) : Prop :=
  ∀ ⦃T v b t⦄, (p T).run b = .ok (v, t) → ∃ c, b = c ++ t ∧ encode Δ none T v = .ok c

theorem readFields_length {p : Ty → Parser Value} {ts : List Ty} {vs : List Value} {b t : Bytes}
    (h : (readFields p ts).run b = .ok (vs, t)) : ts.length = vs.length := by
  induction ts generalizing vs b with
  | nil =>
    obtain ⟨rfl, -⟩ := run_pure_ok.mp h
    rfl
  | cons T ts ih =>
    obtain ⟨v, u, -, h⟩ := run_bind_ok.mp h
    obtain ⟨vs', u', hvs, hpure⟩ := run_bind_ok.mp h
    obtain ⟨rfl, rfl⟩ := run_pure_ok.mp hpure
    rw [List.length_cons, List.length_cons, ih hvs]

theorem repeatN_length {p : Parser Value} {n : ℕ} {vs : List Value} {b t : Bytes}
    (h : (repeatN p n).run b = .ok (vs, t)) : vs.length = n := by
  have hfields : (readFields (fun _ => p) (List.replicate n .unit)).run b = .ok (vs, t) := by
    rw [← repeatN_eq]
    exact h
  rw [← readFields_length hfields, List.length_replicate]

theorem readVariant_ok {p : Ty → Parser Value} {e : SerdeEnum} {tag : UInt32} {v : Value}
    {b t : Bytes} (h : (readVariant p e tag).run b = .ok (v, t)) :
    ∃ var vs, e.variants[tag.toNat]? = some var ∧ (readFields p var.fields).run b = .ok (vs, t) ∧
      v = .variant tag.toNat vs := by
  rw [readVariant] at h
  split at h
  · exact absurd h run_throw_ne_ok
  · next var hvar =>
    obtain ⟨vs, hvs, rfl⟩ := run_map_ok.mp h
    exact ⟨var, vs, hvar, hvs, rfl⟩

section Sequences

variable {p : Ty → Parser Value} (hp : WritesBack Δ p)
include hp

theorem WritesBack.fields {ts : List Ty} {vs : List Value} {b t : Bytes}
    (h : (readFields p ts).run b = .ok (vs, t)) :
    ∃ c, b = c ++ t ∧ encodeFields Δ ts vs = .ok c := by
  induction ts generalizing vs b with
  | nil =>
    obtain ⟨rfl, rfl⟩ := run_pure_ok.mp h
    exact ⟨[], rfl, by rw [encodeFields]⟩
  | cons T ts ih =>
    obtain ⟨v, u, hv, h⟩ := run_bind_ok.mp h
    obtain ⟨vs', u', hvs, hpure⟩ := run_bind_ok.mp h
    obtain ⟨rfl, rfl⟩ := run_pure_ok.mp hpure
    obtain ⟨a, rfl, ha⟩ := hp hv
    obtain ⟨c, rfl, hc⟩ := ih hvs
    exact ⟨a ++ c, by simp, encodeFields_cons.mpr ⟨a, c, ha, hc, rfl⟩⟩

theorem WritesBack.elements {T : Ty} {n : ℕ} {vs : List Value} {b t : Bytes}
    (h : (repeatN (p T) n).run b = .ok (vs, t)) :
    ∃ c, b = c ++ t ∧ encodeElements Δ T vs = .ok c := by
  have hlen := repeatN_length h
  rw [repeatN_eq] at h
  obtain ⟨c, hb, hc⟩ := hp.fields h
  exact ⟨c, hb, by rw [encodeElements_eq, hlen, hc]⟩

end Sequences

/-! ### Leaves -/

/-- A strict body comes with the padding the encoder writes. -/
theorem encodeVar_varBody {bound : Option ℕ} {data b t : Bytes}
    (h : (varBody .strict bound).run b = .ok (data, t)) :
    ∃ c, b = c ++ t ∧ encodeVar bound data = .ok c := by
  obtain ⟨w, pad, rfl, hw, hmax, -, hpad⟩ := varBody_ok.mp h
  obtain rfl := hpad rfl
  exact ⟨u32ToBe w ++ padded data, by simp [padded], encodeVar_ok.mpr ⟨w, rfl, hw, hmax⟩⟩

theorem encodeVar_text {bound : Option ℕ} {s : String} {b t : Bytes}
    (h : (text .strict bound).run b = .ok (s, t)) :
    ∃ c, b = c ++ t ∧ encodeVar bound s.toUTF8.data.toList = .ok c :=
  encodeVar_varBody (text_ok.mp h).1

theorem padded_eq {b : Bytes} (h : 4 ∣ b.length) : padded b = b := by
  rw [padded, pad4_eq_zero h]
  simp

theorem encode_disc {dt : DiscTy} {disc : Int32} {d : Value} {b t : Bytes}
    (h : (dt.read disc).run b = .ok (d, t)) : dt.disc d = some disc ∧ b = t := by
  cases dt with
  | i32 =>
    obtain ⟨rfl, rfl⟩ := run_pure_ok.mp h
    exact ⟨rfl, rfl⟩
  | xdrEnum e =>
    obtain ⟨i, rfl, hi, rfl⟩ := XdrEnum.read_ok.mp h
    exact ⟨hi, rfl⟩

theorem int8_word {w : UInt32} (hlo : -128 ≤ w.toInt32.toInt) (hhi : w.toInt32.toInt ≤ 127) :
    (Int8.ofInt w.toInt32.toInt).toInt32.toUInt32 = w := by
  have h : (Int8.ofInt w.toInt32.toInt).toInt32 = w.toInt32 := by
    apply Int32.toInt_inj.mp
    rw [Int8.toInt_toInt32, Int8.toInt_ofInt_of_le hlo (by omega)]
  rw [h, UInt32.toUInt32_toInt32]

theorem int16_word {w : UInt32} (hlo : -32768 ≤ w.toInt32.toInt)
    (hhi : w.toInt32.toInt ≤ 32767) :
    (Int16.ofInt w.toInt32.toInt).toInt32.toUInt32 = w := by
  have h : (Int16.ofInt w.toInt32.toInt).toInt32 = w.toInt32 := by
    apply Int32.toInt_inj.mp
    rw [Int16.toInt_toInt32, Int16.toInt_ofInt_of_le hlo (by omega)]
  rw [h, UInt32.toUInt32_toInt32]

theorem uint8_word {w : UInt32} (h : w.toNat ≤ 255) : (UInt8.ofNat w.toNat).toUInt32 = w := by
  apply UInt32.toNat_inj.mp
  rw [UInt8.toNat_toUInt32, UInt8.toNat_ofNat_of_lt' (Nat.lt_succ_of_le h)]

theorem uint16_word {w : UInt32} (h : w.toNat ≤ 65535) :
    (UInt16.ofNat w.toNat).toUInt32 = w := by
  apply UInt32.toNat_inj.mp
  rw [UInt16.toNat_toUInt32, UInt16.toNat_ofNat_of_lt' (Nat.lt_succ_of_le h)]

/-! ### Shapes -/

section Shapes

variable {P : Policy} {room : ℕ} (ih : ∀ r < room, WritesBack Δ (read P Δ r))
include ih

/-- A counted sequence encodes as its count and its elements. -/
theorem encode_readVec {bound : Option ℕ} {T : Ty} {vs : List Value} {b t : Bytes}
    (h : (readVec P room (fun r _ => read P Δ r) bound T).run b = .ok (vs, t)) :
    ∃ c, b = c ++ t ∧ encode Δ bound (.counted (.vec T)) (.seq vs) = .ok c := by
  obtain ⟨w, u, rfl, hmax, -, h⟩ := readVec_ok.mp h
  obtain ⟨r, hr, rfl, h⟩ := level_ok.mp h
  have hlen := repeatN_length h
  obtain ⟨c, rfl, hc⟩ := (ih r hr).elements h
  rw [← hlen] at hmax
  refine ⟨u32ToBe w ++ c, by simp, ?_⟩
  rw [encode, encodeLen_ok.mpr ⟨w, rfl, hlen.symm, hmax⟩]
  show (u32ToBe w ++ ·) <$> encodeElements Δ T vs = _
  rw [hc]
  rfl

omit ih in
/-- A borrowed array encodes as its count and the bytes it holds, in either mode. -/
theorem encode_readArrayRef {bound : Option ℕ} {T : Ty} {v : Value} {b t : Bytes}
    (h : (readC P Δ room bound (.varArrayRef T)).run b = .ok (v, t)) :
    ∃ c, b = c ++ t ∧ encode Δ bound (.counted (.varArrayRef T)) v = .ok c := by
  obtain ⟨r, vs, c, rfl, hvec, rfl, rfl⟩ := readArrayRef_ok.mp h
  obtain ⟨w, u, hb, hmax, -, hlevel⟩ := readVec_ok.mp hvec
  obtain ⟨r', hr', -, helems⟩ := level_ok.mp hlevel
  obtain ⟨e, rfl, hdvd⟩ := repeatN_advances (read_advances P Δ r' T) _ helems
  have hlen := repeatN_length helems
  rw [← List.append_assoc] at hb
  obtain rfl := List.append_cancel_right hb
  have hdrop : (u32ToBe w ++ e).drop bytesPerXdrUnit = e := List.drop_left' (u32ToBe_length w)
  refine ⟨_, rfl, ?_⟩
  rw [hdrop, encode, hlen, encodeLen_ok.mpr ⟨w, rfl, rfl, hmax⟩, padded_eq hdvd]
  rfl

omit ih in
/-- A borrowed list encodes as the bytes it holds, in either mode. -/
theorem encode_readListRef {T : Ty} {v : Value} {b t : Bytes}
    (h : (read P Δ room (.listRef T)).run b = .ok (v, t)) :
    ∃ c, b = c ++ t ∧ encode Δ none (.listRef T) v = .ok c := by
  obtain ⟨r, vs, c, rfl, hchain, rfl, rfl⟩ := readListRef_ok.mp h
  obtain ⟨c', hc', hdvd⟩ := chain_advances (readOption_advances P Δ r T) _ hchain
  obtain rfl := List.append_cancel_right hc'
  exact ⟨c, rfl, by rw [encode, padded_eq hdvd]⟩

variable (hs : P.mode = .strict)
include hs

theorem encode_readC {bound : Option ℕ} {C : CountedTy Ty} {v : Value} {b t : Bytes}
    (h : (readC P Δ room bound C).run b = .ok (v, t)) :
    ∃ c, b = c ++ t ∧ encode Δ bound (.counted C) v = .ok c := by
  cases C with
  | string | str =>
    obtain ⟨a, ha, rfl⟩ := run_map_ok.mp h
    rw [hs] at ha
    obtain ⟨c, rfl, hc⟩ := encodeVar_text ha
    exact ⟨c, rfl, by rw [encode, hc]⟩
  | varOpaque | varOpaqueRef | varOpaqueCow =>
    obtain ⟨a, ha, rfl⟩ := run_map_ok.mp h
    rw [hs] at ha
    obtain ⟨c, rfl, hc⟩ := encodeVar_varBody ha
    exact ⟨c, rfl, by rw [encode, hc]⟩
  | vec T =>
    obtain ⟨vs, hvs, rfl⟩ := run_map_ok.mp h
    exact encode_readVec ih hvs
  | varArrayRef T => exact encode_readArrayRef h

omit hs in
theorem encode_readNamed {id : ℕ} {v : Value} {b t : Bytes}
    (h : (readNamed P room (fun r _ => read P Δ r) (Δ id)).run b = .ok (v, t)) :
    ∃ c, b = c ++ t ∧ encode Δ none (.named id) v = .ok c := by
  cases hd : Δ id with
  | newtypeStruct T =>
    rw [hd] at h
    obtain ⟨r, hr, rfl, h⟩ := level_ok.mp h
    obtain ⟨a, ha, rfl⟩ := run_map_ok.mp h
    obtain ⟨c, rfl, hc⟩ := ih r hr ha
    exact ⟨c, rfl, by simp only [encode, hd, hc]⟩
  | tupleStruct ts =>
    rw [hd] at h
    obtain ⟨r, hr, rfl, h⟩ := level_ok.mp h
    obtain ⟨vs, hvs, rfl⟩ := run_map_ok.mp h
    obtain ⟨c, rfl, hc⟩ := (ih r hr).fields hvs
    exact ⟨c, rfl, by simp only [encode, hd, hc]⟩
  | struct ts =>
    rw [hd] at h
    obtain ⟨r, hr, rfl, h⟩ := level_ok.mp h
    obtain ⟨vs, hvs, rfl⟩ := run_map_ok.mp h
    obtain ⟨c, rfl, hc⟩ := (ih r hr).fields hvs
    exact ⟨c, rfl, by simp only [encode, hd, hc]⟩
  | enum e =>
    rw [hd, readNamed] at h
    obtain ⟨tag, u, htag, hlevel⟩ := run_bind_ok.mp h
    obtain rfl := word_ok.mp htag
    obtain ⟨r, hr, rfl, hvariant⟩ := level_ok.mp hlevel
    obtain ⟨var, vs, hvar, hvs, rfl⟩ := readVariant_ok hvariant
    obtain ⟨c, rfl, hc⟩ := (ih r hr).fields hvs
    refine ⟨u32ToBe tag ++ c, by simp, ?_⟩
    -- the tag that was read is the number of the variant, which is what is written
    rw [encode_enum hd hvar (readFields_length hvs), hc, UInt32.ofNat_toNat]
    rfl
  | xdrUnion u =>
    rw [hd, readNamed] at h
    obtain ⟨r, hr, rfl, hlevel⟩ := level_ok.mp h
    obtain ⟨tag, x, htag, harm⟩ := run_bind_ok.mp hlevel
    obtain ⟨w, hw, rfl⟩ := run_map_ok.mp htag
    obtain rfl := word_ok.mp hw
    rcases hown : u.armOf w.toInt32 with _ | ⟨i, arm⟩
    · rcases hdef : u.default with _ | ⟨dt, ts⟩
      · simp only [readArm, hown, hdef] at harm
        exact absurd harm run_throw_ne_ok
      · simp only [readArm, hown, hdef] at harm
        obtain ⟨d, y, hdisc, hfields⟩ := run_bind_ok.mp harm
        obtain ⟨vs, z, hvs, hpure⟩ := run_bind_ok.mp hfields
        obtain ⟨rfl, rfl⟩ := run_pure_ok.mp hpure
        obtain ⟨hval, rfl⟩ := encode_disc hdisc
        obtain ⟨c, rfl, hc⟩ := (ih r hr).fields hvs
        -- the default arm is numbered after the others, and its discriminant is not one of theirs
        have hnone : u.arms[u.arms.length]? = none := List.getElem?_eq_none le_rfl
        have hdisc' := defaultDisc_ok.mpr ⟨hval, XdrUnion.armOf_eq_none.mp hown⟩
        refine ⟨u32ToBe w ++ c, by simp, ?_⟩
        simp only [encode, hd, hnone, hdef, hdisc', hc]
        show Except.ok (u32ToBe w.toInt32.toUInt32 ++ c) = _
        rw [UInt32.toUInt32_toInt32]
    · simp only [readArm, hown] at harm
      obtain ⟨hi, hdisc⟩ := XdrUnion.armOf_eq_some.mp hown
      obtain ⟨vs, hvs, rfl⟩ := run_map_ok.mp harm
      obtain ⟨c, rfl, hc⟩ := (ih r hr).fields hvs
      refine ⟨u32ToBe w ++ c, by simp, ?_⟩
      simp only [encode, hd, hi, hc, hdisc, UInt32.toUInt32_toInt32]
      rfl

/-- One level of canonicity, over the type. -/
theorem encode_readShape : WritesBack Δ (readShape P Δ room fun r _ => read P Δ r) := by
  intro T v b t h
  cases T with
  | bool =>
    obtain ⟨a, ha, rfl⟩ := run_map_ok.mp h
    obtain ⟨w, rfl, rfl, hw⟩ := boolean_ok.mp ha
    refine ⟨u32ToBe w, rfl, ?_⟩
    -- a strict policy takes only the words 0 and 1 for a boolean
    rcases hw hs with rfl | rfl <;> rfl
  | i8 =>
    obtain ⟨a, ha, rfl⟩ := run_map_ok.mp h
    obtain ⟨n, hn, rfl⟩ := run_map_ok.mp ha
    obtain ⟨w, rfl, rfl, hlo, hhi⟩ := signed_ok.mp hn
    exact ⟨u32ToBe w, rfl, by rw [encode, int8_word hlo hhi]⟩
  | i16 =>
    obtain ⟨a, ha, rfl⟩ := run_map_ok.mp h
    obtain ⟨n, hn, rfl⟩ := run_map_ok.mp ha
    obtain ⟨w, rfl, rfl, hlo, hhi⟩ := signed_ok.mp hn
    exact ⟨u32ToBe w, rfl, by rw [encode, int16_word hlo hhi]⟩
  | u8 =>
    obtain ⟨a, ha, rfl⟩ := run_map_ok.mp h
    obtain ⟨n, hn, rfl⟩ := run_map_ok.mp ha
    obtain ⟨w, rfl, rfl, hle⟩ := unsigned_ok.mp hn
    exact ⟨u32ToBe w, rfl, by rw [encode, uint8_word hle]⟩
  | u16 =>
    obtain ⟨a, ha, rfl⟩ := run_map_ok.mp h
    obtain ⟨n, hn, rfl⟩ := run_map_ok.mp ha
    obtain ⟨w, rfl, rfl, hle⟩ := unsigned_ok.mp hn
    exact ⟨u32ToBe w, rfl, by rw [encode, uint16_word hle]⟩
  | i32 =>
    obtain ⟨a, ha, rfl⟩ := run_map_ok.mp h
    obtain ⟨w, hw, rfl⟩ := run_map_ok.mp ha
    obtain rfl := word_ok.mp hw
    exact ⟨u32ToBe w, rfl, by rw [encode, UInt32.toUInt32_toInt32]⟩
  | i64 =>
    obtain ⟨a, ha, rfl⟩ := run_map_ok.mp h
    obtain ⟨w, hw, rfl⟩ := run_map_ok.mp ha
    obtain rfl := dword_ok.mp hw
    exact ⟨u64ToBe w, rfl, by rw [encode, UInt64.toUInt64_toInt64]⟩
  | u32 | f32 =>
    obtain ⟨w, hw, rfl⟩ := run_map_ok.mp h
    exact ⟨u32ToBe w, word_ok.mp hw, by rw [encode]⟩
  | u64 | f64 =>
    obtain ⟨w, hw, rfl⟩ := run_map_ok.mp h
    exact ⟨u64ToBe w, dword_ok.mp hw, by rw [encode]⟩
  | char =>
    obtain ⟨c, hc, rfl⟩ := run_map_ok.mp h
    exact ⟨u32ToBe c.val, scalar_ok.mp hc, by rw [encode]⟩
  | counted C => exact encode_readC ih hs h
  | bounded C max =>
    obtain ⟨r, hr, rfl, hbody⟩ := level_ok.mp h
    obtain ⟨a, ha, rfl⟩ := run_map_ok.mp hbody
    obtain ⟨c, rfl, hc⟩ := encode_readC (fun r' h' => ih r' (h'.trans hr)) hs ha
    exact ⟨c, rfl, by rw [encode, hc]⟩
  | fixedOpaque n =>
    obtain ⟨r, hr, rfl, hbody⟩ := level_ok.mp h
    obtain ⟨data, hdata, rfl⟩ := run_map_ok.mp hbody
    obtain ⟨pad, rfl, rfl, -, hpad⟩ := fixedBody_ok.mp hdata
    -- a strict policy takes only zeros for padding
    exact ⟨data ++ pad, rfl, by rw [encode, padded, hpad hs]⟩
  | array T n =>
    obtain ⟨r, hr, rfl, hbody⟩ := level_ok.mp h
    obtain ⟨vs, hvs, rfl⟩ := run_map_ok.mp hbody
    have hlen := readFields_length hvs
    rw [List.length_replicate] at hlen
    obtain ⟨c, rfl, hc⟩ := (ih r hr).fields hvs
    exact ⟨c, rfl, by rw [encode, encodeElements_eq, ← hlen, hc]⟩
  | tuple ts =>
    obtain ⟨r, hr, rfl, hbody⟩ := level_ok.mp h
    obtain ⟨vs, hvs, rfl⟩ := run_map_ok.mp hbody
    obtain ⟨c, rfl, hc⟩ := (ih r hr).fields hvs
    exact ⟨c, rfl, by rw [encode, hc]⟩
  | unit | unitStruct =>
    obtain ⟨rfl, rfl⟩ := run_pure_ok.mp h
    exact ⟨[], rfl, by rw [encode]⟩
  | option T =>
    obtain ⟨present, u, hbool, hbody⟩ := run_bind_ok.mp h
    obtain ⟨w, rfl, rfl, hw⟩ := boolean_ok.mp hbool
    rcases hw hs with rfl | rfl
    · obtain ⟨rfl, rfl⟩ := run_pure_ok.mp hbody
      exact ⟨u32ToBe 0, rfl, by rw [encode]⟩
    · obtain ⟨r, hr, rfl, hsome⟩ := level_ok.mp hbody
      obtain ⟨a, ha, rfl⟩ := run_map_ok.mp hsome
      obtain ⟨c, rfl, hc⟩ := ih r hr ha
      refine ⟨u32ToBe 1 ++ c, by simp, ?_⟩
      rw [encode, hc]
      rfl
  | listRef T =>
    have hread : (read P Δ room (.listRef T)).run b = .ok (v, t) := by
      rw [read_eq]
      exact h
    exact encode_readListRef hread
  | xdrEnum e =>
    obtain ⟨disc, u, hdisc, hread⟩ := run_bind_ok.mp h
    obtain ⟨w, hw, rfl⟩ := run_map_ok.mp hdisc
    obtain rfl := word_ok.mp hw
    obtain ⟨i, rfl, hi, rfl⟩ := XdrEnum.read_ok.mp hread
    exact ⟨u32ToBe w, rfl, by simp only [encode, XdrEnum.encode, hi, UInt32.toUInt32_toInt32]⟩
  | named id => exact encode_readNamed ih h

end Shapes

/-- **What a strict policy reads encodes to the bytes it was read from.** -/
theorem encode_read {P : Policy} (hs : P.mode = .strict) (Δ : Decls) (room : ℕ) :
    WritesBack Δ (read P Δ room) := by
  induction room using Nat.strong_induction_on with
  | _ room ih =>
    intro T v b t h
    rw [read_eq] at h
    exact encode_readShape ih hs h

/-! ### Canonicity of the codec -/

/-- A strictly accepted input is the encoding of what it decodes to. -/
theorem toBytes_of_fromBytesWith {Δ : Decls} {T : Ty} {b : Bytes} {v : Value}
    (h : fromBytesWith Δ T b .strict = .ok v) : toBytes Δ T v = .ok b := by
  obtain ⟨c, rfl, hc⟩ := encode_read rfl Δ _ (fromBytesWith_ok.mp h)
  rw [toBytes_eq, hc, List.append_nil]

/-- **Canonicity of strict decoding.**  What is strictly decoded encodes back to the
input; so a value has one strict encoding, and the strictly accepted inputs are
encodings. -/
theorem strict_canonical (Δ : Decls) (T : Ty) :
    (∀ b v, fromBytesWith Δ T b .strict = .ok v → toBytes Δ T v = .ok b) ∧
    (∀ b b' v, fromBytesWith Δ T b .strict = .ok v → fromBytesWith Δ T b' .strict = .ok v →
      b = b') ∧
    ∀ b, (∃ v, fromBytesWith Δ T b .strict = .ok v) → ∃ v, toBytes Δ T v = .ok b := by
  refine ⟨fun b v h => toBytes_of_fromBytesWith h, fun b b' v h h' => ?_, ?_⟩
  · have hb := toBytes_of_fromBytesWith h
    rw [toBytes_of_fromBytesWith h'] at hb
    exact (Except.ok.inj hb).symm
  · rintro b ⟨v, h⟩
    exact ⟨v, toBytes_of_fromBytesWith h⟩

/-- A borrowed list of one optional word, accepted and written back. -/
theorem strict_canonical_list :
    fromBytesWith nodeDecls (.listRef .u32) [0, 0, 0, 1, 0, 0, 0, 7, 0, 0, 0, 0] .strict
        = .ok (.listRef 1 [0, 0, 0, 1, 0, 0, 0, 7, 0, 0, 0, 0]) ∧
      toBytes nodeDecls (.listRef .u32) (.listRef 1 [0, 0, 0, 1, 0, 0, 0, 7, 0, 0, 0, 0])
        = .ok [0, 0, 0, 1, 0, 0, 0, 7, 0, 0, 0, 0] := by
  have h : fromBytesWith nodeDecls (.listRef .u32) [0, 0, 0, 1, 0, 0, 0, 7, 0, 0, 0, 0] .strict
      = .ok (.listRef 1 [0, 0, 0, 1, 0, 0, 0, 7, 0, 0, 0, 0]) := rfl
  exact ⟨h, (strict_canonical nodeDecls (.listRef .u32)).1 _ _ h⟩

end Xdr
