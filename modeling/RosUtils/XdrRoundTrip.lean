/-
Encoding and decoding back.

`read_encode`: a value that encodes is read back from its encoding, whatever
follows it, under any policy that admits the counts of the vectors in its type
and with as much room as the value is deep.  The induction is on the room, one
case for each shape; `ReadsBack` is what it assumes of the parts.

For the codec's own policy the counts are met when no element of a vector
encodes to nothing (`Ty.Owned`), which gives the round trip of the codec
itself, `deserialize_toBytes`.
-/
import RosUtils.XdrEncode
import RosUtils.XdrRefine

open BigEndian ExceptState

namespace Xdr

variable {Δ : Decls}

/-! ### The parts of an encoding -/

theorem encodeFields_cons {t : Ty} {ts : List Ty} {v : Value} {vs : List Value} {b : Bytes} :
    encodeFields Δ (t :: ts) (v :: vs) = .ok b ↔
      ∃ a c, encode Δ none t v = .ok a ∧ encodeFields Δ ts vs = .ok c ∧ b = a ++ c := by
  simp only [encodeFields, except_bind_ok, except_map_ok]
  constructor
  · rintro ⟨a, ha, c, hc, rfl⟩
    exact ⟨a, c, ha, hc, rfl⟩
  · rintro ⟨a, c, ha, hc, rfl⟩
    exact ⟨a, ha, c, hc, rfl⟩

/-- The elements of an array are its fields, all of one type. -/
theorem encodeElements_eq (t : Ty) (vs : List Value) :
    encodeElements Δ t vs = encodeFields Δ (List.replicate vs.length t) vs := by
  induction vs with
  | nil => simp [encodeElements, encodeFields]
  | cons v vs ih => simp only [encodeElements, List.length_cons, List.replicate_succ,
      encodeFields, ih]

/-- They are read as such, too. -/
theorem repeatN_eq (p : Ty → Parser Value) (T : Ty) (n : ℕ) :
    repeatN (p T) n = readFields p (List.replicate n T) := by
  induction n with
  | zero => rfl
  | succ n ih => rw [List.replicate_succ, repeatN, readFields, ih]

theorem encodeElements_cons {t : Ty} {v : Value} {vs : List Value} {b : Bytes} :
    encodeElements Δ t (v :: vs) = .ok b ↔
      ∃ a c, encode Δ none t v = .ok a ∧ encodeElements Δ t vs = .ok c ∧ b = a ++ c := by
  rw [encodeElements_eq, encodeElements_eq, List.length_cons, List.replicate_succ]
  exact encodeFields_cons

theorem forall₂_replicate {t : Ty} {vs : List Value} (h : ∀ v ∈ vs, HasType Δ t v) :
    List.Forall₂ (HasType Δ) (List.replicate vs.length t) vs := by
  induction vs with
  | nil => exact .nil
  | cons v vs ih =>
    exact .cons (h v List.mem_cons_self) (ih fun w hw => h w (List.mem_cons_of_mem _ hw))

theorem encodeLen_ok {bound : Option ℕ} {len : ℕ} {b : Bytes} :
    encodeLen bound len = .ok b ↔
      ∃ w : UInt32, b = u32ToBe w ∧ w.toNat = len ∧ ∀ max, bound = some max → len ≤ max := by
  have hcount : encodeCount len = .ok b ↔ ∃ w : UInt32, b = u32ToBe w ∧ w.toNat = len := by
    rw [encodeCount]
    split
    · rename_i hlen
      have hw : (UInt32.ofNat len).toNat = len :=
        UInt32.toNat_ofNat_of_lt' (Nat.lt_of_le_of_lt hlen (by decide))
      constructor
      · rintro ⟨⟩
        exact ⟨_, rfl, hw⟩
      · rintro ⟨w, rfl, rfl⟩
        rw [UInt32.ofNat_toNat]
    · rename_i hlen
      constructor
      · intro h
        cases h
      · rintro ⟨w, -, rfl⟩
        exact absurd (Nat.le_of_lt_succ w.toNat_lt) hlen
  cases bound with
  | none =>
    rw [encodeLen, hcount]
    simp
  | some max =>
    rw [encodeLen]
    split
    · rename_i hmax
      constructor
      · intro h
        cases h
      · rintro ⟨w, -, -, h⟩
        have := h max rfl
        omega
    · rename_i hmax
      rw [hcount]
      constructor
      · rintro ⟨w, rfl, rfl⟩
        refine ⟨w, rfl, rfl, fun m hm => ?_⟩
        cases hm
        omega
      · rintro ⟨w, rfl, rfl, -⟩
        exact ⟨w, rfl, rfl⟩

theorem encodeVar_ok {bound : Option ℕ} {data b : Bytes} :
    encodeVar bound data = .ok b ↔
      ∃ w : UInt32, b = u32ToBe w ++ padded data ∧ w.toNat = data.length ∧
        ∀ max, bound = some max → data.length ≤ max := by
  simp only [encodeVar, except_map_ok, encodeLen_ok]
  constructor
  · rintro ⟨n, ⟨w, rfl, hw, hmax⟩, rfl⟩
    exact ⟨w, rfl, hw, hmax⟩
  · rintro ⟨w, rfl, hw, hmax⟩
    exact ⟨_, ⟨w, rfl, hw, hmax⟩, rfl⟩

/-- A variant of a stock enum is its tag and its fields. -/
theorem encode_enum {id : ℕ} {e : SerdeEnum} {i : ℕ} {var : Variant} {vs : List Value}
    (hd : Δ id = .enum e) (hi : e.variants[i]? = some var)
    (hvs : var.fields.length = vs.length) :
    encode Δ none (.named id) (.variant i vs) =
      (u32ToBe (UInt32.ofNat i) ++ ·) <$> encodeFields Δ var.fields vs := by
  simp only [encode, hd, hi]
  cases var with
  | unit =>
    obtain rfl := List.length_eq_zero_iff.mp hvs.symm
    simp [Variant.fields, encodeFields]
  | newtype t =>
    obtain ⟨v, rfl⟩ := List.length_eq_one_iff.mp hvs.symm
    simp only [Variant.fields, encodeFields]
    cases encode Δ none t v with
    | error e => rfl
    | ok a =>
      show Except.ok _ = Except.ok _
      simp
  | tuple ts => rfl
  | struct ts => rfl

/-! ### Reading an encoding -/

/-- A type whose values are read back under a policy: nothing in it is borrowed, and
the policy admits the count of every vector in front of its elements. -/
structure Ty.Readable (P : Policy) (Δ : Decls) (T : Ty) : Prop where
  noArrayRef : ∀ e, ¬ T.Reaches Δ (.counted (.varArrayRef e))
  noListRef : ∀ e, ¬ T.Reaches Δ (.listRef e)
  counts : ∀ e, T.Reaches Δ (.counted (.vec e)) → ∀ vs c n, (∀ v ∈ vs, HasType Δ e v) →
    encodeElements Δ e vs = .ok c → P.fits vs.length (c.length + n) = true

theorem Ty.Readable.component {P : Policy} {T t : Ty} (hT : T.Readable P Δ)
    (ht : t ∈ T.components Δ) : t.Readable P Δ where
  noArrayRef e h := hT.noArrayRef e (h.of_component ht)
  noListRef e h := hT.noListRef e (h.of_component ht)
  counts e h := hT.counts e (h.of_component ht)

/-- `p` reads back every value with room for `r` levels. -/
def ReadsBack (P : Policy) (Δ : Decls) (r : ℕ) (p : Ty → Parser Value) : Prop :=
  ∀ ⦃T v b⦄ (t : Bytes), T.Readable P Δ → HasType Δ T v → (P.mode = .strict → v.NoNul) →
    encode Δ none T v = .ok b → v.depth ≤ r → (p T).run (b ++ t) = .ok (v, t)

section ReadsBack

variable {P : Policy} {r : ℕ} {p : Ty → Parser Value}

theorem ReadsBack.fields (hp : ReadsBack P Δ r p) {ts : List Ty} {vs : List Value} {b : Bytes}
    (t : Bytes) (hT : ∀ T ∈ ts, T.Readable P Δ) (hv : List.Forall₂ (HasType Δ) ts vs)
    (hnul : P.mode = .strict → Value.NoNuls vs) (he : encodeFields Δ ts vs = .ok b)
    (hd : Value.depths vs ≤ r) : (readFields p ts).run (b ++ t) = .ok (vs, t) := by
  induction hv generalizing b with
  | nil =>
    cases he
    rfl
  | @cons T v ts vs hv hvs ih =>
    obtain ⟨a, c, ha, hc, rfl⟩ := encodeFields_cons.mp he
    rw [Value.depths] at hd
    have hhead := hp (c ++ t) (hT T List.mem_cons_self) hv (fun hs => (hnul hs).1) ha
      (le_trans (le_max_left _ _) hd)
    have htail := ih (fun T hT' => hT T (List.mem_cons_of_mem _ hT')) (fun hs => (hnul hs).2) hc
      (le_trans (le_max_right _ _) hd)
    rw [readFields, List.append_assoc, run_bind_of_ok hhead, run_bind_of_ok htail]
    rfl

theorem ReadsBack.elements (hp : ReadsBack P Δ r p) {T : Ty} {vs : List Value} {b : Bytes}
    (t : Bytes) (hT : T.Readable P Δ) (hv : ∀ v ∈ vs, HasType Δ T v)
    (hnul : P.mode = .strict → Value.NoNuls vs) (he : encodeElements Δ T vs = .ok b)
    (hd : Value.depths vs ≤ r) :
    (repeatN (p T) vs.length).run (b ++ t) = .ok (vs, t) := by
  rw [encodeElements_eq] at he
  rw [repeatN_eq]
  refine hp.fields t (fun T' hmem => ?_) (forall₂_replicate hv) hnul he hd
  rw [List.eq_of_mem_replicate hmem]
  exact hT

theorem varBody_encodeVar (mode : Strictness) {bound : Option ℕ} {data b : Bytes} (t : Bytes)
    (he : encodeVar bound data = .ok b) : (varBody mode bound).run (b ++ t) = .ok (data, t) := by
  obtain ⟨w, rfl, hw, hmax⟩ := encodeVar_ok.mp he
  refine varBody_ok.mpr ⟨w, List.replicate (pad4 data.length) 0, ?_, hw, hmax, by simp,
    fun _ => rfl⟩
  simp [padded]

theorem text_encodeVar {mode : Strictness} {bound : Option ℕ} {s : String} {b : Bytes}
    (t : Bytes) (hnul : mode = .strict → (Value.string s).NoNul)
    (he : encodeVar bound s.toUTF8.data.toList = .ok b) :
    (text mode bound).run (b ++ t) = .ok (s, t) :=
  text_ok.mpr ⟨varBody_encodeVar mode t he, hnul⟩

end ReadsBack

section Shapes

variable {P : Policy} {room : ℕ} {child : Child room}
  (hc : ∀ r h, ReadsBack P Δ r (child r h))
include hc

/-- A value of a counted type, with the bound its length was held to. -/
theorem readCounted_encode {bound : Option ℕ} {C : CountedTy Ty} {v : Value} {b : Bytes}
    (t : Bytes) (hT : (Ty.counted C).Readable P Δ) (hv : HasType Δ (.counted C) v)
    (hnul : P.mode = .strict → v.NoNul) (he : encode Δ bound (.counted C) v = .ok b)
    (hd : v.depth ≤ room) :
    (readCounted P room child bound C).run (b ++ t) = .ok (v, t) := by
  cases hv with
  | string s => exact run_map_of_ok (text_encodeVar t hnul he)
  | str s => exact run_map_of_ok (text_encodeVar t hnul he)
  | varOpaque data => exact run_map_of_ok (varBody_encodeVar _ t he)
  | varOpaqueRef data => exact run_map_of_ok (varBody_encodeVar _ t he)
  | varOpaqueCow data => exact run_map_of_ok (varBody_encodeVar _ t he)
  | @vec e vs hvs =>
    simp only [encode, except_bind_ok, except_map_ok, encodeLen_ok] at he
    obtain ⟨n, ⟨w, rfl, hw, hmax⟩, c, hel, rfl⟩ := he
    obtain ⟨r, rfl⟩ : ∃ r, room = r + 1 := ⟨room - 1, by rw [Value.depth] at hd; omega⟩
    have helems := (hc r (Nat.lt_succ_self r)).elements t (hT.component (by simp [Ty.components,
      CountedTy.components])) hvs hnul hel (by rw [Value.depth] at hd; omega)
    refine run_map_of_ok (readVec_ok.mpr ⟨w, c ++ t, by simp, hw ▸ hmax, ?_, hw ▸ helems⟩)
    rw [hw, List.length_append]
    exact hT.counts e (Ty.Reaches.refl Δ _) vs c t.length hvs hel
  | arrayRef e len enc => exact absurd (Ty.Reaches.refl Δ _) (hT.noArrayRef e)

end Shapes

theorem signed_encode (t : Bytes) {lo hi : ℤ} {v : Int32} (hlo : lo ≤ v.toInt)
    (hhi : v.toInt ≤ hi) : (signed lo hi).run (u32ToBe v.toUInt32 ++ t) = .ok (v.toInt, t) :=
  signed_ok.mpr ⟨v.toUInt32, rfl, by simp, hlo, hhi⟩

theorem XdrEnum.read_encode {e : XdrEnum} {i : ℕ} {b : Bytes} (t : Bytes)
    (he : e.encode i = .ok b) :
    (do let disc ← UInt32.toInt32 <$> word
        e.read disc : Parser Value).run (b ++ t) = .ok (.enumerator i, t) := by
  rw [XdrEnum.encode] at he
  split at he
  · rename_i disc hdisc
    cases he
    refine run_bind_ok.mpr ⟨disc, t, ?_, XdrEnum.read_ok.mpr ⟨i, rfl, hdisc, rfl⟩⟩
    exact run_map_ok.mpr ⟨_, word_ok.mpr rfl, by simp⟩
  · cases he

/-- The first field of a default arm comes back from the discriminant it stands for. -/
theorem DiscTy.read_disc {dt : DiscTy} {d : Value} {disc : Int32} (h : dt.disc d = some disc)
    (t : Bytes) : (dt.read disc).run t = .ok (d, t) := by
  cases dt with
  | i32 =>
    cases d
    case i32 v =>
      cases h
      rfl
    all_goals cases h
  | xdrEnum e =>
    cases d
    case enumerator i => exact XdrEnum.read_ok.mpr ⟨i, rfl, h, rfl⟩
    all_goals cases h

section Named

variable {P : Policy} {room : ℕ} {child : Child room}
  (hc : ∀ r h, ReadsBack P Δ r (child r h))
include hc

theorem readNamed_encode {id : ℕ} {v : Value} {b : Bytes} (t : Bytes)
    (hT : (Ty.named id).Readable P Δ) (hv : HasType Δ (.named id) v)
    (hnul : P.mode = .strict → v.NoNul) (he : encode Δ none (.named id) v = .ok b)
    (hd : v.depth ≤ room) :
    (readNamed P room child (Δ id)).run (b ++ t) = .ok (v, t) := by
  -- every declared type is one level, so there is room for its parts
  obtain ⟨r, rfl⟩ : ∃ r, room = r + 1 := by
    refine ⟨room - 1, ?_⟩
    cases hv <;> rw [Value.depth] at hd <;> omega
  have hchild := hc r (Nat.lt_succ_self r)
  have hpart : ∀ T ∈ (Δ id).components, T.Readable P Δ := fun T h => hT.component h
  cases hv with
  | @newtypeStruct _ T v hdecl hv =>
    rw [hdecl] at hpart ⊢
    simp only [encode, hdecl] at he
    rw [Value.depth] at hd
    exact run_map_of_ok (hchild t (hpart T (by simp [Decl.components])) hv hnul he (by omega))
  | @tupleStruct _ ts vs hdecl hv =>
    rw [hdecl] at hpart ⊢
    simp only [encode, hdecl] at he
    rw [Value.depth] at hd
    exact run_map_of_ok (hchild.fields t hpart hv hnul he (by omega))
  | @struct _ ts vs hdecl hv =>
    rw [hdecl] at hpart ⊢
    simp only [encode, hdecl] at he
    rw [Value.depth] at hd
    exact run_map_of_ok (hchild.fields t hpart hv hnul he (by omega))
  | @enum _ e i var vs hdecl hi hv =>
    rw [encode_enum hdecl hi hv.length_eq, except_map_ok] at he
    obtain ⟨c, hfields, rfl⟩ := he
    rw [hdecl] at hpart ⊢
    rw [Value.depth] at hd
    have hmem : ∀ T ∈ var.fields, T ∈ (Decl.enum e).components := fun T h =>
      List.mem_flatMap.mpr ⟨var, List.mem_of_getElem? hi, h⟩
    have hread := hchild.fields t (fun T h => hpart T (hmem T h)) hv hnul hfields (by omega)
    have hlt : i < 2 ^ 32 := lt_trans (List.getElem?_eq_some_iff.mp hi).1 e.small
    have htag : (UInt32.ofNat i).toNat = i := UInt32.toNat_ofNat_of_lt' hlt
    rw [List.append_assoc, readNamed, run_bind_of_ok (word_ok.mpr rfl), level_succ, readVariant,
      htag, hi]
    exact run_map_of_ok hread
  | @unionArm _ u i arm vs hdecl hi hv =>
    simp only [encode, hdecl, hi, except_map_ok] at he
    obtain ⟨c, hfields, rfl⟩ := he
    rw [hdecl] at hpart ⊢
    rw [Value.depth] at hd
    have hmem : ∀ T ∈ arm.fields, T ∈ (Decl.xdrUnion u).components := fun T h =>
      List.mem_append_left _ (List.mem_flatMap.mpr ⟨arm, List.mem_of_getElem? hi, h⟩)
    have hread := hchild.fields t (fun T h => hpart T (hmem T h)) hv hnul hfields (by omega)
    have htag : (UInt32.toInt32 <$> word).run (u32ToBe arm.disc.toUInt32 ++ (c ++ t))
        = .ok (arm.disc, c ++ t) := run_map_ok.mpr ⟨_, word_ok.mpr rfl, by simp⟩
    rw [List.append_assoc, readNamed, level_succ, run_bind_of_ok htag, readArm,
      XdrUnion.armOf_eq_some.mpr ⟨hi, rfl⟩]
    exact run_map_of_ok hread
  | @unionDefault _ u dt ts d vs hdecl hdef hd1 hv =>
    have hnone : u.arms[u.arms.length]? = none := List.getElem?_eq_none le_rfl
    simp only [encode, hdecl, hnone, hdef, except_bind_ok, except_map_ok] at he
    obtain ⟨disc, hdisc, c, hfields, rfl⟩ := he
    obtain ⟨hval, hown⟩ := defaultDisc_ok.mp hdisc
    rw [hdecl] at hpart ⊢
    rw [Value.depth, Value.depths] at hd
    have hmem : ∀ T ∈ ts, T ∈ (Decl.xdrUnion u).components := fun T h => by
      rw [Decl.components, hdef]
      exact List.mem_append_right _ (List.mem_cons_of_mem _ h)
    have hread := hchild.fields t (fun T h => hpart T (hmem T h)) hv
      (fun hs => (hnul hs).2) hfields (by omega)
    have htag : (UInt32.toInt32 <$> word).run (u32ToBe disc.toUInt32 ++ (c ++ t))
        = .ok (disc, c ++ t) := run_map_ok.mpr ⟨_, word_ok.mpr rfl, by simp⟩
    rw [List.append_assoc, readNamed, level_succ, run_bind_of_ok htag, readArm,
      XdrUnion.armOf_eq_none.mpr hown, hdef]
    dsimp only
    rw [run_bind_of_ok (DiscTy.read_disc hval (c ++ t)), run_bind_of_ok hread]
    rfl

end Named

/-- One level of the round trip, over the type. -/
theorem readShape_encode {P : Policy} {room : ℕ} {child : Child room}
    (hc : ∀ r h, ReadsBack P Δ r (child r h)) :
    ReadsBack P Δ room (readShape P Δ room child) := by
  intro T v b t hT hv hnul he hd
  by_cases hcounted : ∃ C, T = .counted C
  · obtain ⟨C, rfl⟩ := hcounted
    exact readCounted_encode hc t hT hv hnul he hd
  by_cases hnamed : ∃ id, T = .named id
  · obtain ⟨id, rfl⟩ := hnamed
    exact readNamed_encode hc t hT hv hnul he hd
  -- a compound value has room for one level, and its parts are read there
  have hroom : 1 ≤ v.depth → ∃ r, room = r + 1 := fun h => ⟨room - 1, by omega⟩
  cases hv with
  | bool a =>
    cases he
    exact run_map_of_ok (boolean_ok.mpr ⟨_, rfl, by cases a <;> rfl, fun _ => by cases a <;> decide⟩)
  | i8 a =>
    cases he
    have h := signed_encode t (v := a.toInt32) (by simpa using a.le_toInt)
      (by simpa using a.toInt_le)
    exact run_map_ok.mpr ⟨a, run_map_ok.mpr ⟨_, h, by simp⟩, rfl⟩
  | i16 a =>
    cases he
    have h := signed_encode t (v := a.toInt32) (by simpa using a.le_toInt)
      (by simpa using a.toInt_le)
    exact run_map_ok.mpr ⟨a, run_map_ok.mpr ⟨_, h, by simp⟩, rfl⟩
  | i32 a =>
    cases he
    exact run_map_ok.mpr ⟨a, run_map_ok.mpr ⟨_, word_ok.mpr rfl, by simp⟩, rfl⟩
  | i64 a =>
    cases he
    exact run_map_ok.mpr ⟨a, run_map_ok.mpr ⟨_, dword_ok.mpr rfl, by simp⟩, rfl⟩
  | u8 a =>
    cases he
    have hle : a.toNat ≤ 255 := Nat.le_of_lt_succ a.toNat_lt
    exact run_map_ok.mpr ⟨a, run_map_ok.mpr
      ⟨a.toNat, unsigned_ok.mpr ⟨a.toUInt32, rfl, by simp, hle⟩, by simp⟩, rfl⟩
  | u16 a =>
    cases he
    have hle : a.toNat ≤ 65535 := Nat.le_of_lt_succ a.toNat_lt
    exact run_map_ok.mpr ⟨a, run_map_ok.mpr
      ⟨a.toNat, unsigned_ok.mpr ⟨a.toUInt32, rfl, by simp, hle⟩, by simp⟩, rfl⟩
  | u32 a | f32 a =>
    cases he
    exact run_map_of_ok (word_ok.mpr rfl)
  | u64 a | f64 a =>
    cases he
    exact run_map_of_ok (dword_ok.mpr rfl)
  | char a =>
    cases he
    exact run_map_of_ok (scalar_ok.mpr rfl)
  | string | str | varOpaque | varOpaqueRef | varOpaqueCow | vec | arrayRef =>
    exact absurd ⟨_, rfl⟩ hcounted
  | @bounded C max v hv =>
    obtain ⟨r, rfl⟩ := hroom (by simp [Value.depth])
    rw [Value.depth] at hd
    exact run_map_of_ok (readCounted_encode (fun r' h => hc r' _) t
      (hT.component (by simp [Ty.components])) hv hnul he (by omega))
  | @fixedOpaque n data hlen =>
    cases he
    obtain ⟨r, rfl⟩ := hroom (by simp [Value.depth])
    refine run_map_of_ok (fixedBody_ok.mpr ⟨List.replicate (pad4 n) 0, ?_, hlen, by simp,
      fun _ => rfl⟩)
    rw [padded, hlen]
  | @array T n vs hlen hvs =>
    obtain ⟨r, rfl⟩ := hroom (by simp [Value.depth])
    rw [Value.depth] at hd
    rw [encode, encodeElements_eq, hlen] at he
    refine run_map_of_ok ((hc r _).fields t ?_ ?_ hnul he (by omega))
    · intro T' hT'
      rw [List.eq_of_mem_replicate hT']
      exact hT.component (by simp [Ty.components])
    · rw [← hlen]
      exact forall₂_replicate hvs
  | @tuple ts vs hvs =>
    obtain ⟨r, rfl⟩ := hroom (by simp [Value.depth])
    rw [Value.depth] at hd
    exact run_map_of_ok ((hc r _).fields t (fun T h => hT.component h) hvs hnul
      (by simpa [encode] using he) (by omega))
  | unit | unitStruct =>
    cases he
    rfl
  | none T =>
    cases he
    have hfalse : (boolean P.mode).run (u32ToBe 0 ++ t) = .ok (false, t) :=
      boolean_ok.mpr ⟨0, rfl, rfl, fun _ => .inl rfl⟩
    exact run_bind_ok.mpr ⟨false, t, hfalse, rfl⟩
  | @some T v hv =>
    obtain ⟨r, rfl⟩ := hroom (by simp [Value.depth])
    rw [Value.depth] at hd
    simp only [encode, except_map_ok] at he
    obtain ⟨c, hc', rfl⟩ := he
    have htrue : (boolean P.mode).run (u32ToBe 1 ++ (c ++ t)) = .ok (true, c ++ t) :=
      boolean_ok.mpr ⟨1, rfl, rfl, fun _ => .inr rfl⟩
    have hval := hc r (Nat.lt_succ_self r) t (hT.component (by simp [Ty.components])) hv hnul hc'
      (by omega)
    rw [List.append_assoc]
    exact run_bind_ok.mpr ⟨true, c ++ t, htrue, run_map_of_ok hval⟩
  | listRef T len enc => exact absurd (Ty.Reaches.refl Δ _) (hT.noListRef T)
  | xdrEnum hi => exact XdrEnum.read_encode t he
  | newtypeStruct | tupleStruct | struct | enum | unionArm | unionDefault =>
    exact absurd ⟨_, rfl⟩ hnamed

/-- **A value is read back from its encoding.** -/
theorem read_encode (P : Policy) (Δ : Decls) (room : ℕ) : ReadsBack P Δ room (read P Δ room) := by
  induction room using Nat.strong_induction_on with
  | _ room ih =>
    intro T v b t hT hv hnul he hd
    rw [read_eq]
    exact readShape_encode (fun r h => ih r h) t hT hv hnul he hd

/-! ### The round trip of the codec -/

/-- A type with nothing borrowed in it, in which no element of a vector encodes to
nothing. -/
structure Ty.Owned (Δ : Decls) (T : Ty) : Prop where
  noArrayRef : ∀ e, ¬ T.Reaches Δ (.counted (.varArrayRef e))
  noListRef : ∀ e, ¬ T.Reaches Δ (.listRef e)
  elements : ∀ e, T.Reaches Δ (.counted (.vec e)) → ∀ v, HasType Δ e v →
    toBytes Δ e v ≠ .ok []

/-- The wire format admits any count. -/
theorem Ty.Owned.readable_anyCount {T : Ty} (hT : T.Owned Δ) (mode : Strictness) (limit : ℕ) :
    T.Readable (Policy.anyCount mode limit) Δ :=
  ⟨hT.noArrayRef, hT.noListRef, fun _ _ _ _ _ _ _ => rfl⟩

theorem Ty.Owned.reaches {T t : Ty} (hT : T.Owned Δ) (ht : T.Reaches Δ t) : t.Owned Δ where
  noArrayRef e h := hT.noArrayRef e (Relation.ReflTransGen.trans ht h)
  noListRef e h := hT.noListRef e (Relation.ReflTransGen.trans ht h)
  elements e h := hT.elements e (Relation.ReflTransGen.trans ht h)

/-- An encoding is whole units, because it is read back in whole units. -/
theorem four_dvd_encode {T : Ty} {v : Value} {b : Bytes} (hT : T.Owned Δ) (hv : HasType Δ T v)
    (he : encode Δ none T v = .ok b) : 4 ∣ b.length := by
  have hread := read_encode (Policy.anyCount .lenient v.depth) Δ v.depth []
    (hT.readable_anyCount _ _) hv nofun he le_rfl
  obtain ⟨c, hc, hdvd⟩ := read_advances _ Δ v.depth T hread
  rwa [List.append_cancel_right hc]

/-- Elements that take bytes take a unit each. -/
theorem four_mul_length_le {T : Ty} {vs : List Value} {c : Bytes} (hT : T.Owned Δ)
    (hne : ∀ v, HasType Δ T v → toBytes Δ T v ≠ .ok []) (hv : ∀ v ∈ vs, HasType Δ T v)
    (he : encodeElements Δ T vs = .ok c) : 4 * vs.length ≤ c.length := by
  induction vs generalizing c with
  | nil => exact Nat.zero_le _
  | cons v vs ih =>
    obtain ⟨a, c, ha, hc, rfl⟩ := encodeElements_cons.mp he
    have hvt := hv v List.mem_cons_self
    obtain ⟨k, hk⟩ := four_dvd_encode hT hvt ha
    have hpos : a ≠ [] := by
      rintro rfl
      exact hne v hvt (by rw [toBytes_eq, ha])
    have hlen : 0 < a.length := List.length_pos_iff.mpr hpos
    have htail := ih (fun w hw => hv w (List.mem_cons_of_mem _ hw)) hc
    rw [List.length_cons, List.length_append]
    omega

theorem Ty.Owned.readable {T : Ty} (hT : T.Owned Δ) (mode : Strictness) (limit : ℕ) :
    T.Readable (Policy.ofInput mode limit) Δ where
  noArrayRef := hT.noArrayRef
  noListRef := hT.noListRef
  counts e h vs c n hvs he := by
    have hel : e ∈ (Ty.counted (.vec e)).components Δ := by
      simp [Ty.components, CountedTy.components]
    have hown : e.Owned Δ := hT.reaches (h.tail hel)
    have hlen := four_mul_length_le hown (hT.elements e h) hvs he
    have hfits : vs.length ≤ (c.length + n) / 4 := by omega
    exact decide_eq_true hfits

/-- **The round trip.**  A value that encodes is decoded back from its encoding in
either mode, whatever follows, by every deserializer whose depth limit the value
keeps; and `fromBytesWith` gives it back when it keeps the default limit. -/
theorem deserialize_toBytes (Δ : Decls) (T : Ty) (v : Value) (b : Bytes) (mode : Strictness)
    (hT : T.Owned Δ) (hv : HasType Δ T v) (hnul : mode = .strict → v.NoNul)
    (hb : toBytes Δ T v = .ok b) :
    (∀ t maxDepth, v.depth ≤ maxDepth →
      ∃ d, (T.deserialize Δ).run ((Deserializer.new (b ++ t) mode).withMaxDepth maxDepth)
          = .ok (v, d) ∧ d.remaining = t) ∧
    (v.depth ≤ Deserializer.defaultMaxDepth → fromBytesWith Δ T b mode = .ok v) := by
  rw [toBytes_eq] at hb
  have hread : ∀ t maxDepth, v.depth ≤ maxDepth →
      (read (Policy.ofInput mode maxDepth) Δ maxDepth T).run (b ++ t) = .ok (v, t) :=
    fun t maxDepth hd => read_encode _ Δ maxDepth t (hT.readable mode maxDepth) hv hnul hb hd
  refine ⟨fun t maxDepth hd => ?_, fun hd => ?_⟩
  · have hrun := deserialize_new_eq Δ T (b ++ t) mode maxDepth
    rw [hread t maxDepth hd] at hrun
    have hrem : ((Deserializer.new (b ++ t) mode).withMaxDepth maxDepth).remaining = b ++ t := rfl
    exact ⟨_, exec_ok.mp hrun, Deserializer.remaining_advanced hrem⟩
  · have h := hread [] _ hd
    rw [List.append_nil] at h
    exact fromBytesWith_ok.mpr h

/-- A struct of a number, some booleans and an optional boxed copy of itself. -/
def nodeDecls : Decls := fun _ => .struct [.u32, .counted (.vec .bool), .option (.named 0)]

theorem nodeDecls_owned : (Ty.named 0).Owned nodeDecls := by
  have hreach : ∀ t, (Ty.named 0).Reaches nodeDecls t → t = .named 0 ∨ t = .u32 ∨
      t = .counted (.vec .bool) ∨ t = .bool ∨ t = .option (.named 0) := by
    intro t ht
    induction ht with
    | refl => exact .inl rfl
    | tail _ hstep ih =>
      rcases ih with rfl | rfl | rfl | rfl | rfl <;>
        simp [Ty.components, CountedTy.components, Decl.components, nodeDecls] at hstep <;>
        tauto
  refine ⟨fun e h => ?_, fun e h => ?_, fun e h v hv => ?_⟩
  · simpa using hreach _ h
  · simpa using hreach _ h
  · obtain rfl : e = .bool := by simpa using hreach _ h
    cases hv with
    | bool a => cases a <;> decide

/-- Two linked nodes, in front of a byte that is left unread. -/
theorem deserialize_toBytes_node :
    ∃ d, ((Ty.named 0).deserialize nodeDecls).run
        ((Deserializer.new ([0, 0, 0, 7, 0, 0, 0, 1, 0, 0, 0, 1, 0, 0, 0, 1, 0, 0, 0, 8, 0, 0, 0, 0,
          0, 0, 0, 0] ++ [9]) .strict).withMaxDepth 4)
        = .ok (.seq [.u32 7, .seq [.bool true], .some (.seq [.u32 8, .seq [], .none])], d) ∧
      d.remaining = [9] := by
  have hv : HasType nodeDecls (.named 0)
      (.seq [.u32 7, .seq [.bool true], .some (.seq [.u32 8, .seq [], .none])]) :=
    .struct rfl (.cons (.u32 7) (.cons (.vec (by simpa using HasType.bool true))
      (.cons (.some (.struct rfl (.cons (.u32 8) (.cons (.vec (by simp))
        (.cons (.none _) .nil))))) .nil)))
  exact (deserialize_toBytes nodeDecls (.named 0) _ _ .strict nodeDecls_owned hv
    (fun _ => by simp [Value.NoNul, Value.NoNuls]) rfl).1 [9] 4 (by decide)

end Xdr
