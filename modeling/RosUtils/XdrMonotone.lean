/-
What the mode and the depth limit may change.

Neither changes a value that is accepted: what a strict decode accepts, the
lenient one accepts with the same value and the same tail, and so does every
decode with a greater depth limit (`decode_mono`).  A lenient decode may accept
bytes that no encoder writes, but never more or fewer of them: the encoding of
what it accepts is as long as what it consumed (`length_encode_of_read`).

The second is an induction over the anatomy of a decoded value: an encoding has
the same own bytes and the same parts (`encode_parts`).
-/
import RosUtils.XdrParts

open BigEndian ExceptState

namespace Xdr

variable {Δ : Decls}

/-! ### The parts of a typed value -/

theorem fieldParts_typed {ts : List Ty} {vs : List Value} (h : List.Forall₂ (HasType Δ) ts vs) :
    ∀ p ∈ fieldParts ts vs, p.bound = none ∧ HasType Δ p.ty p.value := by
  induction h with
  | nil => exact List.forall_mem_nil _
  | cons hv _ ih => exact List.forall_mem_cons.mpr ⟨⟨rfl, hv⟩, ih⟩

theorem elementParts_typed {t : Ty} {vs : List Value} (h : ∀ v ∈ vs, HasType Δ t v) :
    ∀ p ∈ elementParts t vs, p.bound = none ∧ HasType Δ p.ty p.value := by
  intro p hp
  obtain ⟨v, hv, rfl⟩ := List.mem_map.mp hp
  exact ⟨rfl, h v hv⟩

/-- A value of a type, held to a bound only if it has a length. -/
structure Part.Sound (Δ : Decls) (p : Part) : Prop where
  typed : HasType Δ p.ty p.value
  counted : p.bound = none ∨ ∃ c, p.ty = .counted c

theorem Part.Sound.of_plain {ps : List Part}
    (h : ∀ p ∈ ps, p.bound = none ∧ HasType Δ p.ty p.value) : ∀ p ∈ ps, p.Sound Δ :=
  fun p hp => ⟨(h p hp).2, .inl (h p hp).1⟩

/-- The parts of a value of a type are values of theirs. -/
theorem parts_sound {T : Ty} {v : Value} (hv : HasType Δ T v) :
    ∀ p ∈ T.parts Δ v, p.Sound Δ := by
  have single {p : Part} (hp : p.Sound Δ) : ∀ q ∈ [p], q.Sound Δ :=
    List.forall_mem_singleton.mpr hp
  cases hv with
  | vec h | array _ h => exact .of_plain (elementParts_typed h)
  | bounded h => exact single ⟨h, .inr ⟨_, rfl⟩⟩
  | tuple h => exact .of_plain (fieldParts_typed h)
  | some h => exact single ⟨h, .inl rfl⟩
  | newtypeStruct hd h =>
    simp only [Ty.parts, hd, Decl.parts]
    exact single ⟨h, .inl rfl⟩
  | tupleStruct hd h | struct hd h =>
    simp only [Ty.parts, hd, Decl.parts]
    exact .of_plain (fieldParts_typed h)
  | enum hd hi h | unionArm hd hi h =>
    simp only [Ty.parts, hd, Decl.parts, hi]
    exact .of_plain (fieldParts_typed h)
  | @unionDefault id u dt ts d vs hd hdef _ h =>
    have hnone : u.arms[u.arms.length]? = none := List.getElem?_eq_none le_rfl
    simp only [Ty.parts, hd, Decl.parts, hnone, hdef, List.tail_cons]
    exact .of_plain (fieldParts_typed h)
  | _ => exact List.forall_mem_nil _

/-- What holds of every part of a value at any depth: it is a value of its type. -/
theorem Part.Sound.at? {p q : Part} (hp : p.Sound Δ) {path : List ℕ}
    (hq : p.at? Δ path = some q) : q.Sound Δ := by
  induction path generalizing p with
  | nil =>
    cases hq
    exact hp
  | cons i path ih =>
    obtain ⟨r, hr, hq⟩ := Option.bind_eq_some_iff.mp hq
    exact ih (parts_sound hp.typed r (List.mem_of_getElem? hr)) hq

/-! ### The anatomy of an encoding -/

/-- The encodings of some parts. -/
def PartsEncoded (Δ : Decls) : List Part → List Bytes → Prop :=
  List.Forall₂ fun p e => encode Δ p.bound p.ty p.value = .ok e

theorem PartsEncoded.of_mem {ps : List Part} {es : List Bytes} (h : PartsEncoded Δ ps es)
    {p : Part} (hp : p ∈ ps) : ∃ e, encode Δ p.bound p.ty p.value = .ok e := by
  induction h with
  | nil => cases hp
  | cons he _ ih =>
    rcases List.mem_cons.mp hp with rfl | hp
    · exact ⟨_, he⟩
    · exact ih hp

theorem partsEncoded_fields {ts : List Ty} {vs : List Value} {e : Bytes}
    (h : encodeFields Δ ts vs = .ok e) :
    ∃ es : List Bytes, e = es.flatten ∧ PartsEncoded Δ (fieldParts ts vs) es := by
  induction ts generalizing vs e with
  | nil =>
    cases vs with
    | nil =>
      cases h
      exact ⟨[], rfl, .nil⟩
    | cons v vs => cases h
  | cons T ts ih =>
    cases vs with
    | nil => cases h
    | cons v vs =>
      obtain ⟨a, c, ha, hc, rfl⟩ := encodeFields_cons.mp h
      obtain ⟨es, rfl, hes⟩ := ih hc
      exact ⟨a :: es, rfl, .cons ha hes⟩

theorem partsEncoded_elements {T : Ty} {vs : List Value} {e : Bytes}
    (h : encodeElements Δ T vs = .ok e) :
    ∃ es : List Bytes, e = es.flatten ∧ PartsEncoded Δ (elementParts T vs) es := by
  rw [encodeElements_eq] at h
  rw [← fieldParts_replicate rfl]
  exact partsEncoded_fields h

/-- An encoding is the value's own bytes and the encodings of its parts. -/
def EncodedParts (Δ : Decls) (T : Ty) (v : Value) (e : Bytes) : Prop :=
  ∃ (own : Bytes) (es : List Bytes), e = own ++ es.flatten ∧
    own.length = T.ownLength Δ v ∧ PartsEncoded Δ (T.parts Δ v) es

/-- The encoding of a value without parts. -/
theorem EncodedParts.leaf {T : Ty} {v : Value} {e : Bytes} (hparts : T.parts Δ v = [])
    (hown : e.length = T.ownLength Δ v) : EncodedParts Δ T v e := by
  refine ⟨e, [], (List.append_nil e).symm, hown, ?_⟩
  rw [hparts]
  exact .nil

theorem EncodedParts.node {T : Ty} {v : Value} (own : Bytes) {es : List Bytes} {ps : List Part}
    (hown : own.length = T.ownLength Δ v) (hparts : T.parts Δ v = ps)
    (hes : PartsEncoded Δ ps es) : EncodedParts Δ T v (own ++ es.flatten) :=
  ⟨own, es, rfl, hown, by rw [hparts]; exact hes⟩

theorem length_padded (b : Bytes) : (padded b).length = paddedLength b.length := by
  rw [padded, paddedLength, List.length_append, List.length_replicate]

theorem EncodedParts.body {bound : Option ℕ} {T : Ty} {v : Value} {data e : Bytes}
    (h : encodeVar bound data = .ok e) (hparts : T.parts Δ v = [])
    (hown : T.ownLength Δ v = 4 + paddedLength data.length) : EncodedParts Δ T v e := by
  obtain ⟨w, rfl, -⟩ := encodeVar_ok.mp h
  refine .leaf hparts ?_
  rw [hown, List.length_append, u32ToBe_length, length_padded]

/-- A single part. -/
theorem EncodedParts.single {T t : Ty} {v a : Value} {bound : Option ℕ} (own : Bytes) {e : Bytes}
    (hown : own.length = T.ownLength Δ v) (hparts : T.parts Δ v = [⟨bound, t, a⟩])
    (h : encode Δ bound t a = .ok e) : EncodedParts Δ T v (own ++ e) := by
  have hnode : EncodedParts Δ T v (own ++ [e].flatten) :=
    .node own hown hparts (.cons h .nil)
  rwa [List.flatten_singleton] at hnode

/-- **The anatomy of an encoding.** -/
theorem encode_parts {bound : Option ℕ} {T : Ty} {v : Value} {e : Bytes}
    (hv : HasType Δ T v) (h : encode Δ bound T v = .ok e) : EncodedParts Δ T v e := by
  cases hv with
  | bool | i8 | i16 | i32 | u8 | u16 | u32 | f32 | char | none =>
    cases h
    exact .leaf rfl (u32ToBe_length _)
  | i64 | u64 | f64 =>
    cases h
    exact .leaf rfl (u64ToBe_length _)
  | string | str | varOpaque | varOpaqueRef | varOpaqueCow => exact .body h rfl rfl
  | @vec t vs hvs =>
    simp only [encode, except_bind_ok, except_map_ok, encodeLen_ok] at h
    obtain ⟨n, ⟨w, rfl, -⟩, c, hc, rfl⟩ := h
    obtain ⟨es, rfl, hes⟩ := partsEncoded_elements hc
    exact .node _ (u32ToBe_length w) rfl hes
  | arrayRef t len encoded =>
    simp only [encode, except_map_ok, encodeLen_ok] at h
    obtain ⟨n, ⟨w, rfl, -⟩, rfl⟩ := h
    refine .leaf rfl ?_
    rw [List.length_append, u32ToBe_length, length_padded]
    rfl
  | bounded hv => exact .single [] rfl rfl h
  | fixedOpaque hlen =>
    cases h
    exact .leaf rfl (length_padded _)
  | array hlen hvs =>
    obtain ⟨es, rfl, hes⟩ := partsEncoded_elements h
    exact .node [] rfl rfl hes
  | tuple hvs =>
    obtain ⟨es, rfl, hes⟩ := partsEncoded_fields h
    exact .node [] rfl rfl hes
  | unit | unitStruct =>
    cases h
    exact .leaf rfl rfl
  | some hv =>
    obtain ⟨c, hc, rfl⟩ := except_map_ok.mp h
    exact .single _ (u32ToBe_length 1) rfl hc
  | listRef t len encoded =>
    cases h
    exact .leaf rfl (length_padded _)
  | @xdrEnum e i hi =>
    simp only [encode, XdrEnum.encode, List.getElem?_eq_getElem hi] at h
    cases h
    exact .leaf rfl (u32ToBe_length _)
  | newtypeStruct hd hv =>
    simp only [encode, hd] at h
    exact .single [] (by simp only [Ty.ownLength, hd]; rfl) (by simp only [Ty.parts, hd]; rfl) h
  | tupleStruct hd hvs | struct hd hvs =>
    simp only [encode, hd] at h
    obtain ⟨es, rfl, hes⟩ := partsEncoded_fields h
    exact .node [] (by simp only [Ty.ownLength, hd]; rfl) (by simp only [Ty.parts, hd]; rfl) hes
  | @enum id e i var vs hd hi hvs =>
    -- a declared type does not look at the bound
    have hbound : encode Δ bound (.named id) (.variant i vs)
        = encode Δ none (.named id) (.variant i vs) := by rw [encode, encode]
    rw [hbound, encode_enum hd hi hvs.length_eq] at h
    obtain ⟨c, hc, rfl⟩ := except_map_ok.mp h
    obtain ⟨es, rfl, hes⟩ := partsEncoded_fields hc
    refine .node _ ?_ ?_ hes
    · simp only [u32ToBe_length, Ty.ownLength, hd, Decl.ownLength]
    · simp only [Ty.parts, hd, Decl.parts, hi]
  | unionArm hd hi hvs =>
    simp only [encode, hd, hi] at h
    obtain ⟨c, hc, rfl⟩ := except_map_ok.mp h
    obtain ⟨es, rfl, hes⟩ := partsEncoded_fields hc
    refine .node _ ?_ ?_ hes
    · simp only [u32ToBe_length, Ty.ownLength, hd, Decl.ownLength]
    · simp only [Ty.parts, hd, Decl.parts, hi]
  | @unionDefault id u dt ts d vs hd hdef hdisc hvs =>
    have hnone : u.arms[u.arms.length]? = none := List.getElem?_eq_none le_rfl
    simp only [encode, hd, hnone, hdef, except_bind_ok, except_map_ok] at h
    obtain ⟨disc, -, c, hc, rfl⟩ := h
    obtain ⟨es, rfl, hes⟩ := partsEncoded_fields hc
    refine .node _ ?_ ?_ hes
    · simp only [u32ToBe_length, Ty.ownLength, hd, Decl.ownLength]
    · simp only [Ty.parts, hd, Decl.parts, hnone, hdef, List.tail_cons]

/-! ### The length of a decode -/

/-- If each part takes as many bytes as its encoding has, then so do all of them. -/
theorem PartsRead.length_eq {P : Policy} {room : ℕ} {rest : Bytes} {ps : List Part}
    {cs es : List Bytes} (hcs : PartsRead P Δ room rest ps cs) (hes : PartsEncoded Δ ps es)
    (h : ∀ (p : Part) (c u e : Bytes),
      (readB P Δ room p.bound p.ty).run (c ++ u) = .ok (p.value, u) →
      encode Δ p.bound p.ty p.value = .ok e → c.length = e.length) :
    cs.flatten.length = es.flatten.length := by
  induction hcs generalizing es with
  | nil =>
    cases hes
    rfl
  | cons hp _ ih =>
    cases hes with
    | cons he hes =>
      rw [List.flatten_cons, List.flatten_cons, List.length_append, List.length_append,
        h _ _ _ _ hp he, ih hes]

/-- **A decode consumes as many bytes as the encoding of its value has**, in either mode. -/
theorem length_encode_of_read {P : Policy} {room : ℕ} {bound : Option ℕ} {T : Ty} {v : Value}
    {c t e : Bytes} (h : (readB P Δ room bound T).run (c ++ t) = .ok (v, t))
    (he : encode Δ bound T v = .ok e) : c.length = e.length := by
  -- a part is read with less room, so the induction is on the room
  induction room using Nat.strong_induction_on generalizing bound T v c t e with
  | _ room ih =>
    have hx : (Place.mk ⟨bound, T, v⟩ room (c ++ t) t).Read P Δ := h
    obtain ⟨⟨own, cs, hc, hown, hcs⟩, hpos, -, -⟩ := readB_parts h
    obtain ⟨own', es, rfl, hown', hes⟩ := encode_parts hx.hasType he
    rw [← List.append_assoc] at hc
    obtain rfl := List.append_cancel_right hc
    have hparts : cs.flatten.length = es.flatten.length := by
      by_cases hnil : T.parts Δ v = []
      · rw [hnil] at hcs hes
        cases hcs
        cases hes
        rfl
      · have hlt : room - 1 < room := Nat.sub_lt (hpos hnil) one_pos
        exact hcs.length_eq hes fun p c u e hp he => ih (room - 1) hlt hp he
    rw [List.length_append, List.length_append, hparts, hown', hown]

/-! ### The mode and the limit -/

/-- A policy that asks no more accepts the same value with the same tail. -/
theorem decode_weaken {T : Ty} {b : Bytes} {m m' : Strictness} {d d' : ℕ} {x : Value × Bytes}
    (h : decode Δ T m d b = .ok x) (hm : m' = .strict → m = .strict) (hd : d ≤ d') :
    decode Δ T m' d' b = .ok x := by
  have hweaker : (Policy.ofInput m d).Weaker (Policy.ofInput m' d') [] [] :=
    ⟨hm, fun _ _ => id⟩
  have hrun := (read_carries hweaker hd Δ T).run (x := b) (u := x.2) (a := x.1)
  simp only [List.append_nil] at hrun
  exact decode_ok.mpr (hrun (decode_ok.mp h))

/-- **The mode and the depth limit are monotone.**  What strict decoding accepts is
accepted, with the same value and the same tail, by lenient decoding and by any greater
depth limit; and what lenient decoding accepts has consumed as many bytes as the encoding
of its value, if it has one, is long. -/
theorem decode_mono (T : Ty) (b : Bytes) (d d' : ℕ) (hd : d ≤ d') :
    (∀ v rest, decode Δ T .strict d b = .ok (v, rest) →
      decode Δ T .lenient d' b = .ok (v, rest) ∧ decode Δ T .strict d' b = .ok (v, rest) ∧
        decode Δ T .lenient d b = .ok (v, rest)) ∧
    ∀ v rest, decode Δ T .lenient d b = .ok (v, rest) →
      ∃ c, b = c ++ rest ∧ ∀ e, toBytes Δ T v = .ok e → e.length = c.length := by
  constructor
  · intro v rest h
    exact ⟨decode_weaken h nofun hd, decode_weaken h id hd, decode_weaken h nofun le_rfl⟩
  · intro v rest h
    have hread := decode_ok.mp h
    obtain ⟨c, rfl, -⟩ := read_advances _ Δ d T hread
    refine ⟨c, rfl, fun e he => ?_⟩
    rw [toBytes_eq] at he
    exact (length_encode_of_read (readB_of_read hread) he).symm

/-- A lenient decode of a flag that is spelled as no encoder does, and the flag as it is
encoded, decoded with a greater limit. -/
theorem decode_mono_flag :
    decode nodeDecls (.tuple [.bool, .u8]) .lenient 1 [0, 0, 0, 7, 0, 0, 0, 9]
      = .ok (.seq [.bool true, .u8 9], []) ∧
    toBytes nodeDecls (.tuple [.bool, .u8]) (.seq [.bool true, .u8 9])
      = .ok [0, 0, 0, 1, 0, 0, 0, 9] ∧
    decode nodeDecls (.tuple [.bool, .u8]) .lenient 3 [0, 0, 0, 1, 0, 0, 0, 9]
      = .ok (.seq [.bool true, .u8 9], []) := by
  have hstrict : decode nodeDecls (.tuple [.bool, .u8]) .strict 1 [0, 0, 0, 1, 0, 0, 0, 9]
      = .ok (.seq [.bool true, .u8 9], []) := rfl
  exact ⟨rfl, rfl, ((decode_mono _ _ 1 3 (by decide)).1 _ _ hstrict).1⟩

end Xdr
