/-
The size of an encoding.

`serialized_size` runs the serializer over a writer that counts.  It is the
length of `to_bytes`, or it fails with the same error, because the serializer
does the same with every writer that takes all it is given (`toWriter_eq`).

An encoding is whole units: a value's own bytes are, and so are its parts, by
induction on the depth of the value (`encode_units`).  A borrowed array or
list goes out as the bytes it keeps, and those are whole units as well, since a
decode takes its input a unit at a time: `Place.Read.keepsUnits`.
-/
import RosUtils.XdrMonotone
import RosUtils.XdrFromEncoded

open BigEndian ExceptState

namespace Xdr

variable {Δ : Decls}

/-! ### Whole units -/

theorem four_dvd_paddedLength (n : ℕ) : 4 ∣ paddedLength n := four_dvd_add_pad4 n

theorem four_dvd_decl_ownLength (decl : Decl) : 4 ∣ decl.ownLength := by
  cases decl with
  | enum | xdrUnion => exact dvd_rfl
  | newtypeStruct | tupleStruct | struct => exact dvd_zero 4

/-- What a value takes besides its parts is whole units. -/
theorem four_dvd_ownLength (Δ : Decls) (T : Ty) (v : Value) : 4 ∣ T.ownLength Δ v := by
  have hbody (n : ℕ) : 4 ∣ 4 + paddedLength n := dvd_add dvd_rfl (four_dvd_paddedLength n)
  unfold Ty.ownLength
  split
  case h_4 s => exact hbody _
  case h_5 b => exact hbody _
  case h_6 encoded => exact hbody _
  case h_8 b => exact four_dvd_paddedLength _
  case h_13 encoded => exact four_dvd_paddedLength _
  case h_14 id => exact four_dvd_decl_ownLength _
  all_goals decide

theorem mem_of_mem_fieldParts {ts : List Ty} {vs : List Value} {p : Part}
    (hp : p ∈ fieldParts ts vs) : p.value ∈ vs := by
  induction ts generalizing vs with
  | nil => cases hp
  | cons t ts ih =>
    cases vs with
    | nil => cases hp
    | cons v vs =>
      rcases List.mem_cons.mp hp with rfl | hp
      · exact List.mem_cons_self
      · exact List.mem_cons_of_mem v (ih hp)

theorem mem_of_mem_elementParts {t : Ty} {vs : List Value} {p : Part}
    (hp : p ∈ elementParts t vs) : p.value ∈ vs := by
  obtain ⟨v, hv, rfl⟩ := List.mem_map.mp hp
  exact hv

/-- A part is not as deep as the whole. -/
theorem part_depth_lt {T : Ty} {v : Value} (hv : HasType Δ T v) {p : Part}
    (hp : p ∈ T.parts Δ v) : p.value.depth < v.depth := by
  have below {vs : List Value} (h : p.value ∈ vs) : p.value.depth < 1 + Value.depths vs := by
    have := Value.depth_le_depths h
    omega
  have single {q : Part} (h : p ∈ [q]) : p.value.depth < 1 + q.value.depth := by
    rw [List.mem_singleton.mp h]
    omega
  cases hv with
  | vec | array => exact below (mem_of_mem_elementParts hp)
  | tuple => exact below (mem_of_mem_fieldParts hp)
  | bounded | some => exact single hp
  | newtypeStruct hd =>
    simp only [Ty.parts, hd, Decl.parts] at hp
    exact single hp
  | tupleStruct hd | struct hd =>
    simp only [Ty.parts, hd, Decl.parts] at hp
    exact below (mem_of_mem_fieldParts hp)
  | enum hd hi | unionArm hd hi =>
    simp only [Ty.parts, hd, Decl.parts, hi] at hp
    exact below (mem_of_mem_fieldParts hp)
  | @unionDefault id u dt ts d vs hd hdef _ _ =>
    have hnone : u.arms[u.arms.length]? = Option.none := List.getElem?_eq_none le_rfl
    simp only [Ty.parts, hd, Decl.parts, hnone, hdef, List.tail_cons] at hp
    exact below (List.mem_cons_of_mem d (mem_of_mem_fieldParts hp))
  | _ => cases hp

theorem PartsEncoded.four_dvd {ps : List Part} {es : List Bytes} (h : PartsEncoded Δ ps es)
    (hp : ∀ p ∈ ps, ∀ e, encode Δ p.bound p.ty p.value = .ok e → 4 ∣ e.length) :
    4 ∣ es.flatten.length := by
  induction h with
  | nil => exact dvd_zero 4
  | cons he _ ih =>
    rw [List.flatten_cons, List.length_append]
    exact dvd_add (hp _ List.mem_cons_self _ he) (ih fun p hmem => hp p (List.mem_cons_of_mem _ hmem))

/-- **An encoding is whole units.** -/
theorem encode_units {bound : Option ℕ} {T : Ty} {v : Value} {e : Bytes}
    (hv : HasType Δ T v) (h : encode Δ bound T v = .ok e) : 4 ∣ e.length := by
  induction hn : v.depth using Nat.strong_induction_on generalizing bound T v e with
  | _ n ih =>
    subst hn
    obtain ⟨own, es, rfl, hown, hes⟩ := encode_parts hv h
    have hparts : 4 ∣ es.flatten.length :=
      hes.four_dvd fun p hp e he =>
        ih p.value.depth (part_depth_lt hv hp) (parts_sound hv p hp).typed he rfl
    rw [List.length_append, hown]
    exact dvd_add (four_dvd_ownLength Δ T v) hparts

/-! ### The size beforehand -/

/-- The counting writer counts what the buffer holds. -/
theorem serializedSize_eq (T : Ty) (v : Value) :
    serializedSize Δ T v = List.length <$> toBytes Δ T v := by
  rw [serializedSize, toWriter_eq, toBytes_eq]
  cases encode Δ none T v with
  | error e => rfl
  | ok b => exact congrArg Except.ok (Nat.zero_add b.length)

/-- The size of a value is known beforehand, and it is whole units; or the value has no
encoding, and asking for the size says why. -/
def SizeExact (Δ : Decls) (T : Ty) (v : Value) : Prop :=
  (∃ e, serializedSize Δ T v = .error e ∧ toBytes Δ T v = .error e) ∨
  ∃ b, toBytes Δ T v = .ok b ∧ serializedSize Δ T v = .ok b.length ∧ 4 ∣ b.length

theorem sizeExact_of_hasType {T : Ty} {v : Value} (hv : HasType Δ T v) : SizeExact Δ T v := by
  have hsize := serializedSize_eq (Δ := Δ) T v
  cases h : toBytes Δ T v with
  | error e =>
    rw [h] at hsize
    exact .inl ⟨e, hsize, h⟩
  | ok b =>
    rw [h] at hsize
    rw [toBytes_eq] at h
    exact .inr ⟨b, (toBytes_eq Δ T v).trans h, hsize, encode_units hv h⟩

/-! ### What borrowed values keep -/

/-- The bytes a borrowed array or list keeps are whole units, so that it goes out as it is,
with no padding. -/
def Value.KeepsUnits : Value → Prop
  | .arrayRef _ encoded => 4 ∣ encoded.length
  | .listRef _ encoded => 4 ∣ encoded.length
  | _ => True

theorem keepsUnits_readC {P : Policy} {room : ℕ} {bound : Option ℕ} {t : Ty} {v : Value}
    {b rest : Bytes} (h : (readC P Δ room bound (.varArrayRef t)).run b = .ok (v, rest)) :
    v.KeepsUnits := by
  obtain ⟨r, vs, c, -, hvec, hb, rfl⟩ := readArrayRef_ok.mp h
  obtain ⟨c', hb', hdvd⟩ := readVec_advances P Δ r bound t hvec
  obtain rfl := List.append_cancel_right (hb'.symm.trans hb)
  show 4 ∣ (c'.drop 4).length
  rw [List.length_drop]
  exact Nat.dvd_sub hdvd dvd_rfl

theorem keepsUnits_readListRef {P : Policy} {room : ℕ} {t : Ty} {v : Value} {b rest : Bytes}
    (h : (read P Δ room (.listRef t)).run b = .ok (v, rest)) : v.KeepsUnits := by
  obtain ⟨r, vs, c, -, hchain, hb, rfl⟩ := readListRef_ok.mp h
  obtain ⟨c', hb', hdvd⟩ := chain_advances (readOption_advances P Δ r t) usizeMax hchain
  obtain rfl := List.append_cancel_right (hb'.symm.trans hb)
  exact hdvd

theorem Place.Read.keepsUnits {P : Policy} {x : Place} (hx : x.Read P Δ) :
    x.value.KeepsUnits := by
  have hv := hx.hasType
  obtain ⟨⟨bound, T, v⟩, room, input, rest⟩ := x
  cases hv with
  | arrayRef t len encoded => exact keepsUnits_readC hx
  | listRef t len encoded => exact keepsUnits_readListRef hx
  | _ => trivial

/-- What is built from bytes or decoded, whatever the mode: the size of all of it is known,
and what it borrows is whole units. -/
structure SizesExact (Δ : Decls) (T : Ty) : Prop where
  values : ∀ v, HasType Δ T v → SizeExact Δ T v
  decoded : ∀ mode maxDepth b v rest, decode Δ T mode maxDepth b = .ok (v, rest) →
    SizeExact Δ T v ∧
      ∀ path q, (Part.mk none T v).at? Δ path = some q → SizeExact Δ q.ty q.value ∧
        q.value.KeepsUnits
  arrays : ∀ len e a, VarArrayRef.fromEncoded Δ T len e = .ok a →
    SizeExact Δ (.counted (.varArrayRef T)) a ∧ a.KeepsUnits
  lists : ∀ e l, ListRef.fromEncoded Δ T e = .ok l →
    SizeExact Δ (.listRef T) l ∧ l.KeepsUnits

/-- **Every encoding is whole units and its size is known beforehand**, for every value of
every type, decoded and borrowed ones included. -/
theorem sizes_exact (Δ : Decls) (T : Ty) : SizesExact Δ T where
  values _ hv := sizeExact_of_hasType hv
  decoded mode maxDepth b v rest h := by
    have hread : (Place.mk ⟨none, T, v⟩ maxDepth b rest).Read (Policy.ofInput mode maxDepth) Δ :=
      readB_of_read (decode_ok.mp h)
    refine ⟨sizeExact_of_hasType hread.hasType, fun path q hq => ?_⟩
    obtain ⟨y, rfl, -, hy, -⟩ := located_of_at? hread hq
    exact ⟨sizeExact_of_hasType hy.hasType, hy.keepsUnits⟩
  arrays len e a h := by
    obtain ⟨-, ⟨vs, helems⟩, rfl⟩ := arrayRef_fromEncoded_ok.mp h
    obtain ⟨c, rfl, hdvd⟩ := repeatN_advances (read_advances _ Δ _ T) len helems
    refine ⟨sizeExact_of_hasType (.arrayRef T len _), ?_⟩
    rw [List.append_nil]
    exact hdvd
  lists e l h := by
    obtain ⟨vs, hchain, rfl⟩ := listRef_fromEncoded_ok.mp h
    obtain ⟨c, rfl, hdvd⟩ := chain_advances (readOption_advances _ Δ _ T) _ hchain
    refine ⟨sizeExact_of_hasType (.listRef T vs.length _), ?_⟩
    rw [List.append_nil]
    exact hdvd

/-- Three bytes of opaque data are two units, and three bytes over a bound of two have no
size. -/
example : serializedSize nodeDecls (.counted .varOpaque) (.bytes [1, 2, 3]) = .ok 8 ∧
    serializedSize nodeDecls (.bounded .varOpaque 2) (.newtype (.bytes [1, 2, 3]))
      = .error (.tooLong 3 2) := ⟨rfl, rfl⟩

end Xdr
