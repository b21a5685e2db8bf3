/-
The discriminants of a union partition the wire.

For every union the derive accepts, each `i32` has one arm: the arm that owns it,
else the default arm, else none, which is an error.  The arm then reads what the
tuple of its fields reads, and the default arm keeps the discriminant as its first
field.  The encoder keeps to the same partition: a default arm whose discriminant
another arm owns is refused, so what a union encodes to tells the arm, and with it
the value.

`Partition` states it for the type of a union, and `union_partition` proves it of
what `expandUnion` generates.
-/
import RosUtils.XdrDerive
import RosUtils.XdrCanonical

open BigEndian ExceptState

namespace Xdr

variable {Δ : Decls}

/-- The variant `i` whose fields are `front` and then those of the tuple that was read. -/
def intoVariant (i : ℕ) (front : List Value) : Value × Bytes → Value × Bytes
  | (.seq vs, rest) => (.variant i (front ++ vs), rest)
  | x => x

/-- The discriminants that have an arm of their own. -/
def XdrUnion.owned (u : XdrUnion) : List Int32 := u.arms.map Arm.disc

/-- The encoding of a list of fields tells the fields. -/
def FieldsInjective (Δ : Decls) (ts : List Ty) : Prop :=
  ∀ vs vs' b, List.Forall₂ (HasType Δ) ts vs → List.Forall₂ (HasType Δ) ts vs' →
    toBytes Δ (.tuple ts) (.seq vs) = .ok b → toBytes Δ (.tuple ts) (.seq vs') = .ok b → vs = vs'

/-- The variant `i`, of fields `front` and then fields of the types `ts`, has the
discriminant `disc`: it is the arm that owns it, or the default arm if no arm does, with
the discriminant in front. -/
inductive XdrUnion.Owner (u : XdrUnion) (disc : Int32) : ℕ → List Value → List Ty → Prop
  | arm {i : ℕ} {a : Arm} (hi : u.arms[i]? = some a) (hdisc : a.disc = disc) :
      u.Owner disc i [] a.fields
  | default {dt : DiscTy} {ts : List Ty} {x : Value} (hdef : u.default = some (dt, ts))
      (hx : dt.disc x = some disc) (hno : disc ∉ u.owned) : u.Owner disc u.arms.length [x] ts

/-- How the union `u`, declared as the type `id`, divides the wire between its arms. -/
structure Partition (Δ : Decls) (id : ℕ) (u : XdrUnion) : Prop where
  /-- A discriminant has one owner at most. -/
  unique : ∀ disc i j front front' ts ts', u.Owner disc i front ts → u.Owner disc j front' ts' →
    i = j ∧ front = front' ∧ ts = ts'
  /-- The owner of the discriminant decodes what follows it, as the tuple of its fields. -/
  owner : ∀ (w : UInt32) i front ts, u.Owner w.toInt32 i front ts → ∀ mode n rest,
    decode Δ (.named id) mode n (u32ToBe w ++ rest) =
      intoVariant i front <$> decode Δ (.tuple ts) mode n rest
  /-- A discriminant without an owner is an error: there is no default arm, or the `XdrEnum`
  it starts with has no such value. -/
  refused : ∀ w : UInt32, (∀ i front ts, ¬ u.Owner w.toInt32 i front ts) → ∀ mode n rest,
    ∃ e, decode Δ (.named id) mode n (u32ToBe w ++ rest) = .error (.error e)
  /-- A decoded default arm has no other arm's discriminant. -/
  notOwned : ∀ mode n b vs rest,
    decode Δ (.named id) mode n b = .ok (.variant u.arms.length vs, rest) →
    ∃ dt ts x vs' disc, u.default = some (dt, ts) ∧ vs = x :: vs' ∧ dt.disc x = some disc ∧
      disc ∉ u.owned
  /-- A default arm is refused for its discriminant exactly when another arm owns it;
  otherwise its encoding is the discriminant and then its other fields. -/
  encode : ∀ dt ts x vs, u.default = some (dt, ts) → HasType Δ dt.ty x →
    ∃ disc, dt.disc x = some disc ∧
      toBytes Δ (.named id) (.variant u.arms.length (x :: vs)) =
        if disc ∈ u.owned then
          .error (.message (u.name ++ " discriminant " ++ toString disc.toInt
            ++ " has an arm of its own"))
        else (u32ToBe disc.toUInt32 ++ ·) <$> toBytes Δ (.tuple ts) (.seq vs)
  /-- A default arm that is strictly decoded encodes to the bytes it was read from. -/
  writesBack : ∀ n b vs rest,
    decode Δ (.named id) .strict n b = .ok (.variant u.arms.length vs, rest) →
    ∃ c, b = c ++ rest ∧ toBytes Δ (.named id) (.variant u.arms.length vs) = .ok c
  /-- Values that encode to the same bytes are the same, if the fields of each arm are. -/
  injective : (∀ a ∈ u.arms, FieldsInjective Δ a.fields) →
    (∀ dt ts, u.default = some (dt, ts) → FieldsInjective Δ ts) →
    ∀ v v' b, HasType Δ (.named id) v → HasType Δ (.named id) v' →
    toBytes Δ (.named id) v = .ok b → toBytes Δ (.named id) v' = .ok b → v = v'

/-! ### Owners -/

theorem disc_of_hasType {dt : DiscTy} {x : Value} (h : HasType Δ dt.ty x) :
    ∃ disc, dt.disc x = some disc := by
  cases dt with
  | i32 =>
    obtain ⟨⟩ := h
    exact ⟨_, rfl⟩
  | xdrEnum e =>
    obtain ⟨⟩ := h
    rename_i i hi
    exact ⟨e.discs[i], List.getElem?_eq_getElem hi⟩

theorem disc_injective {dt : DiscTy} {x x' : Value} {disc : Int32} (h : dt.disc x = some disc)
    (h' : dt.disc x' = some disc) : x = x' := by
  have hread := DiscTy.read_disc h []
  rw [DiscTy.read_disc h' []] at hread
  cases hread
  rfl

theorem XdrUnion.mem_owned {u : XdrUnion} {i : ℕ} {a : Arm} (hi : u.arms[i]? = some a) :
    a.disc ∈ u.owned :=
  List.mem_map_of_mem (List.mem_of_getElem? hi)

/-- **Exactly one arm has a discriminant**, if any. -/
theorem XdrUnion.Owner.unique {u : XdrUnion} {disc : Int32} {i j : ℕ} {front front' : List Value}
    {ts ts' : List Ty} (h : u.Owner disc i front ts) (h' : u.Owner disc j front' ts') :
    i = j ∧ front = front' ∧ ts = ts' := by
  cases h with
  | arm hi hdisc =>
    cases h' with
    | arm hj hdisc' =>
      have hown := XdrUnion.armOf_eq_some.mpr ⟨hi, hdisc⟩
      rw [XdrUnion.armOf_eq_some.mpr ⟨hj, hdisc'⟩] at hown
      cases hown
      exact ⟨rfl, rfl, rfl⟩
    | default hdef hx hno => exact absurd (hdisc ▸ u.mem_owned hi) hno
  | default hdef hx hno =>
    cases h' with
    | arm hj hdisc' => exact absurd (hdisc' ▸ u.mem_owned hj) hno
    | default hdef' hx' hno' =>
      rw [hdef] at hdef'
      cases hdef'
      exact ⟨rfl, by rw [disc_injective hx hx'], rfl⟩

/-! ### Decoding by the discriminant -/

/-- The fields of a variant are read as a tuple of them is. -/
theorem run_variant (i : ℕ) (front : List Value) (p : Parser (List Value)) (b : Bytes) :
    ((fun vs => Value.variant i (front ++ vs)) <$> p).run b =
      intoVariant i front <$> (Value.seq <$> p).run b := by
  rw [StateT.run_map, StateT.run_map]
  cases p.run b with
  | error e => rfl
  | ok x => rfl

theorem readArm_owner {u : XdrUnion} {disc : Int32} {i : ℕ} {front : List Value} {ts : List Ty}
    (h : u.Owner disc i front ts) (child : Ty → Parser Value) (b : Bytes) :
    (readArm child u disc).run b =
      intoVariant i front <$> (Value.seq <$> readFields child ts).run b := by
  rw [← run_variant, readArm]
  cases h with
  | arm hi hdisc =>
    rw [XdrUnion.armOf_eq_some.mpr ⟨hi, hdisc⟩]
    rfl
  | default hdef hx hno =>
    rw [XdrUnion.armOf_eq_none.mpr hno]
    dsimp only
    rw [hdef]
    exact run_bind_of_ok (DiscTy.read_disc hx b)

/-- What `readArm` reads is read by an owner; if there is none it is an error. -/
theorem readArm_cases (u : XdrUnion) (disc : Int32) (child : Ty → Parser Value) (b : Bytes) :
    (∃ i front ts, u.Owner disc i front ts) ∨ ∃ e, (readArm child u disc).run b = .error e := by
  rw [readArm]
  cases hown : u.armOf disc with
  | some p =>
    obtain ⟨hi, hdisc⟩ := XdrUnion.armOf_eq_some.mp hown
    exact .inl ⟨_, _, _, .arm hi hdisc⟩
  | none =>
    cases hdef : u.default with
    | none => exact .inr ⟨_, rfl⟩
    | some p =>
      obtain ⟨dt, ts⟩ := p
      cases hx : (dt.read disc).run b with
      | error e => exact .inr ⟨e, run_bind_of_error hx⟩
      | ok y =>
        have hdisc := (encode_disc hx).1
        exact .inl ⟨_, _, _, .default hdef hdisc (XdrUnion.armOf_eq_none.mp hown)⟩

section Union

variable {id : ℕ} {u : XdrUnion} (hd : Δ id = .xdrUnion u)
include hd

/-- A union is read by the arm of its discriminant, a level deeper. -/
theorem read_union (P : Policy) (room : ℕ) (w : UInt32) (rest : Bytes) :
    (read P Δ room (.named id)).run (u32ToBe w ++ rest) =
      (level P.limit room fun r _ => readArm (read P Δ r) u w.toInt32).run rest := by
  rw [read_eq, readShape, hd, readNamed]
  cases room with
  | zero => rfl
  | succ r =>
    have htag : (UInt32.toInt32 <$> word).run (u32ToBe w ++ rest) = .ok (w.toInt32, rest) :=
      run_map_of_ok (word_ok.mpr rfl)
    rw [level_succ, level_succ, run_bind_of_ok htag]

theorem decode_owner {w : UInt32} {i : ℕ} {front : List Value} {ts : List Ty}
    (h : u.Owner w.toInt32 i front ts) (mode : Strictness) (n : ℕ) (rest : Bytes) :
    decode Δ (.named id) mode n (u32ToBe w ++ rest) =
      intoVariant i front <$> decode Δ (.tuple ts) mode n rest := by
  rw [decode_eq, decode_eq, read_union hd, read_eq _ _ _ (.tuple _), readShape, ← except_mapError_map]
  cases n with
  | zero => rfl
  | succ r => exact congrArg _ (readArm_owner h _ rest)

theorem decode_refused {w : UInt32} (h : ∀ i front ts, ¬ u.Owner w.toInt32 i front ts)
    (mode : Strictness) (n : ℕ) (rest : Bytes) :
    ∃ e, decode Δ (.named id) mode n (u32ToBe w ++ rest) = .error (.error e) := by
  cases n with
  | zero => exact ⟨_, decode_error (read_union hd _ 0 w rest)⟩
  | succ r =>
    rcases readArm_cases u w.toInt32 (read (Policy.ofInput mode (r + 1)) Δ r) rest with
      ⟨i, front, ts, hown⟩ | ⟨e, he⟩
    · exact absurd hown (h i front ts)
    · refine ⟨e, decode_error ?_⟩
      rw [read_union hd]
      exact he

/-- A decoded union starts with a discriminant that its variant has. -/
theorem decode_ok_owner {mode : Strictness} {n : ℕ} {b rest : Bytes} {v : Value}
    (h : decode Δ (.named id) mode n b = .ok (v, rest)) :
    ∃ w t i front ts vs, b = u32ToBe w ++ t ∧ u.Owner w.toInt32 i front ts ∧
      v = .variant i (front ++ vs) := by
  -- the discriminant is there
  obtain ⟨w, t, rfl⟩ : ∃ w t, b = u32ToBe w ++ t := by
    have h := decode_ok.mp h
    rw [read_eq, readShape, hd, readNamed] at h
    cases n with
    | zero => exact absurd h run_throw_ne_ok
    | succ r =>
      obtain ⟨tag, t, htag, -⟩ := run_bind_ok.mp h
      obtain ⟨w, hw, -⟩ := run_map_ok.mp htag
      exact ⟨w, t, word_ok.mp hw⟩
  by_cases hown : ∃ i front ts, u.Owner w.toInt32 i front ts
  · obtain ⟨i, front, ts, hown⟩ := hown
    rw [decode_owner hd hown] at h
    obtain ⟨⟨v', rest'⟩, htuple, hv⟩ := except_map_ok.mp h
    have htuple := decode_ok.mp htuple
    rw [read_eq, readShape] at htuple
    cases n with
    | zero => exact absurd htuple run_throw_ne_ok
    | succ r =>
      obtain ⟨vs, -, rfl⟩ := run_map_ok.mp htuple
      cases hv
      exact ⟨w, t, i, front, ts, vs, rfl, hown, rfl⟩
  · have hno : ∀ i front ts, ¬ u.Owner w.toInt32 i front ts :=
      fun i front ts h => hown ⟨i, front, ts, h⟩
    obtain ⟨e, he⟩ := decode_refused hd hno mode n t
    rw [he] at h
    cases h

theorem decode_notOwned {mode : Strictness} {n : ℕ} {b rest : Bytes} {vs : List Value}
    (h : decode Δ (.named id) mode n b = .ok (.variant u.arms.length vs, rest)) :
    ∃ dt ts x vs' disc, u.default = some (dt, ts) ∧ vs = x :: vs' ∧ dt.disc x = some disc ∧
      disc ∉ u.owned := by
  obtain ⟨w, t, i, front, ts, vs', -, hown, hv⟩ := decode_ok_owner hd h
  cases hv
  cases hown with
  | arm hi hdisc =>
    rw [List.getElem?_eq_none le_rfl] at hi
    cases hi
  | default hdef hx hno => exact ⟨_, _, _, vs', _, hdef, rfl, hx, hno⟩

/-! ### Encoding -/

theorem toBytes_arm {i : ℕ} {a : Arm} (hi : u.arms[i]? = some a) (vs : List Value) :
    toBytes Δ (.named id) (.variant i vs) =
      (u32ToBe a.disc.toUInt32 ++ ·) <$> toBytes Δ (.tuple a.fields) (.seq vs) := by
  rw [toBytes_eq, toBytes_eq]
  simp only [encode, hd, hi]

theorem toBytes_default {dt : DiscTy} {ts : List Ty} {x : Value} {disc : Int32}
    (hdef : u.default = some (dt, ts)) (hx : dt.disc x = some disc) (vs : List Value) :
    toBytes Δ (.named id) (.variant u.arms.length (x :: vs)) =
      if disc ∈ u.owned then
        .error (.message (u.name ++ " discriminant " ++ toString disc.toInt
          ++ " has an arm of its own"))
      else (u32ToBe disc.toUInt32 ++ ·) <$> toBytes Δ (.tuple ts) (.seq vs) := by
  rw [toBytes_eq, toBytes_eq, XdrUnion.owned]
  simp only [encode, hd, List.getElem?_eq_none le_rfl, hdef, XdrUnion.defaultDisc,
    (discriminant_serializeDisc dt x disc).mpr hx]
  by_cases hown : disc ∈ u.arms.map Arm.disc
  · rw [if_pos hown, if_pos hown]
    rfl
  · rw [if_neg hown, if_neg hown]
    rfl

/-- What encodes has an owner, and is the discriminant and then the fields of that arm. -/
theorem toBytes_ok_owner {v : Value} {b : Bytes} (hv : HasType Δ (.named id) v)
    (h : toBytes Δ (.named id) v = .ok b) :
    ∃ disc i front ts vs c, u.Owner disc i front ts ∧ v = .variant i (front ++ vs) ∧
      List.Forall₂ (HasType Δ) ts vs ∧ b = u32ToBe disc.toUInt32 ++ c ∧
      toBytes Δ (.tuple ts) (.seq vs) = .ok c := by
  cases hv with
  | unionArm hd' hi hvs =>
    rw [hd] at hd'
    cases hd'
    rw [toBytes_arm hd hi] at h
    obtain ⟨c, hc, rfl⟩ := except_map_ok.mp h
    exact ⟨_, _, _, _, _, c, .arm hi rfl, rfl, hvs, rfl, hc⟩
  | unionDefault hd' hdef hx hvs =>
    rw [hd] at hd'
    cases hd'
    obtain ⟨disc, hdisc⟩ := disc_of_hasType hx
    rw [toBytes_default hd hdef hdisc] at h
    split at h
    · cases h
    · rename_i hno
      obtain ⟨c, hc, rfl⟩ := except_map_ok.mp h
      exact ⟨_, _, _, _, _, c, .default hdef hdisc hno, rfl, hvs, rfl, hc⟩
  | newtypeStruct hd' => cases hd.symm.trans hd'
  | tupleStruct hd' => cases hd.symm.trans hd'
  | struct hd' => cases hd.symm.trans hd'
  | enum hd' => cases hd.symm.trans hd'

theorem toBytes_injective (harms : ∀ a ∈ u.arms, FieldsInjective Δ a.fields)
    (hdefault : ∀ dt ts, u.default = some (dt, ts) → FieldsInjective Δ ts) {v v' : Value}
    {b : Bytes} (hv : HasType Δ (.named id) v) (hv' : HasType Δ (.named id) v')
    (h : toBytes Δ (.named id) v = .ok b) (h' : toBytes Δ (.named id) v' = .ok b) : v = v' := by
  obtain ⟨disc, i, front, ts, vs, c, hown, rfl, hvs, rfl, hc⟩ := toBytes_ok_owner hd hv h
  obtain ⟨disc', j, front', ts', vs', c', hown', rfl, hvs', hb, hc'⟩ := toBytes_ok_owner hd hv' h'
  -- the first word is the discriminant, which has one owner
  obtain ⟨hword, rfl⟩ := List.append_inj hb (by simp)
  obtain rfl : disc = disc' := by
    have h := congrArg (fun b => (u32OfBe b).toInt32) hword
    simpa using h
  obtain ⟨rfl, rfl, rfl⟩ := hown.unique hown'
  have hinj : FieldsInjective Δ ts := by
    cases hown with
    | arm hi _ => exact harms _ (List.mem_of_getElem? hi)
    | default hdef _ _ => exact hdefault _ _ hdef
  rw [hinj vs vs' c hvs hvs' hc hc']

theorem partition_of_union : Partition Δ id u where
  unique _ _ _ _ _ _ _ h h' := h.unique h'
  owner _ _ _ _ h mode n rest := decode_owner hd h mode n rest
  refused _ h mode n rest := decode_refused hd h mode n rest
  notOwned _ _ _ _ _ h := decode_notOwned hd h
  encode dt ts x vs hdef hx := by
    obtain ⟨disc, hdisc⟩ := disc_of_hasType hx
    exact ⟨disc, hdisc, toBytes_default hd hdef hdisc vs⟩
  writesBack n b vs rest h := by
    obtain ⟨c, hb, hc⟩ := encode_read rfl Δ _ (decode_ok.mp h)
    exact ⟨c, hb, by rw [toBytes_eq, hc]⟩
  injective harms hdefault _ _ _ hv hv' h h' := toBytes_injective hd harms hdefault hv hv' h h'

end Union

/-! ### The derived impls -/

theorem UnionImpl.Is.variant_lt {impl : UnionImpl} {u : XdrUnion} (h : impl.Is u) {id : ℕ}
    (hd : Δ id = .xdrUnion u) {i : ℕ} {vs : List Value}
    (hv : HasType Δ (.named id) (.variant i vs)) : i < impl.serArms.length := by
  rw [h.serArms, List.length_append, List.length_map]
  cases hv with
  | enum hd' => cases hd.symm.trans hd'
  | unionArm hd' hi =>
    rw [hd] at hd'
    cases hd'
    exact Nat.lt_add_right _ (List.getElem?_eq_some_iff.mp hi).1
  | unionDefault hd' hdef =>
    rw [hd] at hd'
    cases hd'
    rw [hdef]
    exact Nat.lt_succ_self _

/-- **The discriminants of a derived union partition the wire.**  What the derive generates
for a declaration it accepts are the impls of the union it declares, and that union is
partitioned by its discriminants. -/
theorem union_partition (d : UnionDecl) (impl : UnionImpl) (h : expandUnion d = .ok impl) :
    ∃ u, d.Declares u ∧ ∀ Δ id, Δ id = .xdrUnion u →
      (∀ (W : Type) [Write W] i vs (s : Serializer W), HasType Δ (.named id) (.variant i vs) →
        Value.serialize Δ (.named id) (.variant i vs) s = impl.serialize Δ i vs s) ∧
      (∀ rec, deserializeWith Δ rec (.named id) = impl.deserialize rec) ∧
      Partition Δ id u := by
  obtain ⟨u, hdecl, his⟩ := expandUnion_is h
  refine ⟨u, hdecl, fun Δ id hd => ⟨?_, his.deserialize_eq hd, partition_of_union hd⟩⟩
  intro W _ i vs s hv
  exact his.serialize_eq hd (his.variant_lt hd hv) vs s

/-- `Ok(u32) = 0`, `Denied { holder: u32 } = 5` and the default arm `Other(i32)`. -/
def statusDecl : UnionDecl where
  name := "Status"
  variants := [⟨some (.lit 0), [], .unnamed [.u32]⟩, ⟨some (.lit 5), [], .named [("holder", .u32)]⟩,
    ⟨none, ["default"], .unnamed [.i32]⟩]
  distinct := by
    intro discs hasDefault hdiscs hdefault
    cases hdiscs
    cases hdefault
    decide
  first := by
    intro v hv hmark t ts hts
    obtain ⟨⟩ | ⟨_, ⟨⟩ | ⟨_, ⟨⟩ | ⟨_, ⟨⟩⟩⟩⟩ := hv
    · cases hmark
    · cases hmark
    · cases hts
      exact ⟨.i32, rfl⟩

/-- The derive accepts `Status`, and its default arm leaves 0 and 5 to the other arms. -/
theorem union_partition_status : ∃ impl, expandUnion statusDecl = .ok impl ∧
    ∃ u, statusDecl.Declares u ∧ ∀ Δ id, Δ id = .xdrUnion u → Partition Δ id u := by
  refine ⟨_, rfl, ?_⟩
  obtain ⟨u, hdecl, hu⟩ := union_partition statusDecl _ rfl
  exact ⟨u, hdecl, fun Δ id hd => (hu Δ id hd).2.2⟩

end Xdr
