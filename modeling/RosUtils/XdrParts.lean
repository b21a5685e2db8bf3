/-
Where the parts of a decoded value were read.

A value is a few bytes of its own and then its parts, one after another:
`Ty.parts` lists the parts of a value and `Ty.ownLength` is what it takes
besides them.  A decode has the same shape on the input, in either mode:

* `read_parts` — a decode that succeeds has read the value's own bytes, and then
  each part where the one before it ended;
* `Place.Read.induction` — what holds of a value as soon as it holds of its
  parts holds of every value that is read: it has its type, and it is no deeper
  than the room;
* `located_of_at?` — every value inside a decoded value was read at a place of
  its own, `Located`;
* `borrowed_writes_back` — a borrowed array or list encodes to the very bytes it
  was read from, wherever it stands.
-/
import RosUtils.XdrCanonical

open BigEndian ExceptState

namespace Xdr

variable {Δ : Decls}

/-! ### Parts -/

/-- A value inside another one: its type, and the bound its length is held to. -/
structure Part where
  bound : Option ℕ
  ty : Ty
  value : Value

/-- The fields of a tuple, a struct or an arm. -/
def fieldParts (ts : List Ty) (vs : List Value) : List Part :=
  List.zipWith (fun t v => ⟨none, t, v⟩) ts vs

/-- The elements of a vector or an array. -/
def elementParts (t : Ty) (vs : List Value) : List Part := vs.map fun v => ⟨none, t, v⟩

/-- The parts of a value of a declared type.  The first field of a default arm is the
discriminant, which is not read a second time. -/
def Decl.parts : Decl → Value → List Part
  | .newtypeStruct t, .newtype v => [⟨none, t, v⟩]
  | .tupleStruct ts, .seq vs => fieldParts ts vs
  | .struct ts, .seq vs => fieldParts ts vs
  | .enum e, .variant i vs =>
    match e.variants[i]? with
    | some var => fieldParts var.fields vs
    | none => []
  | .xdrUnion u, .variant i vs =>
    match u.arms[i]? with
    | some arm => fieldParts arm.fields vs
    | none =>
      match u.default with
      | some (_, ts) => fieldParts ts vs.tail
      | none => []
  | _, _ => []

/-- The parts of a value, in the order in which they are read. -/
def Ty.parts (Δ : Decls) : Ty → Value → List Part
  | .counted (.vec t), .seq vs => elementParts t vs
  | .bounded c max, .newtype v => [⟨some max, .counted c, v⟩]
  | .array t _, .seq vs => elementParts t vs
  | .tuple ts, .seq vs => fieldParts ts vs
  | .option t, .some v => [⟨none, t, v⟩]
  | .named id, v => (Δ id).parts v
  | _, _ => []

/-- The length of a body with its padding. -/
def paddedLength (n : ℕ) : ℕ := n + pad4 n

/-- The tag of a declared type. -/
def Decl.ownLength : Decl → ℕ
  | .enum _ | .xdrUnion _ => 4
  | _ => 0

/-- The bytes of a value besides its parts: a word, a count, a tag, a body. -/
def Ty.ownLength (Δ : Decls) : Ty → Value → ℕ
  | .i64, _ | .u64, _ | .f64, _ => 8
  | .counted _, .string s => 4 + paddedLength s.toUTF8.data.toList.length
  | .counted _, .bytes b => 4 + paddedLength b.length
  | .counted _, .arrayRef _ encoded => 4 + paddedLength encoded.length
  | .bounded _ _, _ => 0
  | .fixedOpaque _, .fixed b => paddedLength b.length
  | .array _ _, _ | .tuple _, _ | .unit, _ | .unitStruct, _ => 0
  | .listRef _, .listRef _ encoded => paddedLength encoded.length
  | .named id, _ => (Δ id).ownLength
  | _, _ => 4

/-- Read a value whose length, if it has one, is held to `bound`. -/
def readB (P : Policy) (Δ : Decls) (room : ℕ) (bound : Option ℕ) : Ty → Parser Value
  | .counted c => readC P Δ room bound c
  | T => read P Δ room T

theorem readB_none (P : Policy) (Δ : Decls) (room : ℕ) (T : Ty) :
    readB P Δ room none T = read P Δ room T := by
  cases T with
  | counted c =>
    rw [read_eq]
    rfl
  | _ => rfl

theorem readB_of_read {P : Policy} {room : ℕ} {T : Ty} {b : Bytes} {x : Value × Bytes}
    (h : (read P Δ room T).run b = .ok x) : (readB P Δ room none T).run b = .ok x := by
  rw [readB_none]
  exact h

theorem readC_advances (P : Policy) (Δ : Decls) (room : ℕ) (bound : Option ℕ)
    (C : CountedTy Ty) : Advances 4 (readC P Δ room bound C) :=
  (readCounted_carries (Policy.Weaker.rfl P []) le_rfl
    (fun _ _ _ _ T hle => read_carries (Policy.Weaker.rfl P []) hle Δ T) bound C).adv

theorem readB_advances (P : Policy) (Δ : Decls) (room : ℕ) (bound : Option ℕ) (T : Ty) :
    Advances 4 (readB P Δ room bound T) := by
  cases T with
  | counted C => exact readC_advances P Δ room bound C
  | _ => exact read_advances P Δ room _

/-- The parts are read one after another from the pieces of the input in front of
`rest`. -/
inductive PartsRead (P : Policy) (Δ : Decls) (room : ℕ) (rest : Bytes) :
    List Part → List Bytes → Prop
  | nil : PartsRead P Δ room rest [] []
  | cons {p : Part} {ps : List Part} {c : Bytes} {cs : List Bytes}
      (hp : (readB P Δ room p.bound p.ty).run (c ++ (cs.flatten ++ rest))
        = .ok (p.value, cs.flatten ++ rest))
      (hps : PartsRead P Δ room rest ps cs) : PartsRead P Δ room rest (p :: ps) (c :: cs)

section Parts

variable {P : Policy} {room : ℕ}

theorem partsRead_fields {ts : List Ty} {vs : List Value} {b t : Bytes}
    (h : (readFields (read P Δ room) ts).run b = .ok (vs, t)) :
    ∃ cs : List Bytes, b = cs.flatten ++ t ∧ PartsRead P Δ room t (fieldParts ts vs) cs := by
  induction ts generalizing vs b with
  | nil =>
    obtain ⟨rfl, rfl⟩ := run_pure_ok.mp h
    exact ⟨[], rfl, .nil⟩
  | cons T ts ih =>
    obtain ⟨v, u, hv, h⟩ := run_bind_ok.mp h
    obtain ⟨vs', u', hvs, hpure⟩ := run_bind_ok.mp h
    obtain ⟨rfl, rfl⟩ := run_pure_ok.mp hpure
    obtain ⟨cs, rfl, hcs⟩ := ih hvs
    obtain ⟨c, rfl, -⟩ := read_advances P Δ room T hv
    refine ⟨c :: cs, by rw [List.flatten_cons, List.append_assoc], ?_⟩
    exact .cons (readB_of_read hv) hcs

theorem fieldParts_replicate {T : Ty} {n : ℕ} {vs : List Value} (h : n = vs.length) :
    fieldParts (List.replicate n T) vs = elementParts T vs := by
  subst h
  induction vs with
  | nil => rfl
  | cons v vs ih => exact congrArg (_ :: ·) ih

theorem partsRead_elements {T : Ty} {n : ℕ} {vs : List Value} {b t : Bytes}
    (h : (repeatN (read P Δ room T) n).run b = .ok (vs, t)) :
    ∃ cs : List Bytes, b = cs.flatten ++ t ∧ PartsRead P Δ room t (elementParts T vs) cs := by
  have hlen := repeatN_length h
  rw [repeatN_eq (read P Δ room)] at h
  obtain ⟨cs, hb, hcs⟩ := partsRead_fields h
  rw [fieldParts_replicate hlen.symm] at hcs
  exact ⟨cs, hb, hcs⟩

/-- One part, and nothing else. -/
theorem partsRead_single {bound : Option ℕ} {T : Ty} {v : Value} {b t : Bytes}
    (h : (readB P Δ room bound T).run b = .ok (v, t)) :
    ∃ cs : List Bytes, b = cs.flatten ++ t ∧ PartsRead P Δ room t [⟨bound, T, v⟩] cs := by
  obtain ⟨c, rfl, -⟩ := readB_advances P Δ room bound T h
  exact ⟨[c], by simp, .cons h .nil⟩

/-- A value of the type `T` was read from `b` with `t` left over: what it takes are its own
bytes and its parts, and it is a value of its type, no deeper than the room, as soon as its
parts are. -/
structure Anatomy (P : Policy) (Δ : Decls) (room : ℕ) (T : Ty) (v : Value) (b t : Bytes) :
    Prop where
  layout : ∃ (own : Bytes) (cs : List Bytes), b = own ++ (cs.flatten ++ t) ∧
    own.length = T.ownLength Δ v ∧ PartsRead P Δ (room - 1) t (T.parts Δ v) cs
  room_pos : T.parts Δ v ≠ [] → 0 < room
  typed : (∀ p ∈ T.parts Δ v, HasType Δ p.ty p.value) → HasType Δ T v
  depth : (∀ p ∈ T.parts Δ v, p.value.depth ≤ room - 1) → v.depth ≤ room

/-- A value without parts. -/
theorem Anatomy.leaf {T : Ty} {v : Value} (own : Bytes) {t : Bytes} (hparts : T.parts Δ v = [])
    (htyped : HasType Δ T v) (hdepth : v.depth ≤ room) (hown : own.length = T.ownLength Δ v) :
    Anatomy P Δ room T v (own ++ t) t where
  layout := ⟨own, [], rfl, hown, by rw [hparts]; exact .nil⟩
  room_pos h := absurd hparts h
  typed _ := htyped
  depth _ := hdepth

theorem Anatomy.word {T : Ty} {v : Value} {w : UInt32} {t : Bytes} (hparts : T.parts Δ v = [])
    (htyped : HasType Δ T v) (hdepth : v.depth = 0) (hown : T.ownLength Δ v = 4) :
    Anatomy P Δ room T v (u32ToBe w ++ t) t :=
  .leaf _ hparts htyped (hdepth.trans_le (Nat.zero_le _)) (by rw [hown, u32ToBe_length])

theorem Anatomy.dword {T : Ty} {v : Value} {w : UInt64} {t : Bytes} (hparts : T.parts Δ v = [])
    (htyped : HasType Δ T v) (hdepth : v.depth = 0) (hown : T.ownLength Δ v = 8) :
    Anatomy P Δ room T v (u64ToBe w ++ t) t :=
  .leaf _ hparts htyped (hdepth.trans_le (Nat.zero_le _)) (by rw [hown, u64ToBe_length])

theorem Anatomy.body {mode : Strictness} {bound : Option ℕ} {T : Ty} {v : Value}
    {data b t : Bytes} (h : (varBody mode bound).run b = .ok (data, t))
    (hparts : T.parts Δ v = []) (htyped : HasType Δ T v) (hdepth : v.depth = 0)
    (hown : T.ownLength Δ v = 4 + paddedLength data.length) : Anatomy P Δ room T v b t := by
  obtain ⟨w, pad, rfl, -, -, hpad, -⟩ := varBody_ok.mp h
  have hlen : (u32ToBe w ++ (data ++ pad)).length = T.ownLength Δ v := by
    rw [hown, List.length_append, List.length_append, u32ToBe_length, hpad]
    rfl
  rw [← List.append_assoc]
  exact .leaf _ hparts htyped (hdepth.trans_le (Nat.zero_le _)) hlen

/-- The value is made of these parts: it is well typed if they are, and one level deeper
than the deepest of them. -/
structure Composed (Δ : Decls) (T : Ty) (v : Value) (ps : List Part) : Prop where
  parts : T.parts Δ v = ps
  typed : (∀ p ∈ ps, HasType Δ p.ty p.value) → HasType Δ T v
  depth : ∀ n, (∀ p ∈ ps, p.value.depth ≤ n) → v.depth ≤ n + 1

/-- A value made of its parts, with a word in front of them or without. -/
theorem Anatomy.node {T : Ty} {v : Value} (own : Bytes) {b t : Bytes} {cs : List Bytes}
    {ps : List Part} (hps : Composed Δ T v ps) (hown : own.length = T.ownLength Δ v)
    (hb : b = cs.flatten ++ t) (hcs : PartsRead P Δ room t ps cs) :
    Anatomy P Δ (room + 1) T v (own ++ b) t where
  layout := ⟨own, cs, by rw [hb], hown, by rw [hps.parts]; exact hcs⟩
  room_pos _ := Nat.succ_pos room
  typed h := hps.typed (hps.parts ▸ h)
  depth h := hps.depth room (hps.parts ▸ h)

theorem forall₂_of_fieldParts {ts : List Ty} {vs : List Value} (hlen : ts.length = vs.length)
    (h : ∀ p ∈ fieldParts ts vs, HasType Δ p.ty p.value) : List.Forall₂ (HasType Δ) ts vs := by
  induction ts generalizing vs with
  | nil =>
    obtain rfl := List.length_eq_zero_iff.mp hlen.symm
    exact .nil
  | cons T ts ih =>
    obtain ⟨v, vs, rfl⟩ := List.exists_cons_of_length_eq_add_one hlen.symm
    refine .cons (h _ List.mem_cons_self) (ih (Nat.succ.inj hlen) fun p hp => ?_)
    exact h p (List.mem_cons_of_mem _ hp)

theorem depths_le_of_fieldParts {ts : List Ty} {vs : List Value} {n : ℕ}
    (hlen : ts.length = vs.length) (h : ∀ p ∈ fieldParts ts vs, p.value.depth ≤ n) :
    Value.depths vs ≤ n := by
  induction ts generalizing vs with
  | nil =>
    obtain rfl := List.length_eq_zero_iff.mp hlen.symm
    exact Nat.zero_le n
  | cons T ts ih =>
    obtain ⟨v, vs, rfl⟩ := List.exists_cons_of_length_eq_add_one hlen.symm
    rw [Value.depths]
    refine max_le (h _ List.mem_cons_self) (ih (Nat.succ.inj hlen) fun p hp => ?_)
    exact h p (List.mem_cons_of_mem _ hp)

theorem depths_le_of_elementParts {T : Ty} {vs : List Value} {n : ℕ}
    (h : ∀ p ∈ elementParts T vs, p.value.depth ≤ n) : Value.depths vs ≤ n := by
  rw [← fieldParts_replicate rfl] at h
  exact depths_le_of_fieldParts List.length_replicate h

/-- A vector or an array. -/
theorem Composed.elements {T t : Ty} {vs : List Value}
    (hparts : T.parts Δ (.seq vs) = elementParts t vs)
    (htyped : (∀ v ∈ vs, HasType Δ t v) → HasType Δ T (.seq vs)) :
    Composed Δ T (.seq vs) (elementParts t vs) where
  parts := hparts
  typed h := htyped fun v hv => h _ (List.mem_map_of_mem hv)
  depth n h := by
    have := depths_le_of_elementParts h
    rw [Value.depth]
    omega

/-- A tuple or a struct. -/
theorem Composed.fields {T : Ty} {ts : List Ty} {vs : List Value} (hlen : ts.length = vs.length)
    (hparts : T.parts Δ (.seq vs) = fieldParts ts vs)
    (htyped : List.Forall₂ (HasType Δ) ts vs → HasType Δ T (.seq vs)) :
    Composed Δ T (.seq vs) (fieldParts ts vs) where
  parts := hparts
  typed h := htyped (forall₂_of_fieldParts hlen h)
  depth n h := by
    have := depths_le_of_fieldParts hlen h
    rw [Value.depth]
    omega

/-- A variant of an enum or an arm of a union. -/
theorem Composed.variant {T : Ty} {i : ℕ} {ts : List Ty} {vs : List Value}
    (hlen : ts.length = vs.length) (hparts : T.parts Δ (.variant i vs) = fieldParts ts vs)
    (htyped : List.Forall₂ (HasType Δ) ts vs → HasType Δ T (.variant i vs)) :
    Composed Δ T (.variant i vs) (fieldParts ts vs) where
  parts := hparts
  typed h := htyped (forall₂_of_fieldParts hlen h)
  depth n h := by
    have := depths_le_of_fieldParts hlen h
    rw [Value.depth]
    omega

/-- A newtype. -/
theorem Composed.newtype {T t : Ty} {bound : Option ℕ} {v : Value}
    (hparts : T.parts Δ (.newtype v) = [⟨bound, t, v⟩])
    (htyped : HasType Δ t v → HasType Δ T (.newtype v)) :
    Composed Δ T (.newtype v) [⟨bound, t, v⟩] where
  parts := hparts
  typed h := htyped (h _ List.mem_cons_self)
  depth n h := by
    have : v.depth ≤ n := h _ List.mem_cons_self
    rw [Value.depth]
    omega

/-- A present optional. -/
theorem Composed.present (t : Ty) (v : Value) :
    Composed Δ (.option t) (.some v) [⟨none, t, v⟩] where
  parts := rfl
  typed h := .some (h _ List.mem_cons_self)
  depth n h := by
    have : v.depth ≤ n := h _ List.mem_cons_self
    rw [Value.depth]
    omega

/-- The discriminant a default arm keeps is a plain value. -/
theorem DiscTy.read_typed {dt : DiscTy} {disc : Int32} {d : Value} {b t : Bytes}
    (h : (dt.read disc).run b = .ok (d, t)) : HasType Δ dt.ty d ∧ d.depth = 0 := by
  cases dt with
  | i32 =>
    obtain ⟨rfl, -⟩ := run_pure_ok.mp h
    exact ⟨.i32 _, rfl⟩
  | xdrEnum e =>
    obtain ⟨i, rfl, hi, -⟩ := XdrEnum.read_ok.mp h
    exact ⟨.xdrEnum (List.getElem?_eq_some_iff.mp hi).1, rfl⟩

/-- A default arm. -/
theorem Composed.default {id : ℕ} {u : XdrUnion} {dt : DiscTy} {ts : List Ty} {d : Value}
    {vs : List Value} (hd : Δ id = .xdrUnion u) (hdef : u.default = some (dt, ts))
    (hdisc : HasType Δ dt.ty d ∧ d.depth = 0) (hlen : ts.length = vs.length) :
    Composed Δ (.named id) (.variant u.arms.length (d :: vs)) (fieldParts ts vs) where
  parts := by
    have hnone : u.arms[u.arms.length]? = none := List.getElem?_eq_none le_rfl
    simp only [Ty.parts, Decl.parts, hd, hnone, hdef, List.tail_cons]
  typed h := .unionDefault hd hdef hdisc.1 (forall₂_of_fieldParts hlen h)
  depth n h := by
    have := depths_le_of_fieldParts hlen h
    rw [Value.depth, Value.depths, hdisc.2]
    omega

/-- A counted value. -/
theorem readC_parts {bound : Option ℕ} {C : CountedTy Ty} {v : Value} {b t : Bytes}
    (h : (readC P Δ room bound C).run b = .ok (v, t)) :
    Anatomy P Δ room (.counted C) v b t := by
  cases C with
  | string =>
    obtain ⟨s, hs, rfl⟩ := run_map_ok.mp h
    exact .body (text_ok.mp hs).1 rfl (.string s) rfl rfl
  | str =>
    obtain ⟨s, hs, rfl⟩ := run_map_ok.mp h
    exact .body (text_ok.mp hs).1 rfl (.str s) rfl rfl
  | varOpaque =>
    obtain ⟨data, hdata, rfl⟩ := run_map_ok.mp h
    exact .body hdata rfl (.varOpaque data) rfl rfl
  | varOpaqueRef =>
    obtain ⟨data, hdata, rfl⟩ := run_map_ok.mp h
    exact .body hdata rfl (.varOpaqueRef data) rfl rfl
  | varOpaqueCow =>
    obtain ⟨data, hdata, rfl⟩ := run_map_ok.mp h
    exact .body hdata rfl (.varOpaqueCow data) rfl rfl
  | vec T =>
    obtain ⟨vs, hvs, rfl⟩ := run_map_ok.mp h
    obtain ⟨w, u, rfl, -, -, hlevel⟩ := readVec_ok.mp hvs
    obtain ⟨r, hr, rfl, helems⟩ := level_ok.mp hlevel
    obtain ⟨cs, hb, hcs⟩ := partsRead_elements helems
    exact .node _ (.elements rfl .vec) (u32ToBe_length w) hb hcs
  | varArrayRef T =>
    -- what is borrowed was read as a `Vec` first, so it is a whole number of units
    obtain ⟨r, vs, c, rfl, hvec, rfl, rfl⟩ := readArrayRef_ok.mp h
    obtain ⟨w, u, hb, -, -, hlevel⟩ := readVec_ok.mp hvec
    obtain ⟨r', hr', -, helems⟩ := level_ok.mp hlevel
    obtain ⟨e, rfl, hdvd⟩ := repeatN_advances (read_advances P Δ r' T) _ helems
    rw [← List.append_assoc] at hb
    obtain rfl := List.append_cancel_right hb
    have hdrop : (u32ToBe w ++ e).drop bytesPerXdrUnit = e := List.drop_left' (u32ToBe_length w)
    refine .leaf _ rfl (.arrayRef T _ _) (Nat.zero_le _) ?_
    show _ = 4 + paddedLength ((u32ToBe w ++ e).drop bytesPerXdrUnit).length
    rw [hdrop, paddedLength, pad4_eq_zero hdvd, List.length_append, u32ToBe_length, Nat.add_zero]

/-- A value of a declared type. -/
theorem readNamed_parts {id : ℕ} {v : Value} {b t : Bytes}
    (h : (readNamed P room (fun r _ => read P Δ r) (Δ id)).run b = .ok (v, t)) :
    Anatomy P Δ room (.named id) v b t := by
  have hown : (Ty.named id).ownLength Δ v = (Δ id).ownLength := by rw [Ty.ownLength]
  have hparts : (Ty.named id).parts Δ v = (Δ id).parts v := by rw [Ty.parts]
  cases hd : Δ id with
  | newtypeStruct T =>
    rw [hd] at h hown hparts
    obtain ⟨r, hr, rfl, h⟩ := level_ok.mp h
    obtain ⟨a, ha, rfl⟩ := run_map_ok.mp h
    obtain ⟨cs, hb, hcs⟩ := partsRead_single (readB_of_read ha)
    exact .node [] (.newtype hparts (.newtypeStruct hd)) hown.symm hb hcs
  | tupleStruct ts =>
    rw [hd] at h hown hparts
    obtain ⟨r, hr, rfl, h⟩ := level_ok.mp h
    obtain ⟨vs, hvs, rfl⟩ := run_map_ok.mp h
    obtain ⟨cs, hb, hcs⟩ := partsRead_fields hvs
    exact .node [] (.fields (readFields_length hvs) hparts (.tupleStruct hd))
      hown.symm hb hcs
  | struct ts =>
    rw [hd] at h hown hparts
    obtain ⟨r, hr, rfl, h⟩ := level_ok.mp h
    obtain ⟨vs, hvs, rfl⟩ := run_map_ok.mp h
    obtain ⟨cs, hb, hcs⟩ := partsRead_fields hvs
    exact .node [] (.fields (readFields_length hvs) hparts (.struct hd))
      hown.symm hb hcs
  | enum e =>
    rw [hd, readNamed] at h
    rw [hd] at hown hparts
    obtain ⟨tag, u, htag, hlevel⟩ := run_bind_ok.mp h
    obtain rfl := word_ok.mp htag
    obtain ⟨r, hr, rfl, hvariant⟩ := level_ok.mp hlevel
    obtain ⟨var, vs, hvar, hvs, rfl⟩ := readVariant_ok hvariant
    obtain ⟨cs, hb, hcs⟩ := partsRead_fields hvs
    simp only [Decl.parts, hvar] at hparts
    exact .node _ (.variant (readFields_length hvs) hparts (.enum hd hvar))
      ((u32ToBe_length tag).trans hown.symm) hb hcs
  | xdrUnion u =>
    rw [hd, readNamed] at h
    rw [hd] at hown hparts
    obtain ⟨r, hr, rfl, hlevel⟩ := level_ok.mp h
    obtain ⟨tag, x, htag, harm⟩ := run_bind_ok.mp hlevel
    obtain ⟨w, hw, rfl⟩ := run_map_ok.mp htag
    obtain rfl := word_ok.mp hw
    -- of a union, only the discriminant is its own
    have htag4 : (u32ToBe w).length = (Ty.named id).ownLength Δ v :=
      (u32ToBe_length w).trans hown.symm
    rcases hown' : u.armOf w.toInt32 with _ | ⟨i, arm⟩
    · rcases hdef : u.default with _ | ⟨dt, ts⟩
      · simp only [readArm, hown', hdef] at harm
        exact absurd harm run_throw_ne_ok
      · simp only [readArm, hown', hdef] at harm
        obtain ⟨d, y, hdisc, hfields⟩ := run_bind_ok.mp harm
        obtain ⟨vs, z, hvs, hpure⟩ := run_bind_ok.mp hfields
        obtain ⟨rfl, rfl⟩ := run_pure_ok.mp hpure
        obtain ⟨-, rfl⟩ := encode_disc hdisc
        obtain ⟨cs, hb, hcs⟩ := partsRead_fields hvs
        exact .node _ (.default hd hdef (DiscTy.read_typed hdisc) (readFields_length hvs)) htag4
          hb hcs
    · simp only [readArm, hown'] at harm
      obtain ⟨hi, -⟩ := XdrUnion.armOf_eq_some.mp hown'
      obtain ⟨vs, hvs, rfl⟩ := run_map_ok.mp harm
      obtain ⟨cs, hb, hcs⟩ := partsRead_fields hvs
      simp only [Decl.parts, hi] at hparts
      exact .node _ (.variant (readFields_length hvs) hparts (.unionArm hd hi)) htag4 hb hcs

/-- **The anatomy of a decoded value**: its own bytes, then its parts, each read where
the one before it ended. -/
theorem read_parts {T : Ty} {v : Value} {b t : Bytes}
    (h : (read P Δ room T).run b = .ok (v, t)) : Anatomy P Δ room T v b t := by
  rw [read_eq] at h
  cases T with
  | bool =>
    obtain ⟨a, ha, rfl⟩ := run_map_ok.mp h
    obtain ⟨w, rfl, -⟩ := boolean_ok.mp ha
    exact .word rfl (.bool a) rfl rfl
  | i8 =>
    obtain ⟨a, ha, rfl⟩ := run_map_ok.mp h
    obtain ⟨n, hn, rfl⟩ := run_map_ok.mp ha
    obtain ⟨w, rfl, -⟩ := signed_ok.mp hn
    exact .word rfl (.i8 _) rfl rfl
  | i16 =>
    obtain ⟨a, ha, rfl⟩ := run_map_ok.mp h
    obtain ⟨n, hn, rfl⟩ := run_map_ok.mp ha
    obtain ⟨w, rfl, -⟩ := signed_ok.mp hn
    exact .word rfl (.i16 _) rfl rfl
  | u8 =>
    obtain ⟨a, ha, rfl⟩ := run_map_ok.mp h
    obtain ⟨n, hn, rfl⟩ := run_map_ok.mp ha
    obtain ⟨w, rfl, -⟩ := unsigned_ok.mp hn
    exact .word rfl (.u8 _) rfl rfl
  | u16 =>
    obtain ⟨a, ha, rfl⟩ := run_map_ok.mp h
    obtain ⟨n, hn, rfl⟩ := run_map_ok.mp ha
    obtain ⟨w, rfl, -⟩ := unsigned_ok.mp hn
    exact .word rfl (.u16 _) rfl rfl
  | i32 =>
    obtain ⟨a, ha, rfl⟩ := run_map_ok.mp h
    obtain ⟨w, hw, rfl⟩ := run_map_ok.mp ha
    obtain rfl := word_ok.mp hw
    exact .word rfl (.i32 _) rfl rfl
  | i64 =>
    obtain ⟨a, ha, rfl⟩ := run_map_ok.mp h
    obtain ⟨w, hw, rfl⟩ := run_map_ok.mp ha
    obtain rfl := dword_ok.mp hw
    exact .dword rfl (.i64 _) rfl rfl
  | u32 =>
    obtain ⟨w, hw, rfl⟩ := run_map_ok.mp h
    obtain rfl := word_ok.mp hw
    exact .word rfl (.u32 w) rfl rfl
  | f32 =>
    obtain ⟨w, hw, rfl⟩ := run_map_ok.mp h
    obtain rfl := word_ok.mp hw
    exact .word rfl (.f32 w) rfl rfl
  | u64 =>
    obtain ⟨w, hw, rfl⟩ := run_map_ok.mp h
    obtain rfl := dword_ok.mp hw
    exact .dword rfl (.u64 w) rfl rfl
  | f64 =>
    obtain ⟨w, hw, rfl⟩ := run_map_ok.mp h
    obtain rfl := dword_ok.mp hw
    exact .dword rfl (.f64 w) rfl rfl
  | char =>
    obtain ⟨c, hc, rfl⟩ := run_map_ok.mp h
    obtain rfl := scalar_ok.mp hc
    exact .word rfl (.char c) rfl rfl
  | counted C => exact readC_parts h
  | bounded C max =>
    obtain ⟨r, hr, rfl, hbody⟩ := level_ok.mp h
    obtain ⟨a, ha, rfl⟩ := run_map_ok.mp hbody
    obtain ⟨cs, hb, hcs⟩ :=
      partsRead_single (show (readB P Δ r (some max) (.counted C)).run b = .ok (a, t) from ha)
    exact .node [] (.newtype rfl .bounded) rfl hb hcs
  | fixedOpaque n =>
    obtain ⟨r, hr, rfl, hbody⟩ := level_ok.mp h
    obtain ⟨data, hdata, rfl⟩ := run_map_ok.mp hbody
    obtain ⟨pad, rfl, hlen, hpad, -⟩ := fixedBody_ok.mp hdata
    refine .leaf _ rfl (.fixedOpaque hlen) (Nat.le_add_left 1 r) ?_
    show _ = paddedLength data.length
    rw [List.length_append, hpad, paddedLength, hlen]
  | array T n =>
    obtain ⟨r, hr, rfl, hbody⟩ := level_ok.mp h
    obtain ⟨vs, hvs, rfl⟩ := run_map_ok.mp hbody
    have hlen : n = vs.length := List.length_replicate.symm.trans (readFields_length hvs)
    obtain ⟨cs, hb, hcs⟩ := partsRead_fields hvs
    rw [fieldParts_replicate hlen] at hcs
    exact .node [] (.elements rfl (.array hlen.symm)) rfl hb hcs
  | tuple ts =>
    obtain ⟨r, hr, rfl, hbody⟩ := level_ok.mp h
    obtain ⟨vs, hvs, rfl⟩ := run_map_ok.mp hbody
    obtain ⟨cs, hb, hcs⟩ := partsRead_fields hvs
    exact .node [] (.fields (readFields_length hvs) rfl .tuple) rfl hb hcs
  | unit =>
    obtain ⟨rfl, rfl⟩ := run_pure_ok.mp h
    exact .leaf [] rfl .unit (Nat.zero_le _) rfl
  | unitStruct =>
    obtain ⟨rfl, rfl⟩ := run_pure_ok.mp h
    exact .leaf [] rfl .unitStruct (Nat.zero_le _) rfl
  | option T =>
    obtain ⟨present, u, hbool, hbody⟩ := run_bind_ok.mp h
    obtain ⟨w, rfl, -⟩ := boolean_ok.mp hbool
    cases present with
    | false =>
      obtain ⟨rfl, rfl⟩ := run_pure_ok.mp hbody
      exact .word rfl (.none T) rfl rfl
    | true =>
      obtain ⟨r, hr, rfl, hsome⟩ := level_ok.mp hbody
      obtain ⟨a, ha, rfl⟩ := run_map_ok.mp hsome
      obtain ⟨cs, hb, hcs⟩ := partsRead_single (readB_of_read ha)
      exact .node _ (.present T a) (u32ToBe_length w) hb hcs
  | listRef T =>
    -- each element takes whole units, so a list is never padded
    rw [← read_eq] at h
    obtain ⟨r, vs, c, rfl, hchain, rfl, rfl⟩ := readListRef_ok.mp h
    obtain ⟨c', hc', hdvd⟩ := chain_advances (readOption_advances P Δ r T) _ hchain
    obtain rfl := List.append_cancel_right hc'
    refine .leaf _ rfl (.listRef T _ _) (Nat.zero_le _) ?_
    show c.length = paddedLength c.length
    rw [paddedLength, pad4_eq_zero hdvd, Nat.add_zero]
  | xdrEnum e =>
    obtain ⟨disc, u, hdisc, hread⟩ := run_bind_ok.mp h
    obtain ⟨w, hw, rfl⟩ := run_map_ok.mp hdisc
    obtain rfl := word_ok.mp hw
    obtain ⟨i, rfl, hi, rfl⟩ := XdrEnum.read_ok.mp hread
    exact .word rfl (.xdrEnum (List.getElem?_eq_some_iff.mp hi).1) rfl rfl
  | named id => exact readNamed_parts h

theorem readB_parts {bound : Option ℕ} {T : Ty} {v : Value} {b t : Bytes}
    (h : (readB P Δ room bound T).run b = .ok (v, t)) : Anatomy P Δ room T v b t := by
  cases T with
  | counted C => exact readC_parts h
  | _ => exact read_parts h

end Parts

/-! ### Positions in a value and in the input -/

/-- The value at a position of another one: the part of that number, and then the part of
that part, and so on. -/
def Part.at? (Δ : Decls) : Part → List ℕ → Option Part
  | p, [] => some p
  | p, i :: path => (p.ty.parts Δ p.value)[i]?.bind fun q => q.at? Δ path

/-- A value with the place where it is read: the input from there on, and what is left of
the input behind it. -/
structure Place extends Part where
  room : ℕ
  input : Bytes
  rest : Bytes

/-- The decoder reads the value in that place. -/
def Place.Read (P : Policy) (Δ : Decls) (x : Place) : Prop :=
  (readB P Δ x.room x.bound x.ty).run x.input = .ok (x.value, x.rest)

/-- The place `y` of part `i` of what is read in the place `x`: behind the own bytes of
`x` and behind the parts before it. -/
def PartAt (P : Policy) (Δ : Decls) (x : Place) (i : ℕ) (y : Place) : Prop :=
  ∃ (own : Bytes) (cs : List Bytes), x.input = own ++ (cs.flatten ++ x.rest) ∧
    own.length = x.ty.ownLength Δ x.value ∧
    PartsRead P Δ (x.room - 1) x.rest (x.ty.parts Δ x.value) cs ∧
    (x.ty.parts Δ x.value)[i]? = some y.toPart ∧ y.room = x.room - 1 ∧
    y.input = (cs.drop i).flatten ++ x.rest ∧ y.rest = (cs.drop (i + 1)).flatten ++ x.rest

theorem PartAt.room_eq {P : Policy} {x y : Place} {i : ℕ} (h : PartAt P Δ x i y) :
    y.room = x.room - 1 := by
  obtain ⟨-, -, -, -, -, -, hroom, -⟩ := h
  exact hroom

/-- The place of the value at a position. -/
inductive Located (P : Policy) (Δ : Decls) : Place → List ℕ → Place → Prop
  | here (x : Place) : Located P Δ x [] x
  | part {x y z : Place} {i : ℕ} {path : List ℕ} (hy : PartAt P Δ x i y)
      (hz : Located P Δ y path z) : Located P Δ x (i :: path) z

section Places

variable {P : Policy}

/-- Any part is read from the pieces that begin with its own. -/
theorem PartsRead.get {room : ℕ} {rest : Bytes} {ps : List Part} {cs : List Bytes}
    (h : PartsRead P Δ room rest ps cs) {i : ℕ} {q : Part} (hi : ps[i]? = some q) :
    (readB P Δ room q.bound q.ty).run ((cs.drop i).flatten ++ rest)
      = .ok (q.value, (cs.drop (i + 1)).flatten ++ rest) := by
  induction h generalizing i with
  | nil => cases hi
  | cons hp _ ih =>
    cases i with
    | zero =>
      obtain rfl := Option.some.inj hi
      rw [List.drop_zero, List.flatten_cons, List.append_assoc]
      exact hp
    | succ i => exact ih hi

theorem Place.Read.parts {x : Place} (hx : x.Read P Δ) :
    Anatomy P Δ x.room x.ty x.value x.input x.rest := readB_parts hx

/-- A part of a value that was read was read as well, further on in the input. -/
theorem Place.Read.partAt {x : Place} (hx : x.Read P Δ) {i : ℕ} {q : Part}
    (hi : (x.ty.parts Δ x.value)[i]? = some q) :
    ∃ y : Place, y.toPart = q ∧ PartAt P Δ x i y ∧ y.Read P Δ ∧
      ∃ before, x.input = before ++ y.input := by
  obtain ⟨own, cs, hinput, hown, hcs⟩ := hx.parts.layout
  refine ⟨⟨q, x.room - 1, (cs.drop i).flatten ++ x.rest, (cs.drop (i + 1)).flatten ++ x.rest⟩,
    rfl, ⟨own, cs, hinput, hown, hcs, hi, rfl, rfl, rfl⟩, hcs.get hi,
    own ++ (cs.take i).flatten, ?_⟩
  show x.input = own ++ (cs.take i).flatten ++ ((cs.drop i).flatten ++ x.rest)
  rw [hinput, List.append_assoc, ← List.append_assoc (cs.take i).flatten,
    ← List.flatten_append, List.take_append_drop]

/-- **Induction over what is read**: from the parts to the whole.  A part is read with less
room than the whole. -/
theorem Place.Read.induction {M : Place → Prop}
    (step : ∀ x : Place, x.Read P Δ → (∀ i y, PartAt P Δ x i y → y.Read P Δ → M y) → M x)
    {x : Place} (hx : x.Read P Δ) : M x := by
  induction hroom : x.room using Nat.strong_induction_on generalizing x with
  | _ room ih =>
    subst hroom
    refine step x hx fun i y hxy hy => ih y.room ?_ hy rfl
    obtain ⟨-, -, -, -, -, hi, hroom, -⟩ := hxy
    have hpos := hx.parts.room_pos (List.ne_nil_of_mem (List.mem_of_getElem? hi))
    omega

/-- What holds in the place of every part holds of every part. -/
theorem Place.Read.forall_parts {x : Place} (hx : x.Read P Δ) {M : Part → Prop}
    (h : ∀ i y, PartAt P Δ x i y → y.Read P Δ → M y.toPart) :
    ∀ p ∈ x.ty.parts Δ x.value, M p := by
  intro p hp
  obtain ⟨i, hi⟩ := List.getElem?_of_mem hp
  obtain ⟨y, rfl, hxy, hy, -⟩ := hx.partAt hi
  exact h i y hxy hy

/-- What is read is a value of its type. -/
theorem Place.Read.hasType {x : Place} (hx : x.Read P Δ) : HasType Δ x.ty x.value :=
  hx.induction fun _ hx ih => hx.parts.typed (hx.forall_parts ih)

/-- What is read is no deeper than the room it was read with. -/
theorem Place.Read.depth_le {x : Place} (hx : x.Read P Δ) : x.value.depth ≤ x.room := by
  refine hx.induction (M := fun x => x.value.depth ≤ x.room) fun x hx ih => ?_
  refine hx.parts.depth (hx.forall_parts fun i y hxy hy => ?_)
  exact hxy.room_eq ▸ ih i y hxy hy

theorem noNuls_of_forall {vs : List Value} (h : ∀ v ∈ vs, v.NoNul) : Value.NoNuls vs := by
  induction vs with
  | nil => trivial
  | cons v vs ih =>
    exact ⟨h v List.mem_cons_self, ih fun w hw => h w (List.mem_cons_of_mem v hw)⟩

theorem noNuls_of_fieldParts {ts : List Ty} {vs : List Value}
    (hvs : List.Forall₂ (HasType Δ) ts vs) (h : ∀ p ∈ fieldParts ts vs, p.value.NoNul) :
    Value.NoNuls vs := by
  induction hvs with
  | nil => trivial
  | cons _ _ ih =>
    obtain ⟨hv, hvs⟩ := List.forall_mem_cons.mp h
    exact ⟨hv, ih hvs⟩

/-- **What is strictly read has no NUL in its strings.** -/
theorem Place.Read.noNul (hs : P.mode = .strict) {x : Place} (hx : x.Read P Δ) :
    x.value.NoNul := by
  refine hx.induction (M := fun x => x.value.NoNul) fun x hx ih => ?_
  have hparts : ∀ p ∈ x.ty.parts Δ x.value, p.value.NoNul := hx.forall_parts ih
  have htype := hx.hasType
  obtain ⟨⟨bound, T, v⟩, room, input, rest⟩ := x
  dsimp only at hparts htype ⊢
  cases htype with
  | string | str =>
    obtain ⟨a, ha, hv⟩ := run_map_ok.mp hx
    cases hv
    exact (text_ok.mp ha).2 hs
  | vec _ | array _ _ => exact noNuls_of_forall fun v hv => hparts _ (List.mem_map_of_mem hv)
  | tuple h => exact noNuls_of_fieldParts h hparts
  | bounded _ | some _ => exact hparts _ List.mem_cons_self
  | newtypeStruct hd _ =>
    rw [Ty.parts, hd] at hparts
    exact hparts _ List.mem_cons_self
  | tupleStruct hd h =>
    rw [Ty.parts, hd] at hparts
    exact noNuls_of_fieldParts h hparts
  | struct hd h =>
    rw [Ty.parts, hd] at hparts
    exact noNuls_of_fieldParts h hparts
  | enum hd hi h =>
    simp only [Ty.parts, Decl.parts, hd, hi] at hparts
    exact noNuls_of_fieldParts h hparts
  | unionArm hd hi h =>
    simp only [Ty.parts, Decl.parts, hd, hi] at hparts
    exact noNuls_of_fieldParts h hparts
  | @unionDefault _ u dt _ d _ hd hdef hdisc h =>
    have hnone : u.arms[u.arms.length]? = none := List.getElem?_eq_none le_rfl
    simp only [Ty.parts, Decl.parts, hd, hnone, hdef] at hparts
    -- the discriminant is a number or an enumerator
    have hfirst : d.NoNul := by cases dt <;> cases hdisc <;> trivial
    exact ⟨hfirst, noNuls_of_fieldParts h hparts⟩
  | _ => trivial

/-- **Every value inside a decoded value was read in a place of its own.** -/
theorem located_of_at? {x : Place} (hx : x.Read P Δ) {path : List ℕ} {q : Part}
    (hq : x.toPart.at? Δ path = some q) :
    ∃ y : Place, y.toPart = q ∧ Located P Δ x path y ∧ y.Read P Δ ∧
      ∃ before, x.input = before ++ y.input := by
  induction path generalizing x with
  | nil => exact ⟨x, Option.some.inj hq, .here x, hx, [], rfl⟩
  | cons i path ih =>
    obtain ⟨p, hi, hpath⟩ := Option.bind_eq_some_iff.mp hq
    obtain ⟨y, rfl, hxy, hy, before, hbefore⟩ := hx.partAt hi
    obtain ⟨z, hz, hyz, hread, before', hbefore'⟩ := ih hy hpath
    refine ⟨z, hz, .part hxy hyz, hread, before ++ before', ?_⟩
    rw [hbefore, hbefore', List.append_assoc]

end Places

/-! ### Borrowed arrays and lists -/

/-- A type whose values are spans of the input. -/
inductive Ty.Borrowed : Ty → Prop
  | array (t : Ty) : Ty.Borrowed (.counted (.varArrayRef t))
  | list (t : Ty) : Ty.Borrowed (.listRef t)

/-- A bound only refuses: what is read under one is read without one. -/
theorem readArrayRef_unbounded {P : Policy} {room : ℕ} {bound : Option ℕ} {T : Ty}
    {x : Value × Bytes} {b : Bytes} (h : (readC P Δ room bound (.varArrayRef T)).run b = .ok x) :
    (readC P Δ room none (.varArrayRef T)).run b = .ok x := by
  obtain ⟨r, vs, c, hroom, hvec, hb, hv⟩ := readArrayRef_ok.mp h
  obtain ⟨w, u, hw, -, hfits, hlevel⟩ := readVec_ok.mp hvec
  refine readArrayRef_ok.mpr ⟨r, vs, c, hroom, readVec_ok.mpr ?_, hb, hv⟩
  exact ⟨w, u, hw, nofun, hfits, hlevel⟩

/-- A borrowed array or list encodes to what was read, in either mode. -/
theorem Place.Read.toBytes_borrowed {P : Policy} {x : Place} (hx : x.Read P Δ)
    (hty : x.ty.Borrowed) : ∃ p, toBytes Δ x.ty x.value = .ok p ∧ x.input = p ++ x.rest := by
  obtain ⟨⟨bound, T, v⟩, room, input, rest⟩ := x
  rw [toBytes_eq]
  cases hty with
  | array t =>
    obtain ⟨c, hc, henc⟩ := encode_readArrayRef (readArrayRef_unbounded hx)
    exact ⟨c, henc, hc⟩
  | list t =>
    obtain ⟨c, hc, henc⟩ := encode_readListRef hx
    exact ⟨c, henc, hc⟩

/-- The place of a whole decode. -/
def Place.whole (T : Ty) (v : Value) (b rest : Bytes) : Place :=
  ⟨⟨none, T, v⟩, Deserializer.defaultMaxDepth, b, rest⟩

theorem Place.whole_read {T : Ty} {v : Value} {b rest : Bytes} {mode : Strictness}
    (h : fromPrefixWith Δ T b mode = .ok (v, rest)) :
    (Place.whole T v b rest).Read (Policy.ofInput mode Deserializer.defaultMaxDepth) Δ :=
  readB_of_read (decode_ok.mp h)

/-- **Borrowed arrays and lists write back what they were read from.**  A borrowed array or
list decoded from the front of an input encodes to exactly the bytes in front of the tail;
and at any position of a larger decoded value, to exactly the input bytes at the place it
was read from.  Both hold in either mode. -/
theorem borrowed_writes_back (T : Ty) (b : Bytes) (mode : Strictness) (v : Value) (rest : Bytes)
    (h : fromPrefixWith Δ T b mode = .ok (v, rest)) :
    (T.Borrowed → ∃ p, toBytes Δ T v = .ok p ∧ p ++ rest = b) ∧
    ∀ path q, (Part.mk none T v).at? Δ path = some q → q.ty.Borrowed →
      ∃ (y : Place) (before p : Bytes), y.toPart = q ∧
        Located (Policy.ofInput mode Deserializer.defaultMaxDepth) Δ (.whole T v b rest) path y ∧
        toBytes Δ q.ty q.value = .ok p ∧ b = before ++ y.input ∧ y.input = p ++ y.rest := by
  have hread := Place.whole_read h
  constructor
  · intro hT
    obtain ⟨p, hp, hb⟩ := hread.toBytes_borrowed hT
    exact ⟨p, hp, hb.symm⟩
  · intro path q hq hborrowed
    obtain ⟨y, rfl, hlocated, hy, before, hbefore⟩ := located_of_at? hread hq
    obtain ⟨p, hp, hinput⟩ := hy.toBytes_borrowed hborrowed
    exact ⟨y, before, p, rfl, hlocated, hp, hbefore, hinput⟩

/-- A lenient decode of a flag and a borrowed array of flags, both spelled as no encoder
does, with two bytes behind them. -/
theorem borrowed_writes_back_lenient :
    fromPrefixWith nodeDecls (.tuple [.bool, .counted (.varArrayRef .bool)])
        [0, 0, 0, 7, 0, 0, 0, 1, 0, 0, 5, 0, 1, 2] .lenient
      = .ok (.seq [.bool true, .arrayRef 1 [0, 0, 5, 0]], [1, 2]) ∧
    ∃ (before p rest : Bytes),
      toBytes nodeDecls (.counted (.varArrayRef .bool)) (.arrayRef 1 [0, 0, 5, 0]) = .ok p ∧
      [0, 0, 0, 7, 0, 0, 0, 1, 0, 0, 5, 0, 1, 2] = before ++ (p ++ rest) := by
  have h : fromPrefixWith nodeDecls (.tuple [.bool, .counted (.varArrayRef .bool)])
      [0, 0, 0, 7, 0, 0, 0, 1, 0, 0, 5, 0, 1, 2] .lenient
      = .ok (.seq [.bool true, .arrayRef 1 [0, 0, 5, 0]], [1, 2]) := rfl
  obtain ⟨y, before, p, -, -, hp, hb, hinput⟩ :=
    (borrowed_writes_back _ _ _ _ _ h).2 [1] _ rfl (.array .bool)
  exact ⟨h, before, p, y.rest, hp, hb.trans (congrArg (before ++ ·) hinput)⟩

end Xdr
