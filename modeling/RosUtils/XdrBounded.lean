/-
What a bound acts on.

`Bounded` hands its bound to the codec under a sentinel name.  The codec keeps it
pending, and holds to it the next length it writes or reads, wherever that is.
That the next length is always the bounded value's own is what this file is
about.

* `toBytes_bounded` — a bounded value is `TooLong` or encodes as the value in it;
* `encode_raised` — with every bound of a type raised, an encoding is the same,
  unless the own length of a bounded value is over its bound;
* `deserialize_bounded_long`, `deserialize_bounded` — the same for a decode;
* `deserializeGuarding_eq` — a decoder that stops if a part is ever met with a
  bound pending that is not its own decodes what the decoder decodes.
-/
import RosUtils.XdrSafe
import RosUtils.XdrMonotone

open BigEndian ExceptState

namespace Xdr

variable {Δ : Decls}

/-! ### A bounded value is encoded -/

/-- The length a bound is held against: the bytes of a string or of opaque data, the
elements of an array. -/
def Value.count : Value → ℕ
  | .string s => s.toUTF8.data.toList.length
  | .bytes b => b.length
  | .seq vs => vs.length
  | .arrayRef len _ => len
  | _ => 0

/-- The bound is looked at before anything of the value is written. -/
theorem encodeLen_some (max len : ℕ) (k : Bytes → Except Error Bytes) :
    encodeLen (some max) len >>= k =
      if max < len then .error (.tooLong len max) else encodeLen none len >>= k := by
  show (if max < len then _ else _) >>= k = _
  by_cases h : max < len
  · rw [if_pos h, if_pos h]
    rfl
  · rw [if_neg h, if_neg h]
    rfl

theorem encodeVar_some (max : ℕ) (b : Bytes) :
    encodeVar (some max) b =
      if max < b.length then .error (.tooLong b.length max) else encodeVar none b :=
  encodeLen_some max b.length fun n => .ok (n ++ padded b)

/-- A bound is held against the own length of a value, before anything else of it. -/
theorem encode_some {c : CountedTy Ty} {v : Value} (hv : HasType Δ (.counted c) v) (max : ℕ) :
    encode Δ (some max) (.counted c) v =
      if max < v.count then .error (.tooLong v.count max)
      else encode Δ none (.counted c) v := by
  cases hv with
  | string s | str s => exact encodeVar_some max _
  | varOpaque b | varOpaqueRef b | varOpaqueCow b => exact encodeVar_some max b
  | @vec t vs _ =>
    simp only [encode]
    exact encodeLen_some max vs.length _
  | arrayRef t len encoded =>
    simp only [encode]
    exact encodeLen_some max len fun n => .ok (n ++ padded encoded)

theorem encode_bounded {c : CountedTy Ty} {v : Value} (hv : HasType Δ (.counted c) v)
    (bound : Option ℕ) (max : ℕ) :
    encode Δ bound (.bounded c max) (.newtype v) =
      if max < v.count then .error (.tooLong v.count max)
      else encode Δ none (.counted c) v := by
  rw [encode, encode_some hv]

section Serialize

variable {W : Type} [Write W]

theorem putLen_some (s : Serializer W) (max len : ℕ) :
    Serializer.putLen { s with boundPending := some max } len =
      if max < len then .error (.tooLong len max)
      else Serializer.putLen { s with boundPending := none } len := rfl

/-- A length written with a bound pending, and what comes after it. -/
theorem putLen_some_bind (s : Serializer W) (max len : ℕ)
    (k : Serializer W → Except Error (Serializer W)) :
    Serializer.putLen { s with boundPending := some max } len >>= k =
      if max < len then .error (.tooLong len max)
      else Serializer.putLen { s with boundPending := none } len >>= k := by
  rw [putLen_some]
  by_cases h : max < len
  · rw [if_pos h, if_pos h]
    rfl
  · rw [if_neg h, if_neg h]

/-- A bounded value goes out as the value in it, to every writer and from every serializer
with nothing pending: so it does inside a larger value. -/
theorem serialize_bounded {c : CountedTy Ty} {v : Value} (hv : HasType Δ (.counted c) v)
    (max : ℕ) {s : Serializer W} (hf : s.fixedPending = false) (hb : s.boundPending = none) :
    Value.serialize Δ (.bounded c max) (.newtype v) s =
      if max < v.count then .error (.tooLong v.count max)
      else Value.serialize Δ (.counted c) v s := by
  obtain ⟨w, fixedPending, boundPending⟩ := s
  obtain rfl : fixedPending = false := hf
  obtain rfl : boundPending = none := hb
  cases hv with
  | string a | str a => exact putLen_some_bind ⟨w, false, none⟩ max _ fun s => s.putBody _
  | varOpaque b | varOpaqueRef b | varOpaqueCow b =>
    exact putLen_some_bind ⟨w, false, none⟩ max b.length fun s => s.putBody b
  | @vec t vs _ =>
    exact putLen_some_bind ⟨w, false, none⟩ max vs.length fun s =>
      Value.serializeElements Δ t vs s
  | arrayRef t len encoded =>
    exact putLen_some_bind ⟨w, false, none⟩ max len fun s => s.serializeRawFixed encoded

end Serialize

/-! ### Bounds elsewhere in the value -/

mutual
/-- A type with every bound in it changed. -/
def Ty.rebound (f : ℕ → ℕ) : Ty → Ty
  | .counted c => .counted (Ty.reboundCounted f c)
  | .bounded c max => .bounded (Ty.reboundCounted f c) (f max)
  | .array t n => .array (t.rebound f) n
  | .tuple ts => .tuple (Ty.rebounds f ts)
  | .option t => .option (t.rebound f)
  | .listRef t => .listRef (t.rebound f)
  | T => T

def Ty.reboundCounted (f : ℕ → ℕ) : CountedTy Ty → CountedTy Ty
  | .vec t => .vec (t.rebound f)
  | .varArrayRef t => .varArrayRef (t.rebound f)
  | .string => .string
  | .str => .str
  | .varOpaque => .varOpaque
  | .varOpaqueRef => .varOpaqueRef
  | .varOpaqueCow => .varOpaqueCow

def Ty.rebounds (f : ℕ → ℕ) : List Ty → List Ty
  | [] => []
  | t :: ts => t.rebound f :: Ty.rebounds f ts
end

def Variant.rebound (f : ℕ → ℕ) : Variant → Variant
  | .unit => .unit
  | .newtype t => .newtype (t.rebound f)
  | .tuple ts => .tuple (Ty.rebounds f ts)
  | .struct ts => .struct (Ty.rebounds f ts)

def SerdeEnum.rebound (f : ℕ → ℕ) (e : SerdeEnum) : SerdeEnum where
  variants := e.variants.map (Variant.rebound f)
  small := by
    rw [List.length_map]
    exact e.small

def Arm.rebound (f : ℕ → ℕ) (arm : Arm) : Arm where
  disc := arm.disc
  fields := Ty.rebounds f arm.fields

def XdrUnion.rebound (f : ℕ → ℕ) (u : XdrUnion) : XdrUnion where
  name := u.name
  arms := u.arms.map (Arm.rebound f)
  default := u.default.map fun (dt, ts) => (dt, Ty.rebounds f ts)
  nodup := by
    rw [List.map_map]
    exact u.nodup

def Decl.rebound (f : ℕ → ℕ) : Decl → Decl
  | .newtypeStruct t => .newtypeStruct (t.rebound f)
  | .tupleStruct ts => .tupleStruct (Ty.rebounds f ts)
  | .struct ts => .struct (Ty.rebounds f ts)
  | .enum e => .enum (e.rebound f)
  | .xdrUnion u => .xdrUnion (u.rebound f)

/-- A program with every bound in its declarations changed. -/
def Decls.rebound (f : ℕ → ℕ) (Δ : Decls) : Decls := fun id => (Δ id).rebound f

/-- Somewhere in the value a length is over its own bound. -/
def Part.Over (Δ : Decls) (p : Part) (len max : ℕ) : Prop :=
  ∃ path q, p.at? Δ path = some q ∧ q.bound = some max ∧ q.value.count = len ∧ max < len

theorem Part.Over.own {p : Part} {max : ℕ} (hb : p.bound = some max) (h : max < p.value.count) :
    p.Over Δ p.value.count max := ⟨[], p, rfl, hb, rfl, h⟩

theorem Part.Over.of_part {p q : Part} {len max : ℕ} (hq : q ∈ p.ty.parts Δ p.value)
    (h : q.Over Δ len max) : p.Over Δ len max := by
  obtain ⟨path, r, hr, hover⟩ := h
  obtain ⟨i, hi⟩ := List.mem_iff_getElem?.mp hq
  refine ⟨i :: path, r, ?_, hover⟩
  rw [Part.at?, hi]
  exact hr

/-- `x` is `y`, unless a length is over its bound. -/
def Raised (far : ℕ → ℕ → Prop) (x y : Except Error Bytes) : Prop :=
  x = y ∨ ∃ len max, far len max ∧ x = .error (.tooLong len max)

section Raised

variable {far far' : ℕ → ℕ → Prop} {x y : Except Error Bytes}

theorem Raised.rfl (x : Except Error Bytes) : Raised far x x := .inl (Eq.refl x)

theorem Raised.bind {g h : Bytes → Except Error Bytes} (hx : Raised far x y)
    (hg : ∀ a, Raised far (g a) (h a)) : Raised far (x >>= g) (y >>= h) := by
  obtain rfl | ⟨len, max, hover, rfl⟩ := hx
  · cases x with
    | error e => exact .rfl _
    | ok a => exact hg a
  · exact .inr ⟨len, max, hover, Eq.refl _⟩

theorem Raised.map (g : Bytes → Bytes) (hx : Raised far x y) :
    Raised far (g <$> x) (g <$> y) := by
  rw [map_eq_pure_bind, map_eq_pure_bind]
  exact hx.bind fun a => .rfl _

theorem Raised.mono (hx : Raised far x y) (h : ∀ len max, far len max → far' len max) :
    Raised far' x y := by
  obtain hx | ⟨len, max, hover, hx⟩ := hx
  · exact .inl hx
  · exact .inr ⟨len, max, h len max hover, hx⟩

end Raised

/-- The parts of a value that are raised raise the value. -/
theorem Raised.of_parts {bound : Option ℕ} {T : Ty} {v : Value} {ps : List Part}
    {x y : Except Error Bytes} (hparts : T.parts Δ v = ps)
    (h : Raised (fun len max => ∃ q ∈ ps, q.Over Δ len max) x y) :
    Raised ((Part.mk bound T v).Over Δ) x y := by
  refine h.mono fun len max hq => ?_
  obtain ⟨q, hq, hlong⟩ := hq
  rw [← hparts] at hq
  exact .of_part hq hlong

/-- What is raised of the first part or of the others is raised of all of them. -/
theorem Raised.cons {p : Part} {ps : List Part} {x y x' y' : Except Error Bytes}
    (hfirst : Raised (p.Over Δ) x y)
    (hrest : Raised (fun len max => ∃ q ∈ ps, q.Over Δ len max) x' y')
    (g : Bytes → Bytes → Bytes) :
    Raised (fun len max => ∃ q ∈ p :: ps, q.Over Δ len max) (x >>= fun a => g a <$> x')
      (y >>= fun a => g a <$> y') := by
  refine (hfirst.mono fun len max h => ?_).bind fun a => (hrest.mono fun len max h => ?_).map _
  · exact ⟨_, List.mem_cons_self, h⟩
  · obtain ⟨q, hq, hlong⟩ := h
    exact ⟨q, List.mem_cons_of_mem _ hq, hlong⟩

theorem Raised.of_single {bound : Option ℕ} {T : Ty} {v : Value} {p : Part}
    {x y : Except Error Bytes} (hparts : T.parts Δ v = [p]) (h : Raised (p.Over Δ) x y) :
    Raised ((Part.mk bound T v).Over Δ) x y :=
  .of_parts hparts (h.mono fun _ _ hp => ⟨p, List.mem_singleton_self p, hp⟩)

theorem XdrUnion.defaultDisc_rebound (f : ℕ → ℕ) (u : XdrUnion) (dt : DiscTy) (d : Value) :
    (u.rebound f).defaultDisc dt d = u.defaultDisc dt d := by
  have hdiscs : (u.rebound f).arms.map Arm.disc = u.arms.map Arm.disc := by
    rw [XdrUnion.rebound, List.map_map]
    rfl
  rw [XdrUnion.defaultDisc, XdrUnion.defaultDisc, hdiscs]
  rfl

section Rebound

variable {f : ℕ → ℕ}

theorem encodeLen_raised (hf : ∀ n, n ≤ f n) {far : ℕ → ℕ → Prop} {bound : Option ℕ} {len : ℕ}
    (h : ∀ max, bound = some max → max < len → far len max) :
    Raised far (encodeLen bound len) (encodeLen (bound.map f) len) := by
  cases bound with
  | none => exact .rfl _
  | some max =>
    by_cases hlen : len > max
    · exact .inr ⟨len, max, h max rfl hlen, if_pos hlen⟩
    · have hraised : ¬ len > f max := by
        have := hf max
        omega
      refine .inl ?_
      show (if len > max then _ else _) = if len > f max then _ else _
      rw [if_neg hlen, if_neg hraised]

theorem encodeVar_raised (hf : ∀ n, n ≤ f n) {far : ℕ → ℕ → Prop} {bound : Option ℕ} {b : Bytes}
    (h : ∀ max, bound = some max → max < b.length → far b.length max) :
    Raised far (encodeVar bound b) (encodeVar (bound.map f) b) :=
  (encodeLen_raised hf h).map _

mutual
/-- The step of `encode_raised`, over the type and the value.  A pair that does not match
is refused whatever the bounds are. -/
theorem encode_raised (hf : ∀ n, n ≤ f n) (Δ : Decls) (bound : Option ℕ) (T : Ty)
    (v : Value) :
    Raised ((Part.mk bound T v).Over Δ) (encode Δ bound T v)
      (encode (Δ.rebound f) (bound.map f) (T.rebound f) v) := by
  cases T with
  | bool | i8 | i16 | i32 | i64 | u8 | u16 | u32 | u64 | f32 | f64 | char | fixedOpaque | unit
  | unitStruct | listRef | xdrEnum => cases v <;> exact .rfl _
  | counted c =>
    cases c with
    | string | str =>
      cases v
      case string a => exact encodeVar_raised hf fun max hb hlen => .own hb hlen
      all_goals exact .rfl _
    | varOpaque | varOpaqueRef | varOpaqueCow =>
      cases v
      case bytes b => exact encodeVar_raised hf fun max hb hlen => .own hb hlen
      all_goals exact .rfl _
    | vec t =>
      cases v
      case seq vs =>
        simp only [Ty.rebound, Ty.reboundCounted, encode]
        refine (encodeLen_raised hf fun max hb hlen => .own hb hlen).bind fun n => ?_
        exact .map _ (.of_parts rfl (encodeElements_raised hf Δ t vs))
      all_goals exact .rfl _
    | varArrayRef t =>
      cases v
      case arrayRef len b =>
        simp only [Ty.rebound, Ty.reboundCounted, encode]
        exact (encodeLen_raised hf fun max hb hlen => .own hb hlen).map _
      all_goals exact .rfl _
  | bounded c max =>
    cases v
    case newtype v => exact .of_single rfl (encode_raised hf Δ (some max) (.counted c) v)
    all_goals exact .rfl _
  | array t n =>
    cases v
    case seq vs => exact .of_parts rfl (encodeElements_raised hf Δ t vs)
    all_goals exact .rfl _
  | tuple ts =>
    cases v
    case seq vs => exact .of_parts rfl (encodeFields_raised hf Δ ts vs)
    all_goals exact .rfl _
  | option t =>
    cases v
    case some v => exact .map _ (.of_single rfl (encode_raised hf Δ none t v))
    all_goals exact .rfl _
  | named id =>
    -- a declared type has no bound of its own: the bounds stand in its fields
    have hΔ : Δ.rebound f id = (Δ id).rebound f := rfl
    have hparts (v : Value) : Ty.parts Δ (.named id) v = (Δ id).parts v := rfl
    cases v
    case newtype v =>
      simp only [Ty.rebound, encode, hΔ]
      cases hd : Δ id
      case newtypeStruct t =>
        exact .of_single ((hparts _).trans (by rw [hd]; rfl)) (encode_raised hf Δ none t v)
      all_goals exact .rfl _
    case seq vs =>
      simp only [Ty.rebound, encode, hΔ]
      cases hd : Δ id
      case tupleStruct ts =>
        exact .of_parts ((hparts _).trans (by rw [hd]; rfl)) (encodeFields_raised hf Δ ts vs)
      case struct ts =>
        exact .of_parts ((hparts _).trans (by rw [hd]; rfl)) (encodeFields_raised hf Δ ts vs)
      all_goals exact .rfl _
    case variant i vs =>
      simp only [Ty.rebound, encode, hΔ]
      cases hd : Δ id
      case enum e =>
        simp only [Decl.rebound, SerdeEnum.rebound, List.getElem?_map]
        have hp : ∀ var, e.variants[i]? = some var →
            Ty.parts Δ (.named id) (.variant i vs) = fieldParts var.fields vs := by
          intro var hvar
          rw [hparts, hd, Decl.parts, hvar]
        rcases hi : e.variants[i]? with _ | _ | t | ts | ts
        · exact .rfl _
        · exact .rfl _
        · match vs with
          | [v] => exact .map _ (.of_single (hp _ hi) (encode_raised hf Δ none t v))
          | [] => exact .rfl _
          | _ :: _ :: _ => exact .rfl _
        · exact .map _ (.of_parts (hp _ hi) (encodeFields_raised hf Δ ts vs))
        · exact .map _ (.of_parts (hp _ hi) (encodeFields_raised hf Δ ts vs))
      case xdrUnion u =>
        have harms : (u.rebound f).arms[i]? = u.arms[i]?.map (Arm.rebound f) := List.getElem?_map
        have hdefault : (u.rebound f).default
            = u.default.map fun (dt, ts) => (dt, Ty.rebounds f ts) := rfl
        simp only [Decl.rebound, harms, hdefault]
        cases hi : u.arms[i]? with
        | some arm =>
          refine .map _ (.of_parts ?_ (encodeFields_raised hf Δ arm.fields vs))
          rw [hparts, hd, Decl.parts, hi]
        | none =>
          rcases hdef : u.default with _ | ⟨dt, ts⟩
          · exact .rfl _
          match vs with
          | [] => exact .rfl _
          | d :: vs =>
            -- the discriminant is an `i32` or an enumeration, in which there are no bounds
            simp only [Option.map_none, Option.map_some, XdrUnion.defaultDisc_rebound]
            cases u.defaultDisc dt d with
            | error e => exact .rfl _
            | ok disc =>
              refine .map _ (.of_parts ?_ (encodeFields_raised hf Δ ts vs))
              rw [hparts, hd, Decl.parts, hi, hdef]
              rfl
      all_goals exact .rfl _
    all_goals exact .rfl _

theorem encodeFields_raised (hf : ∀ n, n ≤ f n) (Δ : Decls) (ts : List Ty)
    (vs : List Value) :
    Raised (fun len max => ∃ q ∈ fieldParts ts vs, q.Over Δ len max) (encodeFields Δ ts vs)
      (encodeFields (Δ.rebound f) (Ty.rebounds f ts) vs) := by
  cases vs with
  | nil => cases ts <;> exact .rfl _
  | cons v vs =>
    cases ts with
    | nil => exact .rfl _
    | cons t ts =>
      have hfirst := encode_raised hf Δ none t v
      have hrest := encodeFields_raised hf Δ ts vs
      simp only [Ty.rebounds, encodeFields]
      exact hfirst.cons hrest _

theorem encodeElements_raised (hf : ∀ n, n ≤ f n) (Δ : Decls) (t : Ty) (vs : List Value) :
    Raised (fun len max => ∃ q ∈ elementParts t vs, q.Over Δ len max) (encodeElements Δ t vs)
      (encodeElements (Δ.rebound f) (t.rebound f) vs) := by
  cases vs with
  | nil => exact .rfl _
  | cons v vs =>
    have hfirst := encode_raised hf Δ none t v
    have hrest := encodeElements_raised hf Δ t vs
    simp only [encodeElements]
    exact hfirst.cons hrest _
end

end Rebound

/-- A part of a value that encodes has an encoding. -/
theorem encode_at? {p q : Part} (hp : p.Sound Δ) {path : List ℕ} (hq : p.at? Δ path = some q)
    {e : Bytes} (h : encode Δ p.bound p.ty p.value = .ok e) :
    ∃ e', encode Δ q.bound q.ty q.value = .ok e' := by
  induction path generalizing p e with
  | nil =>
    cases hq
    exact ⟨e, h⟩
  | cons i path ih =>
    obtain ⟨r, hr, hq⟩ := Option.bind_eq_some_iff.mp hq
    obtain ⟨own, es, -, -, hes⟩ := encode_parts hp.typed h
    have hmem : r ∈ p.ty.parts Δ p.value := List.mem_of_getElem? hr
    obtain ⟨e', he'⟩ := hes.of_mem hmem
    exact ih (parts_sound hp.typed r hmem) hq he'

/-- A value with a length over its bound has no encoding. -/
theorem encode_ne_ok_of_long {p : Part} (hp : p.Sound Δ) {len max : ℕ} (h : p.Over Δ len max)
    (e : Bytes) : encode Δ p.bound p.ty p.value ≠ .ok e := by
  intro he
  obtain ⟨path, q, hq, hb, rfl, hlong⟩ := h
  obtain ⟨e', he'⟩ := encode_at? hp hq he
  obtain ⟨hv, hnone | ⟨c, hc⟩⟩ := hp.at? hq
  · rw [hb] at hnone
    cases hnone
  · rw [hc] at hv he'
    rw [hb, encode_some hv, if_pos hlong] at he'
    cases he'

/-- **Raising the bounds of a type changes an encoding only where a length is over its own
bound.**  If there is such a length, the value has no encoding, and the error is about such
a length, or it is what is wrong with the value whatever the bounds are. -/
theorem toBytes_rebound {f : ℕ → ℕ} (hf : ∀ n, n ≤ f n) {T : Ty} {v : Value}
    (hv : HasType Δ T v) :
    ((∀ len max, ¬ (Part.mk none T v).Over Δ len max) →
      toBytes Δ T v = toBytes (Δ.rebound f) (T.rebound f) v) ∧
    ((∃ len max, (Part.mk none T v).Over Δ len max) → ∃ e, toBytes Δ T v = .error e ∧
      (toBytes (Δ.rebound f) (T.rebound f) v = .error e ∨
        ∃ len max, (Part.mk none T v).Over Δ len max ∧ e = .tooLong len max)) := by
  have hraised := encode_raised hf Δ none T v
  rw [toBytes_eq, toBytes_eq]
  constructor
  · intro hwithin
    obtain h | ⟨len, max, hlong, -⟩ := hraised
    · exact h
    · exact absurd hlong (hwithin len max)
  · rintro ⟨len, max, hlong⟩
    match he : encode Δ none T v with
    | .ok e => exact absurd he (encode_ne_ok_of_long ⟨hv, .inl rfl⟩ hlong e)
    | .error e =>
      refine ⟨e, rfl, ?_⟩
      rw [he] at hraised
      obtain h | ⟨len, max, hlong, h⟩ := hraised
      · exact .inl h.symm
      · cases h
        exact .inr ⟨len, max, hlong, rfl⟩

theorem toBytes_bounded {c : CountedTy Ty} {v : Value} (hv : HasType Δ (.counted c) v)
    (max : ℕ) :
    toBytes Δ (.bounded c max) (.newtype v) =
      if max < v.count then .error (.tooLong v.count max) else toBytes Δ (.counted c) v := by
  rw [toBytes_eq, toBytes_eq, encode_bounded hv]

/-! ### A bounded value is decoded -/

theorem lengthWord_long {max : ℕ} {w : UInt32} (rest : Bytes) (h : max < w.toNat) :
    (lengthWord (some max)).run (u32ToBe w ++ rest) = .error (.tooLong w.toNat max) := by
  have hword : (UInt32.toNat <$> word).run (u32ToBe w ++ rest) = .ok (w.toNat, rest) :=
    run_map_of_ok (word_ok.mpr rfl)
  rw [lengthWord, run_bind_of_ok hword]
  dsimp only
  rw [if_pos h]
  rfl

theorem lengthWord_short {max : ℕ} {b : Bytes}
    (h : ∀ (w : UInt32) rest, b = u32ToBe w ++ rest → w.toNat ≤ max) :
    (lengthWord (some max)).run b = (lengthWord none).run b := by
  rw [lengthWord, lengthWord]
  cases hword : (UInt32.toNat <$> word).run b with
  | error e => rw [run_bind_of_error hword, run_bind_of_error hword]
  | ok x =>
    obtain ⟨w, hw, hx⟩ := run_map_ok.mp hword
    have hle : x.1 ≤ max := by
      rw [← hx]
      exact h w x.2 (word_ok.mp hw)
    rw [run_bind_of_ok hword, run_bind_of_ok hword]
    dsimp only
    rw [if_neg (Nat.not_lt.mpr hle)]

/-- The levels entered before the length of a counted type is read. -/
def CountedTy.levels : CountedTy Ty → ℕ
  | .varArrayRef _ => 1
  | _ => 0

section Read

variable {P : Policy} {room : ℕ} {child : Child room} {bound : Option ℕ} {b : Bytes}

theorem varBody_of_length {mode : Strictness} {bound' : Option ℕ}
    (h : (lengthWord bound).run b = (lengthWord bound').run b) :
    (varBody mode bound).run b = (varBody mode bound').run b :=
  run_bind_congr h

theorem readVec_of_length {bound' : Option ℕ} (t : Ty)
    (h : (lengthWord bound).run b = (lengthWord bound').run b) :
    (readVec P room child bound t).run b = (readVec P room child bound' t).run b :=
  run_bind_congr (run_bind_congr h)

/-- A counted type looks at its bound in its length only. -/
theorem readCounted_of_length {bound' : Option ℕ} (c : CountedTy Ty)
    (h : (lengthWord bound).run b = (lengthWord bound').run b) :
    (readCounted P room child bound c).run b = (readCounted P room child bound' c).run b := by
  cases c with
  | string | str => exact run_map_congr (run_bind_congr (varBody_of_length h))
  | varOpaque | varOpaqueRef | varOpaqueCow => exact run_map_congr (varBody_of_length h)
  | vec t => exact run_map_congr (readVec_of_length t h)
  | varArrayRef t =>
    cases room with
    | zero => rfl
    | succ r => exact run_bind_congr (span_congr (readVec_of_length t h))

theorem readVec_of_error {e : Error} (t : Ty) (h : (lengthWord bound).run b = .error e) :
    (readVec P room child bound t).run b = .error e :=
  run_bind_of_error (run_bind_of_error h)

/-- A counted type reads its length before anything else. -/
theorem readCounted_of_error {e : Error} {c : CountedTy Ty} (hroom : c.levels ≤ room)
    (h : (lengthWord bound).run b = .error e) :
    (readCounted P room child bound c).run b = .error e := by
  have hbody : (varBody P.mode bound).run b = .error e := run_bind_of_error h
  cases c with
  | string | str => exact run_map_of_error (run_bind_of_error hbody)
  | varOpaque | varOpaqueRef | varOpaqueCow => exact run_map_of_error hbody
  | vec t => exact run_map_of_error (readVec_of_error t h)
  | varArrayRef t =>
    obtain ⟨r, rfl⟩ := Nat.exists_eq_add_of_le' hroom
    exact run_bind_of_error (span_of_error (readVec_of_error t h))

end Read

theorem read_bounded (P : Policy) (r : ℕ) (c : CountedTy Ty) (max : ℕ) :
    read P Δ (r + 1) (.bounded c max) = Value.newtype <$> readC P Δ r (some max) c := by
  rw [read_eq]
  rfl

/-- **A bounded value whose length is over its bound is `TooLong`**, whatever follows the
length and wherever the value stands. -/
theorem deserialize_bounded_long {c : CountedTy Ty} {max : ℕ} {d : Deserializer}
    (hf : d.fixedPending = false) (hb : d.boundPending = none) (hpos : d.pos ≤ d.input.length)
    (hdepth : d.depth + 1 + c.levels ≤ d.maxDepth) {w : UInt32} {rest : Bytes}
    (hinput : d.remaining = u32ToBe w ++ rest) (h : max < w.toNat) :
    ((Ty.bounded c max).deserialize Δ).exec d = .error (.error (.tooLong w.toNat max)) := by
  obtain ⟨r, hr⟩ : ∃ r, d.maxDepth - d.depth = r + 1 := ⟨d.maxDepth - d.depth - 1, by omega⟩
  have hlevels : c.levels ≤ r := by omega
  have hread : (readC (Policy.ofInput d.mode d.maxDepth) Δ r (some max) c).run
      (u32ToBe w ++ rest) = .error (.tooLong w.toNat max) :=
    readCounted_of_error hlevels (lengthWord_long rest h)
  rw [deserialize_eq Δ _ hf hb hpos, hr, read_bounded, hinput]
  exact congrArg d.lift (run_map_of_error hread)

/-- **Any other bounded value is decoded as the value in it**, by the same deserializer one
level deeper. -/
theorem deserialize_bounded {c : CountedTy Ty} {max : ℕ} {d : Deserializer}
    (hf : d.fixedPending = false) (hb : d.boundPending = none) (hpos : d.pos ≤ d.input.length)
    (hdepth : d.depth < d.maxDepth)
    (h : ∀ (w : UInt32) rest, d.remaining = u32ToBe w ++ rest → w.toNat ≤ max) :
    ((Ty.bounded c max).deserialize Δ).exec d =
      (fun (v, d') => (.newtype v, { d' with depth := d.depth })) <$>
        ((Ty.counted c).deserialize Δ).exec { d with depth := d.depth + 1 } := by
  obtain ⟨r, hr⟩ : ∃ r, d.maxDepth - d.depth = r + 1 := ⟨d.maxDepth - d.depth - 1, by omega⟩
  have hr' : d.maxDepth - (d.depth + 1) = r := by omega
  have hread : (readC (Policy.ofInput d.mode d.maxDepth) Δ r (some max) c).run d.remaining
      = (read (Policy.ofInput d.mode d.maxDepth) Δ r (.counted c)).run d.remaining := by
    rw [read_eq]
    exact readCounted_of_length c (lengthWord_short h)
  rw [deserialize_eq Δ _ hf hb hpos, hr, read_bounded, run_map_congr hread,
    deserialize_eq Δ (.counted c) (d := { d with depth := d.depth + 1 }) hf hb hpos]
  show _ = _ <$> Deserializer.lift _ ((read _ Δ (d.maxDepth - (d.depth + 1)) _).run d.remaining)
  rw [hr', StateT.run_map]
  cases (read (Policy.ofInput d.mode d.maxDepth) Δ r (.counted c)).run d.remaining <;> rfl

/-! ### Bounds elsewhere in the input -/

/-- Read a part, and stop if it is met with anything but `bound` pending, or leaves a bound
pending. -/
def guarding (bound : Option ℕ) (rec : Ty → De Value) (t : Ty) : De Value := do
  let d ← get
  if d.boundPending = bound then do
    let v ← rec t
    let d ← get
    if d.boundPending = none then pure v else panics
  else panics

/-- `deserializeWith`, where only the value right inside a `Bounded` may be met with a bound
pending, and that bound is its own. -/
def deserializeGuarding (Δ : Decls) (rec : Ty → De Value) : Ty → De Value
  | .bounded c max =>
    deserializeTupleStruct .sentinelBounded max (boundedVisitor (guarding (some max) rec) c max)
  | T => deserializeWith Δ (guarding none rec) T

/-- `n` levels of `deserializeGuarding`. -/
def guardingAt (Δ : Decls) : ℕ → Ty → De Value
  | 0 => deserializeGuarding Δ fun _ => panics
  | n + 1 => deserializeGuarding Δ (guardingAt Δ n)

/-- `T::deserialize`, guarding the bounds. -/
def Ty.deserializeGuarding (Δ : Decls) (T : Ty) : De Value := fun d =>
  guarding none (guardingAt Δ (d.maxDepth - d.depth)) T d

section Guarding

variable {mode : Strictness} {limit room : ℕ} {rec : Ty → De Value}

theorem guarding_refines {bound : Option ℕ} {t : Ty} {p : Parser Value}
    (h : Refines mode limit room bound (rec t) p) :
    Refines mode limit room bound (guarding bound rec t) p := by
  refine h.congr fun d hd => ?_
  rw [guarding, StateT.run_bind, StateT.run_get, pure_bind, if_pos hd.bound]
  match hp : p.run d.remaining with
  | .error e =>
    obtain ⟨d', hrun, -⟩ := h.run_of_error hd hp
    rw [hrun]
    exact run_bind_of_error hrun
  | .ok (v, rest) =>
    have hrun := h.run_of_ok hd hp
    rw [hrun, run_bind_of_ok hrun]
    rfl

theorem deserializeGuarding_of_ne {T : Ty} (hT : ∀ c max, T ≠ .bounded c max) :
    deserializeGuarding Δ rec T = deserializeWith Δ (guarding none rec) T := by
  cases T with
  | bounded c max => exact absurd rfl (hT c max)
  | _ => rfl

theorem Computes.guarding (h : ∀ r < room, Computes Δ mode limit r rec) :
    Computes Δ mode limit room (deserializeGuarding Δ rec) := by
  have hrec : ∀ r (hr : r < room) (T : Ty), Refines mode limit r none (Xdr.guarding none rec T)
      (read (Policy.ofInput mode limit) Δ r T) := fun r hr T => guarding_refines ((h r hr).reads T)
  refine ⟨fun T => ?_, fun max c => deserializeCounted_refines hrec (some max) c⟩
  rw [read_eq]
  by_cases hT : ∃ c max, T = .bounded c max
  · obtain ⟨c, max, rfl⟩ := hT
    exact deserializeBounded_refines fun r hr => guarding_refines ((h r hr).holds max c)
  · have hne : ∀ c max, T ≠ .bounded c max := fun c max heq => hT ⟨c, max, heq⟩
    rw [deserializeGuarding_of_ne hne]
    exact deserializeWith_refines_of_ne hrec Δ hne

theorem guardingAt_computes (Δ : Decls) (fuel : ℕ) :
    ∀ room ≤ fuel, Computes Δ mode limit room (guardingAt Δ fuel) := by
  induction fuel with
  | zero =>
    intro room hroom
    obtain rfl : room = 0 := by omega
    exact .guarding Computes.bottom
  | succ fuel ih =>
    intro room hroom
    exact .guarding fun r hr => ih r (by omega)

end Guarding

/-- **No part is met with a bound that is not its own**: the guarding decoder decodes what
the decoder decodes, from every state with nothing pending. -/
theorem deserializeGuarding_eq (Δ : Decls) (T : Ty) {d : Deserializer}
    (hf : d.fixedPending = false) (hb : d.boundPending = none) (hpos : d.pos ≤ d.input.length) :
    (T.deserializeGuarding Δ).exec d = (T.deserialize Δ).exec d := by
  rw [deserialize_eq Δ T hf hb hpos]
  exact (guarding_refines ((guardingAt_computes Δ _ _ le_rfl).reads T)).run
    ⟨rfl, rfl, rfl, hf, hb, hpos⟩

/-! ### A bound acts on its own length -/

/-- A deserializer with nothing pending, within its input: one that is about to decode a
value, at the start of the input or anywhere in a larger value. -/
structure Deserializer.Ready (d : Deserializer) : Prop where
  fixed : d.fixedPending = false
  bound : d.boundPending = none
  pos : d.pos ≤ d.input.length

/-- What a bound does, and what it leaves alone. -/
structure BoundsOwnLength (Δ : Decls) : Prop where
  /-- A bounded value is refused for its length, or encodes as the value in it. -/
  encodes : ∀ c max v, HasType Δ (.counted c) v →
    toBytes Δ (.bounded c max) (.newtype v) =
      if max < v.count then .error (.tooLong v.count max) else toBytes Δ (.counted c) v
  /-- So it does inside a larger value, into any writer. -/
  serializes : ∀ (W : Type) [Write W] c max v (s : Serializer W), HasType Δ (.counted c) v →
    s.fixedPending = false → s.boundPending = none →
    Value.serialize Δ (.bounded c max) (.newtype v) s =
      if max < v.count then .error (.tooLong v.count max)
      else Value.serialize Δ (.counted c) v s
  /-- The other bounds of a value, however it is nested, change nothing in its encoding as
  long as each is met by its own length. -/
  within : ∀ f : ℕ → ℕ, (∀ n, n ≤ f n) → ∀ T v, HasType Δ T v →
    (∀ len max, ¬ (Part.mk none T v).Over Δ len max) →
    toBytes Δ T v = toBytes (Δ.rebound f) (T.rebound f) v
  /-- If one is not, the value has no encoding, and the error is about a length over its own
  bound, or what it is without the bounds. -/
  beyond : ∀ f : ℕ → ℕ, (∀ n, n ≤ f n) → ∀ T v, HasType Δ T v →
    (∃ len max, (Part.mk none T v).Over Δ len max) →
    ∃ e, toBytes Δ T v = .error e ∧
      (toBytes (Δ.rebound f) (T.rebound f) v = .error e ∨
        ∃ len max, (Part.mk none T v).Over Δ len max ∧ e = .tooLong len max)
  /-- A first word over the bound ends the decode, whatever follows it. -/
  refuses : ∀ c max (d : Deserializer) (w : UInt32) rest, d.Ready →
    d.depth + 1 + c.levels ≤ d.maxDepth → d.remaining = u32ToBe w ++ rest → max < w.toNat →
    ((Ty.bounded c max).deserialize Δ).exec d = .error (.error (.tooLong w.toNat max))
  /-- Any other input is decoded as the value inside is, one level deeper. -/
  decodes : ∀ c max (d : Deserializer), d.Ready → d.depth < d.maxDepth →
    (∀ (w : UInt32) rest, d.remaining = u32ToBe w ++ rest → w.toNat ≤ max) →
    ((Ty.bounded c max).deserialize Δ).exec d =
      (fun (v, d') => (.newtype v, { d' with depth := d.depth })) <$>
        ((Ty.counted c).deserialize Δ).exec { d with depth := d.depth + 1 }
  /-- No part of any value is met with a bound pending that is not its own, nor leaves one
  pending, so that every value is decoded from a deserializer that is ready. -/
  guards : ∀ (T : Ty) (d : Deserializer), d.Ready →
    (T.deserializeGuarding Δ).exec d = (T.deserialize Δ).exec d

/-- **A bound acts on its own length and on nothing else**, in every program, for every
counted type and every nesting of bounded values. -/
theorem bounds_own_length (Δ : Decls) : BoundsOwnLength Δ where
  encodes _ max _ hv := toBytes_bounded hv max
  serializes _ _ _ max _ _ hv hf hb := serialize_bounded hv max hf hb
  within _ hf _ _ hv := (toBytes_rebound hf hv).1
  beyond _ hf _ _ hv := (toBytes_rebound hf hv).2
  refuses _ _ _ _ _ hd hdepth hinput h :=
    deserialize_bounded_long hd.fixed hd.bound hd.pos hdepth hinput h
  decodes _ _ _ hd hdepth h := deserialize_bounded hd.fixed hd.bound hd.pos hdepth h
  guards T _ hd := deserializeGuarding_eq Δ T hd.fixed hd.bound hd.pos

/-- A vector of two opaque values: the inner bound holds the second one, and the outer bound
has no part in that. -/
example :
    toBytes nodeDecls (.bounded (.vec (.bounded .varOpaque 1)) 2)
        (.newtype (.seq [.newtype (.bytes [7]), .newtype (.bytes [8, 9])]))
      = .error (.tooLong 2 1) := rfl

end Xdr
