/-
What an encode means.

`encode Δ bound T v` is the encoding of a value as a byte string: no sink, no
pending flags, only the bound that the length of a counted type is held to.
The serializer writes it, in some pieces, to any sink:

* `serialize_emits` — from a serializer with nothing but the bound pending, what a
  value writes is its encoding, and nothing is left pending;
* `serialize_eq` — on a sink that takes all it is given, a value appends its encoding;
* `toBytes_eq` — `toBytes` is `encode`.
-/
import RosUtils.BigEndian
import RosUtils.ExceptState
import RosUtils.XdrSer

open BigEndian ExceptState

namespace Xdr

/-! ### The encoding of a value -/

/-- A length within the wire's own bound. -/
def encodeCount (len : ℕ) : Except Error Bytes :=
  if len ≤ u32Max then .ok (u32ToBe (UInt32.ofNat len))
  else .error (.unsupported "a length beyond u32::MAX")

/-- A length, held to a bound if there is one. -/
def encodeLen (bound : Option ℕ) (len : ℕ) : Except Error Bytes :=
  match bound with
  | none => encodeCount len
  | some max => if len > max then .error (.tooLong len max) else encodeCount len

/-- A body and its padding. -/
def padded (b : Bytes) : Bytes := b ++ List.replicate (pad4 b.length) 0

def encodeVar (bound : Option ℕ) (b : Bytes) : Except Error Bytes :=
  (· ++ padded b) <$> encodeLen bound b.length

def XdrEnum.encode (e : XdrEnum) (i : ℕ) : Except Error Bytes :=
  match e.discs[i]? with
  | some disc => .ok (u32ToBe disc.toUInt32)
  | none => .error (.unsupported "a value of another type")

mutual
/-- The encoding of a value of the type `T`, whose length, if it has one, is held
to `bound`. -/
def encode (Δ : Decls) (bound : Option ℕ) : Ty → Value → Except Error Bytes
  | .bool, .bool b => .ok (u32ToBe b.toUInt32)
  | .i8, .i8 v => .ok (u32ToBe v.toInt32.toUInt32)
  | .i16, .i16 v => .ok (u32ToBe v.toInt32.toUInt32)
  | .i32, .i32 v => .ok (u32ToBe v.toUInt32)
  | .i64, .i64 v => .ok (u64ToBe v.toUInt64)
  | .u8, .u8 v => .ok (u32ToBe v.toUInt32)
  | .u16, .u16 v => .ok (u32ToBe v.toUInt32)
  | .u32, .u32 v => .ok (u32ToBe v)
  | .u64, .u64 v => .ok (u64ToBe v)
  | .f32, .f32 bits => .ok (u32ToBe bits)
  | .f64, .f64 bits => .ok (u64ToBe bits)
  | .char, .char c => .ok (u32ToBe c.val)
  | .counted .string, .string v => encodeVar bound v.toUTF8.data.toList
  | .counted .str, .string v => encodeVar bound v.toUTF8.data.toList
  | .counted .varOpaque, .bytes b => encodeVar bound b
  | .counted .varOpaqueRef, .bytes b => encodeVar bound b
  | .counted .varOpaqueCow, .bytes b => encodeVar bound b
  | .counted (.vec t), .seq vs => do
      let n ← encodeLen bound vs.length
      (n ++ ·) <$> encodeElements Δ t vs
  | .counted (.varArrayRef _), .arrayRef len encoded =>
      (· ++ padded encoded) <$> encodeLen bound len
  | .bounded c max, .newtype v => encode Δ (.some max) (.counted c) v
  | .fixedOpaque _, .fixed b => .ok (padded b)
  | .array t _, .seq vs => encodeElements Δ t vs
  | .tuple ts, .seq vs => encodeFields Δ ts vs
  | .unit, .unit => .ok []
  | .unitStruct, .unit => .ok []
  | .option _, .none => .ok (u32ToBe 0)
  | .option t, .some v => (u32ToBe 1 ++ ·) <$> encode Δ .none t v
  | .listRef _, .listRef _ encoded => .ok (padded encoded)
  | .xdrEnum e, .enumerator i => e.encode i
  | .named id, .newtype v =>
    match Δ id with
    | .newtypeStruct t => encode Δ .none t v
    | _ => .error (.unsupported "a value of another type")
  | .named id, .seq vs =>
    match Δ id with
    | .tupleStruct ts => encodeFields Δ ts vs
    | .struct ts => encodeFields Δ ts vs
    | _ => .error (.unsupported "a value of another type")
  | .named id, .variant i vs =>
    match Δ id with
    | .enum e =>
      match e.variants[i]? with
      | .some .unit => .ok (u32ToBe (UInt32.ofNat i))
      | .some (.newtype t) =>
        match vs with
        | [v] => (u32ToBe (UInt32.ofNat i) ++ ·) <$> encode Δ .none t v
        | _ => .error (.unsupported "a value of another type")
      | .some (.tuple ts) => (u32ToBe (UInt32.ofNat i) ++ ·) <$> encodeFields Δ ts vs
      | .some (.struct ts) => (u32ToBe (UInt32.ofNat i) ++ ·) <$> encodeFields Δ ts vs
      | .none => .error (.unsupported "a value of another type")
    | .xdrUnion u =>
      match u.arms[i]? with
      | .some arm => (u32ToBe arm.disc.toUInt32 ++ ·) <$> encodeFields Δ arm.fields vs
      | .none =>
        match u.default, vs with
        | .some (dt, ts), d :: vs => do
          let disc ← u.defaultDisc dt d
          (u32ToBe disc.toUInt32 ++ ·) <$> encodeFields Δ ts vs
        | _, _ => .error (.unsupported "a value of another type")
    | _ => .error (.unsupported "a value of another type")
  | _, _ => .error (.unsupported "a value of another type")

def encodeFields (Δ : Decls) : List Ty → List Value → Except Error Bytes
  | [], [] => .ok []
  | t :: ts, v :: vs => do
      let a ← encode Δ .none t v
      (a ++ ·) <$> encodeFields Δ ts vs
  | _, _ => .error (.unsupported "a value of another type")

def encodeElements (Δ : Decls) : Ty → List Value → Except Error Bytes
  | _, [] => .ok []
  | t, v :: vs => do
      let a ← encode Δ .none t v
      (a ++ ·) <$> encodeElements Δ t vs
end

/-! ### Sinks that take everything -/

/-- A sink on which a write never fails, and two writes are one. -/
class LawfulWrite (W : Type) [Write W] where
  append : W → Bytes → W
  writeAll_eq : ∀ (w : W) b, Write.writeAll w b = .ok (append w b)
  append_nil : ∀ w, append w [] = w
  append_append : ∀ w a b, append (append w a) b = append w (a ++ b)

instance : LawfulWrite Bytes where
  append w b := w ++ b
  writeAll_eq _ _ := rfl
  append_nil := List.append_nil
  append_append := List.append_assoc

instance : LawfulWrite CountWriter where
  append w b := ⟨w.n + b.length⟩
  writeAll_eq _ _ := rfl
  append_nil _ := rfl
  append_append w a b := by simp [Nat.add_assoc]

section Serialize

variable {W : Type} [Write W]

/-- The serializer with nothing pending. -/
def Serializer.idle (s : Serializer W) : Serializer W := { w := s.w }

/-- Writes, one after another. -/
def Serializer.putAll (s : Serializer W) (chunks : List Bytes) : Except Error (Serializer W) :=
  chunks.foldlM Serializer.put s

/-- `f` writes what `r` says, when nothing but `bound` is pending, and leaves nothing pending:
if `r` is an error, it comes after some writes. -/
def Emits (bound : Option ℕ) (f : Serializer W → Except Error (Serializer W))
    (r : Except Error Bytes) : Prop :=
  ∃ chunks : List Bytes, (∀ b, r = .ok b → chunks.flatten = b) ∧
    ∀ s, s.fixedPending = false → s.boundPending = bound →
      f s = s.idle.putAll chunks >>= fun s => r.map fun _ => s

omit [Write W] in
theorem Serializer.idle_of_pending {s : Serializer W} (hf : s.fixedPending = false)
    (hb : s.boundPending = none) : s.idle = s := Serializer.ext rfl hf.symm hb.symm

/-- A write touches nothing that is pending. -/
theorem Serializer.put_idle {s s' : Serializer W} {b : Bytes} (h : s.idle.put b = .ok s') :
    s'.idle = s' := by
  rw [put] at h
  split at h
  · cases h
    rfl
  · cases h

theorem Serializer.putAll_idle {s s' : Serializer W} {chunks : List Bytes}
    (h : s.idle.putAll chunks = .ok s') : s'.idle = s' := by
  induction chunks generalizing s with
  | nil =>
    cases h
    rfl
  | cons b chunks ih =>
    rw [putAll, List.foldlM_cons] at h
    obtain ⟨s₁, hput, hrest⟩ := except_bind_ok.mp h
    rw [← put_idle hput] at hrest
    exact ih hrest

section Rules

variable {bound : Option ℕ} {f g : Serializer W → Except Error (Serializer W)}
  {r r' : Except Error Bytes}

variable (W) in
theorem Emits.error (bound : Option ℕ) (e : Error) :
    Emits bound (fun _ : Serializer W => .error e) (.error e) :=
  ⟨[], nofun, fun _ _ _ => rfl⟩

variable (W) in
theorem Emits.nil : Emits none (fun s : Serializer W => .ok s) (.ok []) := by
  refine ⟨[], fun b hb => Except.ok.inj hb, fun s hf hb => ?_⟩
  show Except.ok s = Except.ok s.idle
  rw [Serializer.idle_of_pending hf hb]

variable (W) in
theorem Emits.put (b : Bytes) : Emits none (fun s : Serializer W => s.put b) (.ok b) := by
  refine ⟨[b], fun b' hb' => ?_, fun s hf hb => ?_⟩
  · rw [List.flatten_singleton]
    exact Except.ok.inj hb'
  · show s.put b = _
    rw [Serializer.idle_of_pending hf hb, Serializer.putAll, List.foldlM_cons]
    cases s.put b with
    | error e => rfl
    | ok s' => rfl

theorem Emits.bind (hf : Emits bound f r) (hg : Emits none g r') :
    Emits bound (fun s => f s >>= g) (do let a ← r; (a ++ ·) <$> r') := by
  obtain ⟨c, hc, hf⟩ := hf
  obtain ⟨c', hc', hg⟩ := hg
  cases r with
  | error e =>
    -- the second part is not reached
    refine ⟨c, nofun, fun s h1 h2 => ?_⟩
    dsimp only
    rw [hf s h1 h2]
    cases s.idle.putAll c with
    | error e => rfl
    | ok s' => rfl
  | ok a =>
    refine ⟨c ++ c', fun b hb => ?_, fun s h1 h2 => ?_⟩
    · cases r' with
      | error e => cases hb
      | ok a' =>
        rw [List.flatten_append, hc a rfl, hc' a' rfl]
        exact Except.ok.inj hb
    · dsimp only
      rw [hf s h1 h2, Serializer.putAll, Serializer.putAll, List.foldlM_append]
      cases hput : s.idle.putAll c with
      | error e =>
        rw [Serializer.putAll] at hput
        rw [hput]
        rfl
      | ok s₁ =>
        have hidle := Serializer.putAll_idle hput
        rw [Serializer.putAll] at hput
        rw [hput]
        show g s₁ = s₁.putAll c' >>= _
        rw [hg s₁ (by rw [← hidle]; rfl) (by rw [← hidle]; rfl), hidle]
        cases r' with
        | error e => rfl
        | ok a' => rfl

theorem Emits.map_append (b : Bytes) (hf : Emits bound f r) (hg : Emits none g (.ok b)) :
    Emits bound (fun s => f s >>= g) ((· ++ b) <$> r) := by
  have h := hf.bind hg
  cases r <;> exact h

/-- What is written does not depend on a flag that is taken first. -/
theorem Emits.taken (hf : Emits bound f r) :
    Emits bound (fun s => f { s with fixedPending := false }) r := by
  obtain ⟨c, hc, hf⟩ := hf
  exact ⟨c, hc, fun s _ h2 => hf { s with fixedPending := false } rfl h2⟩

/-- A bound that is set is pending. -/
theorem Emits.bounded {max : ℕ} (hf : Emits (some max) f r) :
    Emits none (fun s => f { s with boundPending := some max }) r := by
  obtain ⟨c, hc, hf⟩ := hf
  exact ⟨c, hc, fun s h1 _ => hf { s with boundPending := some max } h1 rfl⟩

/-- **Nothing is left pending.** -/
theorem Emits.settles (h : Emits bound f r) {s s' : Serializer W} (hf : s.fixedPending = false)
    (hb : s.boundPending = bound) (hs : f s = .ok s') :
    s'.fixedPending = false ∧ s'.boundPending = none := by
  obtain ⟨c, -, h⟩ := h
  rw [h s hf hb] at hs
  obtain ⟨s₁, hput, hr⟩ := except_bind_ok.mp hs
  have hidle := Serializer.putAll_idle hput
  cases r with
  | error e => cases hr
  | ok b =>
    cases hr
    rw [← hidle]
    exact ⟨rfl, rfl⟩

end Rules

theorem putLen_emits (bound : Option ℕ) (len : ℕ) :
    Emits bound (fun s : Serializer W => s.putLen len) (encodeLen bound len) := by
  have hcount : Emits none (fun s : Serializer W => s.putCount len) (encodeCount len) := by
    simp only [Serializer.putCount, encodeCount]
    split
    · exact Emits.put W _
    · exact Emits.error W _ _
  obtain ⟨c, hc, hcount⟩ := hcount
  cases bound with
  | none =>
    refine ⟨c, hc, fun s h1 h2 => ?_⟩
    simp only [Serializer.putLen, h2]
    exact hcount s h1 h2
  | some max =>
    rw [encodeLen]
    split
    · next hlong =>
      refine ⟨[], nofun, fun s h1 h2 => ?_⟩
      simp only [Serializer.putLen, h2, if_pos hlong]
      rfl
    · next hshort =>
      refine ⟨c, hc, fun s h1 h2 => ?_⟩
      simp only [Serializer.putLen, h2, if_neg hshort]
      exact hcount { s with boundPending := none } h1 rfl

theorem putBody_emits (b : Bytes) :
    Emits none (fun s : Serializer W => s.putBody b) (.ok (padded b)) := by
  have hpad : Emits none (fun s : Serializer W => s.putPad b.length)
      (.ok (List.replicate (pad4 b.length) 0)) := by
    simp only [Serializer.putPad]
    split
    · exact Emits.put W _
    · next h =>
      rw [Nat.eq_zero_of_not_pos h]
      exact Emits.nil W
  exact (Emits.put W b).bind hpad

theorem encodeVar_emits (bound : Option ℕ) (b : Bytes) :
    Emits bound (fun s : Serializer W => do let s ← s.putLen b.length; s.putBody b)
      (encodeVar bound b) :=
  (putLen_emits bound b.length).map_append _ (putBody_emits b)

theorem serializeStr_emits (bound : Option ℕ) (v : String) :
    Emits bound (fun s : Serializer W => s.serializeStr v)
      (encodeVar bound v.toUTF8.data.toList) :=
  (encodeVar_emits bound v.toUTF8.data.toList).taken

theorem serializeBytes_emits (bound : Option ℕ) (b : Bytes) :
    Emits bound (fun s : Serializer W => s.serializeBytes b) (encodeVar bound b) := by
  obtain ⟨c, hc, h⟩ := encodeVar_emits (W := W) bound b
  refine ⟨c, hc, fun s h1 h2 => ?_⟩
  simp only [Serializer.serializeBytes, h1]
  exact h s h1 h2

/-- The flag that is set is taken by the bytes behind it. -/
theorem serializeRawFixed_emits (b : Bytes) :
    Emits none (fun s : Serializer W => s.serializeRawFixed b) (.ok (padded b)) :=
  (putBody_emits b).taken

theorem serializeXdrEnum_emits (e : XdrEnum) (i : ℕ) :
    Emits none (fun s : Serializer W => s.serializeXdrEnum e i) (e.encode i) := by
  simp only [Serializer.serializeXdrEnum, XdrEnum.encode]
  cases e.discs[i]? with
  | none => exact Emits.error W _ _
  | some disc => exact Emits.put W _

/-- Only a counted type is met with a bound pending. -/
theorem bound_eq_none {bound : Option ℕ} {T : Ty} (hb : bound = none ∨ ∃ c, T = .counted c)
    (hT : ∀ c, T ≠ .counted c) : bound = none := by
  rcases hb with hb | ⟨c, hc⟩
  · exact hb
  · exact absurd hc (hT c)

mutual
/-- What a value writes, over the type and the value, on any sink.  A pair that does not match
is refused on both sides. -/
theorem serialize_emits (Δ : Decls) (bound : Option ℕ) (T : Ty) (v : Value)
    (hb : bound = none ∨ ∃ c, T = .counted c) :
    Emits bound (fun s : Serializer W => v.serialize Δ T s) (encode Δ bound T v) := by
  cases T with
  | bool | i8 | i16 | i32 | i64 | u8 | u16 | u32 | u64 | f32 | f64 | char =>
    obtain rfl := bound_eq_none hb (by simp)
    cases v <;> first | exact Emits.put W _ | exact Emits.error W _ _
  | counted c =>
    cases c with
    | string | str =>
      cases v
      case string a => exact serializeStr_emits bound a
      all_goals exact Emits.error W _ _
    | varOpaque | varOpaqueRef | varOpaqueCow =>
      cases v
      case bytes b => exact serializeBytes_emits bound b
      all_goals exact Emits.error W _ _
    | vec t =>
      cases v
      case seq vs => exact (putLen_emits bound _).bind (serializeElements_emits Δ t vs)
      all_goals exact Emits.error W _ _
    | varArrayRef t =>
      cases v
      case arrayRef len b =>
        exact (putLen_emits bound len).map_append _ (serializeRawFixed_emits b)
      all_goals exact Emits.error W _ _
  | bounded c max =>
    obtain rfl := bound_eq_none hb (by simp)
    cases v
    case newtype v =>
      -- the bound is set here, and taken by the length of the counted type
      exact (serialize_emits Δ (some max) (.counted c) v (.inr ⟨c, rfl⟩)).bounded
    all_goals exact Emits.error W _ _
  | fixedOpaque n =>
    obtain rfl := bound_eq_none hb (by simp)
    cases v
    case fixed b => exact serializeRawFixed_emits b
    all_goals exact Emits.error W _ _
  | array t n =>
    obtain rfl := bound_eq_none hb (by simp)
    cases v
    case seq vs => exact serializeElements_emits Δ t vs
    all_goals exact Emits.error W _ _
  | tuple ts =>
    obtain rfl := bound_eq_none hb (by simp)
    cases v
    case seq vs => exact serializeFields_emits Δ ts vs
    all_goals exact Emits.error W _ _
  | unit | unitStruct =>
    obtain rfl := bound_eq_none hb (by simp)
    cases v
    case unit => exact Emits.nil W
    all_goals exact Emits.error W _ _
  | option t =>
    obtain rfl := bound_eq_none hb (by simp)
    cases v
    case none => exact Emits.put W _
    case some v => exact (Emits.put W _).bind (serialize_emits Δ none t v (.inl rfl))
    all_goals exact Emits.error W _ _
  | listRef t =>
    obtain rfl := bound_eq_none hb (by simp)
    cases v
    case listRef len b => exact serializeRawFixed_emits b
    all_goals exact Emits.error W _ _
  | xdrEnum e =>
    obtain rfl := bound_eq_none hb (by simp)
    cases v
    case enumerator i => exact serializeXdrEnum_emits e i
    all_goals exact Emits.error W _ _
  | named id =>
    obtain rfl := bound_eq_none hb (by simp)
    cases v
    case newtype v =>
      simp only [Value.serialize, encode]
      cases Δ id
      case newtypeStruct t => exact serialize_emits Δ none t v (.inl rfl)
      all_goals exact Emits.error W _ _
    case seq vs =>
      simp only [Value.serialize, encode]
      cases Δ id
      case tupleStruct ts => exact serializeFields_emits Δ ts vs
      case struct ts => exact serializeFields_emits Δ ts vs
      all_goals exact Emits.error W _ _
    case variant i vs =>
      simp only [Value.serialize, encode]
      cases Δ id
      case enum e =>
        dsimp only
        rcases e.variants[i]? with _ | _ | t | ts | ts
        · exact Emits.error W _ _
        · exact Emits.put W _
        · match vs with
          | [v] => exact (Emits.put W _).bind (serialize_emits Δ none t v (.inl rfl))
          | [] => exact Emits.error W _ _
          | _ :: _ :: _ => exact Emits.error W _ _
        · exact (Emits.put W _).bind (serializeFields_emits Δ ts vs)
        · exact (Emits.put W _).bind (serializeFields_emits Δ ts vs)
      case xdrUnion u =>
        dsimp only
        cases u.arms[i]? with
        | some arm => exact (Emits.put W _).bind (serializeFields_emits Δ arm.fields vs)
        | none =>
          dsimp only
          rcases u.default with _ | ⟨dt, ts⟩
          · exact Emits.error W _ _
          match vs with
          | [] => exact Emits.error W _ _
          | d :: vs =>
            dsimp only
            cases u.defaultDisc dt d with
            | error e => exact Emits.error W _ _
            | ok disc => exact (Emits.put W _).bind (serializeFields_emits Δ ts vs)
      all_goals exact Emits.error W _ _
    all_goals exact Emits.error W _ _

theorem serializeFields_emits (Δ : Decls) (ts : List Ty) (vs : List Value) :
    Emits none (fun s : Serializer W => Value.serializeFields Δ ts vs s)
      (encodeFields Δ ts vs) := by
  cases vs with
  | nil =>
    cases ts with
    | nil => exact Emits.nil W
    | cons t ts => exact Emits.error W _ _
  | cons v vs =>
    cases ts with
    | nil => exact Emits.error W _ _
    | cons t ts =>
      exact (serialize_emits Δ none t v (.inl rfl)).bind (serializeFields_emits Δ ts vs)

theorem serializeElements_emits (Δ : Decls) (t : Ty) (vs : List Value) :
    Emits none (fun s : Serializer W => Value.serializeElements Δ t vs s)
      (encodeElements Δ t vs) := by
  cases vs with
  | nil => exact Emits.nil W
  | cons v vs =>
    exact (serialize_emits Δ none t v (.inl rfl)).bind (serializeElements_emits Δ t vs)
end

variable [LawfulWrite W]

/-- The serializer after `b` went out and nothing is left pending. -/
def Serializer.wrote (s : Serializer W) (b : Bytes) : Serializer W :=
  { w := LawfulWrite.append s.w b }

/-- Where no write fails, many are one. -/
theorem Serializer.putAll_eq (s : Serializer W) (chunks : List Bytes) :
    s.idle.putAll chunks = .ok (s.wrote chunks.flatten) := by
  induction chunks generalizing s with
  | nil =>
    rw [wrote, List.flatten_nil, LawfulWrite.append_nil]
    rfl
  | cons b chunks ih =>
    have hput : s.idle.put b = .ok (s.wrote b).idle := by
      rw [put, LawfulWrite.writeAll_eq]
      rfl
    rw [putAll, List.foldlM_cons, hput]
    refine (ih (s.wrote b)).trans ?_
    simp only [wrote, LawfulWrite.append_append, List.flatten_cons]

/-- **A value appends its encoding** and leaves nothing pending. -/
theorem serialize_eq (Δ : Decls) (T : Ty) (v : Value) {s : Serializer W}
    (hf : s.fixedPending = false) (hb : s.boundPending = none) :
    v.serialize Δ T s = s.wrote <$> encode Δ none T v := by
  obtain ⟨c, hc, h⟩ := serialize_emits (W := W) Δ none T v (.inl rfl)
  refine (h s hf hb).trans ?_
  rw [Serializer.putAll_eq]
  cases hr : encode Δ none T v with
  | error e => rfl
  | ok b =>
    rw [hc b hr]
    rfl

theorem toWriter_eq (Δ : Decls) (T : Ty) (v : Value) (w : W) :
    toWriter Δ T v w = LawfulWrite.append w <$> encode Δ none T v := by
  rw [toWriter, serialize_eq Δ T v rfl rfl]
  cases encode Δ none T v <;> rfl

end Serialize

theorem toBytes_eq (Δ : Decls) (T : Ty) (v : Value) : toBytes Δ T v = encode Δ none T v := by
  rw [toBytes, toWriter_eq]
  cases encode Δ none T v <;> rfl

/-! ### The discriminant of a default arm -/

/-- The discriminant a value of a default arm's first field stands for. -/
def DiscTy.disc : DiscTy → Value → Option Int32
  | .i32, .i32 v => some v
  | .xdrEnum e, .enumerator i => e.discs[i]?
  | _, _ => none

theorem discriminant_serializeI32 (v : Int32) :
    discriminant (fun s => s.serializeI32 v) = .ok v := by
  simp [discriminant, Serializer.serializeI32, Serializer.putU32, Serializer.put, Write.writeAll,
    Serializer.new, bytesPerXdrUnit]

theorem discriminant_error (e : Error) (disc : Int32) :
    discriminant (fun _ => .error e) = .ok disc ↔ none = some disc := by
  simp [discriminant]

theorem discriminant_serializeDisc (dt : DiscTy) (d : Value) (disc : Int32) :
    discriminant (fun s => s.serializeDisc dt d) = .ok disc ↔ dt.disc d = some disc := by
  cases dt with
  | i32 =>
    cases d
    case i32 v => simp [Serializer.serializeDisc, discriminant_serializeI32, DiscTy.disc]
    -- any other value is refused, and stands for no discriminant
    all_goals exact discriminant_error _ disc
  | xdrEnum e =>
    cases d
    case enumerator i =>
      simp only [Serializer.serializeDisc, Serializer.serializeXdrEnum, DiscTy.disc]
      cases e.discs[i]? with
      | none => exact discriminant_error _ disc
      | some v => simp [discriminant_serializeI32]
    -- any other value is refused, and stands for no discriminant
    all_goals exact discriminant_error _ disc

/-- A default arm encodes exactly when no other arm owns its discriminant. -/
theorem defaultDisc_ok {u : XdrUnion} {dt : DiscTy} {d : Value} {disc : Int32} :
    u.defaultDisc dt d = .ok disc ↔
      dt.disc d = some disc ∧ disc ∉ u.arms.map Arm.disc := by
  rw [XdrUnion.defaultDisc, ← discriminant_serializeDisc]
  cases discriminant fun s => s.serializeDisc dt d with
  | error e => simp
  | ok a =>
    dsimp only
    split
    · rename_i ha
      simp only [reduceCtorEq, false_iff, not_and, not_not]
      rintro ⟨⟩
      exact ha
    · rename_i ha
      constructor
      · rintro ⟨⟩
        exact ⟨rfl, ha⟩
      · rintro ⟨⟨⟩, -⟩
        rfl

end Xdr
