/-
What a decode means.

The deserializer threads hidden state through sentinel-named calls.  Here is
the same decode as a function of the bytes alone: `read P Δ room T` reads a
value of the type `T` from the front of a byte string, with `room` levels of
nesting left.  Nothing is pending, nothing is marked, and a part is read with
one level less than the whole.  A borrowed array is what reading the `Vec` of
the same elements consumes, and a borrowed list is the chain of optional data
up to the first boolean of 0.

What the input is held to is a `Policy`: the strictness, and which counts are
admitted in front of how many bytes.  `Policy.ofInput` is the codec's own, which
admits a count up to a quarter of the bytes behind it; `Policy.anyCount` is the
wire format, which says nothing about what follows a value.

The recursive equation is `read_eq`.  That the deserializer computes this
function is `XdrRefine.lean`.
-/
import RosUtils.BigEndian
import RosUtils.ExceptState
import RosUtils.XdrDe

open BigEndian ExceptState

namespace Xdr

/-- A decode as a function of the bytes. -/
abbrev Parser (α : Type) := Reader UInt8 Error α

variable {α : Type}

/-! ### Leaves -/

def word : Parser UInt32 := u32OfBe <$> takeN .eof 4

def dword : Parser UInt64 := u64OfBe <$> takeN .eof 8

section Leaves

variable (mode : Strictness)

/-- The padding after a `len`-byte field. -/
def padding (len : ℕ) : Parser Unit := do
  let pad ← takeN .eof (pad4 len)
  if mode = .strict ∧ pad.any (· ≠ 0) then throw .nonZeroPadding

/-- `n` bytes and their padding. -/
def fixedBody (n : ℕ) : Parser Bytes := do
  let data ← takeN .eof n
  padding mode n
  pure data

/-- A length, held to a bound if there is one. -/
def lengthWord (bound : Option ℕ) : Parser ℕ := do
  let len ← UInt32.toNat <$> word
  match bound with
  | none => pure len
  | some max => if len > max then throw (.tooLong len max) else pure len

def varBody (bound : Option ℕ) : Parser Bytes := do
  let len ← lengthWord bound
  fixedBody mode len

def boolean : Parser Bool := do
  let value ← word
  if value = 0 then pure false
  else if value = 1 then pure true
  else if mode = .strict then throw (.invalidBool value) else pure true

def text (bound : Option ℕ) : Parser String := do
  let bytes ← varBody mode bound
  match String.fromUTF8? ⟨bytes.toArray⟩ with
  | none => throw .utf8
  | some s =>
    if mode = .strict ∧ (0 : UInt8) ∈ bytes then throw .embeddedNul else pure s

end Leaves

def signed (lo hi : ℤ) : Parser ℤ := do
  let w ← word
  if lo ≤ w.toInt32.toInt ∧ w.toInt32.toInt ≤ hi then pure w.toInt32.toInt else throw .range

def unsigned (hi : ℕ) : Parser ℕ := do
  let w ← word
  if w.toNat ≤ hi then pure w.toNat else throw .range

def scalar : Parser Char := do
  let w ← word
  if h : w.isValidChar then pure ⟨w, h⟩ else throw .range

/-- The variant of an `XdrEnum` that owns a discriminant. -/
def XdrEnum.read (e : XdrEnum) (disc : Int32) : Parser Value :=
  match e.discs.idxOf? disc with
  | some i => pure (.enumerator i)
  | none => throw (.message ("unknown " ++ e.name ++ " discriminant " ++ toString disc.toInt))

def DiscTy.read : DiscTy → Int32 → Parser Value
  | .i32, disc => pure (.i32 disc)
  | .xdrEnum e, disc => e.read disc

/-! ### Sequences -/

/-- `n` values, one after another. -/
def repeatN (p : Parser Value) : ℕ → Parser (List Value)
  | 0 => pure []
  | n + 1 => do
    let v ← p
    let vs ← repeatN p n
    pure (v :: vs)

/-- A value of each type in turn. -/
def readFields (child : Ty → Parser Value) : List Ty → Parser (List Value)
  | [] => pure []
  | t :: ts => do
    let v ← child t
    let vs ← readFields child ts
    pure (v :: vs)

/-- What a decode holds its input to. -/
structure Policy where
  mode : Strictness
  /-- The depth limit, as the error reports it. -/
  limit : ℕ
  /-- Whether a count is admitted in front of so many bytes. -/
  fits : ℕ → ℕ → Bool

/-- The codec's own policy: an element is at least one unit. -/
def Policy.ofInput (mode : Strictness) (limit : ℕ) : Policy where
  mode := mode
  limit := limit
  fits count left := count ≤ left / bytesPerXdrUnit

/-- The wire format, in which any count may stand anywhere. -/
def Policy.anyCount (mode : Strictness) (limit : ℕ) : Policy where
  mode := mode
  limit := limit
  fits _ _ := true

/-- A count has to be met by the bytes before the last `behind` of the input. -/
def Policy.before (mode : Strictness) (limit behind : ℕ) : Policy where
  mode := mode
  limit := limit
  fits count left := count ≤ (left - behind) / bytesPerXdrUnit

/-- Hold a count to what is left of the input. -/
def admitted (fits : ℕ → ℕ → Bool) (count : ℕ) : Parser ℕ := fun rest =>
  if fits count rest.length then .ok (count, rest)
  else .error (.eof (count * bytesPerXdrUnit - rest.length))

/-- A count the rest of the input can meet. -/
def seqCount (fits : ℕ → ℕ → Bool) (bound : Option ℕ) : Parser ℕ := do
  let count ← lengthWord bound
  admitted fits count

/-- A chain of at most `n` optional elements, up to the first absent one. -/
def chain (element : Parser (Option Value)) : ℕ → Parser (List Value)
  | 0 => pure []
  | n + 1 => do
    match ← element with
    | none => pure []
    | some v => do
      let vs ← chain element n
      pure (v :: vs)

/-! ### Compound shapes -/

section Read

/-- One level deeper, if there is room. -/
def level (limit room : ℕ) (body : (r : ℕ) → r < room → Parser α) : Parser α :=
  match room, body with
  | 0, _ => throw (.recursionLimit limit)
  | r + 1, body => body r (Nat.lt_succ_self r)

/-- A reader of parts, for every number of levels below `room`. -/
abbrev Child (room : ℕ) := (r : ℕ) → r < room → Ty → Parser Value

/-- The reader of the parts of a part. -/
abbrev Child.below {room r : ℕ} (child : Child room) (h : r < room) : Child r :=
  fun r' h' => child r' (h'.trans h)

variable (P : Policy)

/-- The elements of a counted sequence. -/
def readVec (room : ℕ) (child : Child room) (bound : Option ℕ) (t : Ty) :
    Parser (List Value) := do
  let count ← seqCount P.fits bound
  level P.limit room fun r h => repeatN (child r h t) count

/-- Optional data: a boolean, and what is there a level deeper. -/
def optional (room : ℕ) (present : (r : ℕ) → r < room → Parser α) (absent : α) :
    Parser α := do
  if ← boolean P.mode then level P.limit room present else pure absent

def readOption (room : ℕ) (child : Child room) (t : Ty) : Parser (Option Value) :=
  optional P room (fun r h => some <$> child r h t) none

def readCounted (room : ℕ) (child : Child room) (bound : Option ℕ) :
    CountedTy Ty → Parser Value
  | .string => Value.string <$> text P.mode bound
  | .str => Value.string <$> text P.mode bound
  | .varOpaque => Value.bytes <$> varBody P.mode bound
  | .varOpaqueRef => Value.bytes <$> varBody P.mode bound
  | .varOpaqueCow => Value.bytes <$> varBody P.mode bound
  | .vec t => Value.seq <$> readVec P room child bound t
  | .varArrayRef t => level P.limit room fun r h => do
    let (vs, span) ← span (readVec P r (child.below h) bound t)
    pure (.arrayRef vs.length (span.drop bytesPerXdrUnit))

/-- A value of a stock enum, by its tag. -/
def readVariant (child : Ty → Parser Value) (e : SerdeEnum) (tag : UInt32) : Parser Value :=
  match e.variants[tag.toNat]? with
  | none =>
    throw (.message ("invalid value: integer `" ++ toString tag
      ++ "`, expected variant index 0 <= i < " ++ toString e.variants.length))
  | some var => Value.variant tag.toNat <$> readFields child var.fields

/-- A value of a union, by its discriminant. -/
def readArm (child : Ty → Parser Value) (u : XdrUnion) (tag : Int32) : Parser Value :=
  match u.armOf tag with
  | some (i, arm) => Value.variant i <$> readFields child arm.fields
  | none =>
    match u.default with
    | none => throw (.message ("unknown " ++ u.name ++ " discriminant " ++ toString tag.toInt))
    | some (dt, ts) => do
      let d ← dt.read tag
      let vs ← readFields child ts
      pure (.variant u.arms.length (d :: vs))

def readNamed (room : ℕ) (child : Child room) : Decl → Parser Value
  | .newtypeStruct t => level P.limit room fun r h => Value.newtype <$> child r h t
  | .tupleStruct ts => level P.limit room fun r h => Value.seq <$> readFields (child r h) ts
  | .struct ts => level P.limit room fun r h => Value.seq <$> readFields (child r h) ts
  | .enum e => do
    let tag ← word
    level P.limit room fun r h => readVariant (child r h) e tag
  | .xdrUnion u => level P.limit room fun r h => do
    let tag ← UInt32.toInt32 <$> word
    readArm (child r h) u tag

/-- A value of the type `T`, where `child` reads the parts. -/
def readShape (Δ : Decls) (room : ℕ) (child : Child room) : Ty → Parser Value
  | .bool => Value.bool <$> boolean P.mode
  | .i8 => Value.i8 <$> Int8.ofInt <$> signed (-128) 127
  | .i16 => Value.i16 <$> Int16.ofInt <$> signed (-32768) 32767
  | .i32 => Value.i32 <$> UInt32.toInt32 <$> word
  | .i64 => Value.i64 <$> UInt64.toInt64 <$> dword
  | .u8 => Value.u8 <$> UInt8.ofNat <$> unsigned 255
  | .u16 => Value.u16 <$> UInt16.ofNat <$> unsigned 65535
  | .u32 => Value.u32 <$> word
  | .u64 => Value.u64 <$> dword
  | .f32 => Value.f32 <$> word
  | .f64 => Value.f64 <$> dword
  | .char => Value.char <$> scalar
  | .counted c => readCounted P room child none c
  | .bounded c max => level P.limit room fun r h =>
    Value.newtype <$> readCounted P r (child.below h) (some max) c
  | .fixedOpaque n => level P.limit room fun _ _ => Value.fixed <$> fixedBody P.mode n
  | .array t n => level P.limit room fun r h =>
    Value.seq <$> readFields (child r h) (List.replicate n t)
  | .tuple ts => level P.limit room fun r h => Value.seq <$> readFields (child r h) ts
  | .unit => pure .unit
  | .unitStruct => pure .unit
  | .option t => optional P room (fun r h => Value.some <$> child r h t) Value.none
  | .listRef t => level P.limit room fun r h => level P.limit r fun r' h' => do
    let (vs, span) ← span (chain (readOption P r' ((child.below h).below h') t) usizeMax)
    pure (.listRef vs.length span)
  | .xdrEnum e => do
    let disc ← UInt32.toInt32 <$> word
    e.read disc
  | .named id => readNamed P room child (Δ id)

/-- Read a value of the type `T` with `room` levels of nesting left. -/
def read (Δ : Decls) (room : ℕ) (T : Ty) : Parser Value :=
  readShape P Δ room (fun r _ => read Δ r) T
termination_by room

/-- Read a value of a counted type whose length is held to `bound`. -/
def readC (Δ : Decls) (room : ℕ) (bound : Option ℕ) (c : CountedTy Ty) : Parser Value :=
  readCounted P room (fun r _ => read P Δ r) bound c

theorem read_eq (Δ : Decls) (room : ℕ) (T : Ty) :
    read P Δ room T
      = readShape P Δ room (fun r _ => read P Δ r) T := by
  rw [read]

@[simp] theorem level_succ (limit r : ℕ) (body : (r' : ℕ) → r' < r + 1 → Parser α) :
    level limit (r + 1) body = body r (Nat.lt_succ_self r) := rfl

end Read

end Xdr
