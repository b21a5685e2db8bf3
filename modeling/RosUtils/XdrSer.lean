/-
The XDR serializer.

A serializer writes to a sink and carries two pieces of hidden state: whether
the next bytes are fixed opaque (`fixedPending`) and the bound the next length
is held to (`boundPending`).  Both are set by a struct name no program can
write, a sentinel, and taken by the call that follows.

`Serializer` and its methods follow the serde calls one by one, and
`Value.serialize` is what the `Serialize` impl of each supported type makes of
them.  The sink is a parameter: `Vec<u8>` for `toBytes`, a counter for
`serializedSize`, and a four-byte slice for the discriminant of a default arm.
-/
import RosUtils.BigEndian
import RosUtils.XdrTypes

open BigEndian

namespace Xdr

/-- `io::Write::write_all`; a failure carries the message of the `io::Error`. -/
class Write (W : Type) where
  writeAll : W → Bytes → Except String W

/-- `Vec<u8>`. -/
instance : Write Bytes := ⟨fun w b => .ok (w ++ b)⟩

/-- A writer that counts bytes instead of storing them. -/
structure CountWriter where
  n : ℕ

instance : Write CountWriter := ⟨fun w b => .ok ⟨w.n + b.length⟩⟩

/-- `&mut [u8]`: what has been written and how many bytes there is room for. -/
structure SliceWriter where
  written : Bytes
  room : ℕ

instance : Write SliceWriter := ⟨fun w b =>
  if b.length ≤ w.room then .ok ⟨w.written ++ b, w.room - b.length⟩
  else .error "failed to write whole buffer"⟩

/-- The name a serde struct call carries: one of the codec's sentinels, which
begin with a NUL, or a name of the program. -/
inductive StructName where
  | user
  | sentinelFixed
  | sentinelBounded
  | sentinelArrayRef
  deriving DecidableEq, Repr

@[ext] structure Serializer (W : Type) where
  w : W
  fixedPending : Bool := false
  boundPending : Option ℕ := none

namespace Serializer

variable {W : Type} [Write W]

def new (w : W) : Serializer W := { w := w }

def put (s : Serializer W) (bytes : Bytes) : Except Error (Serializer W) :=
  match Write.writeAll s.w bytes with
  | .ok w => .ok { s with w := w }
  | .error e => .error (.io e)

def putU32 (s : Serializer W) (v : UInt32) : Except Error (Serializer W) := s.put (u32ToBe v)

def putU64 (s : Serializer W) (v : UInt64) : Except Error (Serializer W) := s.put (u64ToBe v)

/-- The `u32` prefix of a length within the wire's own bound. -/
def putCount (s : Serializer W) (len : ℕ) : Except Error (Serializer W) :=
  if len ≤ u32Max then s.putU32 (UInt32.ofNat len)
  else .error (.unsupported "a length beyond u32::MAX")

/-- A variable-length count as its `u32` prefix.  A pending bound belongs to this
length and to no later one. -/
def putLen (s : Serializer W) (len : ℕ) : Except Error (Serializer W) :=
  match s.boundPending with
  | none => s.putCount len
  | some max =>
    if len > max then .error (.tooLong len max)
    else putCount { s with boundPending := none } len

def putPad (s : Serializer W) (len : ℕ) : Except Error (Serializer W) :=
  if pad4 len > 0 then s.put (List.replicate (pad4 len) 0) else .ok s

/-- A body and its padding. -/
def putBody (s : Serializer W) (v : Bytes) : Except Error (Serializer W) := do
  let s ← s.put v
  s.putPad v.length

def serializeBool (s : Serializer W) (v : Bool) : Except Error (Serializer W) :=
  s.putU32 v.toUInt32

def serializeI32 (s : Serializer W) (v : Int32) : Except Error (Serializer W) :=
  s.putU32 v.toUInt32

def serializeI8 (s : Serializer W) (v : Int8) : Except Error (Serializer W) :=
  s.serializeI32 v.toInt32

def serializeI16 (s : Serializer W) (v : Int16) : Except Error (Serializer W) :=
  s.serializeI32 v.toInt32

def serializeI64 (s : Serializer W) (v : Int64) : Except Error (Serializer W) :=
  s.putU64 v.toUInt64

def serializeU8 (s : Serializer W) (v : UInt8) : Except Error (Serializer W) :=
  s.putU32 v.toUInt32

def serializeU16 (s : Serializer W) (v : UInt16) : Except Error (Serializer W) :=
  s.putU32 v.toUInt32

def serializeU32 (s : Serializer W) (v : UInt32) : Except Error (Serializer W) := s.putU32 v

def serializeU64 (s : Serializer W) (v : UInt64) : Except Error (Serializer W) := s.putU64 v

def serializeF32 (s : Serializer W) (bits : UInt32) : Except Error (Serializer W) :=
  s.putU32 bits

def serializeF64 (s : Serializer W) (bits : UInt64) : Except Error (Serializer W) :=
  s.putU64 bits

def serializeChar (s : Serializer W) (v : Char) : Except Error (Serializer W) := s.putU32 v.val

/-- A string is variable-length whatever the sentinel said. -/
def serializeStr (s : Serializer W) (v : String) : Except Error (Serializer W) := do
  let s ← putLen { s with fixedPending := false } v.toUTF8.data.toList.length
  s.putBody v.toUTF8.data.toList

def serializeBytes (s : Serializer W) (v : Bytes) : Except Error (Serializer W) :=
  if s.fixedPending then putBody { s with fixedPending := false } v
  else do
    let s ← s.putLen v.length
    s.putBody v

def serializeNone (s : Serializer W) : Except Error (Serializer W) := s.putU32 0

def serializeSome (s : Serializer W)
    (value : Serializer W → Except Error (Serializer W)) : Except Error (Serializer W) := do
  let s ← s.putU32 1
  value s

def serializeUnit (s : Serializer W) : Except Error (Serializer W) := .ok s

def serializeUnitStruct (s : Serializer W) : Except Error (Serializer W) := .ok s

def serializeUnitVariant (s : Serializer W) (variantIndex : UInt32) :
    Except Error (Serializer W) := s.putU32 variantIndex

def serializeNewtypeStruct (s : Serializer W) (name : StructName)
    (value : Serializer W → Except Error (Serializer W)) : Except Error (Serializer W) :=
  if name = .sentinelFixed then value { s with fixedPending := true } else value s

def serializeNewtypeVariant (s : Serializer W) (variantIndex : UInt32)
    (value : Serializer W → Except Error (Serializer W)) : Except Error (Serializer W) := do
  let s ← s.putU32 variantIndex
  value s

def serializeSeq (s : Serializer W) : Option ℕ → Except Error (Serializer W)
  | none => .error (.unsupported "a sequence of unknown length")
  | some len => s.putLen len

def serializeTuple (s : Serializer W) (_len : ℕ) : Except Error (Serializer W) := .ok s

/-- Under the sentinel, `len` is a bound and not a field count. -/
def serializeTupleStruct (s : Serializer W) (name : StructName) (len : ℕ) :
    Except Error (Serializer W) :=
  if name = .sentinelBounded then .ok { s with boundPending := some len } else .ok s

def serializeTupleVariant (s : Serializer W) (variantIndex : UInt32) (_len : ℕ) :
    Except Error (Serializer W) := s.putU32 variantIndex

def serializeStruct (s : Serializer W) (_len : ℕ) : Except Error (Serializer W) := .ok s

def serializeStructVariant (s : Serializer W) (variantIndex : UInt32) (_len : ℕ) :
    Except Error (Serializer W) := s.putU32 variantIndex

/-- `RawBytes` under the fixed sentinel: bytes that are already XDR
(`Encoded`), or the bytes of a `FixedOpaque`. -/
def serializeRawFixed (s : Serializer W) (b : Bytes) : Except Error (Serializer W) :=
  s.serializeNewtypeStruct .sentinelFixed fun s => s.serializeBytes b

/-- The impl `XdrEnum` derives. -/
def serializeXdrEnum (s : Serializer W) (e : XdrEnum) (i : ℕ) : Except Error (Serializer W) :=
  match e.discs[i]? with
  | some disc => s.serializeI32 disc
  | none => .error (.unsupported "a value of another type")

/-- The first field of a default arm. -/
def serializeDisc (s : Serializer W) : DiscTy → Value → Except Error (Serializer W)
  | .i32, .i32 v => s.serializeI32 v
  | .xdrEnum e, .enumerator i => s.serializeXdrEnum e i
  | _, _ => .error (.unsupported "a value of another type")

end Serializer

/-- The discriminant a value encodes as.  A value that encodes to anything but one
unit is refused. -/
def discriminant (value : Serializer SliceWriter → Except Error (Serializer SliceWriter)) :
    Except Error Int32 :=
  match value (Serializer.new ⟨[], bytesPerXdrUnit⟩) with
  | .ok s =>
    if s.w.room = 0 then .ok (u32OfBe s.w.written).toInt32
    else .error (.unsupported "a union discriminant that is not one XDR unit")
  | .error _ => .error (.unsupported "a union discriminant that is not one XDR unit")

/-- What a default arm puts out in front of its body: the discriminant its first
field encodes as, unless another arm owns it. -/
def XdrUnion.defaultDisc (u : XdrUnion) (dt : DiscTy) (d : Value) : Except Error Int32 :=
  match discriminant fun s => s.serializeDisc dt d with
  | .error e => .error (.message e.display)
  | .ok disc =>
    if disc ∈ u.arms.map Arm.disc then
      .error (.message (u.name ++ " discriminant " ++ toString disc.toInt
        ++ " has an arm of its own"))
    else .ok disc

section Serialize

variable {W : Type} [Write W]

mutual
/-- `Serialize` for a value of the type `T`.  The last case is a value of another
type, which Rust rules out. -/
def Value.serialize (Δ : Decls) :
    Ty → Value → Serializer W → Except Error (Serializer W)
  | .bool, .bool b, s => s.serializeBool b
  | .i8, .i8 v, s => s.serializeI8 v
  | .i16, .i16 v, s => s.serializeI16 v
  | .i32, .i32 v, s => s.serializeI32 v
  | .i64, .i64 v, s => s.serializeI64 v
  | .u8, .u8 v, s => s.serializeU8 v
  | .u16, .u16 v, s => s.serializeU16 v
  | .u32, .u32 v, s => s.serializeU32 v
  | .u64, .u64 v, s => s.serializeU64 v
  | .f32, .f32 v, s => s.serializeF32 v
  | .f64, .f64 v, s => s.serializeF64 v
  | .char, .char c, s => s.serializeChar c
  | .counted .string, .string v, s => s.serializeStr v
  | .counted .str, .string v, s => s.serializeStr v
  | .counted .varOpaque, .bytes b, s => s.serializeBytes b
  | .counted .varOpaqueRef, .bytes b, s => s.serializeBytes b
  | .counted .varOpaqueCow, .bytes b, s => s.serializeBytes b
  | .counted (.vec t), .seq vs, s => do
      let s ← s.serializeSeq (.some vs.length)
      Value.serializeElements Δ t vs s
  | .counted (.varArrayRef _), .arrayRef len encoded, s => do
      let s ← s.serializeSeq (.some len)
      s.serializeRawFixed encoded
  | .bounded c max, .newtype v, s => do
      let s ← s.serializeTupleStruct .sentinelBounded max
      Value.serialize Δ (.counted c) v s
  | .fixedOpaque _, .fixed b, s => s.serializeRawFixed b
  | .array t n, .seq vs, s => do
      let s ← s.serializeTuple n
      Value.serializeElements Δ t vs s
  | .tuple ts, .seq vs, s => do
      let s ← s.serializeTuple ts.length
      Value.serializeFields Δ ts vs s
  | .unit, .unit, s => s.serializeUnit
  | .unitStruct, .unit, s => s.serializeUnitStruct
  | .option _, .none, s => s.serializeNone
  | .option t, .some v, s => s.serializeSome fun s => Value.serialize Δ t v s
  | .listRef _, .listRef _ encoded, s => s.serializeRawFixed encoded
  | .xdrEnum e, .enumerator i, s => s.serializeXdrEnum e i
  | .named id, .newtype v, s =>
    match Δ id with
    | .newtypeStruct t => s.serializeNewtypeStruct .user fun s => Value.serialize Δ t v s
    | _ => .error (.unsupported "a value of another type")
  | .named id, .seq vs, s =>
    match Δ id with
    | .tupleStruct ts => do
      let s ← s.serializeTupleStruct .user ts.length
      Value.serializeFields Δ ts vs s
    | .struct ts => do
      let s ← s.serializeStruct ts.length
      Value.serializeFields Δ ts vs s
    | _ => .error (.unsupported "a value of another type")
  | .named id, .variant i vs, s =>
    match Δ id with
    | .enum e =>
      match e.variants[i]? with
      | .some .unit => s.serializeUnitVariant (UInt32.ofNat i)
      | .some (.newtype t) =>
        match vs with
        | [v] => s.serializeNewtypeVariant (UInt32.ofNat i) fun s => Value.serialize Δ t v s
        | _ => .error (.unsupported "a value of another type")
      | .some (.tuple ts) => do
        let s ← s.serializeTupleVariant (UInt32.ofNat i) ts.length
        Value.serializeFields Δ ts vs s
      | .some (.struct ts) => do
        let s ← s.serializeStructVariant (UInt32.ofNat i) ts.length
        Value.serializeFields Δ ts vs s
      | .none => .error (.unsupported "a value of another type")
    | .xdrUnion u =>
      match u.arms[i]? with
      | .some arm => do
        let s ← s.serializeTuple (1 + arm.fields.length)
        let s ← s.serializeI32 arm.disc
        Value.serializeFields Δ arm.fields vs s
      | .none =>
        match u.default, vs with
        | .some (dt, ts), d :: vs => do
          let disc ← u.defaultDisc dt d
          let s ← s.serializeTuple (1 + ts.length)
          let s ← s.serializeI32 disc
          Value.serializeFields Δ ts vs s
        | _, _ => .error (.unsupported "a value of another type")
    | _ => .error (.unsupported "a value of another type")
  | _, _, _ => .error (.unsupported "a value of another type")

/-- `serialize_field` for each field in turn. -/
def Value.serializeFields (Δ : Decls) :
    List Ty → List Value → Serializer W → Except Error (Serializer W)
  | [], [], s => .ok s
  | t :: ts, v :: vs, s => do
      let s ← Value.serialize Δ t v s
      Value.serializeFields Δ ts vs s
  | _, _, _ => .error (.unsupported "a value of another type")

/-- `serialize_element` for each element in turn. -/
def Value.serializeElements (Δ : Decls) :
    Ty → List Value → Serializer W → Except Error (Serializer W)
  | _, [], s => .ok s
  | t, v :: vs, s => do
      let s ← Value.serialize Δ t v s
      Value.serializeElements Δ t vs s
end

/-- Encode a value into a writer. -/
def toWriter (Δ : Decls) (T : Ty) (v : Value) (w : W) : Except Error W :=
  (fun s => s.w) <$> v.serialize Δ T (Serializer.new w)

end Serialize

/-- Encode a value to canonical XDR bytes. -/
def toBytes (Δ : Decls) (T : Ty) (v : Value) : Except Error Bytes := toWriter Δ T v []

/-- The number of bytes a value encodes to. -/
def serializedSize (Δ : Decls) (T : Ty) (v : Value) : Except Error ℕ :=
  CountWriter.n <$> toWriter Δ T v ⟨0⟩

end Xdr
