/-
The XDR deserializer.

A deserializer reads a byte slice from a position and carries hidden state next
to it: whether the next tuple is fixed opaque (`fixedPending`), the bound the
next length is held to (`boundPending`), where a borrowed array or list starts
(`spanStart`), and how deep it has nested (`depth`, held to `maxDepth`).

`De` is a computation over that state.  It fails with an `Error` of the codec,
or with `panic` where the Rust code would: a slice out of range, or a
subtraction below zero.  The state it has come to is there in either case, as
`&mut self` is in the source: a level that was entered is left whether its body
fails or not (`nested`), and only a panic ends everything at once.

A `Deserialize` impl is written against the serde calls, with a `Visitor` for
the ones that hand back something to go on with.  `deserializeWith Δ rec T`
is the impl of the type `T`, where `rec` reads the parts.  Every part is read
one level deeper than the whole, so `maxDepth - depth` rounds of it
(`deserializeAt`) are all a decode can take; `Ty.deserialize` runs that many.

The serde calls, and the impls of the crate's own wrappers and derives, are code
of the crate.  The impls of `Vec`, of arrays and tuples, of `Option` and of stock
enums and structs are serde's: they are modelled because the types they are for
are made of them, and follow serde's own visitors.
-/
import RosUtils.BigEndian
import RosUtils.XdrSer

open BigEndian

namespace Xdr

/-- How a decode can stop short. -/
inductive Fault where
  | error (e : Error)
  | panic
  deriving DecidableEq, Repr

structure Deserializer where
  input : Bytes
  pos : ℕ
  mode : Strictness
  fixedPending : Bool
  boundPending : Option ℕ
  spanStart : Option ℕ
  depth : ℕ
  maxDepth : ℕ

namespace Deserializer

def defaultMaxDepth : ℕ := 128

/-- A deserializer over `input` with the given strictness. -/
def new (input : Bytes) (mode : Strictness) : Deserializer where
  input := input
  pos := 0
  mode := mode
  fixedPending := false
  boundPending := none
  spanStart := none
  depth := 0
  maxDepth := defaultMaxDepth

def withMaxDepth (d : Deserializer) (maxDepth : ℕ) : Deserializer :=
  { d with maxDepth := maxDepth }

/-- The bytes not yet consumed. -/
def remaining (d : Deserializer) : Bytes := d.input.drop d.pos

end Deserializer

/-- A computation that ends with a value or a fault, and with a state in either case. -/
abbrev De (α : Type) := StateT Deserializer (Except (Fault × Deserializer)) α

variable {α : Type}

def fail (e : Error) : De α := fun d => .error (.error e, d)

def panics : De α := fun d => .error (.panic, d)

/-- What a computation returns, with the state of a value. -/
def De.exec (m : De α) (d : Deserializer) : Except Fault (α × Deserializer) :=
  (m.run d).mapError Prod.fst

/-- `let out = m;`: to go on whether it is a value or an error. -/
def attempt (m : De α) : De (Except Error α) := fun d =>
  match m.run d with
  | .ok (a, d') => .ok (.ok a, d')
  | .error (.error e, d') => .ok (.error e, d')
  | .error (.panic, d') => .error (.panic, d')

/-- Return `out`. -/
def finish : Except Error α → De α
  | .ok a => pure a
  | .error e => fail e

/-- `&self.input[start..end]`. -/
def slice (start stop : ℕ) : De Bytes := do
  let d ← get
  if start ≤ stop ∧ stop ≤ d.input.length then pure ((d.input.take stop).drop start)
  else panics

/-- Enter one nesting level, refusing to descend past `maxDepth`.  A level that is refused has
been counted, and is not left again. -/
def descend : De Unit := do
  modify fun d => { d with depth := d.depth + 1 }
  let d ← get
  if d.depth > d.maxDepth then fail (.recursionLimit d.maxDepth)

/-- Leave the level entered by `descend`. -/
def ascend : De Unit := do
  let d ← get
  if d.depth = 0 then panics
  else set { d with depth := d.depth - 1 }

/-- The end is a saturating sum in the source; a slice holds at most `isize::MAX`
bytes, so the sum is never that large. -/
def take (n : ℕ) : De Bytes := do
  let d ← get
  let stop := d.pos + n
  if stop > d.input.length then fail (.eof (stop - d.input.length))
  else do
    let data ← slice d.pos stop
    modify fun d => { d with pos := stop }
    pure data

def readU32 : De UInt32 := u32OfBe <$> take 4

def readU64 : De UInt64 := u64OfBe <$> take 8

/-- Consume the padding after a `len`-byte field. -/
def readPad (len : ℕ) : De Unit := do
  if pad4 len > 0 then do
    let pad ← take (pad4 len)
    let d ← get
    if d.mode = .strict ∧ pad.any (· ≠ 0) then fail .nonZeroPadding

/-- Hold a length just read to the pending bound, if there is one. -/
def checkBound (len : ℕ) : De Unit := do
  let d ← get
  set { d with boundPending := none }
  match d.boundPending with
  | some max => if len > max then fail (.tooLong len max)
  | none => pure ()

/-- A variable opaque or string body: length, bytes, padding. -/
def readOpaque : De Bytes := do
  let len ← UInt32.toNat <$> readU32
  checkBound len
  let data ← take len
  readPad len
  pure data

/-- A fixed opaque body: `n` bytes and padding, no length. -/
def readFixed (n : ℕ) : De Bytes := do
  let data ← take n
  readPad n
  pure data

def readBool : De Bool := do
  let value ← readU32
  if value = 0 then pure false
  else if value = 1 then pure true
  else do
    let d ← get
    if d.mode = .strict then fail (.invalidBool value) else pure true

def readStr : De String := do
  let bytes ← readOpaque
  match String.fromUTF8? ⟨bytes.toArray⟩ with
  | none => fail .utf8
  | some s => do
    let d ← get
    if d.mode = .strict ∧ (0 : UInt8) ∈ bytes then fail .embeddedNul else pure s

/-! ### The serde calls -/

def deserializeBool : De Bool := readBool

/-- `iN::try_from` on a word, by the bounds of the narrow type. -/
def narrowSigned (lo hi : ℤ) (w : UInt32) : De ℤ :=
  if lo ≤ w.toInt32.toInt ∧ w.toInt32.toInt ≤ hi then pure w.toInt32.toInt else fail .range

/-- `uN::try_from` on a word, by the bound of the narrow type. -/
def narrowUnsigned (hi : ℕ) (w : UInt32) : De ℕ :=
  if w.toNat ≤ hi then pure w.toNat else fail .range

def deserializeI8 : De Int8 := do
  let w ← readU32
  Int8.ofInt <$> narrowSigned (-128) 127 w

def deserializeI16 : De Int16 := do
  let w ← readU32
  Int16.ofInt <$> narrowSigned (-32768) 32767 w

def deserializeI32 : De Int32 := UInt32.toInt32 <$> readU32

def deserializeI64 : De Int64 := UInt64.toInt64 <$> readU64

def deserializeU8 : De UInt8 := do
  let w ← readU32
  UInt8.ofNat <$> narrowUnsigned 255 w

def deserializeU16 : De UInt16 := do
  let w ← readU32
  UInt16.ofNat <$> narrowUnsigned 65535 w

def deserializeU32 : De UInt32 := readU32

def deserializeU64 : De UInt64 := readU64

def deserializeF32 : De UInt32 := readU32

def deserializeF64 : De UInt64 := readU64

/-- `char::try_from`: a word that is a Unicode scalar value. -/
def deserializeChar : De Char := do
  let w ← readU32
  if h : w.isValidChar then pure ⟨w, h⟩ else fail .range

def deserializeStr : De String := readStr

def deserializeString : De String := readStr

def deserializeBytes : De Bytes := readOpaque

def deserializeByteBuf : De Bytes := readOpaque

/-- What a `Deserialize` impl hands to a call that goes on reading.  The methods it
leaves out fail as serde's own do. -/
structure Visitor (α : Type) where
  expecting : String
  visitSeq : ℕ → De α :=
    fun _ => fail (.message ("invalid type: sequence, expected " ++ expecting))
  visitBorrowedBytes : Bytes → De α :=
    fun _ => fail (.message ("invalid type: byte array, expected " ++ expecting))
  visitNewtypeStruct : De α :=
    fail (.message ("invalid type: newtype struct, expected " ++ expecting))

/-- Run `body` one level deeper, and leave that level whatever comes of it. -/
def nested (body : De α) : De α := do
  descend
  let out ← attempt body
  ascend
  finish out

/-- The discriminant is validated as a boolean; a present arm is a descent. -/
def deserializeOption (visitSome : De α) (visitNone : De α) : De α := do
  if ← readBool then nested visitSome else visitNone

def deserializeUnit (visitUnit : De α) : De α := visitUnit

def deserializeUnitStruct (visitUnit : De α) : De α := visitUnit

def deserializeNewtypeStruct (name : StructName) (v : Visitor α) : De α := do
  if name = .sentinelArrayRef then do
    let d ← get
    match d.spanStart with
    | none => fail (.unsupported "the span of an array that was not marked")
    | some start => do
      let span ← slice start d.pos
      v.visitBorrowedBytes span
  else do
    if name = .sentinelFixed then modify fun d => { d with fixedPending := true }
    nested v.visitNewtypeStruct

/-- An array element is at least one unit, so a count beyond a quarter of the
remaining input cannot be met. -/
def deserializeSeq (v : Visitor α) : De α := do
  let count ← UInt32.toNat <$> readU32
  checkBound count
  let d ← get
  let rem ← List.length <$> slice d.pos d.input.length
  if count > rem / bytesPerXdrUnit then fail (.eof (count * bytesPerXdrUnit - rem))
  else nested (v.visitSeq count)

/-- Fixed opaque reads raw bytes into a leaf, so it does not descend. -/
def deserializeTuple (len : ℕ) (v : Visitor α) : De α := do
  let d ← get
  if d.fixedPending then do
    set { d with fixedPending := false }
    let bytes ← readFixed len
    v.visitBorrowedBytes bytes
  else nested (v.visitSeq len)

/-- Under the bounded sentinel, `len` is a bound and not a field count.  Under the
array sentinel the start is marked, and the outer one put back afterwards. -/
def deserializeTupleStruct (name : StructName) (len : ℕ) (v : Visitor α) : De α :=
  nested (
    if name = .sentinelBounded then do
      modify fun d => { d with boundPending := some len }
      v.visitNewtypeStruct
    else if name = .sentinelArrayRef then do
      let d ← get
      let outer := d.spanStart
      set { d with spanStart := some d.pos }
      let out ← attempt (v.visitSeq len)
      modify fun d => { d with spanStart := outer }
      finish out
    else v.visitSeq len)

def deserializeStruct (fields : ℕ) (v : Visitor α) : De α := nested (v.visitSeq fields)

def deserializeEnum (visitEnum : UInt32 → De α) : De α := do
  let tag ← readU32
  nested (visitEnum tag)

/-! ### Visitors -/

/-- `SeqReader::next_element`: what is left to read is an argument, and comes back
one less. -/
def nextElement (seed : De α) : ℕ → De (Option α × ℕ)
  | 0 => pure (none, 0)
  | remaining + 1 => do
    let a ← seed
    pure (some a, remaining)

/-- Read a value of each type in turn, out of `remaining` elements. -/
def visitFields (rec : Ty → De Value) (missing : Error) :
    List Ty → ℕ → De (List Value)
  | [], _ => pure []
  | t :: ts, remaining => do
    let (v, remaining) ← nextElement (rec t) remaining
    match v with
    | none => fail missing
    | some v => do
      let vs ← visitFields rec missing ts remaining
      pure (v :: vs)

/-- serde's error for a sequence that ends early. -/
def invalidLength (len : ℕ) (expecting : String) : Error :=
  .message ("invalid length " ++ toString len ++ ", expected " ++ expecting)

/-- The visitor of a tuple, an array or a struct with these fields. -/
def fieldsVisitor (rec : Ty → De Value) (ts : List Ty) : Visitor Value where
  expecting := "a tuple of size " ++ toString ts.length
  visitSeq remaining :=
    Value.seq <$> visitFields rec
      (invalidLength ts.length ("a tuple of size " ++ toString ts.length)) ts remaining

/-- The visitor of a newtype around a `t`. -/
def newtypeVisitor (rec : Ty → De Value) (t : Ty) : Visitor Value where
  expecting := "a newtype"
  visitNewtypeStruct := Value.newtype <$> rec t

/-- `Vec`: elements until there are none left. -/
def vecLoop (seed : De Value) : ℕ → De (List Value)
  | 0 => pure []
  | remaining + 1 => do
    let v ← seed
    let vs ← vecLoop seed remaining
    pure (v :: vs)

def vecVisitor (rec : Ty → De Value) (t : Ty) : Visitor Value where
  expecting := "a sequence"
  visitSeq remaining := Value.seq <$> vecLoop (rec t) remaining

/-- `FixedVisitor`: carry `n` to the codec, and take the bytes it hands back. -/
def fixedBytesVisitor (n : ℕ) : Visitor Value where
  expecting := toString n ++ " fixed opaque bytes"
  visitBorrowedBytes v :=
    if v.length = n then pure (.fixed v)
    else fail (.message ("expected " ++ toString n ++ " bytes, got " ++ toString v.length))

def fixedVisitor (n : ℕ) : Visitor Value :=
  { fixedBytesVisitor n with
    visitNewtypeStruct := deserializeTuple n (fixedBytesVisitor n) }

/-- `BoundedVisitor`: the codec has the bound by now. -/
def boundedVisitor (rec : Ty → De Value) (c : CountedTy Ty) (max : ℕ) : Visitor Value where
  expecting := "a value no longer than " ++ toString max
  visitNewtypeStruct := Value.newtype <$> rec (.counted c)

/-- `ElementCount`: every element is decoded and dropped. -/
def elementCountLoop (seed : De Value) : ℕ → ℕ → De ℕ
  | 0, len => pure len
  | remaining + 1, len => do
    let _ ← seed
    elementCountLoop seed remaining (len + 1)

def elementCount (rec : Ty → De Value) (t : Ty) : De ℕ :=
  deserializeSeq {
    expecting := "a variable-length array"
    visitSeq := fun remaining => elementCountLoop (rec t) remaining 0 }

/-- `Span`: the input read since the start was marked. -/
def spanOf : De Bytes :=
  deserializeNewtypeStruct .sentinelArrayRef {
    expecting := "the span of a borrowed array"
    visitBorrowedBytes := pure }

/-- `ArrayRefVisitor`: the array, and then the span it turned out to cover, which
starts at the count. -/
def arrayRefVisitor (rec : Ty → De Value) (t : Ty) : Visitor Value where
  expecting := "a variable-length array to borrow"
  visitSeq remaining := do
    let (len, remaining) ← nextElement (elementCount rec t) remaining
    match len with
    | none => fail (invalidLength 0 "a variable-length array to borrow")
    | some len => do
      let (span, _) ← nextElement spanOf remaining
      match span with
      | none => fail (invalidLength 1 "a variable-length array to borrow")
      | some span =>
        if span.length < bytesPerXdrUnit then
          fail (invalidLength span.length "a variable-length array to borrow")
        else pure (.arrayRef len (span.drop bytesPerXdrUnit))

/-- `ListCount`: optional data, ended by the boolean of 0. -/
def listCountLoop (element : De (Option Value)) : ℕ → ℕ → De ℕ
  | 0, len => pure len
  | remaining + 1, len => do
    match ← element with
    | some _ => listCountLoop element remaining (len + 1)
    | none => pure len

/-- `Option::<T>::deserialize`. -/
def optionOf (rec : Ty → De Value) (t : Ty) : De (Option Value) :=
  deserializeOption (some <$> rec t) (pure none)

/-- The list has no count in front, so it is read as a tuple of no fixed length. -/
def listCount (rec : Ty → De Value) (t : Ty) : De ℕ :=
  deserializeTuple usizeMax {
    expecting := "a list of optional data"
    visitSeq := fun remaining => listCountLoop (optionOf rec t) remaining 0 }

def listRefVisitor (rec : Ty → De Value) (t : Ty) : Visitor Value where
  expecting := "a list of optional data to borrow"
  visitSeq remaining := do
    let (len, remaining) ← nextElement (listCount rec t) remaining
    match len with
    | none => fail (invalidLength 0 "a list of optional data to borrow")
    | some len => do
      let (span, _) ← nextElement spanOf remaining
      match span with
      | none => fail (invalidLength 1 "a list of optional data to borrow")
      | some encoded => pure (.listRef len encoded)

/-- The impl `XdrEnum` derives, on the discriminant. -/
def XdrEnum.ofDisc (e : XdrEnum) (disc : Int32) : De Value :=
  match e.discs.idxOf? disc with
  | some i => pure (.enumerator i)
  | none =>
    fail (.message ("unknown " ++ e.name ++ " discriminant " ++ toString disc.toInt))

/-- The variant of a stock enum that a tag names, and its fields. -/
def visitEnum (rec : Ty → De Value) (e : SerdeEnum) (tag : UInt32) : De Value :=
  match e.variants[tag.toNat]? with
  | none =>
    fail (.message ("invalid value: integer `" ++ toString tag
      ++ "`, expected variant index 0 <= i < " ++ toString e.variants.length))
  | some .unit => pure (.variant tag.toNat [])
  | some (.newtype t) => do
    let v ← rec t
    pure (.variant tag.toNat [v])
  | some (.tuple ts) => do
    let vs ← visitFields rec (invalidLength ts.length "a tuple variant") ts ts.length
    pure (.variant tag.toNat vs)
  | some (.struct ts) => do
    let vs ← visitFields rec (invalidLength ts.length "a struct variant") ts ts.length
    pure (.variant tag.toNat vs)

/-- The widest arm's element count, which the deserializer is told. -/
def XdrUnion.maxElems (u : XdrUnion) : ℕ :=
  (u.arms.map fun arm => 1 + arm.fields.length).foldl max
    (match u.default with
    | none => 1
    | some (_, ts) => 1 + ts.length)

/-- The arm that owns a discriminant, with its index. -/
def XdrUnion.armOf (u : XdrUnion) (tag : Int32) : Option (ℕ × Arm) := do
  let i ← (u.arms.map Arm.disc).idxOf? tag
  let arm ← u.arms[i]?
  pure (i, arm)

/-- The first field of a default arm, from the discriminant already read. -/
def DiscTy.ofDisc : DiscTy → Int32 → De Value
  | .i32, disc => pure (.i32 disc)
  | .xdrEnum e, disc => e.ofDisc disc

/-- What a discriminant with no arm of its own decodes to. -/
def visitFallback (rec : Ty → De Value) (u : XdrUnion) (tag : Int32) (remaining : ℕ) :
    De Value :=
  match u.default with
  | none => fail (.message ("unknown " ++ u.name ++ " discriminant " ++ toString tag.toInt))
  | some (dt, ts) => do
    let d ← dt.ofDisc tag
    let vs ← visitFields rec (.message "missing XDR union field") ts remaining
    pure (.variant u.arms.length (d :: vs))

/-- The visitor `XdrUnion` derives. -/
def unionVisitor (rec : Ty → De Value) (u : XdrUnion) : Visitor Value where
  expecting := "XDR union " ++ u.name
  visitSeq remaining := do
    let (tag, remaining) ← nextElement deserializeI32 remaining
    match tag with
    | none => fail (.message "missing XDR union discriminant")
    | some tag =>
      match u.armOf tag with
      | none => visitFallback rec u tag remaining
      | some (i, arm) => do
        let vs ← visitFields rec (.message "missing XDR union field") arm.fields remaining
        pure (.variant i vs)

/-! ### The impls -/

def deserializeCounted (rec : Ty → De Value) : CountedTy Ty → De Value
  | .string => Value.string <$> deserializeString
  | .str => Value.string <$> deserializeStr
  | .varOpaque => Value.bytes <$> deserializeByteBuf
  | .varOpaqueRef => Value.bytes <$> deserializeBytes
  | .varOpaqueCow => Value.bytes <$> deserializeBytes
  | .vec t => deserializeSeq (vecVisitor rec t)
  | .varArrayRef t => deserializeTupleStruct .sentinelArrayRef 2 (arrayRefVisitor rec t)

def deserializeNamed (rec : Ty → De Value) : Decl → De Value
  | .newtypeStruct t => deserializeNewtypeStruct .user (newtypeVisitor rec t)
  | .tupleStruct ts => deserializeTupleStruct .user ts.length (fieldsVisitor rec ts)
  | .struct ts => deserializeStruct ts.length (fieldsVisitor rec ts)
  | .enum e => deserializeEnum (visitEnum rec e)
  | .xdrUnion u => deserializeTuple u.maxElems (unionVisitor rec u)

/-- `Deserialize` for the type `T`, where `rec` is `Deserialize` for its parts. -/
def deserializeWith (Δ : Decls) (rec : Ty → De Value) : Ty → De Value
  | .bool => Value.bool <$> deserializeBool
  | .i8 => Value.i8 <$> deserializeI8
  | .i16 => Value.i16 <$> deserializeI16
  | .i32 => Value.i32 <$> deserializeI32
  | .i64 => Value.i64 <$> deserializeI64
  | .u8 => Value.u8 <$> deserializeU8
  | .u16 => Value.u16 <$> deserializeU16
  | .u32 => Value.u32 <$> deserializeU32
  | .u64 => Value.u64 <$> deserializeU64
  | .f32 => Value.f32 <$> deserializeF32
  | .f64 => Value.f64 <$> deserializeF64
  | .char => Value.char <$> deserializeChar
  | .counted c => deserializeCounted rec c
  | .bounded c max => deserializeTupleStruct .sentinelBounded max (boundedVisitor rec c max)
  | .fixedOpaque n => deserializeNewtypeStruct .sentinelFixed (fixedVisitor n)
  | .array t n => deserializeTuple n (fieldsVisitor rec (List.replicate n t))
  | .tuple ts => deserializeTuple ts.length (fieldsVisitor rec ts)
  | .unit => deserializeUnit (pure .unit)
  | .unitStruct => deserializeUnitStruct (pure .unit)
  | .option t => deserializeOption (Value.some <$> rec t) (pure .none)
  | .listRef t => deserializeTupleStruct .sentinelArrayRef 2 (listRefVisitor rec t)
  | .xdrEnum e => do
    let disc ← deserializeI32
    e.ofDisc disc
  | .named id => deserializeNamed rec (Δ id)

/-- `n` levels of `deserializeWith`. -/
def deserializeAt (Δ : Decls) : ℕ → Ty → De Value
  | 0 => deserializeWith Δ fun _ => panics
  | n + 1 => deserializeWith Δ (deserializeAt Δ n)

/-- `T::deserialize`. -/
def Ty.deserialize (Δ : Decls) (T : Ty) : De Value := fun d =>
  deserializeAt Δ (d.maxDepth - d.depth) T d

/-- Decode a value from the front of `bytes`, returning it with the unread tail. -/
def fromPrefixWith (Δ : Decls) (T : Ty) (bytes : Bytes) (mode : Strictness) :
    Except Fault (Value × Bytes) := do
  let (value, d) ← (T.deserialize Δ).exec (Deserializer.new bytes mode)
  pure (value, d.remaining)

/-- Decode a value from `bytes`, consuming the input exactly. -/
def fromBytesWith (Δ : Decls) (T : Ty) (bytes : Bytes) (mode : Strictness) :
    Except Fault Value := do
  let (value, rest) ← fromPrefixWith Δ T bytes mode
  if rest.isEmpty then pure value
  else throw (.error (.trailingBytes rest.length))

end Xdr
