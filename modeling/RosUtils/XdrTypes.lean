/-
The XDR data model: types, values, errors.

`Ty` lists the shapes the codec supports.  A type the program declares (a
struct, a newtype, an enum, a union) is nominal: it is `Ty.named id`, and a
table `Δ : Decls` gives its declaration.  Declarations may refer to each other
in any way, so a struct that holds an optional boxed copy of itself is a type
like any other.

`Value` is the type of untyped values and `HasType Δ T v` says that `v` is a
value of the Rust type `T`.  What a Rust type rules out by construction is
ruled out here too: a bound goes around a counted type only (`CountedTy`, the
sealed trait `Counted`), and the discriminants of an enum or of a union's arms
are distinct, which the compiler enforces.
-/
import Mathlib.Tactic

namespace Xdr

abbrev Bytes := List UInt8

/-- How strictly the decoder treats input the standard does not permit. -/
inductive Strictness where
  | lenient
  | strict
  deriving DecidableEq, Repr

/-- An error encoding or decoding XDR. -/
inductive Error where
  | eof (need : ℕ)
  | range
  | nonZeroPadding
  | embeddedNul
  | invalidBool (value : UInt32)
  | utf8
  | trailingBytes (rest : ℕ)
  | recursionLimit (limit : ℕ)
  | tooLong (len max : ℕ)
  | unsupported (what : String)
  | io (msg : String)
  | message (msg : String)
  deriving DecidableEq, Repr

/-- How an error reads (`Display`). -/
def Error.display : Error → String
  | .eof need => "unexpected end of input, need " ++ toString need ++ " more byte(s)"
  | .range => "value out of range for target type"
  | .nonZeroPadding => "non-zero padding byte"
  | .embeddedNul => "embedded NUL in string"
  | .invalidBool value => "boolean discriminant " ++ toString value ++ " is neither 0 nor 1"
  | .utf8 => "invalid UTF-8 in string"
  | .trailingBytes rest => toString rest ++ " trailing byte(s) after value"
  | .recursionLimit limit => "input nests deeper than the limit of " ++ toString limit
  | .tooLong len max => "length " ++ toString len ++ " is over the bound of " ++ toString max
  | .unsupported what => "XDR does not support " ++ what
  | .io msg => msg
  | .message msg => msg

/-- Bytes in one XDR unit. -/
def bytesPerXdrUnit : ℕ := 4

/-- Zero padding needed to bring `len` up to a unit boundary. -/
def pad4 (len : ℕ) : ℕ := (bytesPerXdrUnit - len % bytesPerXdrUnit) % bytesPerXdrUnit

theorem pad4_eq (len : ℕ) : pad4 len = (4 - len % 4) % 4 := rfl

theorem four_dvd_add_pad4 (len : ℕ) : 4 ∣ len + pad4 len := by
  rw [pad4_eq]
  omega

theorem pad4_eq_zero {len : ℕ} (h : 4 ∣ len) : pad4 len = 0 := by
  rw [pad4_eq]
  omega

/-- `u32::MAX`. -/
def u32Max : ℕ := 2 ^ 32 - 1

/-- `usize::MAX` of a 64-bit target. -/
def usizeMax : ℕ := 2 ^ 64 - 1

/-! ### Types -/

/-- The types whose encoding begins with a length (`Counted`), over the type
`T` of element types. -/
inductive CountedTy (T : Type) where
  | string
  | str
  | varOpaque
  | varOpaqueRef
  | varOpaqueCow
  | vec (t : T)
  | varArrayRef (t : T)

/-- A field-less enum derived with `XdrEnum`: its name and the discriminant of
each variant. -/
structure XdrEnum where
  name : String
  discs : List Int32
  nodup : discs.Nodup

/-- The shapes the codec supports.  A float is its bit pattern. -/
inductive Ty where
  | bool | i8 | i16 | i32 | i64 | u8 | u16 | u32 | u64 | f32 | f64 | char
  | counted (c : CountedTy Ty)
  | bounded (c : CountedTy Ty) (max : ℕ)
  | fixedOpaque (n : ℕ)
  | array (t : Ty) (n : ℕ)
  | tuple (ts : List Ty)
  | unit
  | unitStruct
  | option (t : Ty)
  | listRef (t : Ty)
  | xdrEnum (e : XdrEnum)
  | named (id : ℕ)

/-- A variant of a stock serde enum. -/
inductive Variant where
  | unit
  | newtype (t : Ty)
  | tuple (ts : List Ty)
  | struct (ts : List Ty)

/-- A stock serde enum, whose variants a `u32` numbers. -/
structure SerdeEnum where
  variants : List Variant
  small : variants.length < 2 ^ 32

/-- What the first field of a union's default arm may be. -/
inductive DiscTy where
  | i32
  | xdrEnum (e : XdrEnum)

/-- The type of a default arm's first field. -/
def DiscTy.ty : DiscTy → Ty
  | .i32 => .i32
  | .xdrEnum e => .xdrEnum e

/-- An arm of a union that owns a discriminant. -/
structure Arm where
  disc : Int32
  fields : List Ty

/-- A union derived with `XdrUnion`: the arms that own a discriminant, and the
default arm, which is the last variant, if there is one. -/
structure XdrUnion where
  name : String
  arms : List Arm
  default : Option (DiscTy × List Ty)
  nodup : (arms.map Arm.disc).Nodup

/-- The declaration of a named type. -/
inductive Decl where
  | newtypeStruct (t : Ty)
  | tupleStruct (ts : List Ty)
  | struct (ts : List Ty)
  | enum (e : SerdeEnum)
  | xdrUnion (u : XdrUnion)

/-- The declarations of a program, by type. -/
abbrev Decls := ℕ → Decl

/-! ### Values -/

/-- A value of some type.  `seq` is a vector, an array, a tuple or a struct;
`variant` is a value of a stock enum or of a union, by declaration index;
`arrayRef` and `listRef` keep what `VarArrayRef` and `ListRef` keep. -/
inductive Value where
  | bool (b : Bool)
  | i8 (v : Int8) | i16 (v : Int16) | i32 (v : Int32) | i64 (v : Int64)
  | u8 (v : UInt8) | u16 (v : UInt16) | u32 (v : UInt32) | u64 (v : UInt64)
  | f32 (bits : UInt32) | f64 (bits : UInt64)
  | char (c : Char)
  | string (s : String)
  | bytes (b : Bytes)
  | fixed (b : Bytes)
  | seq (vs : List Value)
  | unit
  | none
  | some (v : Value)
  | newtype (v : Value)
  | enumerator (index : ℕ)
  | variant (index : ℕ) (fields : List Value)
  | arrayRef (len : ℕ) (encoded : Bytes)
  | listRef (len : ℕ) (encoded : Bytes)

/-- The fields a variant of a stock enum holds. -/
def Variant.fields : Variant → List Ty
  | .unit => []
  | .newtype t => [t]
  | .tuple ts => ts
  | .struct ts => ts

/-- `v` is a value of the type `T`. -/
inductive HasType (Δ : Decls) : Ty → Value → Prop where
  | bool (b) : HasType Δ .bool (.bool b)
  | i8 (v) : HasType Δ .i8 (.i8 v)
  | i16 (v) : HasType Δ .i16 (.i16 v)
  | i32 (v) : HasType Δ .i32 (.i32 v)
  | i64 (v) : HasType Δ .i64 (.i64 v)
  | u8 (v) : HasType Δ .u8 (.u8 v)
  | u16 (v) : HasType Δ .u16 (.u16 v)
  | u32 (v) : HasType Δ .u32 (.u32 v)
  | u64 (v) : HasType Δ .u64 (.u64 v)
  | f32 (v) : HasType Δ .f32 (.f32 v)
  | f64 (v) : HasType Δ .f64 (.f64 v)
  | char (c) : HasType Δ .char (.char c)
  | string (s) : HasType Δ (.counted .string) (.string s)
  | str (s) : HasType Δ (.counted .str) (.string s)
  | varOpaque (b) : HasType Δ (.counted .varOpaque) (.bytes b)
  | varOpaqueRef (b) : HasType Δ (.counted .varOpaqueRef) (.bytes b)
  | varOpaqueCow (b) : HasType Δ (.counted .varOpaqueCow) (.bytes b)
  | vec {t vs} (h : ∀ v ∈ vs, HasType Δ t v) : HasType Δ (.counted (.vec t)) (.seq vs)
  | arrayRef (t len encoded) :
      HasType Δ (.counted (.varArrayRef t)) (.arrayRef len encoded)
  | bounded {c max v} (h : HasType Δ (.counted c) v) :
      HasType Δ (.bounded c max) (.newtype v)
  | fixedOpaque {n b} (h : b.length = n) : HasType Δ (.fixedOpaque n) (.fixed b)
  | array {t n vs} (hlen : vs.length = n) (h : ∀ v ∈ vs, HasType Δ t v) :
      HasType Δ (.array t n) (.seq vs)
  | tuple {ts vs} (h : List.Forall₂ (HasType Δ) ts vs) : HasType Δ (.tuple ts) (.seq vs)
  | unit : HasType Δ .unit .unit
  | unitStruct : HasType Δ .unitStruct .unit
  | none (t) : HasType Δ (.option t) .none
  | some {t v} (h : HasType Δ t v) : HasType Δ (.option t) (.some v)
  | listRef (t len encoded) : HasType Δ (.listRef t) (.listRef len encoded)
  | xdrEnum {e i} (h : i < e.discs.length) : HasType Δ (.xdrEnum e) (.enumerator i)
  | newtypeStruct {id t v} (hd : Δ id = .newtypeStruct t) (h : HasType Δ t v) :
      HasType Δ (.named id) (.newtype v)
  | tupleStruct {id ts vs} (hd : Δ id = .tupleStruct ts)
      (h : List.Forall₂ (HasType Δ) ts vs) : HasType Δ (.named id) (.seq vs)
  | struct {id ts vs} (hd : Δ id = .struct ts) (h : List.Forall₂ (HasType Δ) ts vs) :
      HasType Δ (.named id) (.seq vs)
  | enum {id e i var vs} (hd : Δ id = .enum e) (hi : e.variants[i]? = .some var)
      (h : List.Forall₂ (HasType Δ) var.fields vs) : HasType Δ (.named id) (.variant i vs)
  | unionArm {id u i arm vs} (hd : Δ id = .xdrUnion u) (hi : u.arms[i]? = .some arm)
      (h : List.Forall₂ (HasType Δ) arm.fields vs) : HasType Δ (.named id) (.variant i vs)
  | unionDefault {id u dt ts d vs} (hd : Δ id = .xdrUnion u)
      (hdef : u.default = .some (dt, ts)) (h1 : HasType Δ dt.ty d)
      (h : List.Forall₂ (HasType Δ) ts vs) :
      HasType Δ (.named id) (.variant u.arms.length (d :: vs))

mutual
/-- How deep a value nests.  Every struct, array, optional, union and newtype is
one level. -/
def Value.depth : Value → ℕ
  | .fixed _ => 1
  | .seq vs => 1 + Value.depths vs
  | .some v => 1 + v.depth
  | .newtype v => 1 + v.depth
  | .variant _ vs => 1 + Value.depths vs
  | _ => 0

def Value.depths : List Value → ℕ
  | [] => 0
  | v :: vs => max v.depth (Value.depths vs)
end

mutual
/-- No string in the value holds a NUL. -/
def Value.NoNul : Value → Prop
  | .string s => (0 : UInt8) ∉ s.toUTF8.data.toList
  | .seq vs => Value.NoNuls vs
  | .some v => v.NoNul
  | .newtype v => v.NoNul
  | .variant _ vs => Value.NoNuls vs
  | _ => True

def Value.NoNuls : List Value → Prop
  | [] => True
  | v :: vs => v.NoNul ∧ Value.NoNuls vs
end

theorem Value.depth_le_depths {v : Value} {vs : List Value} (h : v ∈ vs) :
    v.depth ≤ Value.depths vs := by
  induction vs with
  | nil => simp at h
  | cons w vs ih =>
    rw [Value.depths]
    rcases List.mem_cons.mp h with rfl | h
    · exact le_max_left _ _
    · exact le_trans (ih h) (le_max_right _ _)

/-! ### The components of a type -/

/-- The element types of a counted type. -/
def CountedTy.components : CountedTy Ty → List Ty
  | .vec t => [t]
  | .varArrayRef t => [t]
  | _ => []

/-- The types of the parts a value of a declared type holds. -/
def Decl.components : Decl → List Ty
  | .newtypeStruct t => [t]
  | .tupleStruct ts => ts
  | .struct ts => ts
  | .enum e => e.variants.flatMap Variant.fields
  | .xdrUnion u =>
      u.arms.flatMap Arm.fields ++
        (match u.default with
        | .none => []
        | .some (dt, ts) => dt.ty :: ts)

/-- The types of the parts a value of a type holds. -/
def Ty.components (Δ : Decls) : Ty → List Ty
  | .counted c => c.components
  | .bounded c _ => [.counted c]
  | .array t _ => [t]
  | .tuple ts => ts
  | .option t => [t]
  | .listRef t => [t]
  | .named id => (Δ id).components
  | _ => []

/-- `t` occurs in the type `T`, at any depth. -/
def Ty.Reaches (Δ : Decls) (T t : Ty) : Prop :=
  Relation.ReflTransGen (fun a b => b ∈ a.components Δ) T t

theorem Ty.Reaches.refl (Δ : Decls) (T : Ty) : T.Reaches Δ T := Relation.ReflTransGen.refl

theorem Ty.Reaches.of_component {Δ : Decls} {T t u : Ty} (ht : t ∈ T.components Δ)
    (h : t.Reaches Δ u) : T.Reaches Δ u :=
  Relation.ReflTransGen.head ht h

end Xdr
