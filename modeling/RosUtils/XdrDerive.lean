/-
The derive of a union.

`expandUnion` is the macro: it numbers the variants (`discriminants`), finds the
default arm (`hasDefaultArm`), and goes once over the variants to build the arms
of the two generated matches, the list of owned discriminants, the fallback and
the element count the deserializer is told.  What it builds is a `UnionImpl`, and
`UnionImpl.serialize` and `UnionImpl.deserialize` are the generated impls, each
over its own list of arms.

A declaration is one the compiler accepts, so its arms have distinct discriminants,
and the first field of its default arm is an `i32` or an `XdrEnum`.  For these the two
lists of arms agree: `expandUnion_is` gives the `XdrUnion` whose impls they are.
-/
import RosUtils.XdrRefine
import RosUtils.XdrEncode

namespace Xdr

/-! ### Declarations -/

/-- A discriminant as it is written: an integer literal, a negated expression, or
anything else. -/
inductive DiscExpr where
  | lit (n : ℕ)
  | neg (e : DiscExpr)
  | other

/-- The fields of a variant. -/
inductive Fields where
  | unit
  | unnamed (ts : List Ty)
  | named (ts : List (String × Ty))

def Fields.types : Fields → List Ty
  | .unit => []
  | .unnamed ts => ts
  | .named ts => ts.map Prod.snd

/-- A variant: its discriminant, the arguments of its `xdr` attributes and its fields. -/
structure VariantDecl where
  discriminant : Option DiscExpr
  attrs : List String
  fields : Fields

/-- `base10_parse::<i32>`, of a literal that has no sign. -/
def base10ParseI32 (n : ℕ) : Except String Int32 :=
  if n < 2 ^ 31 then .ok (Int32.ofNat n) else .error "number too large to fit in target type"

/-- Parse a discriminant expression (`N` or `-N`) as an `i32`. -/
def parseDisc : DiscExpr → Except String Int32
  | .lit n => base10ParseI32 n
  | .neg (.lit n) => (fun v => -v) <$> base10ParseI32 n
  | .neg _ => .error "expected an integer literal discriminant"
  | .other => .error "XdrEnum/XdrUnion needs an integer-literal discriminant, e.g. `= 4`"

/-- `i32::checked_add(1)`. -/
def checkedSucc (v : Int32) : Except String Int32 :=
  if v.toInt < 2 ^ 31 - 1 then .ok (v + 1) else .error "discriminant overflows i32"

/-- The discriminant of a variant: the one it declares, else the next implicit one. -/
def VariantDecl.disc (v : VariantDecl) (next : Int32) : Except String Int32 :=
  match v.discriminant with
  | some e => parseDisc e
  | none => .ok next

/-- The loop of `discriminants`, with the next implicit value. -/
def discriminantsFrom : Int32 → List VariantDecl → Except String (List Int32)
  | _, [] => .ok []
  | next, v :: vs => do
    let value ← v.disc next
    let next ← checkedSucc value
    (value :: ·) <$> discriminantsFrom next vs

/-- Every variant's `i32` discriminant: the explicit literal, else `prev + 1`. -/
def discriminants (vs : List VariantDecl) : Except String (List Int32) := discriminantsFrom 0 vs

/-- Whether a variant is marked `#[xdr(default)]`.  Any other argument is refused. -/
def isDefaultArm (v : VariantDecl) : Except String Bool :=
  if v.attrs.all (· == "default") then .ok (!v.attrs.isEmpty)
  else .error "unknown xdr argument, expected `default`"

/-- The loop of `hasDefaultArm` over the variants from number `i` on, out of `len`. -/
def hasDefaultArmFrom (len : ℕ) : ℕ → Bool → List VariantDecl → Except String Bool
  | _, found, [] => .ok found
  | i, found, v :: vs => do
    if ← isDefaultArm v then
      if i + 1 ≠ len then .error "the default arm must be the last variant"
      else if v.discriminant.isSome then
        .error "the default arm takes its discriminant from its first field and cannot declare one"
      else if v.fields.types.isEmpty then
        .error "the default arm needs a first field to hold the discriminant"
      else hasDefaultArmFrom len (i + 1) true vs
    else hasDefaultArmFrom len (i + 1) found vs

/-- Whether the union ends in a default arm. -/
def hasDefaultArm (vs : List VariantDecl) : Except String Bool :=
  hasDefaultArmFrom vs.length 0 false vs

/-- The declaration of a union that the compiler accepts. -/
structure UnionDecl where
  name : String
  variants : List VariantDecl
  /-- No two arms in front of the default arm have the same discriminant. -/
  distinct : ∀ discs hasDefault, discriminants variants = .ok discs →
    hasDefaultArm variants = .ok hasDefault →
    (discs.take (variants.length - hasDefault.toNat)).Nodup
  /-- The first field of a default arm holds the discriminant. -/
  first : ∀ v ∈ variants, isDefaultArm v = .ok true → ∀ t ts, v.fields.types = t :: ts →
    ∃ dt : DiscTy, t = dt.ty

/-! ### The generated code -/

/-- An arm of the match that encodes. -/
inductive SerArm where
  | arm (disc : Int32) (fields : List Ty)
  | default (owned : List Int32) (fields : List Ty)

/-- An arm of the match that decodes: its pattern, and the variant it builds. -/
structure DeArm where
  disc : Int32
  variant : ℕ
  fields : List Ty

/-- What the derive of a union generates.  The fallback is the variant that takes the
discriminants without an arm, with its fields. -/
structure UnionImpl where
  name : String
  serArms : List SerArm
  deArms : List DeArm
  fallback : Option (ℕ × List Ty)
  maxElems : ℕ

/-- The arms of one variant, added to those before it. -/
def expandVariant (owned : List Int32) (explicit : ℕ) (acc : UnionImpl) (i : ℕ)
    (v : VariantDecl) (disc : Int32) : UnionImpl :=
  if i = explicit then
    { acc with
      serArms := acc.serArms ++ [.default owned v.fields.types]
      fallback := some (i, v.fields.types)
      maxElems := max acc.maxElems v.fields.types.length }
  else
    match v.fields with
    | .unit =>
      { acc with
        serArms := acc.serArms ++ [.arm disc []]
        deArms := acc.deArms ++ [⟨disc, i, []⟩] }
    | .unnamed ts =>
      { acc with
        serArms := acc.serArms ++ [.arm disc ts]
        deArms := acc.deArms ++ [⟨disc, i, ts⟩]
        maxElems := max acc.maxElems (1 + ts.length) }
    | .named ts =>
      { acc with
        serArms := acc.serArms ++ [.arm disc (ts.map Prod.snd)]
        deArms := acc.deArms ++ [⟨disc, i, ts.map Prod.snd⟩]
        maxElems := max acc.maxElems (1 + ts.length) }

def expandVariants (owned : List Int32) (explicit : ℕ) :
    UnionImpl → ℕ → List (VariantDecl × Int32) → UnionImpl
  | acc, _, [] => acc
  | acc, i, (v, disc) :: rest =>
    expandVariants owned explicit (expandVariant owned explicit acc i v disc) (i + 1) rest

def expandUnion (d : UnionDecl) : Except String UnionImpl := do
  let discs ← discriminants d.variants
  let hasDefault ← hasDefaultArm d.variants
  let explicit := d.variants.length - hasDefault.toNat
  .ok (expandVariants (discs.take explicit) explicit
    ⟨d.name, [], [], none, 1⟩ 0 (d.variants.zip discs))

/-- The generated `Serialize`, of variant `i` with the fields `vs`. -/
def UnionImpl.serialize {W : Type} [Write W] (Δ : Decls) (impl : UnionImpl) (i : ℕ)
    (vs : List Value) (s : Serializer W) : Except Error (Serializer W) :=
  match impl.serArms[i]?, vs with
  | some (.arm disc ts), vs => do
    let s ← s.serializeTuple (1 + ts.length)
    let s ← s.serializeI32 disc
    Value.serializeFields Δ ts vs s
  | some (.default owned (t :: ts)), d :: vs =>
    match discriminant fun s => Value.serialize Δ t d s with
    | .error e => .error (.message e.display)
    | .ok disc =>
      if disc ∈ owned then
        .error (.message (impl.name ++ " discriminant " ++ toString disc.toInt
          ++ " has an arm of its own"))
      else do
        let s ← s.serializeTuple (1 + ts.length)
        let s ← s.serializeI32 disc
        Value.serializeFields Δ ts vs s
  | _, _ => .error (.unsupported "a value of another type")

/-- `Deserialize` for the first field of a default arm, from the discriminant already
read.  The two types it may have are the ones modelled. -/
def firstOfDisc : Ty → Int32 → De Value
  | .i32, disc => pure (.i32 disc)
  | .xdrEnum e, disc => e.ofDisc disc
  | _, _ => fail (.unsupported "a first field that is neither an i32 nor an XdrEnum")

/-- The generated visitor.  The arms are tried in the order they are written. -/
def UnionImpl.visitor (impl : UnionImpl) (rec : Ty → De Value) : Visitor Value where
  expecting := "XDR union " ++ impl.name
  visitSeq remaining := do
    let (tag, remaining) ← nextElement deserializeI32 remaining
    match tag with
    | none => fail (.message "missing XDR union discriminant")
    | some tag =>
      match impl.deArms.find? (fun arm => arm.disc == tag), impl.fallback with
      | some arm, _ => do
        let vs ← visitFields rec (.message "missing XDR union field") arm.fields remaining
        pure (.variant arm.variant vs)
      | none, some (i, t :: ts) => do
        let d ← firstOfDisc t tag
        let vs ← visitFields rec (.message "missing XDR union field") ts remaining
        pure (.variant i (d :: vs))
      | none, _ =>
        fail (.message ("unknown " ++ impl.name ++ " discriminant " ++ toString tag.toInt))

/-- The generated `Deserialize`. -/
def UnionImpl.deserialize (impl : UnionImpl) (rec : Ty → De Value) : De Value :=
  deserializeTuple impl.maxElems (impl.visitor rec)

/-! ### The default arm is the last one -/

theorem hasDefaultArmFrom_true {len i : ℕ} {vs : List VariantDecl} (hlen : len = i + vs.length)
    (h : hasDefaultArmFrom len i false vs = .ok true) :
    ∃ init v t ts, vs = init ++ [v] ∧ isDefaultArm v = .ok true ∧ v.fields.types = t :: ts := by
  induction vs generalizing i with
  | nil => cases h
  | cons v vs ih =>
    rw [List.length_cons] at hlen
    obtain ⟨mark, hmark, h⟩ := ExceptState.except_bind_ok.mp h
    cases mark with
    | false =>
      obtain ⟨init, v', t, ts, rfl, hv', ht⟩ := ih (by omega) h
      exact ⟨v :: init, v', t, ts, rfl, hv', ht⟩
    | true =>
      rw [if_pos rfl] at h
      split at h
      · cases h
      split at h
      · cases h
      split at h
      · cases h
      · rename_i hlast _ hfields
        obtain rfl : vs = [] := List.length_eq_zero_iff.mp (by omega)
        cases hts : v.fields.types with
        | nil =>
          rw [hts] at hfields
          exact absurd rfl hfields
        | cons t ts => exact ⟨[], v, t, ts, rfl, hmark, hts⟩

/-! ### What the loop over the variants builds -/

/-- The arm of a variant that is not the default arm. -/
def armOfVariant (p : VariantDecl × Int32) : Arm := ⟨p.2, p.1.fields.types⟩

/-- The arm that decodes arm number `i` of a union. -/
def deArmOf (p : Arm × ℕ) : DeArm := ⟨p.1.disc, p.2, p.1.fields⟩

/-- Each variant in front of the default arm adds its arm to both matches. -/
theorem expandVariants_arms {owned : List Int32} {explicit : ℕ} {acc : UnionImpl} {i : ℕ}
    {ps : List (VariantDecl × Int32)} (hi : i + ps.length ≤ explicit) (hmax : 1 ≤ acc.maxElems)
    (rest : List (VariantDecl × Int32)) :
    expandVariants owned explicit acc i (ps ++ rest) =
      expandVariants owned explicit
        { acc with
          serArms := acc.serArms ++ (ps.map armOfVariant).map fun a => .arm a.disc a.fields
          deArms := acc.deArms ++ ((ps.map armOfVariant).zipIdx i).map deArmOf
          maxElems := ((ps.map armOfVariant).map fun a => 1 + a.fields.length).foldl max
            acc.maxElems }
        (i + ps.length) rest := by
  induction ps generalizing acc i with
  | nil => simp
  | cons p ps ih =>
    obtain ⟨v, disc⟩ := p
    rw [List.length_cons] at hi
    have hne : i ≠ explicit := by omega
    have hstep : expandVariant owned explicit acc i v disc =
        { acc with
          serArms := acc.serArms ++ [.arm disc v.fields.types]
          deArms := acc.deArms ++ [⟨disc, i, v.fields.types⟩]
          maxElems := max acc.maxElems (1 + v.fields.types.length) } := by
      rw [expandVariant, if_neg hne]
      cases v.fields with
      | unit =>
        have hone : max acc.maxElems (1 + ([] : List Ty).length) = acc.maxElems :=
          max_eq_left hmax
        simp only [Fields.types, hone]
      | unnamed ts => rfl
      | named ts => simp only [Fields.types, List.length_map]
    rw [List.cons_append, expandVariants, hstep, ih (by omega) (le_max_of_le_left hmax)]
    simp only [List.map_cons, List.zipIdx_cons, List.foldl_cons, List.append_assoc,
      List.singleton_append, List.length_cons, armOfVariant, deArmOf, Nat.add_assoc,
      Nat.add_comm 1]

/-- The loop from its start. -/
theorem expandVariants_start (owned : List Int32) {explicit : ℕ} (name : String)
    {ps : List (VariantDecl × Int32)} (hps : ps.length ≤ explicit)
    (rest : List (VariantDecl × Int32)) :
    expandVariants owned explicit ⟨name, [], [], none, 1⟩ 0 (ps ++ rest) =
      expandVariants owned explicit
        ⟨name, (ps.map armOfVariant).map fun a => .arm a.disc a.fields,
          (ps.map armOfVariant).zipIdx.map deArmOf, none,
          ((ps.map armOfVariant).map fun a => 1 + a.fields.length).foldl max 1⟩
        ps.length rest := by
  rw [expandVariants_arms (by omega) le_rfl, Nat.zero_add]
  rfl

/-- The generated impls are those of the union: the arms of both matches and the owned
list are its arms, and the fallback is its default arm. -/
structure UnionImpl.Is (impl : UnionImpl) (u : XdrUnion) : Prop where
  name : impl.name = u.name
  serArms : impl.serArms = (u.arms.map fun a => .arm a.disc a.fields) ++
    (match u.default with
    | none => []
    | some (dt, ts) => [.default (u.arms.map Arm.disc) (dt.ty :: ts)])
  deArms : impl.deArms = u.arms.zipIdx.map deArmOf
  fallback : impl.fallback = u.default.map fun (dt, ts) => (u.arms.length, dt.ty :: ts)
  maxElems : impl.maxElems = u.maxElems

theorem foldl_max_comm (l : List ℕ) (a b : ℕ) :
    max (l.foldl max a) b = l.foldl max (max b a) := by
  induction l generalizing a with
  | nil => exact max_comm a b
  | cons x l ih => rw [List.foldl_cons, List.foldl_cons, ih, max_assoc]

theorem discriminantsFrom_length {next : Int32} {vs : List VariantDecl} {discs : List Int32}
    (h : discriminantsFrom next vs = .ok discs) : discs.length = vs.length := by
  induction vs generalizing next discs with
  | nil =>
    cases h
    rfl
  | cons v vs ih =>
    obtain ⟨value, -, h⟩ := ExceptState.except_bind_ok.mp h
    obtain ⟨next', -, h⟩ := ExceptState.except_bind_ok.mp h
    obtain ⟨discs', htail, rfl⟩ := ExceptState.except_map_ok.mp h
    rw [List.length_cons, List.length_cons, ih htail]

/-- The union a declaration stands for: an arm for each variant, with its discriminant and
its fields, and the default arm if the last variant is marked as one. -/
structure UnionDecl.Declares (d : UnionDecl) (u : XdrUnion) : Prop where
  name : u.name = d.name
  arms : ∃ discs, discriminants d.variants = .ok discs ∧
    ((u.default = none ∧ u.arms = (d.variants.zip discs).map armOfVariant) ∨
      ∃ init v dt ts, d.variants = init ++ [v] ∧ isDefaultArm v = .ok true ∧
        v.fields.types = dt.ty :: ts ∧ u.default = some (dt, ts) ∧
        u.arms = (init.zip discs).map armOfVariant)

/-- **Both matches, the owned list and the fallback are those of one union.** -/
theorem expandUnion_is {d : UnionDecl} {impl : UnionImpl} (h : expandUnion d = .ok impl) :
    ∃ u : XdrUnion, d.Declares u ∧ impl.Is u := by
  obtain ⟨discs, hdiscs, h⟩ := ExceptState.except_bind_ok.mp h
  obtain ⟨hasDefault, hdefault, h⟩ := ExceptState.except_bind_ok.mp h
  have hlen : discs.length = d.variants.length := discriminantsFrom_length hdiscs
  have hnodup := d.distinct discs hasDefault hdiscs hdefault
  have hdisc : ∀ ps : List (VariantDecl × Int32),
      (ps.map armOfVariant).map Arm.disc = ps.map Prod.snd := by
    intro ps
    rw [List.map_map]
    rfl
  obtain rfl := Except.ok.inj h
  cases hasDefault with
  | false =>
    rw [Bool.toNat_false, Nat.sub_zero, List.take_of_length_le hlen.le] at hnodup
    have hps : (d.variants.zip discs).length ≤ d.variants.length := by
      rw [List.length_zip, hlen, min_self]
    have hu : (((d.variants.zip discs).map armOfVariant).map Arm.disc).Nodup := by
      rw [hdisc, List.map_snd_zip hlen.le]
      exact hnodup
    refine ⟨⟨d.name, (d.variants.zip discs).map armOfVariant, none, hu⟩,
      ⟨rfl, discs, hdiscs, .inl ⟨rfl, rfl⟩⟩, ?_⟩
    have hloop := expandVariants_start (discs.take d.variants.length) d.name hps []
    rw [List.append_nil] at hloop
    rw [Bool.toNat_false, Nat.sub_zero, hloop]
    exact ⟨rfl, (List.append_nil _).symm, rfl, rfl, rfl⟩
  | true =>
    obtain ⟨init, v, t, ts, hvs, hv, hts⟩ := hasDefaultArmFrom_true (Nat.zero_add _).symm hdefault
    obtain ⟨dt, rfl⟩ := d.first v (by rw [hvs]; simp) hv t ts hts
    -- the last discriminant is the one the default arm does not use
    have hvslen : d.variants.length = init.length + 1 := by rw [hvs, List.length_append]; rfl
    obtain ⟨front, last, rfl⟩ : ∃ front last, discs = front ++ [last] := by
      have hne : discs ≠ [] := List.ne_nil_of_length_pos (by omega)
      exact ⟨_, _, (List.dropLast_append_getLast hne).symm⟩
    have hfront : front.length = init.length := by
      rw [List.length_append, hvslen] at hlen
      exact Nat.succ.inj hlen
    have hzip : d.variants.zip (front ++ [last]) = init.zip front ++ [(v, last)] := by
      rw [hvs, List.zip_append hfront.symm]
      rfl
    have hinit : init.zip (front ++ [last]) = init.zip front := by
      have h : (init ++ []).zip (front ++ [last]) = init.zip front ++ [].zip [last] :=
        List.zip_append hfront.symm
      simpa using h
    have hps : (init.zip front).length = init.length := by
      rw [List.length_zip, hfront, min_self]
    have htake : (front ++ [last]).take init.length = front := List.take_left' hfront
    rw [Bool.toNat_true, hvslen, Nat.add_sub_cancel, htake] at hnodup
    have howned : ((init.zip front).map armOfVariant).map Arm.disc = front := by
      rw [hdisc, List.map_snd_zip hfront.le]
    have hu : (((init.zip front).map armOfVariant).map Arm.disc).Nodup := by
      rw [howned]
      exact hnodup
    refine ⟨⟨d.name, (init.zip front).map armOfVariant, some (dt, ts), hu⟩,
      ⟨rfl, _, hdiscs, .inr ⟨init, v, dt, ts, hvs, hv, hts, rfl, by rw [hinit]⟩⟩, ?_⟩
    rw [Bool.toNat_true, hvslen, Nat.add_sub_cancel, htake, hzip,
      expandVariants_start front d.name hps.le, hps, expandVariants, expandVariants,
      expandVariant, if_pos rfl, hts]
    refine ⟨rfl, ?_, rfl, ?_, ?_⟩
    · rw [howned]
    · simp [hps]
    · have hlast : max (ts.length + 1) 1 = 1 + ts.length := by omega
      show max (List.foldl max 1 _) (ts.length + 1) = List.foldl max (1 + ts.length) _
      rw [foldl_max_comm, hlast]

/-! ### The generated impls are the impls of the union -/

section Impls

variable {Δ : Decls} {impl : UnionImpl} {u : XdrUnion}

theorem serialize_discTy {W : Type} [Write W] (dt : DiscTy) (d : Value) (s : Serializer W) :
    Value.serialize Δ dt.ty d s = s.serializeDisc dt d := by
  cases dt <;> cases d <;> rfl

theorem firstOfDisc_discTy (dt : DiscTy) (disc : Int32) :
    firstOfDisc dt.ty disc = dt.ofDisc disc := by
  cases dt <;> rfl

/-- A value of the union has one of its variants. -/
theorem UnionImpl.Is.serialize_eq {W : Type} [Write W] (h : impl.Is u) {id : ℕ}
    (hd : Δ id = .xdrUnion u) {i : ℕ} (hi : i < impl.serArms.length) (vs : List Value)
    (s : Serializer W) :
    Value.serialize Δ (.named id) (.variant i vs) s = impl.serialize Δ i vs s := by
  have hser := h.serArms
  by_cases harm : i < u.arms.length
  · have hget : u.arms[i]? = some u.arms[i] := List.getElem?_eq_getElem harm
    have hi' : impl.serArms[i]? = some (.arm u.arms[i].disc u.arms[i].fields) := by
      rw [hser, List.getElem?_append_left (by rwa [List.length_map]), List.getElem?_map, hget]
      rfl
    simp only [Value.serialize, hd, hget, UnionImpl.serialize, hi']
  · have hget : u.arms[i]? = none := List.getElem?_eq_none (Nat.not_lt.mp harm)
    cases hdef : u.default with
    | none =>
      rw [hdef, List.append_nil] at hser
      rw [hser, List.length_map] at hi
      exact absurd hi harm
    | some dflt =>
      obtain ⟨dt, ts⟩ := dflt
      rw [hdef] at hser
      obtain rfl : i = u.arms.length := by
        rw [hser, List.length_append, List.length_map, List.length_singleton] at hi
        omega
      have hi' : impl.serArms[u.arms.length]?
          = some (.default (u.arms.map Arm.disc) (dt.ty :: ts)) := by
        rw [hser, List.getElem?_append_right (by rw [List.length_map]), List.length_map,
          Nat.sub_self]
        rfl
      cases vs with
      | nil => simp only [Value.serialize, hd, hget, hdef, UnionImpl.serialize, hi']
      | cons d vs =>
        simp only [Value.serialize, hd, hget, hdef, UnionImpl.serialize, hi', XdrUnion.defaultDisc,
          serialize_discTy, h.name]
        cases discriminant fun s => s.serializeDisc dt d with
        | error e => rfl
        | ok disc =>
          dsimp only
          split
          · rfl
          · rfl

/-- The arm the generated match picks is the one that owns the discriminant. -/
theorem UnionImpl.Is.find?_eq (h : impl.Is u) (tag : Int32) :
    impl.deArms.find? (fun arm => arm.disc == tag) =
      (u.armOf tag).map fun (i, arm) => deArmOf (arm, i) := by
  rw [h.deArms]
  cases hown : u.armOf tag with
  | none =>
    rw [XdrUnion.armOf_eq_none] at hown
    refine List.find?_eq_none.mpr fun a ha htag => ?_
    obtain ⟨⟨arm, i⟩, hmem, rfl⟩ := List.mem_map.mp ha
    have harm : arm ∈ u.arms := List.mem_of_getElem? (List.mk_mem_zipIdx_iff_getElem?.mp hmem)
    exact hown (List.mem_map.mpr ⟨arm, harm, by simpa [deArmOf] using htag⟩)
  | some p =>
    obtain ⟨i, arm⟩ := p
    obtain ⟨hi, htag⟩ := XdrUnion.armOf_eq_some.mp hown
    have hmem : deArmOf (arm, i) ∈ u.arms.zipIdx.map deArmOf :=
      List.mem_map_of_mem (List.mk_mem_zipIdx_iff_getElem?.mpr hi)
    -- the first arm with the tag is the only one
    cases hfind : (u.arms.zipIdx.map deArmOf).find? fun a => a.disc == tag with
    | none =>
      have hno := List.find?_eq_none.mp hfind _ hmem
      exact absurd (by simpa [deArmOf] using htag) hno
    | some a =>
      obtain ⟨⟨arm', j⟩, hmem', rfl⟩ := List.mem_map.mp (List.mem_of_find?_eq_some hfind)
      have hj := List.mk_mem_zipIdx_iff_getElem?.mp hmem'
      have htag' : arm'.disc = tag := by simpa [deArmOf] using List.find?_some hfind
      have hown' := XdrUnion.armOf_eq_some.mpr ⟨hj, htag'⟩
      rw [hown] at hown'
      cases hown'
      rfl

theorem UnionImpl.Is.deserialize_eq (h : impl.Is u) {id : ℕ} (hd : Δ id = .xdrUnion u)
    (rec : Ty → De Value) : deserializeWith Δ rec (.named id) = impl.deserialize rec := by
  have hvisitor : unionVisitor rec u = impl.visitor rec := by
    rw [unionVisitor, UnionImpl.visitor, h.name]
    congr 1
    funext remaining
    refine congrArg _ ?_
    funext x
    obtain ⟨tag, remaining⟩ := x
    cases tag with
    | none => rfl
    | some tag =>
      dsimp only
      rw [h.find?_eq, h.fallback]
      cases hown : u.armOf tag with
      | some p => rfl
      | none =>
        cases hdef : u.default with
        | none =>
          simp only [visitFallback, hdef]
          rfl
        | some dflt =>
          simp only [visitFallback, hdef]
          dsimp only [Option.map]
          rw [firstOfDisc_discTy]
  rw [UnionImpl.deserialize, h.maxElems, ← hvisitor, deserializeWith, hd]
  rfl

end Impls

end Xdr
