/-
The codec puts its state back.

One serde call sets a pending field of the codec, and another one takes it, with visitors in
between.  A field that stayed set would reach a value it does not belong to.  So what is shown
here is about every state a decode can start from, wherever it stands in the input:

* `Restores bound m` — if `m` succeeds where nothing but `bound` is pending, the deserializer
  has moved by whole units, nothing is pending, and all else is as it was;
* `codec_restores` — this for every type, and that an encode leaves nothing pending either, on
  any sink.
-/
import RosUtils.XdrSafe

open BigEndian ExceptState

namespace Xdr

variable {α β : Type}

/-! ### Decoding -/

/-- The deserializer `units` units further on, with no bound pending. -/
def Deserializer.moved (d : Deserializer) (units : ℕ) : Deserializer :=
  { d with pos := d.pos + bytesPerXdrUnit * units, boundPending := none }

theorem Deserializer.moved_moved (d : Deserializer) (k l : ℕ) :
    (d.moved k).moved l = d.moved (k + l) := by
  simp only [moved, Nat.mul_add, Nat.add_assoc]

theorem Deserializer.moved_zero {d : Deserializer} (hb : d.boundPending = none) :
    d.moved 0 = d := by
  rw [moved, Nat.mul_zero, Nat.add_zero, ← hb]

/-- Where `m` succeeds with nothing but `bound` pending, it takes the bound, moves by whole
units and puts everything else back. -/
def Restores (bound : Option ℕ) (m : De α) : Prop :=
  ∀ ⦃d a d'⦄, d.fixedPending = false → d.boundPending = bound → m.run d = .ok (a, d') →
    ∃ units, d' = d.moved units

section Rules

variable {bound : Option ℕ}

theorem Restores.pure (a : α) : Restores none (Pure.pure a : De α) := by
  intro d a' d' _ hb h
  cases h
  exact ⟨0, (Deserializer.moved_zero hb).symm⟩

theorem Restores.fail (e : Error) : Restores bound (Xdr.fail e : De α) := by
  intro d a d' _ _ h
  cases h

theorem Restores.panics : Restores bound (Xdr.panics : De α) := by
  intro d a d' _ _ h
  cases h

theorem Restores.bind {m : De α} {f : α → De β} (hm : Restores bound m)
    (hf : ∀ a, Restores none (f a)) : Restores bound (m >>= f) := by
  intro d b d' hfixed hb h
  obtain ⟨a, d₁, h₁, h₂⟩ := run_bind_ok.mp h
  obtain ⟨k, rfl⟩ := hm hfixed hb h₁
  obtain ⟨l, rfl⟩ := hf a (d := d.moved k) hfixed rfl h₂
  exact ⟨k + l, d.moved_moved k l⟩

theorem Restores.map {m : De α} (g : α → β) (hm : Restores bound m) :
    Restores bound (g <$> m) := by
  rw [← bind_pure_comp]
  exact hm.bind fun a => Restores.pure (g a)

theorem Restores.ite {m m' : De α} {c : Prop} [Decidable c] (h : c → Restores bound m)
    (h' : ¬ c → Restores bound m') : Restores bound (if c then m else m') := by
  split
  · next hc => exact h hc
  · next hc => exact h' hc

/-- What is looked up does not matter. -/
theorem Restores.get {f : Deserializer → De α} (h : ∀ d, Restores bound (f d)) :
    Restores bound (MonadState.get >>= f) :=
  fun d _ _ hfixed hb hrun => h d hfixed hb hrun

/-- A level deeper, and back. -/
theorem Restores.nested {m : De α} (hm : Restores bound m) : Restores bound (Xdr.nested m) := by
  intro d a d' hfixed hb h
  obtain ⟨d₁, hrun, rfl⟩ := nested_ok h
  obtain ⟨k, rfl⟩ := hm (d := { d with depth := d.depth + 1 }) hfixed hb hrun
  exact ⟨k, rfl⟩

end Rules

/-! ### Leaves -/

section Leaves

variable {bound : Option ℕ} {d d' : Deserializer}

theorem slice_ok {start stop : ℕ} {b : Bytes} (h : (slice start stop).run d = .ok (b, d')) :
    d' = d := by
  simp only [slice, StateT.run_bind, StateT.run_get, pure_bind] at h
  split at h
  · cases h
    rfl
  · cases h

/-- `take` moves, and does nothing else. -/
theorem take_ok {n : ℕ} {b : Bytes} (h : (take n).run d = .ok (b, d')) :
    d' = { d with pos := d.pos + n } := by
  simp only [take, StateT.run_bind, StateT.run_get, pure_bind] at h
  split at h
  · cases h
  · obtain ⟨b', d₁, hslice, hrest⟩ := run_bind_ok.mp h
    rw [slice_ok hslice] at hrest
    cases hrest
    rfl

theorem readPad_ok {len : ℕ} {u : Unit} (h : (readPad len).run d = .ok (u, d')) :
    d' = { d with pos := d.pos + pad4 len } := by
  rw [readPad] at h
  split at h
  · obtain ⟨pad, d₁, htake, hrest⟩ := run_bind_ok.mp h
    rw [take_ok htake] at hrest
    simp only [StateT.run_bind, StateT.run_get, pure_bind] at hrest
    split at hrest
    · cases hrest
    · cases hrest
      rfl
  · next hpad =>
    cases h
    rw [Nat.eq_zero_of_not_pos hpad, Nat.add_zero]

/-- Whole units are read. -/
theorem restores_take (units : ℕ) : Restores none (take (bytesPerXdrUnit * units)) := by
  intro d b d' _ hb h
  refine ⟨units, ?_⟩
  rw [take_ok h, Deserializer.moved, ← hb]

theorem restores_readU32 : Restores none readU32 := (restores_take 1).map _

theorem restores_readU64 : Restores none readU64 := (restores_take 2).map _

/-- A body and its padding are whole units. -/
theorem restores_readFixed (n : ℕ) : Restores none (readFixed n) := by
  intro d b d' _ hb h
  obtain ⟨data, d₁, htake, hrest⟩ := run_bind_ok.mp h
  obtain ⟨u, d₂, hpad, hdone⟩ := run_bind_ok.mp hrest
  cases hdone
  rw [take_ok htake] at hpad
  obtain ⟨units, hunits⟩ := four_dvd_add_pad4 n
  refine ⟨units, ?_⟩
  rw [readPad_ok hpad, Deserializer.moved, ← hb]
  show ({ d with pos := d.pos + n + pad4 n } : Deserializer) = { d with pos := d.pos + 4 * units }
  rw [Nat.add_assoc, hunits]

theorem checkBound_ok {len : ℕ} {u : Unit} (h : (checkBound len).run d = .ok (u, d')) :
    d' = { d with boundPending := none } := by
  rw [checkBound_run] at h
  split at h
  · split at h
    · cases h
    · cases h
      rfl
  · cases h
    rfl

/-- A length takes the bound that is pending. -/
theorem Restores.length {f : ℕ → De α} (hf : ∀ len, Restores none (f len)) :
    Restores bound (do
      let len ← UInt32.toNat <$> readU32
      checkBound len
      f len) := by
  intro d a d' hfixed _ h
  obtain ⟨len, d₁, hlen, hrest⟩ := run_bind_ok.mp h
  obtain ⟨u, d₂, hcheck, hrest⟩ := run_bind_ok.mp hrest
  obtain ⟨w, hword, -⟩ := run_map_ok.mp hlen
  obtain ⟨b, htake, -⟩ := run_map_ok.mp hword
  rw [take_ok htake] at hcheck
  have hd₂ : d₂ = d.moved 1 := checkBound_ok hcheck
  obtain ⟨k, rfl⟩ := hf len (d := d₂) (by rw [hd₂]; exact hfixed) (by rw [hd₂]; rfl) hrest
  rw [hd₂]
  exact ⟨1 + k, d.moved_moved 1 k⟩

theorem restores_readOpaque : Restores bound readOpaque :=
  Restores.length fun len => restores_readFixed len

theorem restores_readBool : Restores none readBool :=
  restores_readU32.bind fun _ =>
    Restores.ite (fun _ => Restores.pure _) fun _ =>
      Restores.ite (fun _ => Restores.pure _) fun _ =>
        Restores.get fun _ => Restores.ite (fun _ => Restores.fail _) fun _ => Restores.pure _

theorem restores_readStr : Restores bound readStr := by
  refine restores_readOpaque.bind fun bytes => ?_
  cases String.fromUTF8? ⟨bytes.toArray⟩ with
  | none => exact Restores.fail _
  | some s =>
    exact Restores.get fun _ => Restores.ite (fun _ => Restores.fail _) fun _ => Restores.pure _

theorem restores_narrowSigned (lo hi : ℤ) (w : UInt32) : Restores none (narrowSigned lo hi w) :=
  Restores.ite (fun _ => Restores.pure _) fun _ => Restores.fail _

theorem restores_narrowUnsigned (hi : ℕ) (w : UInt32) : Restores none (narrowUnsigned hi w) :=
  Restores.ite (fun _ => Restores.pure _) fun _ => Restores.fail _

theorem restores_deserializeChar : Restores none deserializeChar := by
  refine restores_readU32.bind fun w => ?_
  split
  · exact Restores.pure _
  · exact Restores.fail _

theorem restores_ofDisc (e : XdrEnum) (disc : Int32) : Restores none (e.ofDisc disc) := by
  rw [XdrEnum.ofDisc]
  cases e.discs.idxOf? disc with
  | none => exact Restores.fail _
  | some i => exact Restores.pure _

theorem restores_discOfDisc (dt : DiscTy) (disc : Int32) : Restores none (dt.ofDisc disc) := by
  cases dt with
  | i32 => exact Restores.pure _
  | xdrEnum e => exact restores_ofDisc e disc

/-- The span is looked up. -/
theorem restores_spanOf : Restores none spanOf := by
  refine Restores.get fun d => ?_
  cases d.spanStart with
  | none => exact Restores.fail _
  | some start =>
    intro d b d' _ hb h
    obtain ⟨span, d₁, hslice, hrest⟩ := run_bind_ok.mp h
    cases hrest
    exact ⟨0, (slice_ok hslice).trans (Deserializer.moved_zero hb).symm⟩

end Leaves

/-! ### Calls -/

section Calls

variable {bound : Option ℕ} {v : Visitor α}

theorem restores_deserializeOption {visitSome visitNone : De α}
    (hsome : Restores none visitSome) (hnone : Restores none visitNone) :
    Restores none (deserializeOption visitSome visitNone) := by
  refine restores_readBool.bind fun present => ?_
  cases present with
  | true => exact hsome.nested
  | false => exact hnone

theorem restores_elementsOf (hv : ∀ count, Restores none (v.visitSeq count)) (count : ℕ) :
    Restores none (elementsOf v count) := by
  intro d a d' hfixed hb h
  rw [elementsOf_run] at h
  split at h
  · split at h
    · cases h
    · exact (hv count).nested hfixed hb h
  · cases h

theorem restores_deserializeSeq (hv : ∀ count, Restores none (v.visitSeq count)) :
    Restores bound (deserializeSeq v) := by
  rw [deserializeSeq_eq]
  exact Restores.length (restores_elementsOf hv)

/-- A tuple, as no fixed opaque is pending. -/
theorem restores_deserializeTuple {len : ℕ} (hv : Restores bound (v.visitSeq len)) :
    Restores bound (deserializeTuple len v) := by
  intro d a d' hfixed hb h
  rw [deserializeTuple, StateT.run_bind, StateT.run_get, pure_bind, hfixed] at h
  exact hv.nested hfixed hb h

/-- Fixed opaque: the flag is taken by the tuple one level down, before anything is read. -/
theorem restores_fixedOpaque (n : ℕ) :
    Restores none (deserializeNewtypeStruct .sentinelFixed (fixedVisitor n)) := by
  have hbody : Restores none (nested (readFixed n >>= (fixedBytesVisitor n).visitBorrowedBytes)) :=
    Restores.nested ((restores_readFixed n).bind fun _ =>
      Restores.ite (fun _ => Restores.pure _) fun _ => Restores.fail _)
  intro d a d' hfixed hb h
  by_cases hfull : d.depth + 1 > d.maxDepth
  · rw [deserializeFixed_of_full n hfull] at h
    cases h
  · rw [deserializeFixed_run n hfixed hfull] at h
    exact hbody hfixed hb h

/-- The bound that is set is taken by the length behind it. -/
theorem restores_bounded {max : ℕ} (hv : Restores (some max) v.visitNewtypeStruct) :
    Restores none (deserializeTupleStruct .sentinelBounded max v) := by
  refine Restores.nested fun d a d' hfixed _ h => ?_
  exact hv (d := { d with boundPending := some max }) hfixed rfl h

/-- The mark of an enclosing array is put back. -/
theorem restores_marked {len : ℕ} (hv : Restores bound (v.visitSeq len)) :
    Restores bound (deserializeTupleStruct .sentinelArrayRef len v) := by
  refine Restores.nested fun d a d' hfixed hb h => ?_
  obtain ⟨_, _, hget, h⟩ := run_bind_ok.mp h
  cases hget
  obtain ⟨_, _, hset, h⟩ := run_bind_ok.mp h
  cases hset
  obtain ⟨out, d₁, hseq, h⟩ := run_bind_ok.mp h
  obtain ⟨_, _, hmodify, h⟩ := run_bind_ok.mp h
  cases hmodify
  cases out with
  | error e => cases h
  | ok a' =>
    cases h
    obtain ⟨k, rfl⟩ :=
      hv (d := { d with spanStart := some d.pos }) hfixed hb (ok_of_attempt hseq)
    exact ⟨k, rfl⟩

end Calls

/-! ### Loops -/

section Loops

variable {seed : De Value}

theorem restores_vecLoop (hseed : Restores none seed) (n : ℕ) : Restores none (vecLoop seed n) := by
  induction n with
  | zero => exact Restores.pure _
  | succ n ih => exact hseed.bind fun _ => ih.bind fun _ => Restores.pure _

theorem restores_elementCountLoop (hseed : Restores none seed) (n len : ℕ) :
    Restores none (elementCountLoop seed n len) := by
  induction n generalizing len with
  | zero => exact Restores.pure _
  | succ n ih => exact hseed.bind fun _ => ih _

theorem restores_listCountLoop {element : De (Option Value)} (helement : Restores none element)
    (n len : ℕ) : Restores none (listCountLoop element n len) := by
  induction n generalizing len with
  | zero => exact Restores.pure _
  | succ n ih =>
    refine helement.bind fun v => ?_
    cases v with
    | none => exact Restores.pure _
    | some v => exact ih _

/-- The first element is there, and takes a bound that is pending. -/
theorem restores_firstElement {bound : Option ℕ} {seed : De α} (hseed : Restores bound seed)
    (n : ℕ) : Restores bound (nextElement seed (n + 1)) :=
  hseed.bind fun _ => Restores.pure _

theorem restores_nextElement {seed : De α} (hseed : Restores none seed) (n : ℕ) :
    Restores none (nextElement seed n) := by
  cases n with
  | zero => exact Restores.pure _
  | succ n => exact restores_firstElement hseed n

/-- A visitor that takes an element and goes on with it, or without it. -/
theorem Restores.element {bound : Option ℕ} {seed : De α} {n : ℕ} {next : Option α × ℕ → De β}
    (hseed : Restores bound (nextElement seed n)) (hnone : ∀ n, Restores none (next (none, n)))
    (hsome : ∀ a n, Restores none (next (some a, n))) :
    Restores bound (nextElement seed n >>= next) := by
  refine hseed.bind fun r => ?_
  obtain ⟨a, n⟩ := r
  cases a with
  | none => exact hnone n
  | some a => exact hsome a n

theorem restores_visitFields {rec : Ty → De Value} (hrec : ∀ t, Restores none (rec t))
    (missing : Error) (ts : List Ty) (n : ℕ) : Restores none (visitFields rec missing ts n) := by
  induction ts generalizing n with
  | nil => exact Restores.pure _
  | cons t ts ih =>
    refine (restores_nextElement (hrec t) n).element (fun _ => Restores.fail _) fun v n => ?_
    exact (ih n).bind fun _ => Restores.pure _

end Loops

/-! ### Types -/

/-- `rec` restores the state for every type, and a counted type takes a bound. -/
structure RestoresAll (rec : Ty → De Value) : Prop where
  plain (T : Ty) : Restores none (rec T)
  counted (bound : Option ℕ) (c : CountedTy Ty) : Restores bound (rec (.counted c))

section Types

variable {rec : Ty → De Value} (hrec : RestoresAll rec) {bound : Option ℕ}

include hrec

theorem restores_elementCount (t : Ty) : Restores bound (elementCount rec t) :=
  restores_deserializeSeq fun _ => restores_elementCountLoop (hrec.plain t) _ _

/-- A borrowed array: the count takes the bound, and the span is looked up. -/
theorem restores_arrayRef (t : Ty) :
    Restores bound (deserializeTupleStruct .sentinelArrayRef 2 (arrayRefVisitor rec t)) := by
  refine restores_marked ?_
  have hcount : Restores bound (nextElement (elementCount rec t) 2) :=
    restores_firstElement (restores_elementCount hrec t) 1
  refine hcount.element (fun _ => Restores.fail _) fun len n => ?_
  refine (restores_nextElement restores_spanOf n).element (fun _ => Restores.fail _) ?_
  intro span _
  exact Restores.ite (fun _ => Restores.fail _) fun _ => Restores.pure _

theorem restores_listRef (t : Ty) :
    Restores none (deserializeTupleStruct .sentinelArrayRef 2 (listRefVisitor rec t)) := by
  have hcount : Restores none (listCount rec t) :=
    restores_deserializeTuple <| restores_listCountLoop
      (restores_deserializeOption ((hrec.plain t).map some) (Restores.pure _)) _ _
  refine restores_marked ?_
  refine (restores_nextElement hcount 2).element (fun _ => Restores.fail _) fun len n => ?_
  refine (restores_nextElement restores_spanOf n).element (fun _ => Restores.fail _) ?_
  intro span _
  exact Restores.pure _

theorem restores_deserializeCounted (c : CountedTy Ty) :
    Restores bound (deserializeCounted rec c) := by
  cases c with
  | string | str => exact restores_readStr.map _
  | varOpaque | varOpaqueRef | varOpaqueCow => exact restores_readOpaque.map _
  | vec t =>
    exact restores_deserializeSeq fun n => (restores_vecLoop (hrec.plain t) n).map Value.seq
  | varArrayRef t => exact restores_arrayRef hrec t

theorem restores_fieldsVisitor (ts : List Ty) (n : ℕ) :
    Restores none ((fieldsVisitor rec ts).visitSeq n) :=
  (restores_visitFields hrec.plain _ ts n).map _

theorem restores_visitEnum (e : SerdeEnum) (tag : UInt32) :
    Restores none (visitEnum rec e tag) := by
  rw [visitEnum]
  rcases e.variants[tag.toNat]? with _ | _ | t | ts | ts
  · exact Restores.fail _
  · exact Restores.pure _
  · exact (hrec.plain t).bind fun _ => Restores.pure _
  · exact (restores_visitFields hrec.plain _ ts _).bind fun _ => Restores.pure _
  · exact (restores_visitFields hrec.plain _ ts _).bind fun _ => Restores.pure _

theorem restores_visitFallback (u : XdrUnion) (tag : Int32) (n : ℕ) :
    Restores none (visitFallback rec u tag n) := by
  rw [visitFallback]
  rcases u.default with _ | ⟨dt, ts⟩
  · exact Restores.fail _
  · exact (restores_discOfDisc dt tag).bind fun _ =>
      (restores_visitFields hrec.plain _ ts n).bind fun _ => Restores.pure _

theorem restores_unionVisitor (u : XdrUnion) (n : ℕ) :
    Restores none ((unionVisitor rec u).visitSeq n) := by
  have htag : Restores none deserializeI32 := restores_readU32.map _
  refine (restores_nextElement htag n).element (fun _ => Restores.fail _) fun tag n => ?_
  dsimp only
  rcases u.armOf tag with _ | ⟨i, arm⟩
  · exact restores_visitFallback hrec u tag n
  · exact (restores_visitFields hrec.plain _ arm.fields n).bind fun _ => Restores.pure _

theorem restores_deserializeNamed (decl : Decl) : Restores none (deserializeNamed rec decl) := by
  cases decl with
  | newtypeStruct t => exact ((hrec.plain t).map _).nested
  | tupleStruct ts => exact (restores_fieldsVisitor hrec ts _).nested
  | struct ts => exact (restores_fieldsVisitor hrec ts _).nested
  | enum e => exact restores_readU32.bind fun tag => (restores_visitEnum hrec e tag).nested
  | xdrUnion u => exact restores_deserializeTuple (restores_unionVisitor hrec u _)

/-- **What restores the state for the parts restores it for the whole.** -/
theorem restoresAll_deserializeWith (Δ : Decls) : RestoresAll (deserializeWith Δ rec) := by
  refine ⟨fun T => ?_, fun bound c => restores_deserializeCounted hrec c⟩
  cases T with
  | bool => exact restores_readBool.map _
  | i8 => exact (restores_readU32.bind fun w => (restores_narrowSigned _ _ w).map _).map _
  | i16 => exact (restores_readU32.bind fun w => (restores_narrowSigned _ _ w).map _).map _
  | u8 => exact (restores_readU32.bind fun w => (restores_narrowUnsigned _ w).map _).map _
  | u16 => exact (restores_readU32.bind fun w => (restores_narrowUnsigned _ w).map _).map _
  | i32 => exact (restores_readU32.map _).map _
  | i64 => exact (restores_readU64.map _).map _
  | u32 | f32 => exact restores_readU32.map _
  | u64 | f64 => exact restores_readU64.map _
  | char => exact restores_deserializeChar.map _
  | counted c => exact restores_deserializeCounted hrec c
  -- the bound is set here, and taken by the counted type inside
  | bounded c max => exact restores_bounded ((hrec.counted (some max) c).map _)
  | fixedOpaque n => exact restores_fixedOpaque n
  | array t n => exact restores_deserializeTuple (restores_fieldsVisitor hrec _ n)
  | tuple ts => exact restores_deserializeTuple (restores_fieldsVisitor hrec ts _)
  | unit | unitStruct => exact Restores.pure _
  | option t => exact restores_deserializeOption ((hrec.plain t).map _) (Restores.pure _)
  | listRef t => exact restores_listRef hrec t
  | xdrEnum e => exact (restores_readU32.map _).bind fun disc => restores_ofDisc e disc
  | named id => exact restores_deserializeNamed hrec (Δ id)

end Types

theorem restoresAll_deserializeAt (Δ : Decls) (fuel : ℕ) : RestoresAll (deserializeAt Δ fuel) := by
  induction fuel with
  | zero =>
    exact restoresAll_deserializeWith ⟨fun _ => Restores.panics, fun _ _ => Restores.panics⟩ Δ
  | succ fuel ih => exact restoresAll_deserializeWith ih Δ

/-- **Every type puts the state back.** -/
theorem restores_deserialize (Δ : Decls) (T : Ty) : Restores none (T.deserialize Δ) :=
  fun d _ _ hfixed hb h => (restoresAll_deserializeAt Δ (d.maxDepth - d.depth)).plain T hfixed hb h

/-- **The codec puts its state back.**  A decode that starts with nothing pending, at any depth
and anywhere in the input, leaves the deserializer as it was, some whole units further on; an
encode that starts with nothing pending leaves nothing pending. -/
theorem codec_restores (Δ : Decls) :
    (∀ (T : Ty) (d d' : Deserializer) (v : Value), d.fixedPending = false →
      d.boundPending = none → (T.deserialize Δ).run d = .ok (v, d') →
        d'.depth = d.depth ∧ d'.spanStart = d.spanStart ∧ d'.mode = d.mode ∧
          d'.maxDepth = d.maxDepth ∧ d'.fixedPending = false ∧ d'.boundPending = none ∧
          d'.input = d.input ∧ ∃ units, d'.pos = d.pos + 4 * units) ∧
    ∀ (W : Type) [Write W] (T : Ty) (v : Value) (s s' : Serializer W), s.fixedPending = false →
      s.boundPending = none → v.serialize Δ T s = .ok s' →
        s'.fixedPending = false ∧ s'.boundPending = none := by
  constructor
  · intro T d d' v hfixed hb h
    obtain ⟨units, rfl⟩ := restores_deserialize Δ T hfixed hb h
    exact ⟨rfl, rfl, rfl, rfl, hfixed, rfl, rfl, units, rfl⟩
  · intro W _ T v s s' hfixed hb h
    exact (serialize_emits Δ none T v (.inl rfl)).settles hfixed hb h

/-- Where a decode may stand inside of another one. -/
def inner : Deserializer where
  input := [0, 0, 0, 9, 0, 0, 0, 1, 7, 0, 0, 0, 1, 2, 3, 0]
  pos := 4
  mode := .strict
  fixedPending := false
  boundPending := none
  spanStart := some 0
  depth := 5
  maxDepth := 8

/-- Five levels deep, in an array that is borrowed, a bound is taken. -/
theorem codec_restores_inner :
    let Δ : Decls := fun _ => .struct []
    let T : Ty := .tuple [.bounded .varOpaque 4, .u32]
    let v : Value := .seq [.newtype (.bytes [7]), .u32 0x01020300]
    (∃ d', (T.deserialize Δ).run inner = .ok (v, d') ∧ d'.depth = 5 ∧ d'.spanStart = some 0 ∧
      d'.boundPending = none ∧ ∃ units, d'.pos = 4 + 4 * units) ∧
    ∃ s', v.serialize Δ T (Serializer.new ([] : Bytes)) = .ok s' ∧ s'.boundPending = none := by
  intro Δ T v
  have hdecode : (T.deserialize Δ).run inner = .ok (v, { inner with pos := 16 }) := rfl
  have hencode : v.serialize Δ T (Serializer.new ([] : Bytes)) =
    .ok { w := [0, 0, 0, 1, 7, 0, 0, 0, 1, 2, 3, 0] } := rfl
  obtain ⟨hdepth, hspan, -, -, -, hbound, -, hpos⟩ :=
    (codec_restores Δ).1 T inner _ v rfl rfl hdecode
  have hsettled := (codec_restores Δ).2 Bytes T v _ _ rfl rfl hencode
  exact ⟨⟨_, hdecode, hdepth, hspan, hbound, hpos⟩, _, hencode, hsettled.2⟩

end Xdr
