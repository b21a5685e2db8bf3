/-
Decoding hostile input.

Nothing in the input can make a decode panic, run on or nest beyond its limit.
The model panics where the code would, at a slice out of range and at a depth
below zero, and when it has recursed more often than the limit allows; and the
decoder computes `read`, which does not (`deserializeAt_computes`).

What it does on the way is said by a copy of the decoder that makes further
assertions and panics when one of them fails (`Ty.deserializeAsserting`): every
read of a part starts and ends within the input, the parts nest no deeper than
the levels left, and the element loop of a counted sequence runs no more often
than a quarter of the bytes behind the count.  It decodes what the decoder
decodes (`deserializeAsserting_eq`).

`read_limited` relates two limits: the lesser one changes nothing, or it ends the
decode with `RecursionLimit`.
-/
import RosUtils.XdrMonotone

open BigEndian ExceptState

namespace Xdr

variable {α : Type} {Δ : Decls}

/-! ### A decoder that makes assertions -/

/-- The position is within the input. -/
def assertInInput : De Unit := do
  let d ← get
  if d.pos ≤ d.input.length then pure () else panics

/-- Read a part, with an assertion before and after. -/
def asserting (rec : Ty → De Value) (t : Ty) : De Value := do
  assertInInput
  let v ← rec t
  assertInInput
  pure v

/-- `vecLoop`, with at most `budget` rounds. -/
def vecLoopWithin (seed : De Value) : ℕ → ℕ → De (List Value)
  | _, 0 => pure []
  | 0, _ + 1 => panics
  | budget + 1, remaining + 1 => do
    let v ← seed
    let vs ← vecLoopWithin seed budget remaining
    pure (v :: vs)

/-- `elementCountLoop`, with at most `budget` rounds. -/
def elementCountLoopWithin (seed : De Value) : ℕ → ℕ → ℕ → De ℕ
  | _, 0, len => pure len
  | 0, _ + 1, _ => panics
  | budget + 1, remaining + 1, len => do
    let _ ← seed
    elementCountLoopWithin seed budget remaining (len + 1)

/-- A quarter of the bytes that are left. -/
def unitsLeft : De ℕ := do
  let d ← get
  pure (d.remaining.length / bytesPerXdrUnit)

/-- `vecVisitor`, whose loop is held to the units left when it starts. -/
def vecVisitorWithin (rec : Ty → De Value) (t : Ty) : Visitor Value :=
  { vecVisitor rec t with
    visitSeq := fun remaining => do
      let budget ← unitsLeft
      Value.seq <$> vecLoopWithin (rec t) budget remaining }

/-- `elementCount`, whose loop is held to the units left when it starts. -/
def elementCountWithin (rec : Ty → De Value) (t : Ty) : De ℕ :=
  deserializeSeq {
    expecting := "a variable-length array"
    visitSeq := fun remaining => do
      let budget ← unitsLeft
      elementCountLoopWithin (rec t) budget remaining 0 }

/-- `arrayRefVisitor` over `elementCountWithin`. -/
def arrayRefVisitorWithin (rec : Ty → De Value) (t : Ty) : Visitor Value where
  expecting := "a variable-length array to borrow"
  visitSeq remaining := do
    let (len, remaining) ← nextElement (elementCountWithin rec t) remaining
    match len with
    | none => fail (invalidLength 0 "a variable-length array to borrow")
    | some len => do
      let (span, _) ← nextElement spanOf remaining
      match span with
      | none => fail (invalidLength 1 "a variable-length array to borrow")
      | some span =>
        if span.length < bytesPerXdrUnit then
          fail (invalidLength span.length "a variable-length array to borrow")
        else pure (.arrayRef len (span.drop bytesPerXdrUnit))

/-- `deserializeWith`, with the element loops of counted sequences held to the input. -/
def deserializeWithin (Δ : Decls) (rec : Ty → De Value) : Ty → De Value
  | .counted (.vec t) => deserializeSeq (vecVisitorWithin rec t)
  | .counted (.varArrayRef t) =>
    deserializeTupleStruct .sentinelArrayRef 2 (arrayRefVisitorWithin rec t)
  | T => deserializeWith Δ rec T

/-- `n` levels of `deserializeWithin`, with an assertion around the read of every part. -/
def assertingAt (Δ : Decls) : ℕ → Ty → De Value
  | 0 => deserializeWithin Δ fun _ => panics
  | n + 1 => deserializeWithin Δ (asserting (assertingAt Δ n))

/-- `T::deserialize`, making assertions. -/
def Ty.deserializeAsserting (Δ : Decls) (T : Ty) : De Value := fun d =>
  asserting (assertingAt Δ (d.maxDepth - d.depth)) T d

/-! ### The assertions hold -/

/-- What is behind a count: the check of the count, and the elements. -/
def elementsOf (v : Visitor α) (count : ℕ) : De α := do
  let d ← get
  let rem ← List.length <$> slice d.pos d.input.length
  if count > rem / bytesPerXdrUnit then fail (.eof (count * bytesPerXdrUnit - rem))
  else nested (v.visitSeq count)

theorem deserializeSeq_eq (v : Visitor α) :
    deserializeSeq v = (UInt32.toNat <$> readU32) >>= fun count =>
      checkBound count >>= fun _ => elementsOf v count := rfl

theorem elementsOf_run (v : Visitor α) (count : ℕ) (d : Deserializer) :
    (elementsOf v count).run d =
      if d.pos ≤ d.input.length then
        if count > d.remaining.length / bytesPerXdrUnit then
          .error (.error (.eof (count * bytesPerXdrUnit - d.remaining.length)), d)
        else (nested (v.visitSeq count)).run d
      else .error (.panic, d) := by
  rw [elementsOf, StateT.run_bind, StateT.run_get, pure_bind]
  by_cases hpos : d.pos ≤ d.input.length
  · have hslice : (List.length <$> slice d.pos d.input.length).run d
        = .ok (d.remaining.length, d) := by
      refine run_map_of_ok (a := d.remaining) ?_
      simp [slice, StateT.run_bind, hpos, Deserializer.remaining]
      rfl
    rw [if_pos hpos]
    rw [run_bind_of_ok hslice]
    split
    · rfl
    · rfl
  · have hslice : (List.length <$> slice d.pos d.input.length).run d = .error (.panic, d) := by
      simp [slice, hpos]
      rfl
    rw [if_neg hpos]
    exact run_bind_of_error hslice

/-- A visitor is met only with a count that the bytes behind it can hold, a unit for each
element. -/
theorem deserializeSeq_congr {v v' : Visitor α}
    (h : ∀ n d, n ≤ d.remaining.length / bytesPerXdrUnit →
      (v.visitSeq n).run d = (v'.visitSeq n).run d) :
    deserializeSeq v = deserializeSeq v' := by
  have helems : ∀ count, elementsOf v count = elementsOf v' count := by
    intro count
    funext d
    show (elementsOf v count).run d = (elementsOf v' count).run d
    rw [elementsOf_run, elementsOf_run]
    by_cases hcount : count > d.remaining.length / bytesPerXdrUnit
    · rw [if_pos hcount, if_pos hcount]
    · have hbody := h count { d with depth := d.depth + 1 } (Nat.not_lt.mp hcount)
      rw [if_neg hcount, if_neg hcount, nested_congr hbody]
  rw [deserializeSeq_eq, deserializeSeq_eq]
  simp only [helems]

theorem vecLoopWithin_eq (seed : De Value) {budget n : ℕ} (h : n ≤ budget) :
    vecLoopWithin seed budget n = vecLoop seed n := by
  induction n generalizing budget with
  | zero => cases budget <;> rfl
  | succ n ih =>
    obtain ⟨budget, rfl⟩ : ∃ k, budget = k + 1 := ⟨budget - 1, by omega⟩
    rw [vecLoopWithin, vecLoop, ih (by omega)]

theorem elementCountLoopWithin_eq (seed : De Value) {budget n : ℕ} (len : ℕ) (h : n ≤ budget) :
    elementCountLoopWithin seed budget n len = elementCountLoop seed n len := by
  induction n generalizing budget len with
  | zero => cases budget <;> rfl
  | succ n ih =>
    obtain ⟨budget, rfl⟩ : ∃ k, budget = k + 1 := ⟨budget - 1, by omega⟩
    simp only [elementCountLoopWithin, elementCountLoop, ih (len + 1) (Nat.le_of_succ_le_succ h)]

/-- **The element loop of a counted sequence runs no more often than a quarter of the
bytes behind the count**, whatever an element is. -/
theorem deserializeWithin_eq (Δ : Decls) (rec : Ty → De Value) :
    deserializeWithin Δ rec = deserializeWith Δ rec := by
  funext T
  have hcount : ∀ t, elementCountWithin rec t = elementCount rec t := by
    intro t
    refine deserializeSeq_congr fun n d hn => ?_
    show (elementCountLoopWithin (rec t) (d.remaining.length / bytesPerXdrUnit) n 0).run d = _
    rw [elementCountLoopWithin_eq (rec t) 0 hn]
  have hvec : ∀ t, deserializeSeq (vecVisitorWithin rec t) = deserializeSeq (vecVisitor rec t) := by
    intro t
    refine deserializeSeq_congr fun n d hn => ?_
    show (Value.seq <$> vecLoopWithin (rec t) (d.remaining.length / bytesPerXdrUnit) n).run d = _
    rw [vecLoopWithin_eq (rec t) hn]
    rfl
  have harray : ∀ t, arrayRefVisitorWithin rec t = arrayRefVisitor rec t := by
    intro t
    rw [arrayRefVisitorWithin, hcount]
    rfl
  unfold deserializeWithin
  split
  · exact hvec _
  · exact congrArg (deserializeTupleStruct .sentinelArrayRef 2) (harray _)
  · rfl

section Asserting

variable {mode : Strictness} {limit room : ℕ} {bound : Option ℕ}

theorem assertInInput_run {d : Deserializer} (h : d.pos ≤ d.input.length) :
    assertInInput.run d = .ok ((), d) := by
  rw [assertInInput, StateT.run_bind, StateT.run_get, pure_bind, if_pos h]
  rfl

theorem asserting_refines {rec : Ty → De Value} {t : Ty} {p : Parser Value}
    (h : Refines mode limit room bound (rec t) p) :
    Refines mode limit room bound (asserting rec t) p := by
  refine h.congr fun d hd => ?_
  rw [asserting, run_bind_of_ok (assertInInput_run hd.pos)]
  match hp : p.run d.remaining with
  | .error e =>
    obtain ⟨d', hrun, -⟩ := h.run_of_error hd hp
    rw [hrun]
    exact run_bind_of_error hrun
  | .ok (v, rest) =>
    -- a decode that succeeds has moved to what `p` leaves, which is within the input
    have hrun := h.run_of_ok hd hp
    rw [hrun, run_bind_of_ok hrun, run_bind_of_ok (assertInInput_run (hd.advanced rest).pos)]
    rfl

theorem Computes.asserting {Δ : Decls} {rec : Ty → De Value}
    (h : Computes Δ mode limit room rec) : Computes Δ mode limit room (Xdr.asserting rec) :=
  ⟨fun T => asserting_refines (h.reads T), fun max c => asserting_refines (h.holds max c)⟩

/-- The asserting decoder computes `read` as well, with any fuel that covers the levels
left. -/
theorem assertingAt_computes (Δ : Decls) (fuel : ℕ) :
    ∀ room ≤ fuel, Computes Δ mode limit room (assertingAt Δ fuel) := by
  induction fuel with
  | zero =>
    intro room hroom
    obtain rfl : room = 0 := by omega
    rw [assertingAt, deserializeWithin_eq]
    exact .level Computes.bottom
  | succ fuel ih =>
    intro room hroom
    rw [assertingAt, deserializeWithin_eq]
    exact .level fun r hr => (ih r (by omega)).asserting

end Asserting

/-- **The assertions hold**: the asserting decoder decodes what the decoder decodes, from
every state with nothing pending. -/
theorem deserializeAsserting_eq (Δ : Decls) (T : Ty) {d : Deserializer}
    (hf : d.fixedPending = false) (hb : d.boundPending = none) (hpos : d.pos ≤ d.input.length) :
    (T.deserializeAsserting Δ).exec d = (T.deserialize Δ).exec d := by
  rw [deserialize_eq Δ T hf hb hpos]
  exact ((assertingAt_computes Δ _ _ le_rfl).asserting.reads T).run
    ⟨rfl, rfl, rfl, hf, hb, hpos⟩

/-- More fuel than there are levels left is not used. -/
theorem deserializeAt_eq (Δ : Decls) (T : Ty) {d : Deserializer} (hf : d.fixedPending = false)
    (hb : d.boundPending = none) (hpos : d.pos ≤ d.input.length) {fuel : ℕ}
    (hfuel : d.maxDepth - d.depth ≤ fuel) :
    (deserializeAt Δ fuel T).exec d = (T.deserialize Δ).exec d := by
  rw [deserialize_eq Δ T hf hb hpos]
  exact ((deserializeAt_computes Δ fuel _ hfuel).reads T).run ⟨rfl, rfl, rfl, hf, hb, hpos⟩

/-! ### Two limits -/

/-- Same as with the greater limit, unless the lesser one is reached. -/
abbrev Limited (limit : ℕ) (p q : Parser α) : Prop := SameUnless (.recursionLimit limit) p q

theorem repeatN_limited {limit : ℕ} {p q : Parser Value} (h : Limited limit p q) (n : ℕ) :
    Limited limit (repeatN p n) (repeatN q n) := by
  induction n with
  | zero => exact .rfl _
  | succ n ih => exact h.bind fun v => ih.bind fun vs => .rfl _

theorem readFields_limited {limit : ℕ} {c c' : Ty → Parser Value}
    (h : ∀ T, Limited limit (c T) (c' T)) (ts : List Ty) :
    Limited limit (readFields c ts) (readFields c' ts) := by
  induction ts with
  | nil => exact .rfl _
  | cons T ts ih => exact (h T).bind fun v => ih.bind fun vs => .rfl _

theorem chain_limited {limit : ℕ} {p q : Parser (Option Value)} (h : Limited limit p q) (n : ℕ) :
    Limited limit (chain p n) (chain q n) := by
  induction n with
  | zero => exact .rfl _
  | succ n ih =>
    refine h.bind fun v => ?_
    cases v with
    | none => exact .rfl _
    | some v => exact ih.bind fun vs => .rfl _

theorem level_limited {limit limit' room room' : ℕ} {body : (r : ℕ) → r < room → Parser α}
    {body' : (r : ℕ) → r < room' → Parser α} (hr : room ≤ room')
    (hb : ∀ r h r' h', r ≤ r' → Limited limit (body r h) (body' r' h')) :
    Limited limit (level limit room body) (level limit' room' body') := by
  cases room with
  | zero => exact .throw _
  | succ r =>
    cases room' with
    | zero => omega
    | succ r' => exact hb r _ r' _ (by omega)

section Shapes

variable {mode : Strictness} {limit limit' room room' : ℕ} {c : Child room} {c' : Child room'}
  (hr : room ≤ room') (hc : ∀ r h r' h' T, r ≤ r' → Limited limit (c r h T) (c' r' h' T))
include hr hc

theorem readVec_limited (bound : Option ℕ) (T : Ty) :
    Limited limit (readVec (Policy.ofInput mode limit) room c bound T)
      (readVec (Policy.ofInput mode limit') room' c' bound T) :=
  SameUnless.bind (.rfl _) fun count =>
    level_limited hr fun r h r' h' hle => repeatN_limited (hc r h r' h' T hle) count

theorem optional_limited (T : Ty) (some : Value → α) (none : α) :
    Limited limit (optional (Policy.ofInput mode limit) room (fun r h => some <$> c r h T) none)
      (optional (Policy.ofInput mode limit') room' (fun r h => some <$> c' r h T) none) := by
  refine SameUnless.bind (.rfl _) fun present => ?_
  cases present with
  | false => exact .rfl _
  | true => exact level_limited hr fun r h r' h' hle => (hc r h r' h' T hle).map _

theorem readCounted_limited (bound : Option ℕ) (C : CountedTy Ty) :
    Limited limit (readCounted (Policy.ofInput mode limit) room c bound C)
      (readCounted (Policy.ofInput mode limit') room' c' bound C) := by
  cases C with
  | string | str | varOpaque | varOpaqueRef | varOpaqueCow => exact .rfl _
  | vec T => exact (readVec_limited hr hc bound T).map _
  | varArrayRef T =>
    refine level_limited hr fun r h r' h' hle => ?_
    exact (readVec_limited hle (fun r h r' h' => hc r _ r' _) bound T).span.bind fun _ => .rfl _

theorem readNamed_limited (decl : Decl) :
    Limited limit (readNamed (Policy.ofInput mode limit) room c decl)
      (readNamed (Policy.ofInput mode limit') room' c' decl) := by
  cases decl with
  | newtypeStruct T => exact level_limited hr fun r h r' h' hle => (hc r h r' h' T hle).map _
  | tupleStruct ts | struct ts =>
    exact level_limited hr fun r h r' h' hle =>
      (readFields_limited (fun T => hc r h r' h' T hle) ts).map _
  | enum e =>
    refine SameUnless.bind (.rfl _) fun tag => level_limited hr fun r h r' h' hle => ?_
    rw [readVariant, readVariant]
    split
    · exact .rfl _
    · exact (readFields_limited (fun T => hc r h r' h' T hle) _).map _
  | xdrUnion u =>
    refine level_limited hr fun r h r' h' hle => SameUnless.bind (.rfl _) fun tag => ?_
    rw [readArm, readArm]
    split
    · exact (readFields_limited (fun T => hc r h r' h' T hle) _).map _
    split
    · exact .rfl _
    · exact SameUnless.bind (.rfl _) fun d =>
        (readFields_limited (fun T => hc r h r' h' T hle) _).bind fun vs => .rfl _

theorem readShape_limited (Δ : Decls) (T : Ty) :
    Limited limit (readShape (Policy.ofInput mode limit) Δ room c T)
      (readShape (Policy.ofInput mode limit') Δ room' c' T) := by
  cases T with
  | bool | i8 | i16 | i32 | i64 | u8 | u16 | u32 | u64 | f32 | f64 | char | unit | unitStruct
  | xdrEnum => exact .rfl _
  | counted C => exact readCounted_limited hr hc none C
  | bounded C max =>
    exact level_limited hr fun r h r' h' hle =>
      (readCounted_limited hle (fun r h r' h' => hc r _ r' _) (some max) C).map _
  | fixedOpaque n => exact level_limited hr fun _ _ _ _ _ => .rfl _
  | array T n =>
    exact level_limited hr fun r h r' h' hle =>
      (readFields_limited (fun T => hc r h r' h' T hle) _).map _
  | tuple ts =>
    exact level_limited hr fun r h r' h' hle =>
      (readFields_limited (fun T => hc r h r' h' T hle) ts).map _
  | option T => exact optional_limited hr hc T _ _
  | listRef T =>
    refine level_limited hr fun r h r' h' hle => level_limited hle fun r h r' h' hle => ?_
    exact (chain_limited (optional_limited hle (fun r h r' h' => hc r _ r' _) T _ _) _).span.bind
      fun _ => .rfl _
  | named id => exact readNamed_limited hr hc (Δ id)

end Shapes

/-- **A lesser limit changes nothing, or it ends the decode.** -/
theorem read_limited {mode : Strictness} {limit limit' room room' : ℕ} (hr : room ≤ room')
    (Δ : Decls) (T : Ty) :
    Limited limit (read (Policy.ofInput mode limit) Δ room T)
      (read (Policy.ofInput mode limit') Δ room' T) := by
  induction room using Nat.strong_induction_on generalizing room' T with
  | _ room ih =>
    rw [read_eq, read_eq]
    exact readShape_limited hr (fun r h r' _ T hle => ih r h hle T) Δ T

/-! ### Hostile input -/

/-- What a decode of any type, recursive ones included, does with any input under any depth
limit.  The fields are about the run of `T::deserialize` from a new deserializer. -/
structure DecodesSafely (Δ : Decls) (T : Ty) (b : Bytes) (mode : Strictness) (maxDepth : ℕ) :
    Prop where
  /-- It ends with a value or with an error of the codec.  A panic would be a slice out of
  range, a depth below zero, where a level is left after a body that failed too, or a
  recursion beyond the limit. -/
  ends : (∃ v d, (T.deserialize Δ).run ((Deserializer.new b mode).withMaxDepth maxDepth)
      = .ok (v, d) ∧ d.pos ≤ d.input.length ∧ d.depth = 0 ∧ v.depth ≤ maxDepth) ∨
    ∃ e d, (T.deserialize Δ).run ((Deserializer.new b mode).withMaxDepth maxDepth)
      = .error (.error e, d)
  /-- The parts nest no deeper than the limit: allowed to recurse further, it does the same. -/
  nests : ∀ fuel ≥ maxDepth,
    (deserializeAt Δ fuel T).exec ((Deserializer.new b mode).withMaxDepth maxDepth)
      = (T.deserialize Δ).exec ((Deserializer.new b mode).withMaxDepth maxDepth)
  /-- Every part is read within the input, and no element loop outruns the bytes behind its
  count. -/
  asserts : (T.deserializeAsserting Δ).exec ((Deserializer.new b mode).withMaxDepth maxDepth)
      = (T.deserialize Δ).exec ((Deserializer.new b mode).withMaxDepth maxDepth)
  /-- The limit changes nothing, or it ends the decode. -/
  limited : ∀ limit ≥ maxDepth, decode Δ T mode maxDepth b = decode Δ T mode limit b ∨
    decode Δ T mode maxDepth b = .error (.error (.recursionLimit maxDepth))
  /-- A value that is deeper than the limit ends the decode. -/
  deeper : ∀ limit ≥ maxDepth, ∀ v rest, decode Δ T mode limit b = .ok (v, rest) →
    maxDepth < v.depth →
    decode Δ T mode maxDepth b = .error (.error (.recursionLimit maxDepth))

/-- What is decoded is no deeper than the limit. -/
theorem depth_le_of_decode {T : Ty} {b : Bytes} {mode : Strictness} {maxDepth : ℕ} {v : Value}
    {rest : Bytes} (h : decode Δ T mode maxDepth b = .ok (v, rest)) : v.depth ≤ maxDepth := by
  have hread : (Place.mk ⟨none, T, v⟩ maxDepth b rest).Read (Policy.ofInput mode maxDepth) Δ :=
    readB_of_read (decode_ok.mp h)
  exact hread.depth_le

theorem decode_limited {T : Ty} {b : Bytes} {mode : Strictness} {maxDepth limit : ℕ}
    (hle : maxDepth ≤ limit) :
    decode Δ T mode maxDepth b = decode Δ T mode limit b ∨
      decode Δ T mode maxDepth b = .error (.error (.recursionLimit maxDepth)) := by
  have hlimited : Limited maxDepth (read (Policy.ofInput mode maxDepth) Δ maxDepth T)
      (read (Policy.ofInput mode limit) Δ limit T) := read_limited hle Δ T
  rcases hlimited b with h | h
  · exact .inr (decode_error h)
  · refine .inl ?_
    rw [decode_eq, decode_eq, h]

/-- A chain of two nodes under a limit of three: the second node is a level too deep. -/
example : decode nodeDecls (.named 0) .strict 3
      [0, 0, 0, 7, 0, 0, 0, 0, 0, 0, 0, 1, 0, 0, 0, 8, 0, 0, 0, 1, 0, 0, 0, 1, 0, 0, 0, 0]
    = .error (.error (.recursionLimit 3)) := by rfl

end Xdr
