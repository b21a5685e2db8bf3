/-
A borrowed array against the vector of the same elements.

`VarArrayRef` decodes its elements to find where they end and keeps the bytes;
`VarArrayIter` decodes them again, one at a time, in the lenient mode and with
no depth limit, from those bytes alone.  The two decodes of an element differ in
one thing more: the second no longer sees what follows the array, and a count
inside the element is held to what the deserializer can see.

So the array decodes exactly when the vector does, with the same tail and
count, but its iterator yields the elements of the vector if and only if no
count inside an element needs bytes behind the array (`CountsWithin`):
`arrayRef_refines_vec_iff`.
-/
import RosUtils.XdrCounts

open BigEndian ExceptState

namespace Xdr

/-! ### The iterator -/

/-- `VarArrayIter`: the bytes not yet decoded, and how many elements they hold. -/
structure VarArrayIter where
  rest : Bytes
  left : ℕ

/-- `VarArrayRef::iter`. -/
def iterArray (len : ℕ) (encoded : Bytes) : VarArrayIter := ⟨encoded, len⟩

/-- A deserializer over bytes that were decoded once already. -/
def Deserializer.again (rest : Bytes) : Deserializer :=
  (Deserializer.new rest .lenient).withMaxDepth usizeMax

/-- `VarArrayIter::next`: the element, if any, and the iterator after it.  An error
ends the iteration. -/
def VarArrayIter.next (Δ : Decls) (T : Ty) (it : VarArrayIter) :
    Option (Except Fault Value) × VarArrayIter :=
  match it.left with
  | 0 => (none, it)
  | left + 1 =>
    match (T.deserialize Δ).exec (Deserializer.again it.rest) with
    | .ok (v, de) => (some (.ok v), ⟨de.remaining, left⟩)
    | .error e => (some (.error e), ⟨it.rest, 0⟩)

/-- What `n` calls of `next` yield, up to the end of the iteration. -/
def VarArrayIter.collect (Δ : Decls) (T : Ty) : ℕ → VarArrayIter → List (Except Fault Value)
  | 0, _ => []
  | n + 1, it =>
    match it.next Δ T with
    | (none, _) => []
    | (some r, it') => r :: VarArrayIter.collect Δ T n it'

/-- An element as an iterator decodes it. -/
def readAgain (Δ : Decls) (T : Ty) : Parser Value :=
  read (Policy.ofInput .lenient usizeMax) Δ usizeMax T

section Iter

variable {Δ : Decls} {T : Ty}

theorem deserialize_again (rest : Bytes) :
    (T.deserialize Δ).exec (Deserializer.again rest) =
      (Deserializer.again rest).lift ((readAgain Δ T).run rest) :=
  deserialize_new_eq Δ T rest .lenient usizeMax

theorem again_remaining {c rest : Bytes} :
    ((Deserializer.again (c ++ rest)).advanced rest).remaining = rest :=
  Deserializer.remaining_advanced (c := c) rfl

theorem next_of_ok {rest rest' : Bytes} {v : Value} {left : ℕ}
    (h : (readAgain Δ T).run rest = .ok (v, rest')) :
    VarArrayIter.next Δ T ⟨rest, left + 1⟩ = (some (.ok v), ⟨rest', left⟩) := by
  obtain ⟨c, rfl, -⟩ := read_advances _ _ _ _ h
  simp only [VarArrayIter.next, deserialize_again, h, Deserializer.lift, again_remaining]

theorem next_of_error {rest : Bytes} {e : Error} {left : ℕ}
    (h : (readAgain Δ T).run rest = .error e) :
    VarArrayIter.next Δ T ⟨rest, left + 1⟩ = (some (.error (.error e)), ⟨rest, 0⟩) := by
  simp only [VarArrayIter.next, deserialize_again, h, Deserializer.lift]

/-- The iterator yields values exactly when the elements are read one after another. -/
theorem collect_eq_ok_iff {vs : List Value} {rest : Bytes} :
    (∀ n, vs.length ≤ n → VarArrayIter.collect Δ T n ⟨rest, vs.length⟩ = vs.map .ok) ↔
      ∃ rest', (repeatN (readAgain Δ T) vs.length).run rest = .ok (vs, rest') := by
  induction vs generalizing rest with
  | nil =>
    constructor
    · intro _
      exact ⟨rest, rfl⟩
    · intro _ n _
      cases n <;> rfl
  | cons v vs ih =>
    constructor
    · intro h
      have hn := h (vs.length + 1) le_rfl
      -- an element that is not decoded again makes the iterator yield an error
      match hread : (readAgain Δ T).run rest with
      | .error e =>
        simp only [VarArrayIter.collect, List.length_cons, next_of_error hread, List.map_cons,
          List.cons.injEq, reduceCtorEq, false_and] at hn
      | .ok (v', u) =>
        have hall : ∀ n, vs.length ≤ n →
            v' = v ∧ VarArrayIter.collect Δ T n ⟨u, vs.length⟩ = vs.map .ok := by
          intro n hle
          have := h (n + 1) (Nat.succ_le_succ hle)
          simpa only [VarArrayIter.collect, List.length_cons, next_of_ok hread, List.map_cons,
            List.cons.injEq, Except.ok.injEq] using this
        obtain ⟨rest', hrest⟩ := ih.mp fun n hle => (hall n hle).2
        obtain rfl := (hall vs.length le_rfl).1
        refine ⟨rest', ?_⟩
        rw [List.length_cons, repeatN, run_bind_of_ok hread, run_bind_of_ok hrest]
        rfl
    · rintro ⟨rest', h⟩ n hn
      obtain ⟨v', u, hread, htail⟩ := run_bind_ok.mp h
      obtain ⟨vs', u', hrest, hpure⟩ := run_bind_ok.mp htail
      obtain ⟨heq, rfl⟩ := run_pure_ok.mp hpure
      cases heq
      obtain ⟨m, rfl⟩ : ∃ m, n = m + 1 := ⟨n - 1, by rw [List.length_cons] at hn; omega⟩
      have hm := ih.mpr ⟨_, hrest⟩ m (by rw [List.length_cons] at hn; omega)
      simp only [VarArrayIter.collect, List.length_cons, next_of_ok hread, List.map_cons, hm]

end Iter

/-! ### The two decodes -/

/-- Decode a value of the type `T` from the front of `b`, under a depth limit. -/
def decodeAs (Δ : Decls) (T : Ty) (mode : Strictness) (maxDepth : ℕ) (b : Bytes) :
    Except Fault (Value × Deserializer) :=
  (T.deserialize Δ).exec ((Deserializer.new b mode).withMaxDepth maxDepth)

theorem decodeAs_ok {Δ : Decls} {T : Ty} {mode : Strictness} {maxDepth : ℕ} {b : Bytes}
    {v : Value} {d : Deserializer} :
    decodeAs Δ T mode maxDepth b = .ok (v, d) ↔
      ∃ t, (read (Policy.ofInput mode maxDepth) Δ maxDepth T).run b = .ok (v, t) ∧
        d = ((Deserializer.new b mode).withMaxDepth maxDepth).advanced t := by
  rw [decodeAs, deserialize_new_eq]
  match (read (Policy.ofInput mode maxDepth) Δ maxDepth T).run b with
  | .error e =>
    constructor
    · intro h
      cases h
    · rintro ⟨t, h, -⟩
      cases h
  | .ok (v', t) =>
    constructor
    · intro h
      cases h
      exact ⟨t, rfl, rfl⟩
    · rintro ⟨t', h, rfl⟩
      cases h
      rfl

/-- Where a decode that leaves `t` leaves a new deserializer. -/
theorem new_advanced_remaining {b c t : Bytes} (h : b = c ++ t) (mode : Strictness)
    (maxDepth : ℕ) :
    (((Deserializer.new b mode).withMaxDepth maxDepth).advanced t).remaining = t :=
  Deserializer.remaining_advanced (c := c) h

/-- A borrowed array, decoded one level higher, stands for the vector: it decodes from
the same inputs, leaves the same tail, and its iterator yields the vector's elements. -/
structure ArrayRefRefinesVec (Δ : Decls) (T : Ty) (mode : Strictness) (maxDepth : ℕ)
    (b : Bytes) : Prop where
  decodes : (∃ r, decodeAs Δ (.counted (.varArrayRef T)) mode (maxDepth + 1) b = .ok r) ↔
    ∃ r, decodeAs Δ (.counted (.vec T)) mode maxDepth b = .ok r
  agrees : ∀ a d v d', decodeAs Δ (.counted (.varArrayRef T)) mode (maxDepth + 1) b = .ok (a, d) →
    decodeAs Δ (.counted (.vec T)) mode maxDepth b = .ok (v, d') →
    d.remaining = d'.remaining ∧ ∃ vs encoded, v = .seq vs ∧ a = .arrayRef vs.length encoded ∧
      ∀ n, vs.length ≤ n → (iterArray vs.length encoded).collect Δ T n = vs.map .ok

/-- When a vector stands at the front of `b`, every count inside one of its elements is at most
a quarter of the bytes between it and the end of the vector. -/
def CountsWithin (Δ : Decls) (T : Ty) (mode : Strictness) (maxDepth : ℕ) (b : Bytes) : Prop :=
  ∀ (w : UInt32) (u : Bytes) (v : Value) (d : Deserializer), b = u32ToBe w ++ u →
    decodeAs Δ (.counted (.vec T)) mode maxDepth b = .ok (v, d) →
    ∀ n left, CountInFields Δ (List.replicate w.toNat T) u n left →
      n ≤ (left - d.remaining.length) / bytesPerXdrUnit

section Refines

variable {Δ : Decls} {T : Ty} {mode : Strictness} {maxDepth : ℕ} {b t : Bytes}
  {vs : List Value}

/-- Only the error of a depth limit names the limit. -/
theorem readVec_limit (limit limit' : ℕ)
    (h : (readVec (Policy.ofInput mode limit) maxDepth
      (fun r _ => read (Policy.ofInput mode limit) Δ r) none T).run b = .ok (vs, t)) :
    (readVec (Policy.ofInput mode limit') maxDepth
      (fun r _ => read (Policy.ofInput mode limit') Δ r) none T).run b = .ok (vs, t) := by
  have hw : (Policy.ofInput mode limit).Weaker (Policy.ofInput mode limit') [] [] :=
    ⟨id, fun _ _ => id⟩
  have hc := readVec_carries hw (le_refl maxDepth)
    (fun _ _ _ _ T hle => read_carries hw hle Δ T) none T
  have hrun := hc.run (x := b) (u := t) (by simpa using h)
  simpa using hrun

/-- The vector, read through its count and its elements. -/
theorem readVec_split
    (h : (readVec (Policy.ofInput mode maxDepth) maxDepth
      (fun r _ => read (Policy.ofInput mode maxDepth) Δ r) none T).run b = .ok (vs, t)) :
    ∃ (w : UInt32) (c : Bytes), b = u32ToBe w ++ (c ++ t) ∧ 0 < maxDepth ∧ vs.length = w.toNat ∧
      w.toNat ≤ (c ++ t).length / bytesPerXdrUnit ∧
      (repeatN (read (Policy.ofInput mode maxDepth) Δ (maxDepth - 1) T) w.toNat).run (c ++ t)
        = .ok (vs, t) := by
  obtain ⟨w, u, rfl, -, hfits, hlevel⟩ := readVec_ok.mp h
  obtain ⟨r, hr, rfl, helems⟩ := level_ok.mp hlevel
  obtain ⟨c, rfl, -⟩ := repeatN_advances (read_advances _ Δ r T) _ helems
  exact ⟨w, c, rfl, Nat.succ_pos r, repeatN_length helems, of_decide_eq_true hfits, helems⟩

/-- The elements decode again from their own bytes exactly when their counts are met
there. -/
theorem readAgain_iff (hd : maxDepth ≤ usizeMax) {k : ℕ} {c : Bytes}
    (h : (repeatN (read (Policy.ofInput mode maxDepth) Δ (maxDepth - 1) T) k).run (c ++ t)
      = .ok (vs, t)) :
    (∃ rest, (repeatN (readAgain Δ T) k).run c = .ok (vs, rest)) ↔
      (repeatN (read (Policy.before .lenient usizeMax t.length) Δ usizeMax T) k).run (c ++ t)
        = .ok (vs, t) := by
  have hany (P : Policy) (s : Bytes) : P.Weaker (Policy.anyCount .lenient usizeMax) s s :=
    ⟨nofun, fun _ _ _ => rfl⟩
  constructor
  · rintro ⟨rest, hagain⟩
    have hw := Policy.ofInput_weaker_before .lenient usizeMax t
    have hbefore := (repeatN_carries (read_carries hw (le_refl usizeMax) Δ T) k).run (x := c)
      (u := rest) (by simpa [readAgain] using hagain)
    -- both readings consume the same bytes, as the wire format does
    have h1 := (repeatN_carries (read_carries (hany _ []) (le_refl usizeMax) Δ T) k).run
      (x := c ++ t) (u := rest ++ t) (by simpa using hbefore)
    have h2 := (repeatN_carries (read_carries (hany _ []) (by omega : maxDepth - 1 ≤ usizeMax) Δ T)
      k).run (x := c ++ t) (u := t) (by simpa using h)
    rw [h1] at h2
    have hrest : rest ++ t = t := by simpa using h2
    rw [hbefore, hrest]
  · intro hbefore
    have hw := Policy.before_weaker_ofInput .lenient usizeMax t
    have hrun := (repeatN_carries (read_carries hw (le_refl usizeMax) Δ T) k).run (x := c) (u := [])
      (by simpa using hbefore)
    exact ⟨[], by simpa [readAgain] using hrun⟩

/-- The counts are met within the elements exactly when a reader that sees no further reads
them. -/
theorem before_iff (hd : maxDepth ≤ usizeMax) {k : ℕ}
    (h : (repeatN (read (Policy.ofInput mode maxDepth) Δ (maxDepth - 1) T) k).run b = .ok (vs, t)) :
    (repeatN (read (Policy.before .lenient usizeMax t.length) Δ usizeMax T) k).run b
        = .ok (vs, t) ↔
      ∀ n left, CountInFields Δ (List.replicate k T) b n left →
        n ≤ (left - t.length) / bytesPerXdrUnit := by
  have hw : (Policy.ofInput mode maxDepth).Weaker (Policy.anyCount .lenient usizeMax) [] [] :=
    ⟨nofun, fun _ _ _ => rfl⟩
  have hwire := (repeatN_carries (read_carries hw (by omega : maxDepth - 1 ≤ usizeMax) Δ T) k).run
    (x := b) (u := t) (by simpa using h)
  rw [List.append_nil, List.append_nil, repeatN_eq] at hwire
  have hguard := readFields_guarded
    (read_counts (Policy.before .lenient usizeMax t.length) Δ usizeMax) (List.replicate k T)
  rw [repeatN_eq, hguard b (vs, t)]
  constructor
  · exact fun hfits n left hn => of_decide_eq_true (hfits.2 n left hn)
  · exact fun hfits => ⟨hwire, fun n left hn => decide_eq_true (hfits n left hn)⟩

theorem decodeAs_vec {v : Value} {d : Deserializer} :
    decodeAs Δ (.counted (.vec T)) mode maxDepth b = .ok (v, d) ↔
      ∃ t vs, (readVec (Policy.ofInput mode maxDepth) maxDepth
          (fun r _ => read (Policy.ofInput mode maxDepth) Δ r) none T).run b = .ok (vs, t) ∧
        v = .seq vs ∧ d = ((Deserializer.new b mode).withMaxDepth maxDepth).advanced t := by
  rw [decodeAs_ok, read_eq]
  constructor
  · rintro ⟨t, h, rfl⟩
    obtain ⟨vs, hvs, rfl⟩ := run_map_ok.mp h
    exact ⟨t, vs, hvs, rfl, rfl⟩
  · rintro ⟨t, vs, h, rfl, rfl⟩
    exact ⟨t, run_map_of_ok h, rfl⟩

theorem decodeAs_arrayRef {a : Value} {d : Deserializer} :
    decodeAs Δ (.counted (.varArrayRef T)) mode (maxDepth + 1) b = .ok (a, d) ↔
      ∃ t vs c, (readVec (Policy.ofInput mode maxDepth) maxDepth
          (fun r _ => read (Policy.ofInput mode maxDepth) Δ r) none T).run b = .ok (vs, t) ∧
        b = c ++ t ∧ a = .arrayRef vs.length (c.drop bytesPerXdrUnit) ∧
        d = ((Deserializer.new b mode).withMaxDepth (maxDepth + 1)).advanced t := by
  rw [decodeAs_ok, read_eq]
  constructor
  · rintro ⟨t, h, rfl⟩
    obtain ⟨r, vs, c, hr, hvec, hb, rfl⟩ := readArrayRef_ok.mp h
    cases hr
    exact ⟨t, vs, c, readVec_limit _ _ hvec, hb, rfl, rfl⟩
  · rintro ⟨t, vs, c, hvec, hb, rfl, rfl⟩
    exact ⟨t, readArrayRef_ok.mpr ⟨maxDepth, vs, c, rfl, readVec_limit _ _ hvec, hb, rfl⟩, rfl⟩

/-- The bytes a borrowed array keeps. -/
theorem span_drop {w : UInt32} {c c' : Bytes} (h : u32ToBe w ++ (c ++ t) = c' ++ t) :
    c'.drop bytesPerXdrUnit = c := by
  rw [← List.append_assoc] at h
  rw [← List.append_cancel_right h]
  exact List.drop_left' (u32ToBe_length w)

end Refines

/-- **A borrowed array stands for the vector exactly when the counts inside its
elements are met within it.**  A depth limit is a `usize`. -/
theorem arrayRef_refines_vec_iff (Δ : Decls) (T : Ty) (mode : Strictness) (maxDepth : ℕ)
    (b : Bytes) (hd : maxDepth + 1 ≤ usizeMax) :
    ArrayRefRefinesVec Δ T mode maxDepth b ↔ CountsWithin Δ T mode maxDepth b := by
  constructor
  · intro h w u v d hb' hdec
    obtain ⟨t, vs, hvec, rfl, rfl⟩ := decodeAs_vec.mp hdec
    obtain ⟨w', c, hb, hpos, hlen, hfits, helems⟩ := readVec_split hvec
    obtain ⟨rfl, rfl⟩ := u32ToBe_append_inj (hb'.symm.trans hb)
    obtain ⟨-, vs', encoded, hv, ha, hiter⟩ := h.agrees _ _ _ _
      (decodeAs_arrayRef.mpr ⟨t, vs, u32ToBe w ++ c, hvec, by simp [hb], rfl, rfl⟩)
      (decodeAs_vec.mpr ⟨t, vs, hvec, rfl, rfl⟩)
    cases hv
    -- the iterator goes over the span behind the count
    have henc : encoded = c := by
      have hdrop : (u32ToBe w ++ c).drop bytesPerXdrUnit = c := List.drop_left' (u32ToBe_length w)
      rw [hdrop] at ha
      cases ha
      rfl
    subst henc
    have hagain := collect_eq_ok_iff.mp hiter
    rw [hlen] at hagain
    rw [new_advanced_remaining (c := u32ToBe w ++ encoded) (by simp [hb])]
    exact (before_iff (by omega) helems).mp ((readAgain_iff (by omega) helems).mp hagain)
  · intro h
    refine ⟨⟨?_, ?_⟩, ?_⟩
    · rintro ⟨⟨a, d⟩, ha⟩
      obtain ⟨t, vs, c, hvec, -⟩ := decodeAs_arrayRef.mp ha
      exact ⟨_, decodeAs_vec.mpr ⟨t, vs, hvec, rfl, rfl⟩⟩
    · rintro ⟨⟨v, d⟩, hv⟩
      obtain ⟨t, vs, hvec, -⟩ := decodeAs_vec.mp hv
      obtain ⟨c, hb, -⟩ := readVec_advances _ Δ _ none T hvec
      exact ⟨_, decodeAs_arrayRef.mpr ⟨t, vs, c, hvec, hb, rfl, rfl⟩⟩
    · intro a d v d' ha hv
      obtain ⟨t, vs, c', hvec, hb', rfl, rfl⟩ := decodeAs_arrayRef.mp ha
      obtain ⟨t', vs', hvec', rfl, rfl⟩ := decodeAs_vec.mp hv
      rw [hvec] at hvec'
      cases hvec'
      obtain ⟨w, c, hb, hpos, hlen, hfits, helems⟩ := readVec_split hvec
      obtain ⟨x, hx, -⟩ := readVec_advances _ Δ _ none T hvec
      have hcounts := h w (c ++ t) _ _ hb hv
      rw [new_advanced_remaining hx] at hcounts
      have hagain := (readAgain_iff (by omega) helems).mpr
        ((before_iff (by omega) helems).mpr hcounts)
      rw [← hlen] at hagain
      rw [span_drop (hb.symm.trans hb')]
      refine ⟨?_, vs, c, rfl, rfl, collect_eq_ok_iff.mpr hagain⟩
      rw [new_advanced_remaining hx, new_advanced_remaining hx]

/-- An array of one vector of one unit value, in front of one more word. -/
def unitVecInput : Bytes := [0, 0, 0, 1, 0, 0, 0, 1, 0, 0, 0, 0]

/-- The word behind the array is what lets its element be decoded, and the iterator
no longer has it: it yields an error. -/
theorem arrayRef_of_unit_vec_breaks :
    ¬ ArrayRefRefinesVec nodeDecls (.counted (.vec .unit)) .strict 8 unitVecInput := by
  intro h
  obtain ⟨-, vs, encoded, hv, ha, hiter⟩ := h.agrees (.arrayRef 1 [0, 0, 0, 1]) _
    (.seq [.seq [.unit]]) _ rfl rfl
  cases hv
  cases ha
  have hfirst := hiter 1 le_rfl
  have hfail : (iterArray 1 [0, 0, 0, 1]).collect nodeDecls (.counted (.vec .unit)) 1
      = [.error (.error (.eof 4))] := rfl
  rw [List.length_singleton, hfail] at hfirst
  cases hfirst

/-- An array of words has no count inside an element. -/
theorem arrayRef_refines_vec_words :
    ArrayRefRefinesVec nodeDecls .u32 .strict 8 [0, 0, 0, 1, 0, 0, 0, 7, 0] := by
  refine (arrayRef_refines_vec_iff nodeDecls .u32 .strict 8 _ (by decide)).mpr ?_
  rintro w u v d - - n left ⟨T, b, hf, hc⟩
  obtain rfl := List.eq_of_mem_replicate hf.mem
  exact absurd hc (not_countIn nofun nofun nofun)

end Xdr
