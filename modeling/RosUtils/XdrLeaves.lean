/-
What the leaves of a decode accept.

One equivalence for each leaf of `read`: it succeeds exactly on a byte string
of a certain form, and then returns the value that form spells.  Under the
strict mode the form leaves no freedom, which is where canonicity comes from;
`padding_ok`, `boolean_ok` and `text_ok` are the three leaves the mode matters
to.  The last part says the same of the discriminants: those of an enum or a
union are distinct, so a discriminant selects at most one variant.
-/
import RosUtils.XdrRead
import RosUtils.Utf8

open BigEndian ExceptState

namespace Xdr

/-! ### Words, bodies, scalars -/

theorem word_ok {b t : Bytes} {w : UInt32} : word.run b = .ok (w, t) ↔ b = u32ToBe w ++ t := by
  rw [word, run_map_ok]
  constructor
  · rintro ⟨x, hx, rfl⟩
    obtain ⟨rfl, hlen⟩ := takeN_ok.mp hx
    rw [u32ToBe_u32OfBe hlen]
  · rintro rfl
    exact ⟨u32ToBe w, takeN_append (u32ToBe_length w), u32OfBe_u32ToBe w⟩

theorem dword_ok {b t : Bytes} {w : UInt64} :
    dword.run b = .ok (w, t) ↔ b = u64ToBe w ++ t := by
  rw [dword, run_map_ok]
  constructor
  · rintro ⟨x, hx, rfl⟩
    obtain ⟨rfl, hlen⟩ := takeN_ok.mp hx
    rw [u64ToBe_u64OfBe hlen]
  · rintro rfl
    exact ⟨u64ToBe w, takeN_append (u64ToBe_length w), u64OfBe_u64ToBe w⟩

theorem lengthWord_ok {bound : Option ℕ} {b t : Bytes} {n : ℕ} :
    (lengthWord bound).run b = .ok (n, t) ↔
      ∃ w : UInt32, b = u32ToBe w ++ t ∧ n = w.toNat ∧ ∀ max, bound = some max → n ≤ max := by
  rw [lengthWord, run_bind_ok]
  constructor
  · rintro ⟨len, u, h, hn⟩
    obtain ⟨w, hw, rfl⟩ := run_map_ok.mp h
    obtain rfl := word_ok.mp hw
    cases bound with
    | none =>
      obtain ⟨rfl, rfl⟩ := run_pure_ok.mp hn
      exact ⟨w, rfl, rfl, nofun⟩
    | some max =>
      dsimp only at hn
      split at hn
      · exact absurd hn run_throw_ne_ok
      · obtain ⟨rfl, rfl⟩ := run_pure_ok.mp hn
        refine ⟨w, rfl, rfl, fun m hm => ?_⟩
        cases hm
        omega
  · rintro ⟨w, rfl, rfl, hmax⟩
    refine ⟨w.toNat, t, run_map_of_ok (word_ok.mpr rfl), ?_⟩
    cases bound with
    | none => rfl
    | some max =>
      dsimp only
      rw [if_neg (Nat.not_lt.mpr (hmax max rfl))]
      rfl

theorem padding_ok {mode : Strictness} {len : ℕ} {b t : Bytes} :
    (padding mode len).run b = .ok ((), t) ↔
      ∃ pad : Bytes, b = pad ++ t ∧ pad.length = pad4 len ∧
        (mode = .strict → pad = List.replicate (pad4 len) 0) := by
  rw [padding, run_bind_ok]
  constructor
  · rintro ⟨pad, u, h, hu⟩
    obtain ⟨rfl, hlen⟩ := takeN_ok.mp h
    split at hu
    · exact absurd hu run_throw_ne_ok
    · rename_i hpad
      obtain ⟨-, rfl⟩ := run_pure_ok.mp hu
      refine ⟨pad, rfl, hlen, fun hs => List.eq_replicate_iff.mpr ⟨hlen, fun x hx => ?_⟩⟩
      by_contra hne
      exact hpad ⟨hs, List.any_eq_true.mpr ⟨x, hx, by simpa using hne⟩⟩
  · rintro ⟨pad, rfl, hlen, hpad⟩
    refine ⟨pad, t, takeN_append hlen, ?_⟩
    rw [if_neg, StateT.run_pure]
    · rfl
    · rintro ⟨hs, hany⟩
      rw [hpad hs] at hany
      simp at hany

theorem fixedBody_ok {mode : Strictness} {n : ℕ} {b data t : Bytes} :
    (fixedBody mode n).run b = .ok (data, t) ↔
      ∃ pad : Bytes, b = data ++ pad ++ t ∧ data.length = n ∧ pad.length = pad4 n ∧
        (mode = .strict → pad = List.replicate (pad4 n) 0) := by
  simp only [fixedBody, run_bind_ok, run_pure_ok, takeN_ok]
  constructor
  · rintro ⟨data', u, ⟨rfl, hlen⟩, ⟨⟩, w, hpad, rfl, rfl⟩
    obtain ⟨pad, rfl, h⟩ := padding_ok.mp hpad
    exact ⟨pad, by simp, hlen, h⟩
  · rintro ⟨pad, rfl, hlen, h⟩
    exact ⟨data, pad ++ t, ⟨by simp, hlen⟩, (), t, padding_ok.mpr ⟨pad, rfl, h⟩, rfl, rfl⟩

theorem boolean_ok {mode : Strictness} {b t : Bytes} {x : Bool} :
    (boolean mode).run b = .ok (x, t) ↔
      ∃ w, b = u32ToBe w ++ t ∧ x = decide (w ≠ 0) ∧ (mode = .strict → w = 0 ∨ w = 1) := by
  simp only [boolean, run_bind_ok, word_ok]
  constructor
  · rintro ⟨w, u, rfl, h⟩
    refine ⟨w, ?_⟩
    split at h
    · rename_i h0
      obtain ⟨rfl, rfl⟩ := run_pure_ok.mp h
      exact ⟨rfl, by simp [h0], fun _ => .inl h0⟩
    split at h
    · rename_i h0 h1
      obtain ⟨rfl, rfl⟩ := run_pure_ok.mp h
      exact ⟨rfl, by simp [h0], fun _ => .inr h1⟩
    split at h
    · exact absurd h run_throw_ne_ok
    · rename_i h0 h1 hs
      obtain ⟨rfl, rfl⟩ := run_pure_ok.mp h
      exact ⟨rfl, by simp [h0], fun h => absurd h hs⟩
  · rintro ⟨w, rfl, rfl, hw⟩
    refine ⟨w, t, rfl, ?_⟩
    by_cases h0 : w = 0
    · simp [h0]
      rfl
    by_cases h1 : w = 1
    · simp [h1]
      rfl
    have hs : mode ≠ .strict := fun hs => (hw hs).elim h0 h1
    simp [h0, h1, hs]
    rfl

/-- A word that is held to a range. -/
theorem wordIf_ok {α : Type} {f : UInt32 → α} {q : UInt32 → Prop} [DecidablePred q] {v : α}
    {b t : Bytes} :
    (do let w ← word; if q w then pure (f w) else throw .range : Parser α).run b = .ok (v, t) ↔
      ∃ w : UInt32, b = u32ToBe w ++ t ∧ v = f w ∧ q w := by
  simp only [run_bind_ok, word_ok]
  constructor
  · rintro ⟨w, u, rfl, h⟩
    split at h
    · rename_i hv
      obtain ⟨rfl, rfl⟩ := run_pure_ok.mp h
      exact ⟨w, rfl, rfl, hv⟩
    · exact absurd h run_throw_ne_ok
  · rintro ⟨w, rfl, rfl, hv⟩
    refine ⟨w, t, rfl, ?_⟩
    rw [if_pos hv]
    rfl

theorem signed_ok {lo hi v : ℤ} {b t : Bytes} :
    (signed lo hi).run b = .ok (v, t) ↔
      ∃ w : UInt32, b = u32ToBe w ++ t ∧ v = w.toInt32.toInt ∧ lo ≤ v ∧ v ≤ hi := by
  rw [signed, wordIf_ok]
  refine exists_congr fun w => and_congr_right fun _ => and_congr_right ?_
  rintro rfl
  rfl

theorem unsigned_ok {hi v : ℕ} {b t : Bytes} :
    (unsigned hi).run b = .ok (v, t) ↔
      ∃ w : UInt32, b = u32ToBe w ++ t ∧ v = w.toNat ∧ v ≤ hi := by
  rw [unsigned, wordIf_ok]
  refine exists_congr fun w => and_congr_right fun _ => and_congr_right ?_
  rintro rfl
  rfl

theorem scalar_ok {c : Char} {b t : Bytes} :
    scalar.run b = .ok (c, t) ↔ b = u32ToBe c.val ++ t := by
  simp only [scalar, run_bind_ok, word_ok]
  constructor
  · rintro ⟨w, u, rfl, h⟩
    split at h
    · obtain ⟨rfl, rfl⟩ := run_pure_ok.mp h
      rfl
    · exact absurd h run_throw_ne_ok
  · rintro rfl
    refine ⟨c.val, t, rfl, ?_⟩
    rw [dif_pos c.valid]
    rfl

theorem varBody_ok {mode : Strictness} {bound : Option ℕ} {b data t : Bytes} :
    (varBody mode bound).run b = .ok (data, t) ↔
      ∃ (w : UInt32) (pad : Bytes), b = u32ToBe w ++ (data ++ pad ++ t) ∧ w.toNat = data.length ∧
        (∀ max, bound = some max → data.length ≤ max) ∧ pad.length = pad4 data.length ∧
        (mode = .strict → pad = List.replicate (pad4 data.length) 0) := by
  simp only [varBody, run_bind_ok, lengthWord_ok, fixedBody_ok]
  constructor
  · rintro ⟨n, u, ⟨w, rfl, rfl, hmax⟩, pad, rfl, hlen, hpad, hzero⟩
    rw [← hlen] at hmax hpad hzero
    exact ⟨w, pad, rfl, hlen.symm, hmax, hpad, hzero⟩
  · rintro ⟨w, pad, rfl, hlen, hmax, hpad, hzero⟩
    rw [← hlen] at hmax hpad hzero
    exact ⟨w.toNat, _, ⟨w, rfl, rfl, hmax⟩, pad, rfl, hlen.symm, hpad, hzero⟩

theorem text_ok {mode : Strictness} {bound : Option ℕ} {b t : Bytes} {s : String} :
    (text mode bound).run b = .ok (s, t) ↔
      (varBody mode bound).run b = .ok (s.toUTF8.data.toList, t) ∧
        (mode = .strict → (0 : UInt8) ∉ s.toUTF8.data.toList) := by
  rw [text, run_bind_ok]
  constructor
  · rintro ⟨bytes, u, hbody, h⟩
    split at h
    · exact absurd h run_throw_ne_ok
    rename_i a ha
    obtain rfl := Utf8.fromUTF8?_eq_some.mp ha
    split at h
    · exact absurd h run_throw_ne_ok
    · rename_i hnul
      obtain ⟨rfl, rfl⟩ := run_pure_ok.mp h
      exact ⟨hbody, fun hs hmem => hnul ⟨hs, hmem⟩⟩
  · rintro ⟨hbody, hnul⟩
    refine ⟨_, t, hbody, ?_⟩
    rw [Utf8.fromUTF8?_eq_some.mpr rfl]
    dsimp only
    rw [if_neg fun h => hnul h.1 h.2]
    rfl

/-! ### Counted sequences -/

theorem admitted_ok {fits : ℕ → ℕ → Bool} {count n : ℕ} {b t : Bytes} :
    (admitted fits count).run b = .ok (n, t) ↔
      n = count ∧ t = b ∧ fits count b.length = true := by
  simp only [admitted, StateT.run]
  by_cases h : fits count b.length = true
  · rw [if_pos h]
    constructor
    · rintro ⟨⟩
      exact ⟨rfl, rfl, h⟩
    · rintro ⟨rfl, rfl, -⟩
      rfl
  · rw [if_neg h]
    constructor
    · intro hb
      cases hb
    · rintro ⟨-, -, hb⟩
      exact absurd hb h

theorem readVec_ok {P : Policy} {room : ℕ} {child : Child room} {bound : Option ℕ} {T : Ty}
    {b t : Bytes} {vs : List Value} :
    (readVec P room child bound T).run b = .ok (vs, t) ↔
      ∃ (w : UInt32) (u : Bytes), b = u32ToBe w ++ u ∧
        (∀ max, bound = some max → w.toNat ≤ max) ∧ P.fits w.toNat u.length = true ∧
        (level P.limit room fun r h => repeatN (child r h T) w.toNat).run u = .ok (vs, t) := by
  simp only [readVec, seqCount, run_bind_ok, lengthWord_ok, admitted_ok]
  constructor
  · rintro ⟨n, u, ⟨m, u', ⟨w, rfl, rfl, hmax⟩, rfl, rfl, hfits⟩, h⟩
    exact ⟨w, u, rfl, hmax, hfits, h⟩
  · rintro ⟨w, u, rfl, hmax, hfits, h⟩
    exact ⟨w.toNat, u, ⟨w.toNat, u, ⟨w, rfl, rfl, hmax⟩, rfl, rfl, hfits⟩, h⟩

/-! ### Discriminants -/

/-- In a list without repeats an entry is at one index. -/
theorem idxOf?_eq_some_iff_getElem? {l : List Int32} (hl : l.Nodup) {a : Int32} {i : ℕ} :
    l.idxOf? a = some i ↔ l[i]? = some a := by
  induction l generalizing i with
  | nil => simp
  | cons x l ih =>
    obtain ⟨hx, hl⟩ := List.nodup_cons.mp hl
    rw [List.idxOf?_cons]
    by_cases hxa : x = a
    · subst hxa
      cases i with
      | zero => simp
      | succ i =>
        simp only [beq_self_eq_true, if_true, List.getElem?_cons_succ]
        constructor
        · intro h
          cases h
        · intro h
          exact absurd (List.mem_of_getElem? h) hx
    · cases i with
      | zero => simp [hxa]
      | succ i => simp [hxa, ih hl]

theorem XdrEnum.read_ok {e : XdrEnum} {disc : Int32} {b t : Bytes} {v : Value} :
    (e.read disc).run b = .ok (v, t) ↔
      ∃ i, v = .enumerator i ∧ e.discs[i]? = some disc ∧ b = t := by
  rw [XdrEnum.read]
  cases hi : e.discs.idxOf? disc with
  | none =>
    constructor
    · intro h
      exact absurd h run_throw_ne_ok
    · rintro ⟨i, -, h, -⟩
      exact absurd (List.mem_of_getElem? h) (List.idxOf?_eq_none_iff.mp hi)
  | some i =>
    have hdisc := (idxOf?_eq_some_iff_getElem? e.nodup).mp hi
    constructor
    · intro h
      obtain ⟨rfl, rfl⟩ := run_pure_ok.mp h
      exact ⟨i, rfl, hdisc, rfl⟩
    · rintro ⟨j, rfl, hj, rfl⟩
      obtain rfl : i = j := by
        have := (idxOf?_eq_some_iff_getElem? e.nodup).mpr hj
        rw [hi] at this
        exact Option.some.inj this
      rfl

theorem XdrUnion.armOf_eq_some {u : XdrUnion} {tag : Int32} {i : ℕ} {arm : Arm} :
    u.armOf tag = some (i, arm) ↔ u.arms[i]? = some arm ∧ arm.disc = tag := by
  have hidx (j : ℕ) : (u.arms.map Arm.disc).idxOf? tag = some j ↔
      ∃ a, u.arms[j]? = some a ∧ a.disc = tag := by
    rw [idxOf?_eq_some_iff_getElem? u.nodup, List.getElem?_map, Option.map_eq_some_iff]
  simp only [XdrUnion.armOf, Option.bind_eq_bind, Option.bind_eq_some_iff, hidx, Option.pure_def,
    Option.some.injEq, Prod.mk.injEq]
  constructor
  · rintro ⟨j, ⟨a, ha, hdisc⟩, a', ha', rfl, rfl⟩
    rw [ha] at ha'
    cases ha'
    exact ⟨ha, hdisc⟩
  · rintro ⟨harm, hdisc⟩
    exact ⟨i, ⟨arm, harm, hdisc⟩, arm, harm, rfl, rfl⟩

theorem XdrUnion.armOf_eq_none {u : XdrUnion} {tag : Int32} :
    u.armOf tag = none ↔ tag ∉ u.arms.map Arm.disc := by
  constructor
  · intro h hmem
    obtain ⟨i, hi⟩ := List.mem_iff_getElem?.mp hmem
    rw [List.getElem?_map, Option.map_eq_some_iff] at hi
    obtain ⟨arm, harm, hdisc⟩ := hi
    rw [armOf_eq_some.mpr ⟨harm, hdisc⟩] at h
    cases h
  · intro h
    simp [XdrUnion.armOf, List.idxOf?_eq_none_iff.mpr h]

end Xdr
