/-
Reading under a weaker policy.

A policy is weaker than another when it admits what the other admits: a mode
no stricter, and every count the other admits.  What `read` accepts under one
policy it accepts under a weaker one, with the same value and the same bytes
consumed, with no less room, and in front of another tail if the counts allow:

* `read_carries` — the general statement, by induction on the room;
* `read_advances` — every decode consumes whole units.
-/
import RosUtils.XdrLeaves

open BigEndian ExceptState

namespace Xdr

variable {α : Type}

/-- In front of `t`, the policy `Q` asks no more than `P` does in front of `s`. -/
structure Policy.Weaker (P Q : Policy) (s t : Bytes) : Prop where
  mode : Q.mode = .strict → P.mode = .strict
  fits : ∀ n m, P.fits n (m + s.length) = true → Q.fits n (m + t.length) = true

theorem repeatN_advances {k : ℕ} {p : Parser Value} (hp : Advances k p) (n : ℕ) :
    Advances k (repeatN p n) := by
  induction n with
  | zero => exact Advances.pure k _
  | succ n ih => exact hp.bind fun v => ih.bind fun vs => Advances.pure k _

theorem chain_advances {k : ℕ} {p : Parser (Option Value)} (hp : Advances k p) (n : ℕ) :
    Advances k (chain p n) := by
  induction n with
  | zero => exact Advances.pure k _
  | succ n ih =>
    refine hp.bind fun v => ?_
    cases v with
    | none => exact Advances.pure k _
    | some v => exact ih.bind fun vs => Advances.pure k _

section Carries

variable {s t : Bytes}

theorem word_carries : Carries 4 s t word word := (Carries.takeN _ dvd_rfl).map _

theorem dword_carries : Carries 4 s t dword dword := (Carries.takeN _ (by decide)).map _

theorem lengthWord_carries (bound : Option ℕ) :
    Carries 4 s t (lengthWord bound) (lengthWord bound) := by
  refine (word_carries.map _).bind fun len => ?_
  cases bound with
  | none => exact Carries.pure len
  | some max =>
    dsimp only
    split
    · exact Carries.throw _
    · exact Carries.pure len

theorem signed_carries (lo hi : ℤ) : Carries 4 s t (signed lo hi) (signed lo hi) := by
  refine word_carries.bind fun w => ?_
  split
  · exact Carries.pure _
  · exact Carries.throw _

theorem unsigned_carries (hi : ℕ) : Carries 4 s t (unsigned hi) (unsigned hi) := by
  refine word_carries.bind fun w => ?_
  split
  · exact Carries.pure _
  · exact Carries.throw _

theorem scalar_carries : Carries 4 s t scalar scalar := by
  refine word_carries.bind fun w => ?_
  split
  · exact Carries.pure _
  · exact Carries.throw _

theorem XdrEnum.read_carries (e : XdrEnum) (disc : Int32) :
    Carries 4 s t (e.read disc) (e.read disc) := by
  rw [XdrEnum.read]
  split
  · exact Carries.pure _
  · exact Carries.throw _

theorem DiscTy.read_carries (dt : DiscTy) (disc : Int32) :
    Carries 4 s t (dt.read disc) (dt.read disc) := by
  cases dt with
  | i32 => exact Carries.pure _
  | xdrEnum e => exact e.read_carries disc

theorem repeatN_carries {p q : Parser Value} (h : Carries 4 s t p q) (n : ℕ) :
    Carries 4 s t (repeatN p n) (repeatN q n) := by
  induction n with
  | zero => exact Carries.pure _
  | succ n ih => exact h.bind fun v => ih.bind fun vs => Carries.pure _

theorem readFields_carries {c c' : Ty → Parser Value} (h : ∀ T, Carries 4 s t (c T) (c' T))
    (ts : List Ty) : Carries 4 s t (readFields c ts) (readFields c' ts) := by
  induction ts with
  | nil => exact Carries.pure _
  | cons T ts ih => exact (h T).bind fun v => ih.bind fun vs => Carries.pure _

theorem chain_carries {p q : Parser (Option Value)} (h : Carries 4 s t p q) (n : ℕ) :
    Carries 4 s t (chain p n) (chain q n) := by
  induction n with
  | zero => exact Carries.pure _
  | succ n ih =>
    refine h.bind fun v => ?_
    cases v with
    | none => exact Carries.pure _
    | some v => exact ih.bind fun vs => Carries.pure _

section Mode

variable {m m' : Strictness} (hm : m' = .strict → m = .strict)
include hm

theorem fixedBody_carries (n : ℕ) : Carries 4 s t (fixedBody m n) (fixedBody m' n) := by
  constructor
  · intro b data t h
    obtain ⟨pad, rfl, hdata, hpad, -⟩ := fixedBody_ok.mp h
    refine ⟨data ++ pad, rfl, ?_⟩
    rw [List.length_append, hdata, hpad]
    exact four_dvd_add_pad4 n
  · intro x data u h
    obtain ⟨pad, hx, hdata, hlen, hpad⟩ := fixedBody_ok.mp h
    rw [← List.append_assoc] at hx
    rw [List.append_cancel_right hx, List.append_assoc]
    exact fixedBody_ok.mpr ⟨pad, rfl, hdata, hlen, fun hs => hpad (hm hs)⟩

theorem varBody_carries (bound : Option ℕ) :
    Carries 4 s t (varBody m bound) (varBody m' bound) :=
  (lengthWord_carries bound).bind fun len => fixedBody_carries hm len

theorem boolean_carries : Carries 4 s t (boolean m) (boolean m') := by
  refine word_carries.bind fun w => ?_
  by_cases h0 : w = 0
  · rw [if_pos h0, if_pos h0]
    exact Carries.pure _
  rw [if_neg h0, if_neg h0]
  by_cases h1 : w = 1
  · rw [if_pos h1, if_pos h1]
    exact Carries.pure _
  rw [if_neg h1, if_neg h1]
  by_cases hs : m = .strict
  · rw [if_pos hs]
    exact Carries.throw _
  · rw [if_neg hs, if_neg fun hs' => hs (hm hs')]
    exact Carries.pure _

theorem text_carries (bound : Option ℕ) : Carries 4 s t (text m bound) (text m' bound) := by
  refine (varBody_carries hm bound).bind fun bytes => ?_
  split
  · exact Carries.throw _
  by_cases hs : m = .strict ∧ (0 : UInt8) ∈ bytes
  · rw [if_pos hs]
    exact Carries.throw _
  · rw [if_neg hs, if_neg fun hs' => hs ⟨hm hs'.1, hs'.2⟩]
    exact Carries.pure _

end Mode

theorem seqCount_carries {fits fits' : ℕ → ℕ → Bool}
    (hf : ∀ n m, fits n (m + s.length) = true → fits' n (m + t.length) = true)
    (bound : Option ℕ) : Carries 4 s t (seqCount fits bound) (seqCount fits' bound) := by
  refine (lengthWord_carries bound).bind fun count => ⟨fun b a u h => ?_, fun x a u h => ?_⟩
  · obtain ⟨-, rfl, -⟩ := admitted_ok.mp h
    exact ⟨[], rfl, dvd_zero 4⟩
  · obtain ⟨rfl, hx, hfits⟩ := admitted_ok.mp h
    rw [← List.append_cancel_right hx]
    rw [List.length_append, ← List.append_cancel_right hx] at hfits
    refine admitted_ok.mpr ⟨rfl, rfl, ?_⟩
    rw [List.length_append]
    exact hf _ _ hfits

theorem level_carries {limit limit' room room' : ℕ} {body : (r : ℕ) → r < room → Parser α}
    {body' : (r : ℕ) → r < room' → Parser α} (hr : room ≤ room')
    (hb : ∀ r h r' h', r ≤ r' → Carries 4 s t (body r h) (body' r' h')) :
    Carries 4 s t (level limit room body) (level limit' room' body') := by
  cases room with
  | zero => exact Carries.throw _
  | succ r =>
    cases room' with
    | zero => omega
    | succ r' => exact hb r _ r' _ (by omega)

variable {P Q : Policy} {room room' : ℕ} {c : Child room} {c' : Child room'}

section Shapes

variable (hPQ : P.Weaker Q s t) (hr : room ≤ room')
  (hc : ∀ r h r' h' T, r ≤ r' → Carries 4 s t (c r h T) (c' r' h' T))
include hPQ hr hc

theorem readVec_carries (bound : Option ℕ) (T : Ty) :
    Carries 4 s t (readVec P room c bound T) (readVec Q room' c' bound T) :=
  (seqCount_carries hPQ.fits bound).bind fun count =>
    level_carries hr fun r h r' h' hle => repeatN_carries (hc r h r' h' T hle) count

theorem optional_carries (T : Ty) (some : Value → α) (none : α) :
    Carries 4 s t (optional P room (fun r h => some <$> c r h T) none)
      (optional Q room' (fun r h => some <$> c' r h T) none) := by
  refine (boolean_carries hPQ.mode).bind fun present => ?_
  cases present with
  | false => exact Carries.pure _
  | true => exact level_carries hr fun r h r' h' hle => (hc r h r' h' T hle).map _

theorem readCounted_carries (bound : Option ℕ) (C : CountedTy Ty) :
    Carries 4 s t (readCounted P room c bound C) (readCounted Q room' c' bound C) := by
  cases C with
  | string | str => exact (text_carries hPQ.mode bound).map _
  | varOpaque | varOpaqueRef | varOpaqueCow => exact (varBody_carries hPQ.mode bound).map _
  | vec T => exact (readVec_carries hPQ hr hc bound T).map _
  | varArrayRef T =>
    refine level_carries hr fun r h r' h' hle => ?_
    exact (readVec_carries hPQ hle (fun r h r' h' => hc r _ r' _) bound T).span.bind
      fun _ => Carries.pure _

end Shapes

section Tagged

variable {c c' : Ty → Parser Value} (hc : ∀ T, Carries 4 s t (c T) (c' T))
include hc

theorem readVariant_carries (e : SerdeEnum) (tag : UInt32) :
    Carries 4 s t (readVariant c e tag) (readVariant c' e tag) := by
  rw [readVariant, readVariant]
  split
  · exact Carries.throw _
  · exact (readFields_carries hc _).map _

theorem readArm_carries (u : XdrUnion) (tag : Int32) :
    Carries 4 s t (readArm c u tag) (readArm c' u tag) := by
  rw [readArm, readArm]
  split
  · exact (readFields_carries hc _).map _
  split
  · exact Carries.throw _
  · exact (DiscTy.read_carries _ tag).bind fun d =>
      (readFields_carries hc _).bind fun vs => Carries.pure _

end Tagged

section Types

variable (hPQ : P.Weaker Q s t) (hr : room ≤ room')
  (hc : ∀ r h r' h' T, r ≤ r' → Carries 4 s t (c r h T) (c' r' h' T))
include hr hc

theorem readNamed_carries (decl : Decl) :
    Carries 4 s t (readNamed P room c decl) (readNamed Q room' c' decl) := by
  cases decl with
  | newtypeStruct T =>
    exact level_carries hr fun r h r' h' hle => (hc r h r' h' T hle).map _
  | tupleStruct ts | struct ts =>
    exact level_carries hr fun r h r' h' hle =>
      (readFields_carries (fun T => hc r h r' h' T hle) ts).map _
  | enum e =>
    exact word_carries.bind fun tag => level_carries hr fun r h r' h' hle =>
      readVariant_carries (fun T => hc r h r' h' T hle) e tag
  | xdrUnion u =>
    exact level_carries hr fun r h r' h' hle => (word_carries.map _).bind fun tag =>
      readArm_carries (fun T => hc r h r' h' T hle) u tag

include hPQ

theorem readShape_carries (Δ : Decls) (T : Ty) :
    Carries 4 s t (readShape P Δ room c T) (readShape Q Δ room' c' T) := by
  cases T with
  | bool => exact (boolean_carries hPQ.mode).map _
  | i8 | i16 => exact ((signed_carries _ _).map _).map _
  | u8 | u16 => exact ((unsigned_carries _).map _).map _
  | i32 => exact (word_carries.map _).map _
  | i64 => exact (dword_carries.map _).map _
  | u32 | f32 => exact word_carries.map _
  | u64 | f64 => exact dword_carries.map _
  | char => exact scalar_carries.map _
  | counted C => exact readCounted_carries hPQ hr hc none C
  | bounded C max =>
    exact level_carries hr fun r h r' h' hle =>
      (readCounted_carries hPQ hle (fun r h r' h' => hc r _ r' _) (some max) C).map _
  | fixedOpaque n =>
    exact level_carries hr fun r h r' h' _ => (fixedBody_carries hPQ.mode n).map _
  | array T n =>
    exact level_carries hr fun r h r' h' hle =>
      (readFields_carries (fun T => hc r h r' h' T hle) _).map _
  | tuple ts =>
    exact level_carries hr fun r h r' h' hle =>
      (readFields_carries (fun T => hc r h r' h' T hle) ts).map _
  | unit | unitStruct => exact Carries.pure _
  | option T => exact optional_carries hPQ hr hc T _ _
  | listRef T =>
    refine level_carries hr fun r h r' h' hle => level_carries hle fun r h r' h' hle => ?_
    exact (chain_carries (optional_carries hPQ hle (fun r h r' h' => hc r _ r' _) T _ _) _).span.bind
      fun _ => Carries.pure _
  | xdrEnum e => exact (word_carries.map _).bind fun disc => e.read_carries disc
  | named id => exact readNamed_carries hr hc (Δ id)

end Types

/-- **A weaker policy reads what a stronger one reads**, with no less room and in
front of another tail. -/
theorem read_carries (hPQ : P.Weaker Q s t) (hr : room ≤ room') (Δ : Decls) (T : Ty) :
    Carries 4 s t (read P Δ room T) (read Q Δ room' T) := by
  induction room using Nat.strong_induction_on generalizing room' T with
  | _ room ih =>
    rw [read_eq, read_eq]
    exact readShape_carries hPQ hr (fun r h r' _ T hle => ih r h hle T) Δ T

end Carries

theorem Policy.Weaker.rfl (P : Policy) (s : Bytes) : P.Weaker P s s := ⟨id, fun _ _ => id⟩

/-- Counts that are met at the end of the input are met before what follows. -/
theorem Policy.ofInput_weaker_before (mode : Strictness) (limit : ℕ) (t : Bytes) :
    (Policy.ofInput mode limit).Weaker (Policy.before mode limit t.length) [] t := by
  refine ⟨id, fun n m hfits => ?_⟩
  simpa [Policy.ofInput, Policy.before] using hfits

theorem Policy.before_weaker_ofInput (mode : Strictness) (limit : ℕ) (t : Bytes) :
    (Policy.before mode limit t.length).Weaker (Policy.ofInput mode limit) t [] := by
  refine ⟨id, fun n m hfits => ?_⟩
  simpa [Policy.ofInput, Policy.before] using hfits

/-- **A decode consumes whole units.** -/
theorem read_advances (P : Policy) (Δ : Decls) (room : ℕ) (T : Ty) :
    Advances 4 (read P Δ room T) :=
  (read_carries (Policy.Weaker.rfl P []) le_rfl Δ T).adv

/-! ### Borrowed arrays and lists -/

section Borrowed

variable {P : Policy} {Δ : Decls} {room : ℕ} {bound : Option ℕ} {T : Ty}

theorem readVec_advances (P : Policy) (Δ : Decls) (room : ℕ) (bound : Option ℕ) (T : Ty) :
    Advances 4 (readVec P room (fun r _ => read P Δ r) bound T) :=
  (readVec_carries (Policy.Weaker.rfl P []) le_rfl
    (fun _ _ _ _ T hle => read_carries (Policy.Weaker.rfl P []) hle Δ T) bound T).adv

theorem readOption_advances (P : Policy) (Δ : Decls) (room : ℕ) (T : Ty) :
    Advances 4 (readOption P room (fun r _ => read P Δ r) T) :=
  (optional_carries (Policy.Weaker.rfl P []) le_rfl
    (fun _ _ _ _ T hle => read_carries (Policy.Weaker.rfl P []) hle Δ T) T some none).adv

/-- What is read a level deeper was read with room for that level. -/
theorem level_ok {limit : ℕ} {body : (r : ℕ) → r < room → Parser α} {b : Bytes} {x : α × Bytes} :
    (level limit room body).run b = .ok x ↔ ∃ r h, room = r + 1 ∧ (body r h).run b = .ok x := by
  cases room with
  | zero =>
    constructor
    · intro h
      exact absurd h run_throw_ne_ok
    · rintro ⟨r, h, -⟩
      exact absurd h (Nat.not_lt_zero r)
  | succ r =>
    constructor
    · intro h
      exact ⟨r, Nat.lt_succ_self r, rfl, h⟩
    · rintro ⟨r', h, hr, hbody⟩
      cases hr
      exact hbody

/-- A borrowed array is what reading the vector consumes, less the count. -/
theorem readArrayRef_ok {v : Value} {b t : Bytes} :
    (readC P Δ room bound (.varArrayRef T)).run b = .ok (v, t) ↔
      ∃ r vs c, room = r + 1 ∧
        (readVec P r (fun r _ => read P Δ r) bound T).run b = .ok (vs, t) ∧ b = c ++ t ∧
        v = .arrayRef vs.length (c.drop bytesPerXdrUnit) := by
  rw [readC, readCounted, level_ok]
  simp only [run_bind_ok]
  constructor
  · rintro ⟨r, hr, hroom, ⟨vs, c⟩, u, hspan, hpure⟩
    obtain ⟨rfl, rfl⟩ := run_pure_ok.mp hpure
    obtain ⟨hvec, hb⟩ := (span_ok (readVec_advances P Δ r bound T)).mp hspan
    exact ⟨r, vs, c, hroom, hvec, hb, rfl⟩
  · rintro ⟨r, vs, c, rfl, hvec, hb, rfl⟩
    exact ⟨r, Nat.lt_succ_self r, rfl, (vs, c), t,
      (span_ok (readVec_advances P Δ r bound T)).mpr ⟨hvec, hb⟩, rfl⟩

/-- A borrowed list is what reading the chain consumes. -/
theorem readListRef_ok {v : Value} {b t : Bytes} :
    (read P Δ room (.listRef T)).run b = .ok (v, t) ↔
      ∃ r vs c, room = r + 2 ∧
        (chain (readOption P r (fun r _ => read P Δ r) T) usizeMax).run b = .ok (vs, t) ∧
        b = c ++ t ∧ v = .listRef vs.length c := by
  have hadv (r : ℕ) :
      Advances 4 (chain (readOption P r (fun r _ => read P Δ r) T) usizeMax) :=
    chain_advances (readOption_advances P Δ r T) usizeMax
  rw [read_eq, readShape]
  simp only [level_ok, run_bind_ok]
  constructor
  · rintro ⟨r, hr, hroom, r', hr', rfl, ⟨vs, c⟩, u, hspan, hpure⟩
    obtain ⟨rfl, rfl⟩ := run_pure_ok.mp hpure
    obtain ⟨hchain, hb⟩ := (span_ok (hadv r')).mp hspan
    exact ⟨r', vs, c, hroom, hchain, hb, rfl⟩
  · rintro ⟨r, vs, c, rfl, hchain, hb, rfl⟩
    exact ⟨r + 1, by omega, rfl, r, by omega, rfl, (vs, c), t,
      (span_ok (hadv r)).mpr ⟨hchain, hb⟩, rfl⟩

end Borrowed

end Xdr
