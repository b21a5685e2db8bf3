/-
Truncated encodings.

A decode that runs out of input says so, and asks for no more than is missing:
when no element of a sequence encodes to nothing, every reader of the codec is
self-delimiting (`read_delimits`).  The count check of a sequence is the one
place where it is not the taking of bytes that finds the input short; what it
asks for is a unit for every element, and so many bytes at least the elements
take.

`truncated_eof` says it of the codec: any proper front part of an encoding is
refused with `Eof`, no encoding is a proper front part of another, and a client
that fetches what it is asked for and tries again ends with the whole message
and nothing behind it.
-/
import RosUtils.SelfDelimiting
import RosUtils.XdrMonotone

open BigEndian ExceptState

namespace Xdr

variable {Δ : Decls}

/-! ### Values that take no bytes -/

theorem encodeFields_nil {ts : List Ty} {vs : List Value} (hlen : ts.length = vs.length)
    (h : ∀ p ∈ fieldParts ts vs, encode Δ p.bound p.ty p.value = .ok []) :
    encodeFields Δ ts vs = .ok [] := by
  induction ts generalizing vs with
  | nil =>
    obtain rfl := List.length_eq_zero_iff.mp hlen.symm
    rw [encodeFields]
  | cons T ts ih =>
    obtain ⟨v, vs, rfl⟩ := List.exists_cons_of_length_eq_add_one hlen.symm
    refine encodeFields_cons.mpr ⟨[], [], h _ List.mem_cons_self, ?_, rfl⟩
    exact ih (Nat.succ.inj hlen) fun p hp => h p (List.mem_cons_of_mem _ hp)

/-- A value with no bytes of its own, all of whose parts encode to nothing. -/
theorem encode_nil_of_parts {bound : Option ℕ} {T : Ty} {v : Value} (hv : HasType Δ T v)
    (hown : T.ownLength Δ v = 0)
    (hparts : ∀ p ∈ T.parts Δ v, encode Δ p.bound p.ty p.value = .ok []) :
    encode Δ bound T v = .ok [] := by
  have hpadded : ∀ b : Bytes, paddedLength b.length = 0 → padded b = [] := by
    intro b hb
    rw [← length_padded] at hb
    exact List.length_eq_zero_iff.mp hb
  cases hv with
  | bool | i8 | i16 | i32 | i64 | u8 | u16 | u32 | u64 | f32 | f64 | char | none | some
  | xdrEnum | vec => cases hown
  | string | str | varOpaque | varOpaqueRef | varOpaqueCow | arrayRef =>
    have hpos : 4 + _ = 0 := hown
    omega
  | bounded hv => exact hparts _ List.mem_cons_self
  | fixedOpaque hlen => exact congrArg Except.ok (hpadded _ hown)
  | listRef t len encoded => exact congrArg Except.ok (hpadded _ hown)
  | array hlen hvs =>
    rw [encode, encodeElements_eq]
    refine encodeFields_nil List.length_replicate ?_
    rw [fieldParts_replicate rfl]
    exact hparts
  | tuple hvs =>
    rw [encode]
    exact encodeFields_nil hvs.length_eq hparts
  | unit | unitStruct => rw [encode]
  | newtypeStruct hd hv =>
    simp only [Ty.parts, hd] at hparts
    simp only [encode, hd]
    exact hparts _ List.mem_cons_self
  | tupleStruct hd hvs | struct hd hvs =>
    simp only [Ty.parts, hd] at hparts
    simp only [encode, hd]
    exact encodeFields_nil hvs.length_eq hparts
  -- a tag or a discriminant takes a unit
  | enum hd | unionArm hd | unionDefault hd =>
    simp only [Ty.ownLength, hd, Decl.ownLength] at hown
    cases hown

/-- If the parts take nothing, each of them is read in front of the rest. -/
theorem PartsRead.of_flatten_nil {P : Policy} {room : ℕ} {rest : Bytes} {ps : List Part}
    {cs : List Bytes} (h : PartsRead P Δ room rest ps cs) (hcs : cs.flatten = []) :
    ∀ p ∈ ps, (readB P Δ room p.bound p.ty).run rest = .ok (p.value, rest) := by
  induction h with
  | nil => exact nofun
  | cons hp _ ih =>
    obtain ⟨rfl, hnil⟩ := List.append_eq_nil_iff.mp hcs
    rw [hnil] at hp
    intro p hmem
    rcases List.mem_cons.mp hmem with rfl | hmem
    · exact hp
    · exact ih hnil p hmem

/-- What is read from no bytes encodes to no bytes. -/
theorem encode_nil_of_read {P : Policy} {room : ℕ} {bound : Option ℕ} {T : Ty} {v : Value}
    {t : Bytes} (h : (readB P Δ room bound T).run t = .ok (v, t)) :
    encode Δ bound T v = .ok [] := by
  induction room using Nat.strong_induction_on generalizing bound T v t with
  | _ room ih =>
    have hx : (Place.mk ⟨bound, T, v⟩ room t t).Read P Δ := h
    obtain ⟨⟨own, cs, hb, hown, hcs⟩, hpos, -, -⟩ := readB_parts h
    obtain ⟨rfl, hnil⟩ : own = [] ∧ cs.flatten = [] := by
      rw [← List.append_assoc] at hb
      exact List.append_eq_nil_iff.mp (List.self_eq_append_left.mp hb)
    refine encode_nil_of_parts hx.hasType hown.symm fun p hp => ?_
    have hlt : room - 1 < room := Nat.sub_lt (hpos (List.ne_nil_of_mem hp)) one_pos
    exact ih (room - 1) hlt (hcs.of_flatten_nil hnil p hp)

/-! ### Leaves -/

/-- A self-delimiting parser of the codec. -/
abbrev Delimited {α : Type} (p : Parser α) : Prop := Delimits Error.eof p

theorem word_delimits : Delimited word := (Delimits.takeN Error.eof 4).map _

theorem dword_delimits : Delimited dword := (Delimits.takeN Error.eof 8).map _

theorem signed_delimits (lo hi : ℤ) : Delimited (signed lo hi) :=
  word_delimits.bind fun _ => .ite (.pure _) (.throw _)

theorem unsigned_delimits (hi : ℕ) : Delimited (unsigned hi) :=
  word_delimits.bind fun _ => .ite (.pure _) (.throw _)

theorem scalar_delimits : Delimited scalar := by
  refine word_delimits.bind fun w => ?_
  split
  · exact .pure _
  · exact .throw _

theorem lengthWord_delimits (bound : Option ℕ) : Delimited (lengthWord bound) := by
  refine (word_delimits.map _).bind fun len => ?_
  cases bound with
  | none => exact .pure len
  | some max => exact .ite (.throw _) (.pure len)

theorem fixedBody_delimits (mode : Strictness) (n : ℕ) : Delimited (fixedBody mode n) := by
  have hpad : Delimited (padding mode n) :=
    (Delimits.takeN Error.eof (pad4 n)).bind fun _ => .ite (.throw _) (.pure _)
  exact (Delimits.takeN Error.eof n).bind fun data => hpad.bind fun _ => .pure data

theorem varBody_delimits (mode : Strictness) (bound : Option ℕ) :
    Delimited (varBody mode bound) :=
  (lengthWord_delimits bound).bind fun len => fixedBody_delimits mode len

theorem boolean_delimits (mode : Strictness) : Delimited (boolean mode) :=
  word_delimits.bind fun _ => .ite (.pure _) (.ite (.pure _) (.ite (.throw _) (.pure _)))

theorem text_delimits (mode : Strictness) (bound : Option ℕ) : Delimited (text mode bound) := by
  refine (varBody_delimits mode bound).bind fun bytes => ?_
  split
  · exact .throw _
  · exact .ite (.throw _) (.pure _)

theorem XdrEnum.read_delimits (e : XdrEnum) (disc : Int32) : Delimited (e.read disc) := by
  rw [XdrEnum.read]
  split
  · exact .pure _
  · exact .throw _

theorem DiscTy.read_delimits (dt : DiscTy) (disc : Int32) : Delimited (dt.read disc) := by
  cases dt with
  | i32 => exact .pure _
  | xdrEnum e => exact e.read_delimits disc

/-! ### Sequences -/

theorem repeatN_delimits {p : Parser Value} (h : Delimited p) (n : ℕ) :
    Delimited (repeatN p n) := by
  induction n with
  | zero => exact .pure _
  | succ n ih => exact h.bind fun v => ih.bind fun vs => .pure _

theorem readFields_delimits {c : Ty → Parser Value} {ts : List Ty}
    (h : ∀ T ∈ ts, Delimited (c T)) : Delimited (readFields c ts) := by
  induction ts with
  | nil => exact .pure _
  | cons T ts ih =>
    refine (h T List.mem_cons_self).bind fun v => ?_
    exact (ih fun T' h' => h T' (List.mem_cons_of_mem _ h')).bind fun vs => .pure _

theorem chain_delimits {p : Parser (Option Value)} (h : Delimited p) (n : ℕ) :
    Delimited (chain p n) := by
  induction n with
  | zero => exact .pure _
  | succ n ih =>
    refine h.bind fun v => ?_
    cases v with
    | none => exact .pure _
    | some v => exact ih.bind fun vs => .pure _

theorem level_delimits {α : Type} {limit room : ℕ} {body : (r : ℕ) → r < room → Parser α}
    (h : ∀ r hr, Delimited (body r hr)) : Delimited (level limit room body) := by
  cases room with
  | zero => exact .throw _
  | succ r => exact h r (Nat.lt_succ_self r)

/-- Elements that take bytes take a unit each. -/
theorem four_mul_le_of_repeatN {p : Parser Value} (hadv : Advances 4 p)
    (hne : ∀ ⦃t v⦄, p.run t ≠ .ok (v, t)) {n : ℕ} {vs : List Value} {c t : Bytes}
    (h : (repeatN p n).run (c ++ t) = .ok (vs, t)) : 4 * n ≤ c.length := by
  induction n generalizing vs c with
  | zero => exact Nat.zero_le _
  | succ n ih =>
    obtain ⟨v, u, hv, hrest⟩ := run_bind_ok.mp h
    obtain ⟨vs', u', hvs, hpure⟩ := run_bind_ok.mp hrest
    obtain ⟨-, rfl⟩ := run_pure_ok.mp hpure
    obtain ⟨d, rfl, -⟩ := repeatN_advances hadv n hvs
    obtain ⟨c', hc, k, hk⟩ := hadv hv
    rw [← List.append_assoc] at hc
    obtain rfl := List.append_cancel_right hc
    have hpos : c' ≠ [] := by
      rintro rfl
      exact hne hv
    have hlen := List.length_pos_iff.mpr hpos
    have hle := ih hvs
    rw [List.length_append]
    omega

/-- What follows the count of a sequence whose elements take bytes.  The count check asks
for a unit per element, which is no more than the elements take. -/
theorem admitted_delimits {mode : Strictness} {limit n : ℕ} {f : ℕ → Parser (List Value)}
    (hf : Delimited (f n))
    (hlen : ∀ ⦃c t vs⦄, (f n).run (c ++ t) = .ok (vs, t) → 4 * n ≤ c.length) :
    Delimited (admitted (Policy.ofInput mode limit).fits n >>= f) := by
  have hfits : ∀ m, (Policy.ofInput mode limit).fits n m = true ↔ 4 * n ≤ m := by
    intro m
    show decide (n ≤ m / 4) = true ↔ _
    rw [decide_eq_true_iff]
    omega
  have hrun : ∀ b, 4 * n ≤ b.length →
      (admitted (Policy.ofInput mode limit).fits n >>= f).run b = (f n).run b :=
    fun b hb => run_bind_of_ok (admitted_ok.mpr ⟨rfl, rfl, (hfits _).mpr hb⟩)
  have hok : ∀ ⦃b t vs⦄, (admitted (Policy.ofInput mode limit).fits n >>= f).run b
      = .ok (vs, t) → (f n).run b = .ok (vs, t) := by
    intro b t vs h
    obtain ⟨m, u, hm, hu⟩ := run_bind_ok.mp h
    obtain ⟨rfl, rfl, -⟩ := admitted_ok.mp hm
    exact hu
  constructor
  · intro b vs t h
    exact hf.adv (hok h)
  · intro c t vs h t'
    have h4 := hlen (hok h)
    rw [hrun _ (by rw [List.length_append]; omega)]
    exact hf.whole (hok h) t'
  · intro c t vs h c₁ c₂ hsplit hne
    have h4 := hlen (hok h)
    rw [hsplit, List.length_append] at h4
    -- a cut is met by the elements, or by the count check in front of them
    by_cases hle : 4 * n ≤ c₁.length
    · rw [hrun _ hle]
      exact hf.cut (hok h) c₁ c₂ hsplit hne
    · have herr : (admitted (Policy.ofInput mode limit).fits n).run c₁
          = .error (.eof (n * 4 - c₁.length)) :=
        if_neg fun hfit => hle ((hfits _).mp hfit)
      exact ⟨_, run_bind_of_error herr, by omega, by omega⟩

/-- A counted sequence of elements that take bytes. -/
theorem readVec_delimits {mode : Strictness} {limit room : ℕ} {child : Child room}
    {bound : Option ℕ} {T : Ty} (hchild : ∀ r h, Delimited (child r h T))
    (hadv : ∀ r h, Advances 4 (child r h T))
    (hne : ∀ r h ⦃t v⦄, (child r h T).run t ≠ .ok (v, t)) :
    Delimited (readVec (Policy.ofInput mode limit) room child bound T) := by
  rw [readVec, seqCount, bind_assoc]
  refine (lengthWord_delimits bound).bind fun n => admitted_delimits ?_ ?_
  · exact level_delimits fun r hr => repeatN_delimits (hchild r hr) n
  · intro c t vs h
    obtain ⟨r, hr, -, helems⟩ := level_ok.mp h
    exact four_mul_le_of_repeatN (hadv r hr) (hne r hr) helems

/-! ### Types -/

/-- A type in which no element of a sequence encodes to nothing. -/
def Ty.ElementsTakeBytes (Δ : Decls) (T : Ty) : Prop :=
  ∀ e, T.Reaches Δ (.counted (.vec e)) ∨ T.Reaches Δ (.counted (.varArrayRef e)) →
    ∀ v, HasType Δ e v → toBytes Δ e v ≠ .ok []

theorem Ty.ElementsTakeBytes.component {T t : Ty} (hT : T.ElementsTakeBytes Δ)
    (ht : t ∈ T.components Δ) : t.ElementsTakeBytes Δ := by
  intro e he
  exact hT e (he.imp (·.of_component ht) (·.of_component ht))

theorem Ty.Owned.elementsTakeBytes {T : Ty} (hT : T.Owned Δ) : T.ElementsTakeBytes Δ := by
  intro e he
  rcases he with he | he
  · exact hT.elements e he
  · exact absurd he (hT.noArrayRef e)

section Types

variable {mode : Strictness} {limit room : ℕ}

/-- An element that takes bytes is not read from nothing. -/
theorem read_ne_of_takesBytes {P : Policy} {e : Ty}
    (he : ∀ v, HasType Δ e v → toBytes Δ e v ≠ .ok []) (r : ℕ) ⦃t : Bytes⦄ ⦃v : Value⦄ :
    (read P Δ r e).run t ≠ .ok (v, t) := by
  intro h
  have hread := readB_of_read h
  have hx : (Place.mk ⟨none, e, v⟩ r t t).Read P Δ := hread
  refine he v hx.hasType ?_
  rw [toBytes_eq]
  exact encode_nil_of_read hread

variable (ih : ∀ r < room, ∀ T : Ty, T.ElementsTakeBytes Δ →
  Delimited (read (Policy.ofInput mode limit) Δ r T))
include ih

theorem readC_delimits {bound : Option ℕ} {C : CountedTy Ty}
    (hC : (Ty.counted C).ElementsTakeBytes Δ) :
    Delimited (readC (Policy.ofInput mode limit) Δ room bound C) := by
  cases C with
  | string | str => exact (text_delimits mode bound).map _
  | varOpaque | varOpaqueRef | varOpaqueCow => exact (varBody_delimits mode bound).map _
  | vec T =>
    have hT : T.ElementsTakeBytes Δ := hC.component List.mem_cons_self
    refine (readVec_delimits (fun r h => ih r h T hT) (fun r _ => read_advances _ Δ r T) ?_).map _
    exact fun r _ => read_ne_of_takesBytes (hC T (.inl (.refl Δ _))) r
  | varArrayRef T =>
    have hT : T.ElementsTakeBytes Δ := hC.component List.mem_cons_self
    refine level_delimits fun r hr => ?_
    refine (readVec_delimits (fun r' h => ih r' (h.trans hr) T hT)
      (fun r' _ => read_advances _ Δ r' T) ?_).span.bind fun x => .pure _
    exact fun r' _ => read_ne_of_takesBytes (hC T (.inr (.refl Δ _))) r'

theorem readNamed_delimits {id : ℕ} (hT : (Ty.named id).ElementsTakeBytes Δ) :
    Delimited (readNamed (Policy.ofInput mode limit) room
      (fun r _ => read (Policy.ofInput mode limit) Δ r) (Δ id)) := by
  have hpart : ∀ T ∈ (Δ id).components, T.ElementsTakeBytes Δ := fun T h => hT.component h
  cases hd : Δ id with
  | newtypeStruct T =>
    rw [hd] at hpart
    exact level_delimits fun r hr => (ih r hr T (hpart T List.mem_cons_self)).map _
  | tupleStruct ts | struct ts =>
    rw [hd] at hpart
    exact level_delimits fun r hr =>
      (readFields_delimits fun T h => ih r hr T (hpart T h)).map _
  | enum e =>
    rw [hd] at hpart
    refine word_delimits.bind fun tag => level_delimits fun r hr => ?_
    rw [readVariant]
    split
    · exact .throw _
    · rename_i var hvar
      refine (readFields_delimits fun T h => ih r hr T (hpart T ?_)).map _
      exact List.mem_flatMap.mpr ⟨var, List.mem_of_getElem? hvar, h⟩
  | xdrUnion u =>
    rw [hd] at hpart
    refine level_delimits fun r hr => (word_delimits.map _).bind fun tag => ?_
    rw [readArm]
    split
    · rename_i i arm harm
      obtain ⟨hi, -⟩ := XdrUnion.armOf_eq_some.mp harm
      refine (readFields_delimits fun T h => ih r hr T (hpart T ?_)).map _
      exact List.mem_append_left _ (List.mem_flatMap.mpr ⟨arm, List.mem_of_getElem? hi, h⟩)
    · split
      · exact .throw _
      · rename_i dt ts hdef
        refine (dt.read_delimits tag).bind fun d => ?_
        refine (readFields_delimits fun T h => ih r hr T (hpart T ?_)).bind fun vs => .pure _
        rw [Decl.components, hdef]
        exact List.mem_append_right _ (List.mem_cons_of_mem _ h)

theorem readShape_delimits {T : Ty} (hT : T.ElementsTakeBytes Δ) :
    Delimited (readShape (Policy.ofInput mode limit) Δ room
      (fun r _ => read (Policy.ofInput mode limit) Δ r) T) := by
  cases T with
  | bool => exact (boolean_delimits mode).map _
  | i8 | i16 => exact ((signed_delimits _ _).map _).map _
  | u8 | u16 => exact ((unsigned_delimits _).map _).map _
  | i32 => exact (word_delimits.map _).map _
  | i64 => exact (dword_delimits.map _).map _
  | u32 | f32 => exact word_delimits.map _
  | u64 | f64 => exact dword_delimits.map _
  | char => exact scalar_delimits.map _
  | counted C => exact readC_delimits ih hT
  | bounded C max =>
    refine level_delimits fun r hr => Delimits.map _ ?_
    exact readC_delimits (fun r' h => ih r' (h.trans hr)) (hT.component List.mem_cons_self)
  | fixedOpaque n => exact level_delimits fun r hr => (fixedBody_delimits mode n).map _
  | array T n =>
    refine level_delimits fun r hr => (readFields_delimits fun T' h => ?_).map _
    rw [List.eq_of_mem_replicate h]
    exact ih r hr T (hT.component List.mem_cons_self)
  | tuple ts =>
    exact level_delimits fun r hr =>
      (readFields_delimits fun T' h => ih r hr T' (hT.component h)).map _
  | unit | unitStruct => exact .pure _
  | option T =>
    refine (boolean_delimits mode).bind fun present => .ite ?_ (.pure _)
    exact level_delimits fun r hr => (ih r hr T (hT.component List.mem_cons_self)).map _
  | listRef T =>
    refine level_delimits fun r hr => level_delimits fun r' hr' => ?_
    refine (chain_delimits ?_ usizeMax).span.bind fun x => .pure _
    refine (boolean_delimits mode).bind fun present => .ite ?_ (.pure _)
    exact level_delimits fun r'' hr'' =>
      (ih r'' (hr''.trans (hr'.trans hr)) T (hT.component List.mem_cons_self)).map _
  | xdrEnum e => exact (word_delimits.map _).bind fun disc => e.read_delimits disc
  | named id => exact readNamed_delimits ih hT

end Types

/-- **The codec's readers are self-delimiting**, when the elements of sequences take
bytes. -/
theorem read_delimits {mode : Strictness} {limit : ℕ} (room : ℕ) {T : Ty}
    (hT : T.ElementsTakeBytes Δ) : Delimited (read (Policy.ofInput mode limit) Δ room T) := by
  induction room using Nat.strong_induction_on generalizing T with
  | _ room ih =>
    rw [read_eq]
    exact readShape_delimits (fun r hr T hT => ih r hr hT) hT

/-! ### Truncated inputs of the codec -/

/-- How many bytes a failed decode asks for. -/
def Fault.missing : Fault → Option ℕ
  | .error (.eof need) => some need
  | _ => none

/-- What `f` does with less than the message `b`, which stands for `a`: every proper front
part is refused as short, by at least a byte and by no more than is missing; and so a client
that holds any front part, fetches what it is asked for and tries again ends with `a`,
holding the message and nothing of what follows it. -/
structure Truncates {α : Type} (f : Bytes → Except Fault α) (b : Bytes) (a : α) : Prop where
  eof : ∀ p, p <+: b → p ≠ b →
    ∃ need, f p = .error (.error (.eof need)) ∧ 1 ≤ need ∧ need ≤ b.length - p.length
  retry : ∀ t n fuel, n ≤ b.length → b.length - n < fuel →
    retry Fault.missing f (b ++ t) fuel n = some (b.length, .ok a)

theorem Truncates.of_cut {α : Type} {f : Bytes → Except Fault α} {b : Bytes} {a : α}
    (hb : f b = .ok a) (hcut : ∀ c₁ c₂, b = c₁ ++ c₂ → c₂ ≠ [] →
      ∃ need, f c₁ = .error (.error (.eof need)) ∧ 1 ≤ need ∧ need ≤ c₂.length) :
    Truncates f b a where
  eof p hp hne := by
    obtain ⟨c₂, rfl⟩ := hp
    have hc₂ : c₂ ≠ [] := fun h => hne (by rw [h, List.append_nil])
    obtain ⟨need, hneed, hpos, hle⟩ := hcut p c₂ rfl hc₂
    exact ⟨need, hneed, hpos, by rw [List.length_append]; omega⟩
  retry t n fuel hn hfuel := by
    refine retry_eq hb (fun c₁ c₂ hsplit hne => ?_) hn hfuel
    obtain ⟨need, hneed, hle⟩ := hcut c₁ c₂ hsplit hne
    exact ⟨_, need, hneed, rfl, hle⟩

section Codec

variable {T : Ty} (hT : T.ElementsTakeBytes Δ)
include hT

theorem decode_cut {mode : Strictness} {d : ℕ} {b : Bytes} {v : Value}
    (h : decode Δ T mode d b = .ok (v, [])) (c₁ c₂ : Bytes) (hb : b = c₁ ++ c₂) (hne : c₂ ≠ []) :
    ∃ need, decode Δ T mode d c₁ = .error (.error (.eof need)) ∧ 1 ≤ need ∧
      need ≤ c₂.length := by
  have hread := decode_ok.mp h
  rw [← List.append_nil b] at hread
  obtain ⟨need, hneed, hle⟩ := (read_delimits d hT).cut hread c₁ c₂ hb hne
  exact ⟨need, decode_error hneed, hle⟩

theorem decode_truncates {mode : Strictness} {d : ℕ} {b : Bytes} {v : Value}
    (h : decode Δ T mode d b = .ok (v, [])) : Truncates (decode Δ T mode d) b (v, []) :=
  .of_cut h (decode_cut hT h)

theorem fromBytesWith_truncates {mode : Strictness} {b : Bytes} {v : Value}
    (h : fromBytesWith Δ T b mode = .ok v) :
    Truncates (fun p => fromBytesWith Δ T p mode) b v := by
  refine .of_cut h fun c₁ c₂ hb hne => ?_
  obtain ⟨need, hneed, hle⟩ := decode_cut hT (decode_ok.mpr (fromBytesWith_ok.mp h)) c₁ c₂ hb hne
  refine ⟨need, ?_, hle⟩
  rw [fromBytesWith, fromPrefixWith_eq, hneed]
  rfl

theorem decode_front_eq {m m' : Strictness} {d d' : ℕ} {b b' : Bytes} {v v' : Value}
    (h : decode Δ T m d b = .ok (v, [])) (h' : decode Δ T m' d' b' = .ok (v', []))
    (hfront : b <+: b') : b = b' := by
  -- both are accepted leniently under the greater of the limits
  have hl : decode Δ T .lenient (max d d') b = .ok (v, []) :=
    decode_weaken h nofun (le_max_left d d')
  have hl' : decode Δ T .lenient (max d d') b' = .ok (v', []) :=
    decode_weaken h' nofun (le_max_right d d')
  exact (read_delimits _ hT).front_eq (decode_ok.mp hl) (decode_ok.mp hl') hfront

end Codec

/-- **Truncated encodings.**  Let no element of a sequence of the type encode to nothing.
An encoding of an owned value that keeps the depth limit, and in strict mode has no NUL in
its strings, is refused with `Eof` when it is cut anywhere (`Truncates`), and no encoding is
a proper front part of another; both hold as well of every input that is accepted as a
whole, whatever the type borrows. -/
theorem truncated_eof (T : Ty) (hT : T.ElementsTakeBytes Δ) :
    (T.Owned Δ → ∀ v b mode, HasType Δ T v → (mode = .strict → v.NoNul) →
      toBytes Δ T v = .ok b →
      (∀ d, v.depth ≤ d → Truncates (decode Δ T mode d) b (v, [])) ∧
      (v.depth ≤ Deserializer.defaultMaxDepth →
        Truncates (fun p => fromBytesWith Δ T p mode) b v)) ∧
    (T.Owned Δ → ∀ v v' b b', HasType Δ T v → HasType Δ T v' →
      toBytes Δ T v = .ok b → toBytes Δ T v' = .ok b' → b <+: b' → b = b') ∧
    (∀ mode d b v, decode Δ T mode d b = .ok (v, []) →
      Truncates (decode Δ T mode d) b (v, [])) ∧
    (∀ mode b v, fromBytesWith Δ T b mode = .ok v →
      Truncates (fun p => fromBytesWith Δ T p mode) b v) ∧
    ∀ m m' d d' b b' v v', decode Δ T m d b = .ok (v, []) → decode Δ T m' d' b' = .ok (v', []) →
      b <+: b' → b = b' := by
  -- an encoding is accepted as a whole, and so all is said of inputs that are
  have hdecode : T.Owned Δ → ∀ v b mode d, HasType Δ T v → (mode = .strict → v.NoNul) →
      toBytes Δ T v = .ok b → v.depth ≤ d → decode Δ T mode d b = .ok (v, []) := by
    intro hown v b mode d hv hnul hb hd
    rw [toBytes_eq] at hb
    have hread := read_encode _ Δ d [] (hown.readable mode d) hv hnul hb hd
    rw [List.append_nil] at hread
    exact decode_ok.mpr hread
  refine ⟨fun hown v b mode hv hnul hb => ⟨fun d hd => ?_, fun hd => ?_⟩,
    fun hown v v' b b' hv hv' hb hb' hfront => ?_,
    fun _ _ _ _ => decode_truncates hT, fun _ _ _ => fromBytesWith_truncates hT,
    fun _ _ _ _ _ _ _ _ => decode_front_eq hT⟩
  · exact decode_truncates hT (hdecode hown v b mode d hv hnul hb hd)
  · refine fromBytesWith_truncates hT (fromBytesWith_ok.mpr (decode_ok.mp ?_))
    exact hdecode hown v b mode _ hv hnul hb hd
  · exact decode_front_eq hT (hdecode hown v b .lenient _ hv nofun hb le_rfl)
      (hdecode hown v' b' .lenient _ hv' nofun hb' le_rfl) hfront

/-- A node cut behind the count of its flags: four bytes for the flag, then four for what is
next, and the message is whole. -/
theorem truncated_eof_node :
    (Ty.named 0).ElementsTakeBytes nodeDecls ∧
    Truncates (fun p => fromBytesWith nodeDecls (.named 0) p .strict)
      [0, 0, 0, 7, 0, 0, 0, 1, 0, 0, 0, 1, 0, 0, 0, 0]
      (.seq [.u32 7, .seq [.bool true], .none]) ∧
    fromBytesWith nodeDecls (.named 0) [0, 0, 0, 7, 0, 0, 0, 1] .strict
      = .error (.error (.eof 4)) := by
  have hT : (Ty.named 0).ElementsTakeBytes nodeDecls := nodeDecls_owned.elementsTakeBytes
  exact ⟨hT, (truncated_eof (.named 0) hT).2.2.2.1 .strict _ _ rfl, rfl⟩

end Xdr
