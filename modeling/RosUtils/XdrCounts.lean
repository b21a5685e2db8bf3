/-
Where the counts stand in an encoding.

The wire format puts a count in front of the elements of a vector, and says nothing about
what follows.  The codec admits a count up to a quarter of the bytes behind it.  Here is
where the counts of a value stand, by the wire format alone: `CountIn Δ T b n left` says
that in the value of the type `T` at the front of `b` a count of `n` stands in front of
`left` bytes.

`read_counts` connects the two: a policy reads what the wire format reads if and only if it
admits the counts that stand there.
-/
import RosUtils.XdrCanonical

open BigEndian ExceptState

namespace Xdr

variable {Δ : Decls} {α β : Type}

/-! ### Positions -/

/-- On the wire, a value of the type `T` stands at the front of `b` and leaves `t`. -/
def Stands (Δ : Decls) (T : Ty) (b : Bytes) (v : Value) (t : Bytes) : Prop :=
  ∃ room, (read (Policy.anyCount .lenient room) Δ room T).run b = .ok (v, t)

/-- A value of the type `T` at the front of `b` is made of values of these types, one after
another from `u` on.  A borrowed array is the vector of the same elements. -/
inductive MadeOf (Δ : Decls) (b : Bytes) : Ty → List Ty → Bytes → Prop
  | vec {t : Ty} {w : UInt32} {u : Bytes} (hb : b = u32ToBe w ++ u) :
      MadeOf Δ b (.counted (.vec t)) (List.replicate w.toNat t) u
  | arrayRef {t : Ty} : MadeOf Δ b (.counted (.varArrayRef t)) [.counted (.vec t)] b
  | bounded {c : CountedTy Ty} {max : ℕ} : MadeOf Δ b (.bounded c max) [.counted c] b
  | array {t : Ty} {n : ℕ} : MadeOf Δ b (.array t n) (List.replicate n t) b
  | tuple {ts : List Ty} : MadeOf Δ b (.tuple ts) ts b
  | present {t : Ty} {w : UInt32} {u : Bytes} (hb : b = u32ToBe w ++ u) (hw : w ≠ 0) :
      MadeOf Δ b (.option t) [t] u
  | newtypeStruct {id : ℕ} {t : Ty} (hd : Δ id = .newtypeStruct t) : MadeOf Δ b (.named id) [t] b
  | tupleStruct {id : ℕ} {ts : List Ty} (hd : Δ id = .tupleStruct ts) : MadeOf Δ b (.named id) ts b
  | struct {id : ℕ} {ts : List Ty} (hd : Δ id = .struct ts) : MadeOf Δ b (.named id) ts b
  | variant {id : ℕ} {e : SerdeEnum} {var : Variant} {w : UInt32} {u : Bytes}
      (hd : Δ id = .enum e) (hb : b = u32ToBe w ++ u) (hvar : e.variants[w.toNat]? = some var) :
      MadeOf Δ b (.named id) var.fields u
  | arm {id : ℕ} {un : XdrUnion} {i : ℕ} {arm : Arm} {w : UInt32} {u : Bytes}
      (hd : Δ id = .xdrUnion un) (hb : b = u32ToBe w ++ u)
      (harm : un.armOf w.toInt32 = some (i, arm)) : MadeOf Δ b (.named id) arm.fields u
  | default {id : ℕ} {un : XdrUnion} {dt : DiscTy} {ts : List Ty} {w : UInt32} {u : Bytes}
      (hd : Δ id = .xdrUnion un) (hb : b = u32ToBe w ++ u) (harm : un.armOf w.toInt32 = none)
      (hdef : un.default = some (dt, ts)) : MadeOf Δ b (.named id) ts u

/-- One of the values of these types, one after another from the front of a byte string, is of
the type `T` and stands at the front of `b`. -/
inductive FieldAt (Δ : Decls) (T : Ty) (b : Bytes) : List Ty → Bytes → Prop
  | head {ts : List Ty} : FieldAt Δ T b (T :: ts) b
  | tail {T' : Ty} {ts : List Ty} {v : Value} {u u' : Bytes} (hv : Stands Δ T' u v u')
      (h : FieldAt Δ T b ts u') : FieldAt Δ T b (T' :: ts) u

/-- One of the first `k` elements of a list stands at the front of `b`. -/
inductive GroupAt (Δ : Decls) (T : Ty) (b : Bytes) : ℕ → Bytes → Prop
  | head {k : ℕ} {w : UInt32} {l : Bytes} (hl : l = u32ToBe w ++ b) (hw : w ≠ 0) :
      GroupAt Δ T b (k + 1) l
  | tail {k : ℕ} {w : UInt32} {v : Value} {l u u' : Bytes} (hl : l = u32ToBe w ++ u) (hw : w ≠ 0)
      (hv : Stands Δ T u v u') (h : GroupAt Δ T b k u') : GroupAt Δ T b (k + 1) l

/-- In the value of the type `T` at the front of `b`, a count of `n` stands in front of `left`
bytes. -/
inductive CountIn (Δ : Decls) : Ty → Bytes → ℕ → ℕ → Prop
  | count {t : Ty} {w : UInt32} {b u : Bytes} (hb : b = u32ToBe w ++ u) :
      CountIn Δ (.counted (.vec t)) b w.toNat u.length
  | field {T T' : Ty} {ts : List Ty} {b u b' : Bytes} {n left : ℕ} (hm : MadeOf Δ b T ts u)
      (hf : FieldAt Δ T' b' ts u) (hc : CountIn Δ T' b' n left) : CountIn Δ T b n left
  | element {t : Ty} {b b' : Bytes} {n left : ℕ} (hg : GroupAt Δ t b' usizeMax b)
      (hc : CountIn Δ t b' n left) : CountIn Δ (.listRef t) b n left

/-- A count of one of these values. -/
def CountInFields (Δ : Decls) (ts : List Ty) (u : Bytes) (n left : ℕ) : Prop :=
  ∃ T b, FieldAt Δ T b ts u ∧ CountIn Δ T b n left

/-- A count of one of the first `k` elements of a list. -/
def CountInGroups (Δ : Decls) (t : Ty) (k : ℕ) (u : Bytes) (n left : ℕ) : Prop :=
  ∃ b, GroupAt Δ t b k u ∧ CountIn Δ t b n left

section Positions

variable {T T' t : Ty} {ts : List Ty} {b u u' : Bytes} {v v' : Value} {w : UInt32} {n left k : ℕ}

theorem stands_of_read {P : Policy} {room : ℕ} (h : (read P Δ room T).run b = .ok (v, u)) :
    Stands Δ T b v u := by
  have hw : P.Weaker (Policy.anyCount .lenient room) [] [] := ⟨nofun, fun _ _ _ => rfl⟩
  have hrun := (read_carries hw le_rfl Δ T).run (x := b) (u := u) (by simpa using h)
  exact ⟨room, by simpa using hrun⟩

/-- What stands at the front of a byte string does not depend on the room. -/
theorem Stands.unique (h : Stands Δ T b v u) (h' : Stands Δ T b v' u') : v = v' ∧ u = u' := by
  obtain ⟨room, h⟩ := h
  obtain ⟨room', h'⟩ := h'
  have hw (P : Policy) : P.Weaker (Policy.anyCount .lenient 0) [] [] := ⟨nofun, fun _ _ _ => rfl⟩
  have hmax := (read_carries (hw _) (le_max_left room room') Δ T).run (x := b) (u := u)
    (by simpa using h)
  have hmax' := (read_carries (hw _) (le_max_right room room') Δ T).run (x := b) (u := u')
    (by simpa using h')
  rw [hmax] at hmax'
  simpa using hmax'

theorem u32ToBe_append_inj {w' : UInt32} (h : u32ToBe w ++ u = u32ToBe w' ++ u') :
    w = w' ∧ u = u' := by
  obtain ⟨hw, hu⟩ := List.append_inj h (by simp)
  have hw := congrArg u32OfBe hw
  rw [u32OfBe_u32ToBe, u32OfBe_u32ToBe] at hw
  exact ⟨hw, hu⟩

theorem FieldAt.mem (h : FieldAt Δ T b ts u) : T ∈ ts := by
  induction h with
  | head => exact List.mem_cons_self
  | tail _ _ ih => exact List.mem_cons_of_mem _ ih

theorem not_countInFields_nil : ¬ CountInFields Δ [] u n left := by
  rintro ⟨T, b, hf, -⟩
  cases hf

theorem countInFields_cons (h : Stands Δ T b v u) :
    CountInFields Δ (T :: ts) b n left ↔ CountIn Δ T b n left ∨ CountInFields Δ ts u n left := by
  constructor
  · rintro ⟨T', b', hf, hc⟩
    cases hf with
    | head => exact .inl hc
    | tail hv hf =>
      obtain ⟨-, rfl⟩ := h.unique hv
      exact .inr ⟨T', b', hf, hc⟩
  · rintro (hc | ⟨T', b', hf, hc⟩)
    · exact ⟨T, b, .head, hc⟩
    · exact ⟨T', b', .tail h hf, hc⟩

theorem countInFields_single : CountInFields Δ [T] b n left ↔ CountIn Δ T b n left := by
  constructor
  · rintro ⟨T', b', hf, hc⟩
    cases hf with
    | head => exact hc
    | tail hv hf => cases hf
  · exact fun hc => ⟨T, b, .head, hc⟩

theorem countInGroups_cons (hw : w ≠ 0) (h : Stands Δ t u v u') :
    CountInGroups Δ t (k + 1) (u32ToBe w ++ u) n left ↔
      CountIn Δ t u n left ∨ CountInGroups Δ t k u' n left := by
  constructor
  · rintro ⟨b', hg, hc⟩
    cases hg with
    | head hl _ =>
      obtain ⟨-, rfl⟩ := u32ToBe_append_inj hl
      exact .inl hc
    | tail hl _ hv hg =>
      obtain ⟨-, rfl⟩ := u32ToBe_append_inj hl
      obtain ⟨-, rfl⟩ := h.unique hv
      exact .inr ⟨b', hg, hc⟩
  · rintro (hc | ⟨b', hg, hc⟩)
    · exact ⟨u, .head rfl hw, hc⟩
    · exact ⟨b', .tail rfl hw h hg, hc⟩

theorem not_countInGroups_zero : ¬ CountInGroups Δ t 0 u n left := by
  rintro ⟨b', hg, -⟩
  cases hg

theorem not_countInGroups_nil : ¬ CountInGroups Δ t k (u32ToBe 0 ++ u) n left := by
  rintro ⟨b', hg, -⟩
  cases hg with
  | head hl hw => exact hw (u32ToBe_append_inj hl).1.symm
  | tail hl hw => exact hw (u32ToBe_append_inj hl).1.symm

theorem MadeOf.unique {ts' : List Ty} (h : MadeOf Δ b T ts u) (h' : MadeOf Δ b T ts' u') :
    ts = ts' ∧ u = u' := by
  cases h with
  | vec hb =>
    cases h' with
    | vec hb' =>
      obtain ⟨rfl, rfl⟩ := u32ToBe_append_inj (hb.symm.trans hb')
      exact ⟨rfl, rfl⟩
  | present hb hw =>
    cases h' with
    | present hb' hw' => exact ⟨rfl, (u32ToBe_append_inj (hb.symm.trans hb')).2⟩
  | variant hd hb hvar =>
    cases h' with
    | variant hd' hb' hvar' =>
      obtain ⟨rfl, rfl⟩ := u32ToBe_append_inj (hb.symm.trans hb')
      cases hd.symm.trans hd'
      cases hvar.symm.trans hvar'
      exact ⟨rfl, rfl⟩
    | _ => simp_all
  | arm hd hb harm =>
    cases h' with
    | arm hd' hb' harm' =>
      obtain ⟨rfl, rfl⟩ := u32ToBe_append_inj (hb.symm.trans hb')
      cases hd.symm.trans hd'
      cases harm.symm.trans harm'
      exact ⟨rfl, rfl⟩
    | default hd' hb' harm' hdef' =>
      obtain ⟨rfl, rfl⟩ := u32ToBe_append_inj (hb.symm.trans hb')
      cases hd.symm.trans hd'
      cases harm.symm.trans harm'
    | _ => simp_all
  | default hd hb harm hdef =>
    cases h' with
    | arm hd' hb' harm' =>
      obtain ⟨rfl, rfl⟩ := u32ToBe_append_inj (hb.symm.trans hb')
      cases hd.symm.trans hd'
      cases harm.symm.trans harm'
    | default hd' hb' harm' hdef' =>
      obtain ⟨rfl, rfl⟩ := u32ToBe_append_inj (hb.symm.trans hb')
      cases hd.symm.trans hd'
      cases hdef.symm.trans hdef'
      exact ⟨rfl, rfl⟩
    | _ => simp_all
  | _ =>
    cases h' <;> simp_all

/-- The counts of a value that is made of others and has none of its own. -/
theorem countIn_iff (hT : ∀ t, T ≠ .counted (.vec t)) (hm : MadeOf Δ b T ts u) :
    CountIn Δ T b n left ↔ CountInFields Δ ts u n left := by
  constructor
  · intro h
    cases h with
    | count hb => exact absurd rfl (hT _)
    | field hm' hf hc =>
      obtain ⟨rfl, rfl⟩ := hm.unique hm'
      exact ⟨_, _, hf, hc⟩
    | element hg hc => cases hm
  · rintro ⟨T', b', hf, hc⟩
    exact .field hm hf hc

theorem countIn_vec_iff :
    CountIn Δ (.counted (.vec t)) (u32ToBe w ++ u) n left ↔
      (n = w.toNat ∧ left = u.length) ∨ CountInFields Δ (List.replicate w.toNat t) u n left := by
  constructor
  · intro h
    cases h with
    | count hb =>
      obtain ⟨rfl, rfl⟩ := u32ToBe_append_inj hb
      exact .inl ⟨rfl, rfl⟩
    | field hm hf hc =>
      obtain ⟨rfl, rfl⟩ := MadeOf.unique (.vec rfl) hm
      exact .inr ⟨_, _, hf, hc⟩
  · rintro (⟨rfl, rfl⟩ | ⟨T', b', hf, hc⟩)
    · exact .count rfl
    · exact .field (.vec rfl) hf hc

theorem countIn_list_iff :
    CountIn Δ (.listRef t) b n left ↔ CountInGroups Δ t usizeMax b n left := by
  constructor
  · intro h
    cases h with
    | field hm hf hc => cases hm
    | element hg hc => exact ⟨_, hg, hc⟩
  · rintro ⟨b', hg, hc⟩
    exact .element hg hc

end Positions

/-! ### Optional data -/

/-- Optional data whose element has `room - 1` levels. -/
abbrev readOptional (P : Policy) (Δ : Decls) (room : ℕ) (T : Ty) : Parser (Option Value) :=
  readOption P room (fun r _ => read P Δ r) T

/-- A boolean word that reads true in the mode. -/
def ReadsTrue (mode : Strictness) (w : UInt32) : Prop := w ≠ 0 ∧ (mode = .strict → w = 1)

section Optional

variable {P : Policy} {T : Ty} {room : ℕ} {b t : Bytes}

theorem readOptional_none :
    (readOptional P Δ room T).run b = .ok (none, t) ↔ b = u32ToBe 0 ++ t := by
  rw [readOptional, readOption, optional, run_bind_ok]
  constructor
  · rintro ⟨x, u, hx, h⟩
    obtain ⟨w, rfl, rfl, -⟩ := boolean_ok.mp hx
    by_cases hw : w = 0
    · subst hw
      obtain ⟨-, rfl⟩ := run_pure_ok.mp h
      rfl
    · simp only [hw, ne_eq, not_false_eq_true, decide_true, ite_true] at h
      obtain ⟨r, _, -, h⟩ := level_ok.mp h
      obtain ⟨v, -, hv⟩ := run_map_ok.mp h
      cases hv
  · rintro rfl
    exact ⟨false, t, boolean_ok.mpr ⟨0, rfl, rfl, fun _ => .inl rfl⟩, rfl⟩

theorem readOptional_some {v : Value} :
    (readOptional P Δ room T).run b = .ok (some v, t) ↔
      ∃ w u r, b = u32ToBe w ++ u ∧ ReadsTrue P.mode w ∧ room = r + 1 ∧
        (read P Δ r T).run u = .ok (v, t) := by
  rw [readOptional, readOption, optional, run_bind_ok]
  constructor
  · rintro ⟨x, u, hx, h⟩
    obtain ⟨w, rfl, rfl, hmode⟩ := boolean_ok.mp hx
    by_cases hw : w = 0
    · subst hw
      cases run_pure_ok.mp h with
      | intro hv _ => cases hv
    · simp only [hw, ne_eq, not_false_eq_true, decide_true, ite_true] at h
      obtain ⟨r, _, hr, h⟩ := level_ok.mp h
      obtain ⟨v', hread, hv⟩ := run_map_ok.mp h
      cases hv
      exact ⟨w, u, r, rfl, ⟨hw, fun hs => (hmode hs).resolve_left hw⟩, hr, hread⟩
  · rintro ⟨w, u, r, rfl, hw, rfl, hread⟩
    refine ⟨true, u, boolean_ok.mpr ⟨w, rfl, ?_, fun hs => .inr (hw.2 hs)⟩, ?_⟩
    · simp [hw.1]
    · show (level P.limit (r + 1) fun r' _ => some <$> read P Δ r' T).run u = .ok (some v, t)
      exact level_ok.mpr ⟨r, Nat.lt_succ_self r, rfl, run_map_of_ok hread⟩

end Optional

/-! ### A decode consults the counts that stand there -/

/-- The reader `p` reads what `q` reads where the counts it meets are admitted. -/
def Guarded (fits : ℕ → ℕ → Bool) (E : Bytes → ℕ → ℕ → Prop) (p q : Parser α) : Prop :=
  ∀ b x, p.run b = .ok x ↔ q.run b = .ok x ∧ ∀ n left, E b n left → fits n left = true

section Guarded

variable {fits : ℕ → ℕ → Bool} {E E' : Bytes → ℕ → ℕ → Prop} {p q : Parser α}

/-- No count is met. -/
theorem Guarded.rfl (hE : ∀ b x, p.run b = .ok x → ∀ n left, ¬ E b n left) :
    Guarded fits E p p := by
  intro b x
  refine ⟨fun h => ⟨h, fun n left hn => absurd hn (hE b x h n left)⟩, And.left⟩

theorem Guarded.congr (h : Guarded fits E p q)
    (hE : ∀ b x, q.run b = .ok x → ∀ n left, E' b n left ↔ E b n left) : Guarded fits E' p q := by
  intro b x
  rw [h b x]
  refine and_congr_right fun hq => ?_
  simp only [hE b x hq]

theorem Guarded.bind {D : α → Bytes → ℕ → ℕ → Prop} {f g : α → Parser β} (h : Guarded fits E p q)
    (hf : ∀ a, Guarded fits (D a) (f a) (g a))
    (hE : ∀ b a u, q.run b = .ok (a, u) → ∀ n left, E' b n left ↔ E b n left ∨ D a u n left) :
    Guarded fits E' (p >>= f) (q >>= g) := by
  intro b x
  rw [run_bind_ok, run_bind_ok]
  constructor
  · rintro ⟨a, u, hp, hx⟩
    obtain ⟨hq, hfits⟩ := (h b (a, u)).mp hp
    obtain ⟨hg, hfits'⟩ := (hf a u x).mp hx
    refine ⟨⟨a, u, hq, hg⟩, fun n left hn => ?_⟩
    exact ((hE b a u hq n left).mp hn).elim (hfits n left) (hfits' n left)
  · rintro ⟨⟨a, u, hq, hg⟩, hfits⟩
    have hboth := fun n left hn => hfits n left ((hE b a u hq n left).mpr hn)
    exact ⟨a, u, (h b (a, u)).mpr ⟨hq, fun n left hn => hboth n left (.inl hn)⟩,
      (hf a u x).mpr ⟨hg, fun n left hn => hboth n left (.inr hn)⟩⟩

theorem Guarded.bind_pure (h : Guarded fits E p q) (g : α → β) :
    Guarded fits E (p >>= fun a => pure (g a)) (q >>= fun a => pure (g a)) :=
  h.bind (D := fun _ _ _ _ => False) (fun _ => .rfl fun _ _ _ _ _ => id)
    fun _ _ _ _ _ _ => (or_iff_left id).symm

theorem Guarded.map (h : Guarded fits E p q) (g : α → β) : Guarded fits E (g <$> p) (g <$> q) := by
  rintro b ⟨x, t⟩
  rw [run_map_ok, run_map_ok]
  constructor
  · rintro ⟨a, hp, rfl⟩
    obtain ⟨hq, hfits⟩ := (h b (a, t)).mp hp
    exact ⟨⟨a, hq, Eq.refl _⟩, hfits⟩
  · rintro ⟨⟨a, hq, rfl⟩, hfits⟩
    exact ⟨a, (h b (a, t)).mpr ⟨hq, hfits⟩, Eq.refl _⟩

theorem Guarded.level {limit limit' room : ℕ} {body body' : (r : ℕ) → r < room → Parser α}
    (h : ∀ r hr, Guarded fits E (body r hr) (body' r hr)) :
    Guarded fits E (level limit room body) (level limit' room body') := by
  cases room with
  | zero =>
    intro b x
    exact ⟨fun hb => absurd hb run_throw_ne_ok, fun hb => absurd hb.1 run_throw_ne_ok⟩
  | succ r => exact h r _

theorem Guarded.span {k : ℕ} (h : Guarded fits E p q) (hp : Advances k p) (hq : Advances k q) :
    Guarded fits E (span p) (span q) := by
  rintro b ⟨⟨a, c⟩, t⟩
  rw [span_ok hp, span_ok hq, h b (a, t)]
  tauto

end Guarded

/-- The wire format, with the strictness and the limit of a policy. -/
abbrev Policy.wire (P : Policy) : Policy := Policy.anyCount P.mode P.limit

/-- A decode of each type consults the counts that stand in a value of that type. -/
def Consults (P : Policy) (Δ : Decls) (r : ℕ) : Prop :=
  ∀ T, Guarded P.fits (CountIn Δ T) (read P Δ r T) (read P.wire Δ r T)

section Shapes

variable {P : Policy} {room r : ℕ}

theorem readFields_guarded (h : Consults P Δ r) (ts : List Ty) :
    Guarded P.fits (CountInFields Δ ts) (readFields (read P Δ r) ts)
      (readFields (read P.wire Δ r) ts) := by
  induction ts with
  | nil => exact .rfl fun _ _ _ _ _ => not_countInFields_nil
  | cons T ts ih =>
    exact (h T).bind (fun v => ih.bind_pure _) fun b v u hv n left =>
      countInFields_cons (stands_of_read hv)

/-- Optional data: the counts are those of what is there. -/
theorem optional_guarded (hr : ∀ r < room, Consults P Δ r) (T : Ty) (some : Value → α) (none : α) :
    Guarded P.fits (fun b n left => ∃ w u, b = u32ToBe w ++ u ∧ w ≠ 0 ∧ CountIn Δ T u n left)
      (optional P room (fun r _ => some <$> read P Δ r T) none)
      (optional P.wire room (fun r _ => some <$> read P.wire Δ r T) none) := by
  refine (Guarded.rfl (E := fun _ _ _ => False) fun _ _ _ _ _ => id).bind
    (D := fun present b n left => present = true ∧ CountIn Δ T b n left) (fun present => ?_) ?_
  · cases present with
    | false => exact .rfl fun _ _ _ _ _ hn => Bool.noConfusion hn.1
    | true =>
      refine (Guarded.level fun r h => (hr r h T).map some).congr fun _ _ _ _ _ => ?_
      exact ⟨And.right, fun hn => ⟨Eq.refl _, hn⟩⟩
  · intro b present u hb n left
    obtain ⟨w, rfl, rfl, -⟩ := boolean_ok.mp hb
    rw [false_or]
    constructor
    · rintro ⟨w', u', hb, hw, hn⟩
      obtain ⟨rfl, rfl⟩ := u32ToBe_append_inj hb
      exact ⟨decide_eq_true hw, hn⟩
    · rintro ⟨hw, hn⟩
      exact ⟨w, u, Eq.refl _, of_decide_eq_true hw, hn⟩

theorem chain_guarded (hr : ∀ r < room, Consults P Δ r) (T : Ty) (k : ℕ) :
    Guarded P.fits (CountInGroups Δ T k)
      (chain (readOption P room (fun r _ => read P Δ r) T) k)
      (chain (readOption P.wire room (fun r _ => read P.wire Δ r) T) k) := by
  induction k with
  | zero => exact .rfl fun _ _ _ _ _ => not_countInGroups_zero
  | succ k ih =>
    refine (optional_guarded hr T Option.some Option.none).bind
      (D := fun v b n left => v.isSome ∧ CountInGroups Δ T k b n left) (fun v => ?_) ?_
    · cases v with
      | none => exact .rfl fun _ _ _ _ _ hn => Bool.noConfusion hn.1
      | some v =>
        refine (ih.bind_pure _).congr fun _ _ _ _ _ => ?_
        exact ⟨And.right, fun hn => ⟨Eq.refl _, hn⟩⟩
    · intro b v u hv n left
      cases v with
      | none =>
        obtain rfl := readOptional_none.mp hv
        refine iff_of_false not_countInGroups_nil ?_
        rintro (⟨w, u', hb, hw, -⟩ | ⟨hn, -⟩)
        · exact hw (u32ToBe_append_inj hb).1.symm
        · cases hn
      | some v =>
        obtain ⟨w, u', r, rfl, hw, -, hread⟩ := readOptional_some.mp hv
        rw [countInGroups_cons hw.1 (stands_of_read hread)]
        refine or_congr ?_ ⟨fun hn => ⟨Eq.refl _, hn⟩, And.right⟩
        constructor
        · exact fun hn => ⟨w, u', Eq.refl _, hw.1, hn⟩
        · rintro ⟨w', u'', hb, -, hn⟩
          obtain ⟨-, rfl⟩ := u32ToBe_append_inj hb
          exact hn

theorem readVec_guarded (hr : ∀ r < room, Consults P Δ r) (bound : Option ℕ) (T : Ty) :
    Guarded P.fits (CountIn Δ (.counted (.vec T)))
      (readVec P room (fun r _ => read P Δ r) bound T)
      (readVec P.wire room (fun r _ => read P.wire Δ r) bound T) := by
  rintro b ⟨vs, t⟩
  rw [readVec_ok, readVec_ok]
  have helems : ∀ n, Guarded P.fits (CountInFields Δ (List.replicate n T))
      (level P.limit room fun r _ => repeatN (read P Δ r T) n)
      (level P.wire.limit room fun r _ => repeatN (read P.wire Δ r T) n) := by
    intro n
    refine Guarded.level fun r h => ?_
    rw [repeatN_eq, repeatN_eq]
    exact readFields_guarded (hr r h) _
  constructor
  · rintro ⟨w, u, rfl, hmax, hfits, h⟩
    obtain ⟨hwire, hall⟩ := (helems _ u (vs, t)).mp h
    refine ⟨⟨w, u, Eq.refl _, hmax, Eq.refl _, hwire⟩, fun n left hn => ?_⟩
    rcases countIn_vec_iff.mp hn with ⟨rfl, rfl⟩ | hn
    · exact hfits
    · exact hall n left hn
  · rintro ⟨⟨w, u, rfl, hmax, -, hwire⟩, hall⟩
    refine ⟨w, u, Eq.refl _, hmax, hall _ _ (.count (Eq.refl _)),
      (helems _ u (vs, t)).mpr ⟨hwire, ?_⟩⟩
    exact fun n left hn => hall n left (countIn_vec_iff.mpr (.inr hn))

/-- A value that is not made of others, and is no list, has no counts. -/
theorem not_countIn {T : Ty} {b : Bytes} {n left : ℕ} (hT : ∀ ts u, ¬ MadeOf Δ b T ts u)
    (hvec : ∀ t, T ≠ .counted (.vec t)) (hlist : ∀ t, T ≠ .listRef t) : ¬ CountIn Δ T b n left := by
  intro h
  cases h with
  | count hb => exact hvec _ (Eq.refl _)
  | field hm hf hc => exact hT _ _ hm
  | element hg hc => exact hlist _ (Eq.refl _)

theorem readCounted_guarded (hr : ∀ r < room, Consults P Δ r) (bound : Option ℕ)
    (C : CountedTy Ty) :
    Guarded P.fits (CountIn Δ (.counted C)) (readCounted P room (fun r _ => read P Δ r) bound C)
      (readCounted P.wire room (fun r _ => read P.wire Δ r) bound C) := by
  cases C with
  | vec T => exact (readVec_guarded hr bound T).map _
  | varArrayRef T =>
    refine Guarded.level fun r h => ?_
    exact (((readVec_guarded (fun r' h' => hr r' (h'.trans h)) bound T).span
      (readVec_advances P Δ r bound T) (readVec_advances P.wire Δ r bound T)).bind_pure _).congr
        fun _ _ _ _ _ => (countIn_iff (by nofun) .arrayRef).trans countInFields_single
  | _ => exact .rfl fun _ _ _ _ _ => not_countIn (by nofun) (by nofun) (by nofun)

/-- The counts of the variant with this tag. -/
def CountInVariant (Δ : Decls) (e : SerdeEnum) (tag : UInt32) (u : Bytes) (n left : ℕ) : Prop :=
  ∃ var, e.variants[tag.toNat]? = some var ∧ CountInFields Δ var.fields u n left

theorem readVariant_guarded (h : Consults P Δ r) (e : SerdeEnum) (tag : UInt32) :
    Guarded P.fits (CountInVariant Δ e tag) (readVariant (read P Δ r) e tag)
      (readVariant (read P.wire Δ r) e tag) := by
  rw [readVariant, readVariant]
  split
  · exact .rfl fun _ _ hx => absurd hx run_throw_ne_ok
  · next var hvar =>
    refine ((readFields_guarded h var.fields).map _).congr fun _ _ _ _ _ => ?_
    constructor
    · rintro ⟨var', hvar', hn⟩
      cases hvar.symm.trans hvar'
      exact hn
    · exact fun hn => ⟨var, hvar, hn⟩

/-- The counts of the arm with this discriminant. -/
def CountInArm (Δ : Decls) (un : XdrUnion) (tag : Int32) (u : Bytes) (n left : ℕ) : Prop :=
  (∃ i arm, un.armOf tag = some (i, arm) ∧ CountInFields Δ arm.fields u n left) ∨
    un.armOf tag = none ∧ ∃ dt ts, un.default = some (dt, ts) ∧ CountInFields Δ ts u n left

theorem readArm_guarded (h : Consults P Δ r) (un : XdrUnion) (tag : Int32) :
    Guarded P.fits (CountInArm Δ un tag) (readArm (read P Δ r) un tag)
      (readArm (read P.wire Δ r) un tag) := by
  cases harm : un.armOf tag with
  | some x =>
    obtain ⟨i, arm⟩ := x
    simp only [readArm, harm]
    refine ((readFields_guarded h arm.fields).map _).congr fun _ _ _ _ _ => ?_
    simp [CountInArm, harm]
  | none =>
    cases hdef : un.default with
    | none =>
      simp only [readArm, harm, hdef]
      exact .rfl fun _ _ hx => absurd hx run_throw_ne_ok
    | some x =>
      obtain ⟨dt, ts⟩ := x
      simp only [readArm, harm, hdef]
      -- the discriminant is not read a second time
      refine (Guarded.rfl (E := fun _ _ _ => False) fun _ _ _ _ _ => id).bind
        (fun d => (readFields_guarded h ts).bind_pure _) fun b d u hd n left => ?_
      obtain rfl : b = u := by
        cases dt with
        | i32 => exact (run_pure_ok.mp hd).2
        | xdrEnum e => exact (XdrEnum.read_ok.mp hd).choose_spec.2.2
      simp [CountInArm, harm, hdef]

theorem readNamed_guarded (hr : ∀ r < room, Consults P Δ r) (name : ℕ) :
    Guarded P.fits (CountIn Δ (.named name)) (readNamed P room (fun r _ => read P Δ r) (Δ name))
      (readNamed P.wire room (fun r _ => read P.wire Δ r) (Δ name)) := by
  cases hd : Δ name with
  | newtypeStruct T =>
    exact (Guarded.level fun r h => (hr r h T).map _).congr
      fun _ _ _ _ _ => (countIn_iff (by nofun) (.newtypeStruct hd)).trans countInFields_single
  | tupleStruct ts =>
    exact (Guarded.level fun r h => (readFields_guarded (hr r h) ts).map _).congr
      fun _ _ _ _ _ => countIn_iff (by nofun) (.tupleStruct hd)
  | struct ts =>
    exact (Guarded.level fun r h => (readFields_guarded (hr r h) ts).map _).congr
      fun _ _ _ _ _ => countIn_iff (by nofun) (.struct hd)
  | enum e =>
    refine (Guarded.rfl (E := fun _ _ _ => False) fun _ _ _ _ _ => id).bind
      (fun tag => Guarded.level fun r h => readVariant_guarded (hr r h) e tag)
      fun b tag u hb n left => ?_
    obtain rfl := word_ok.mp hb
    rw [false_or]
    constructor
    · intro hn
      cases hn with
      | field hm hf hc =>
        cases hm with
        | variant hd' hb hvar =>
          obtain ⟨rfl, rfl⟩ := u32ToBe_append_inj hb
          cases hd.symm.trans hd'
          exact ⟨_, hvar, _, _, hf, hc⟩
        | newtypeStruct hd' | tupleStruct hd' | struct hd' | arm hd' | default hd' =>
          cases hd.symm.trans hd'
    · rintro ⟨var, hvar, T', b', hf, hc⟩
      exact .field (.variant hd (Eq.refl _) hvar) hf hc
  | xdrUnion un =>
    refine Guarded.level fun r h => ?_
    refine ((Guarded.rfl (E := fun _ _ _ => False) fun _ _ _ _ _ => id).map _).bind
      (fun tag => readArm_guarded (hr r h) un tag) fun b tag u hb n left => ?_
    obtain ⟨w, hw, rfl⟩ := run_map_ok.mp hb
    obtain rfl := word_ok.mp hw
    rw [false_or]
    constructor
    · intro hn
      cases hn with
      | field hm hf hc =>
        cases hm with
        | arm hd' hb harm =>
          obtain ⟨rfl, rfl⟩ := u32ToBe_append_inj hb
          cases hd.symm.trans hd'
          exact .inl ⟨_, _, harm, _, _, hf, hc⟩
        | default hd' hb harm hdef =>
          obtain ⟨rfl, rfl⟩ := u32ToBe_append_inj hb
          cases hd.symm.trans hd'
          exact .inr ⟨harm, _, _, hdef, _, _, hf, hc⟩
        | newtypeStruct hd' | tupleStruct hd' | struct hd' | variant hd' =>
          cases hd.symm.trans hd'
    · rintro (⟨i, arm, harm, T', b', hf, hc⟩ | ⟨harm, dt, ts, hdef, T', b', hf, hc⟩)
      · exact .field (.arm hd (Eq.refl _) harm) hf hc
      · exact .field (.default hd (Eq.refl _) harm hdef) hf hc

theorem readShape_guarded (hr : ∀ r < room, Consults P Δ r) (T : Ty) :
    Guarded P.fits (CountIn Δ T) (readShape P Δ room (fun r _ => read P Δ r) T)
      (readShape P.wire Δ room (fun r _ => read P.wire Δ r) T) := by
  cases T with
  | counted C => exact readCounted_guarded hr none C
  | bounded C max =>
    exact (Guarded.level fun r h =>
      (readCounted_guarded (fun r' h' => hr r' (h'.trans h)) (some max) C).map _).congr
        fun _ _ _ _ _ => (countIn_iff (by nofun) .bounded).trans countInFields_single
  | array T n =>
    exact (Guarded.level fun r h => (readFields_guarded (hr r h) _).map _).congr
      fun _ _ _ _ _ => countIn_iff (by nofun) .array
  | tuple ts =>
    exact (Guarded.level fun r h => (readFields_guarded (hr r h) ts).map _).congr
      fun _ _ _ _ _ => countIn_iff (by nofun) .tuple
  | option T =>
    refine (optional_guarded hr T _ _).congr fun b x hx n left => ?_
    constructor
    · intro hn
      cases hn with
      | field hm hf hc =>
        cases hm with
        | present hb hw => exact ⟨_, _, hb, hw, countInFields_single.mp ⟨_, _, hf, hc⟩⟩
    · rintro ⟨w, u, hb, hw, hn⟩
      exact (countIn_iff (by nofun) (.present hb hw)).mpr (countInFields_single.mpr hn)
  | listRef T =>
    exact (Guarded.level fun r h => Guarded.level fun r' h' =>
      ((chain_guarded (fun r'' h'' => hr r'' ((h''.trans h').trans h)) T usizeMax).span
        (chain_advances (readOption_advances P Δ r' T) usizeMax)
        (chain_advances (readOption_advances P.wire Δ r' T) usizeMax)).bind_pure _).congr
          fun _ _ _ _ _ => countIn_list_iff
  | named id => exact readNamed_guarded hr id
  | fixedOpaque n =>
    exact Guarded.level fun r h => .rfl fun _ _ _ _ _ => not_countIn (by nofun) (by nofun) (by nofun)
  | _ => exact .rfl fun _ _ _ _ _ => not_countIn (by nofun) (by nofun) (by nofun)

end Shapes

/-- **A policy reads what the wire format reads where it admits the counts that stand there.** -/
theorem read_counts (P : Policy) (Δ : Decls) (room : ℕ) : Consults P Δ room := by
  induction room using Nat.strong_induction_on with
  | _ room ih =>
    intro T
    rw [read_eq, read_eq]
    exact readShape_guarded ih T

end Xdr
