/-
Borrowed arrays and lists built from bytes.

`VarArrayRef::from_encoded` and `ListRef::from_encoded` take bytes that are said
to hold the elements, decode every element once to check that they do, and keep
the bytes.  They run loops of their own, over a new deserializer: it starts at
depth zero under the default limit, where a decode of the same array or list is
two levels down by the time it meets its first element.

So a decode under a limit of two levels more is what they have to agree with,
and they do: `fromEncoded_iff_decode`.  The loop over a list has no bound of its
own; that it ends is `listLoop_run`, where the fuel is a round for every
unit of the bytes left and one more.
-/
import RosUtils.XdrListRef

open BigEndian ExceptState

namespace Xdr

/-! ### The two constructors -/

/-- Decode and drop `n` elements. -/
def VarArrayRef.elementsLoop (seed : De Value) : ℕ → De Unit
  | 0 => pure ()
  | n + 1 => do
    let _ ← seed
    VarArrayRef.elementsLoop seed n

/-- `VarArrayRef::from_encoded`. -/
def VarArrayRef.fromEncoded (Δ : Decls) (T : Ty) (len : ℕ) (encoded : Bytes) :
    Except Fault Value :=
  let units := encoded.length / bytesPerXdrUnit
  if len > units then
    .error (.error (.eof (min ((len - units) * bytesPerXdrUnit) usizeMax)))
  else do
    let (_, de) ←
      (VarArrayRef.elementsLoop (T.deserialize Δ) len).exec (Deserializer.new encoded .strict)
    match de.remaining.length with
    | 0 => .ok (.arrayRef len encoded)
    | rest => .error (.error (.trailingBytes rest))

/-- Decode and drop optional elements up to the first absent one, and count them.  The loop
has no bound in the source; running out of fuel is a panic here. -/
def ListRef.listLoop (element : De (Option Value)) : ℕ → ℕ → De ℕ
  | 0, _ => panics
  | fuel + 1, len => do
    match ← element with
    | some _ => ListRef.listLoop element fuel (len + 1)
    | none => pure len

/-- `ListRef::from_encoded`. -/
def ListRef.fromEncoded (Δ : Decls) (T : Ty) (encoded : Bytes) : Except Fault Value := do
  let (len, de) ←
    (ListRef.listLoop (optionOf (Ty.deserialize Δ) T) (encoded.length / bytesPerXdrUnit + 1)
      0).exec (Deserializer.new encoded .strict)
  match de.remaining.length with
  | 0 => .ok (.listRef len encoded)
  | rest => .error (.error (.trailingBytes rest))

variable {Δ : Decls} {T : Ty} {mode : Strictness} {limit room : ℕ}

/-! ### The array -/

theorem elementsLoop_refines {seed : De Value} {p : Parser Value}
    (h : Refines mode limit room none seed p) (n : ℕ) :
    Refines mode limit room none (VarArrayRef.elementsLoop seed n)
      ((fun _ => ()) <$> repeatN p n) := by
  induction n with
  | zero => exact Refines.pure _
  | succ n ih =>
    rw [repeatN, map_bind]
    refine h.bind fun v => ?_
    rw [bind_pure_comp, Functor.map_map]
    exact ih

/-- What is left of the input decides whether a constructor keeps the bytes. -/
theorem kept_iff {v a : Value} {d : Deserializer} {rest : Bytes} (hd : d.remaining = rest) :
    (match d.remaining.length with
      | 0 => (.ok v : Except Fault Value)
      | rest => .error (.error (.trailingBytes rest))) = .ok a ↔ rest = [] ∧ a = v := by
  subst hd
  cases d.remaining with
  | nil =>
    constructor
    · rintro ⟨⟩
      exact ⟨rfl, rfl⟩
    · rintro ⟨-, rfl⟩
      rfl
  | cons x rest =>
    constructor
    · intro h
      cases h
    · rintro ⟨h, -⟩
      cases h

theorem new_clear (e : Bytes) :
    Clear .strict Deserializer.defaultMaxDepth Deserializer.defaultMaxDepth none
      (Deserializer.new e .strict) := ⟨rfl, rfl, rfl, rfl, rfl, Nat.zero_le _⟩

/-- The deserializer of a constructor after `rest` was left. -/
theorem new_remaining {c rest : Bytes} :
    ((Deserializer.new (c ++ rest) .strict).advanced rest).remaining = rest :=
  Deserializer.remaining_advanced rfl

theorem arrayRef_fromEncoded_ok {len : ℕ} {e : Bytes} {a : Value} :
    VarArrayRef.fromEncoded Δ T len e = .ok a ↔
      len ≤ e.length / bytesPerXdrUnit ∧
      (∃ vs, (repeatN (read (Policy.ofInput .strict Deserializer.defaultMaxDepth) Δ
        Deserializer.defaultMaxDepth T) len).run e = .ok (vs, [])) ∧ a = .arrayRef len e := by
  have hloop := (elementsLoop_refines (deserialize_refines Δ T .strict
    Deserializer.defaultMaxDepth Deserializer.defaultMaxDepth) len).run (new_clear e)
  rw [VarArrayRef.fromEncoded]
  by_cases hlen : len > e.length / bytesPerXdrUnit
  · rw [if_pos hlen]
    constructor
    · intro h
      cases h
    · rintro ⟨hle, -⟩
      omega
  rw [if_neg hlen, hloop]
  have hinput : (Deserializer.new e .strict).remaining = e := rfl
  rw [hinput]
  cases hrun : (repeatN (read (Policy.ofInput .strict Deserializer.defaultMaxDepth) Δ
      Deserializer.defaultMaxDepth T) len).run e with
  | error err =>
    rw [run_map_of_error hrun]
    constructor
    · intro h
      cases h
    · rintro ⟨-, ⟨vs, h⟩, -⟩
      cases h
  | ok x =>
    obtain ⟨vs, rest⟩ := x
    obtain ⟨c, rfl, -⟩ := repeatN_advances (read_advances _ Δ _ T) len hrun
    rw [run_map_of_ok hrun]
    refine (kept_iff new_remaining).trans ⟨?_, ?_⟩
    · rintro ⟨rfl, rfl⟩
      exact ⟨Nat.le_of_not_lt hlen, ⟨vs, rfl⟩, rfl⟩
    · rintro ⟨-, ⟨vs', h⟩, rfl⟩
      cases h
      exact ⟨rfl, rfl⟩

/-- Only the error of a depth limit names the limit. -/
theorem repeatN_limit {n : ℕ} {b : Bytes} {x : List Value × Bytes} (limit limit' : ℕ)
    (h : (repeatN (read (Policy.ofInput mode limit) Δ room T) n).run b = .ok x) :
    (repeatN (read (Policy.ofInput mode limit') Δ room T) n).run b = .ok x := by
  have hw : (Policy.ofInput mode limit).Weaker (Policy.ofInput mode limit') [] [] :=
    ⟨id, fun _ _ => id⟩
  have hrun := (repeatN_carries (read_carries hw (le_refl room) Δ T) n).run (x := b) (u := x.2)
    (by simpa using h)
  simpa using hrun

/-- A borrowed array that takes its input whole: the count, and that many elements two
levels down. -/
theorem decode_arrayRef_whole {w : UInt32} {e : Bytes} {a : Value} :
    decode Δ (.counted (.varArrayRef T)) mode (room + 2) (u32ToBe w ++ e) = .ok (a, []) ↔
      w.toNat ≤ e.length / bytesPerXdrUnit ∧
      (∃ vs, (repeatN (read (Policy.ofInput mode (room + 2)) Δ room T) w.toNat).run e
        = .ok (vs, [])) ∧ a = .arrayRef w.toNat e := by
  rw [decode_ok, read_eq]
  constructor
  · intro h
    obtain ⟨r, vs, c, hr, hvec, hc, rfl⟩ := readArrayRef_ok.mp h
    obtain rfl : r = room + 1 := by omega
    obtain ⟨w', u, hb, -, hfits, hlevel⟩ := readVec_ok.mp hvec
    have hword : word.run (u32ToBe w ++ e) = .ok (w, e) := word_ok.mpr rfl
    rw [word_ok.mpr hb] at hword
    cases hword
    obtain ⟨r, hr, hroom, helems⟩ := level_ok.mp hlevel
    obtain rfl : r = room := by omega
    rw [List.append_nil] at hc
    refine ⟨of_decide_eq_true hfits, ⟨vs, helems⟩, ?_⟩
    rw [repeatN_length helems, ← hc]
    exact congrArg _ (List.drop_left' (u32ToBe_length w))
  · rintro ⟨hfits, ⟨vs, helems⟩, rfl⟩
    have hvec : (readVec (Policy.ofInput mode (room + 2)) (room + 1)
        (fun r _ => read (Policy.ofInput mode (room + 2)) Δ r) none T).run (u32ToBe w ++ e)
          = .ok (vs, []) :=
      readVec_ok.mpr ⟨w, e, rfl, nofun, decide_eq_true hfits,
        level_ok.mpr ⟨room, Nat.lt_succ_self room, rfl, helems⟩⟩
    refine readArrayRef_ok.mpr ⟨room + 1, vs, u32ToBe w ++ e, rfl, hvec,
      (List.append_nil _).symm, ?_⟩
    rw [repeatN_length helems]
    exact congrArg _ (List.drop_left' (u32ToBe_length w)).symm

/-! ### The list -/

/-- A round of the loop takes a unit, so that more rounds than there are units change
nothing. -/
theorem chain_enough {P : Policy} {n m : ℕ} {b : Bytes} (hn : b.length < 4 * n) (hm : n ≤ m) :
    (chain (readOptional P Δ room T) n).run b = (chain (readOptional P Δ room T) m).run b := by
  induction n generalizing m b with
  | zero => omega
  | succ n ih =>
    obtain ⟨m, rfl⟩ : ∃ k, m = k + 1 := ⟨m - 1, by omega⟩
    rw [chain, chain]
    cases hread : (readOptional P Δ room T).run b with
    | error e => rw [run_bind_of_error hread, run_bind_of_error hread]
    | ok x =>
      obtain ⟨v, rest⟩ := x
      rw [run_bind_of_ok hread, run_bind_of_ok hread]
      cases v with
      | none => rfl
      | some v =>
        obtain ⟨w, u, r, rfl, -, -, helem⟩ := readOptional_some.mp hread
        obtain ⟨c, rfl, -⟩ := read_advances _ _ _ _ helem
        have hrest : rest.length < 4 * n := by
          simp only [List.length_append, u32ToBe_length] at hn
          omega
        exact run_bind_congr (ih hrest (Nat.le_of_succ_le_succ hm))

/-- **The loop over a list ends**, with the count of the chain or with the chain's error. -/
theorem listLoop_run {element : De (Option Value)} {Δ : Decls} {T : Ty}
    (h : Refines mode limit room none element
      (readOptional (Policy.ofInput mode limit) Δ room T))
    {fuel : ℕ} (len : ℕ) {d : Deserializer} (hd : Clear mode limit room none d)
    (hfuel : d.remaining.length < 4 * fuel) :
    (ListRef.listLoop element fuel len).exec d =
      d.lift (((fun vs => len + vs.length) <$>
        chain (readOptional (Policy.ofInput mode limit) Δ room T) fuel).run d.remaining) := by
  induction fuel generalizing d len with
  | zero => omega
  | succ fuel ih =>
    rw [ListRef.listLoop, chain]
    cases hread : (readOptional (Policy.ofInput mode limit) Δ room T).run d.remaining with
    | error e =>
      obtain ⟨d', hrun, -⟩ := h.run_of_error hd hread
      rw [exec_of_error (run_bind_of_error hrun), run_map_of_error (run_bind_of_error hread)]
      rfl
    | ok x =>
      obtain ⟨v, rest⟩ := x
      rw [exec_bind_of_ok (h.run_of_ok hd hread), map_bind, run_bind_of_ok hread]
      cases v with
      | none => rfl
      | some v =>
        dsimp only
        obtain ⟨w, u, r, hb, -, -, helem⟩ := readOptional_some.mp hread
        obtain ⟨c, rfl, -⟩ := read_advances _ _ _ _ helem
        have hrest : (d.advanced rest).remaining = rest :=
          Deserializer.remaining_advanced (c := u32ToBe w ++ c) (by simp [hb])
        have hshort : (d.advanced rest).remaining.length < 4 * fuel := by
          rw [hb] at hfuel
          rw [hrest]
          simp only [List.length_append, u32ToBe_length] at hfuel
          omega
        rw [ih (len + 1) (hd.advanced rest) hshort, hrest, count_cons]
        cases ((fun vs : List Value => len + 1 + vs.length) <$>
          chain (readOptional (Policy.ofInput mode limit) Δ room T) fuel).run rest <;> rfl

theorem listRef_fromEncoded_ok {e : Bytes} {l : Value} :
    ListRef.fromEncoded Δ T e = .ok l ↔
      ∃ vs, (chain (readOptional (Policy.ofInput .strict Deserializer.defaultMaxDepth) Δ
        Deserializer.defaultMaxDepth T) (e.length / bytesPerXdrUnit + 1)).run e = .ok (vs, []) ∧
        l = .listRef vs.length e := by
  have hopt : Refines .strict Deserializer.defaultMaxDepth Deserializer.defaultMaxDepth none
      (optionOf (Ty.deserialize Δ) T)
      (readOptional (Policy.ofInput .strict Deserializer.defaultMaxDepth) Δ
        Deserializer.defaultMaxDepth T) :=
    optionOf_refines (fun r _ T => deserialize_refines Δ T .strict _ r) T
  have hfuel : e.length < 4 * (e.length / bytesPerXdrUnit + 1) := by
    have : bytesPerXdrUnit = 4 := rfl
    rw [this]
    omega
  have hinput : (Deserializer.new e .strict).remaining = e := rfl
  rw [ListRef.fromEncoded, listLoop_run hopt 0 (new_clear e) hfuel, hinput]
  cases hrun : (chain (readOptional (Policy.ofInput .strict Deserializer.defaultMaxDepth) Δ
      Deserializer.defaultMaxDepth T) (e.length / bytesPerXdrUnit + 1)).run e with
  | error err =>
    rw [run_map_of_error hrun]
    constructor
    · intro h
      cases h
    · rintro ⟨vs, h, -⟩
      cases h
  | ok x =>
    obtain ⟨vs, rest⟩ := x
    obtain ⟨c, rfl, -⟩ := chain_advances (readOption_advances _ Δ _ T) _ hrun
    rw [run_map_of_ok hrun]
    refine (kept_iff new_remaining).trans ⟨?_, ?_⟩
    · rintro ⟨rfl, rfl⟩
      exact ⟨vs, rfl, by rw [Nat.zero_add]⟩
    · rintro ⟨vs', h, rfl⟩
      cases h
      exact ⟨rfl, by rw [Nat.zero_add]⟩

theorem chain_limit {n : ℕ} {b : Bytes} {x : List Value × Bytes} (limit limit' : ℕ)
    (h : (chain (readOptional (Policy.ofInput mode limit) Δ room T) n).run b = .ok x) :
    (chain (readOptional (Policy.ofInput mode limit') Δ room T) n).run b = .ok x := by
  have hw : (Policy.ofInput mode limit).Weaker (Policy.ofInput mode limit') [] [] :=
    ⟨id, fun _ _ => id⟩
  have hrun := (chain_carries (readOptional_carries (T := T) (Δ := Δ) hw (le_refl room)) n).run
    (x := b) (u := x.2) (by simpa using h)
  simpa using hrun

/-- A borrowed list that takes its input whole: a chain two levels down. -/
theorem decode_listRef_whole {e : Bytes} {l : Value} :
    decode Δ (.listRef T) mode (room + 2) e = .ok (l, []) ↔
      ∃ vs, (chain (readOptional (Policy.ofInput mode (room + 2)) Δ room T) usizeMax).run e
        = .ok (vs, []) ∧ l = .listRef vs.length e := by
  rw [decode_ok, readListRef_ok]
  constructor
  · rintro ⟨r, vs, c, hr, hchain, hc, rfl⟩
    obtain rfl : r = room := by omega
    rw [List.append_nil] at hc
    exact ⟨vs, hchain, by rw [hc]⟩
  · rintro ⟨vs, hchain, rfl⟩
    exact ⟨room, vs, e, rfl, hchain, (List.append_nil e).symm, rfl⟩

/-! ### The constructors agree with decoding -/

/-- **`from_encoded` agrees with decoding.**  An array is kept for a count and some bytes
exactly when the count and the bytes behind it are the whole of a strict decode of that
array, and so for a list; the limit of the decode is two levels more than the default.  The
length of a slice is a `usize`. -/
theorem fromEncoded_iff_decode (Δ : Decls) (T : Ty) (e : Bytes) (he : e.length ≤ usizeMax) :
    (∀ len ≤ u32Max, ∀ a, VarArrayRef.fromEncoded Δ T len e = .ok a ↔
      decode Δ (.counted (.varArrayRef T)) .strict 130 (u32ToBe (UInt32.ofNat len) ++ e)
        = .ok (a, [])) ∧
    ∀ l, ListRef.fromEncoded Δ T e = .ok l ↔
      decode Δ (.listRef T) .strict 130 e = .ok (l, []) := by
  have hdepth : (130 : ℕ) = Deserializer.defaultMaxDepth + 2 := rfl
  rw [hdepth]
  constructor
  · intro len hlen a
    have hw : (UInt32.ofNat len).toNat = len := UInt32.toNat_ofNat_of_lt' (Nat.lt_succ_of_le hlen)
    rw [arrayRef_fromEncoded_ok, decode_arrayRef_whole, hw]
    constructor
    · rintro ⟨hfits, ⟨vs, h⟩, ha⟩
      exact ⟨hfits, ⟨vs, repeatN_limit _ _ h⟩, ha⟩
    · rintro ⟨hfits, ⟨vs, h⟩, ha⟩
      exact ⟨hfits, ⟨vs, repeatN_limit _ _ h⟩, ha⟩
  · intro l
    have hunits : e.length < 4 * (e.length / bytesPerXdrUnit + 1) ∧
        e.length / bytesPerXdrUnit + 1 ≤ usizeMax := by
      have h4 : bytesPerXdrUnit = 4 := rfl
      have hmax : 2 ≤ usizeMax := by decide
      rw [h4]
      omega
    rw [listRef_fromEncoded_ok, decode_listRef_whole, chain_enough hunits.1 hunits.2]
    constructor
    · rintro ⟨vs, h, hl⟩
      exact ⟨vs, chain_limit _ _ h, hl⟩
    · rintro ⟨vs, h, hl⟩
      exact ⟨vs, chain_limit _ _ h, hl⟩

/-- Two words, kept as an array of two and as decoded with the count in front; and a chain of
one, kept whole. -/
theorem fromEncoded_words :
    VarArrayRef.fromEncoded nodeDecls .u32 2 [0, 0, 0, 7, 0, 0, 0, 8]
      = .ok (.arrayRef 2 [0, 0, 0, 7, 0, 0, 0, 8]) ∧
    decode nodeDecls (.counted (.varArrayRef .u32)) .strict 130
        (u32ToBe (UInt32.ofNat 2) ++ [0, 0, 0, 7, 0, 0, 0, 8])
      = .ok (.arrayRef 2 [0, 0, 0, 7, 0, 0, 0, 8], []) ∧
    ListRef.fromEncoded nodeDecls .u32 [0, 0, 0, 1, 0, 0, 0, 7, 0, 0, 0, 0]
      = .ok (.listRef 1 [0, 0, 0, 1, 0, 0, 0, 7, 0, 0, 0, 0]) ∧
    decode nodeDecls (.listRef .u32) .strict 130 [0, 0, 0, 1, 0, 0, 0, 7, 0, 0, 0, 0]
      = .ok (.listRef 1 [0, 0, 0, 1, 0, 0, 0, 7, 0, 0, 0, 0], []) := by
  have harray : VarArrayRef.fromEncoded nodeDecls .u32 2 [0, 0, 0, 7, 0, 0, 0, 8]
      = .ok (.arrayRef 2 [0, 0, 0, 7, 0, 0, 0, 8]) := rfl
  have hlist : ListRef.fromEncoded nodeDecls .u32 [0, 0, 0, 1, 0, 0, 0, 7, 0, 0, 0, 0]
      = .ok (.listRef 1 [0, 0, 0, 1, 0, 0, 0, 7, 0, 0, 0, 0]) := rfl
  exact ⟨harray, ((fromEncoded_iff_decode _ _ _ (by decide)).1 2 (by decide) _).mp harray,
    hlist, ((fromEncoded_iff_decode _ _ _ (by decide)).2 _).mp hlist⟩

end Xdr
