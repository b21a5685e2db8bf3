/-
A borrowed list against the optional-data chain of RFC 4506.

On the wire a list is a chain: before each element a boolean that reads true,
and a boolean of 0 behind the last one.  `Chain` says so, with no reference to
what stands around it.  `ListRef` decodes the chain as a tuple of no fixed
length, keeps its bytes, and `ListIter` decodes the elements again from those
bytes alone, in the lenient mode and with no depth limit.

A count inside an element is held to the bytes the deserializer can see, which
the wire format says nothing about.  So the list stands for the chain if and
only if the counts inside its elements are met within the chain
(`ChainCountsWithin`): `listRef_refines_chain_iff`.  How often the counting loop
runs is bounded by the input in any case: `listCountRounds_le`.
-/
import RosUtils.XdrArrayRef

open BigEndian ExceptState

namespace Xdr

/-! ### The iterator -/

/-- `ListIter`: the bytes not yet decoded, and how many elements they hold. -/
structure ListIter where
  rest : Bytes
  left : ℕ

/-- `ListRef::iter`. -/
def iterList (len : ℕ) (encoded : Bytes) : ListIter := ⟨encoded, len⟩

/-- `ListIter::next`: the element, if any, and the iterator after it.  An error ends
the iteration. -/
def ListIter.next (Δ : Decls) (T : Ty) (it : ListIter) :
    Option (Except Fault Value) × ListIter :=
  match it.left with
  | 0 => (none, it)
  | left + 1 =>
    match (optionOf (Ty.deserialize Δ) T).exec (Deserializer.again it.rest) with
    | .ok (some v, de) => (some (.ok v), ⟨de.remaining, left⟩)
    | .ok (none, _) => (some (.error (.error (.eof 0))), ⟨it.rest, 0⟩)
    | .error e => (some (.error e), ⟨it.rest, 0⟩)

/-- What `n` calls of `next` yield, up to the end of the iteration. -/
def ListIter.collect (Δ : Decls) (T : Ty) : ℕ → ListIter → List (Except Fault Value)
  | 0, _ => []
  | n + 1, it =>
    match it.next Δ T with
    | (none, _) => []
    | (some r, it') => r :: ListIter.collect Δ T n it'

/-- Optional data as an iterator decodes it. -/
def readOptionalAgain (Δ : Decls) (T : Ty) : Parser (Option Value) :=
  readOptional (Policy.ofInput .lenient usizeMax) Δ usizeMax T

section Iter

variable {Δ : Decls} {T : Ty}

theorem deserialize_refines (Δ : Decls) (T : Ty) (mode : Strictness) (limit room : ℕ) :
    Refines mode limit room none (T.deserialize Δ)
      (read (Policy.ofInput mode limit) Δ room T) := by
  refine ⟨fun b v t h => ?_, fun d hd => ?_, fun d e d' hd hfail => ?_⟩
  · obtain ⟨c, rfl, -⟩ := read_advances _ _ _ _ h
    exact ⟨c, rfl, one_dvd _⟩
  · rw [deserialize_eq Δ T hd.fixed hd.bound hd.pos, hd.room, hd.mode, hd.limit]
  · have hroom : room ≤ d.maxDepth - d.depth := hd.room.ge
    exact ((deserializeAt_computes Δ _ _ hroom).reads T).depth hd hfail

theorem optionOf_again (rest : Bytes) :
    (optionOf (Ty.deserialize Δ) T).exec (Deserializer.again rest) =
      (Deserializer.again rest).lift ((readOptionalAgain Δ T).run rest) :=
  (optionOf_refines (fun r _ T => deserialize_refines Δ T .lenient usizeMax r) T).run
    ⟨rfl, rfl, rfl, rfl, rfl, Nat.zero_le _⟩

theorem listNext_of_some {rest rest' : Bytes} {v : Value} {left : ℕ}
    (h : (readOptionalAgain Δ T).run rest = .ok (some v, rest')) :
    ListIter.next Δ T ⟨rest, left + 1⟩ = (some (.ok v), ⟨rest', left⟩) := by
  obtain ⟨c, rfl, -⟩ := readOption_advances _ _ _ _ h
  simp only [ListIter.next, optionOf_again, h, Deserializer.lift, again_remaining]

/-- Whatever is not an element ends the iteration with an error. -/
theorem listNext_of_not_some {rest : Bytes} (left : ℕ)
    (h : ∀ v rest', (readOptionalAgain Δ T).run rest ≠ .ok (some v, rest')) :
    ∃ e, ListIter.next Δ T ⟨rest, left + 1⟩ = (some (.error e), ⟨rest, 0⟩) := by
  match hread : (readOptionalAgain Δ T).run rest with
  | .ok (some v, rest') => exact absurd hread (h v rest')
  | .ok (none, rest') =>
    exact ⟨.error (.eof 0), by
      simp only [ListIter.next, optionOf_again, hread, Deserializer.lift]⟩
  | .error e =>
    exact ⟨.error e, by simp only [ListIter.next, optionOf_again, hread, Deserializer.lift]⟩

theorem listCollect_of_some {rest rest' : Bytes} {v : Value} {left : ℕ} (k : ℕ)
    (h : (readOptionalAgain Δ T).run rest = .ok (some v, rest')) :
    ListIter.collect Δ T (k + 1) ⟨rest, left + 1⟩
      = .ok v :: ListIter.collect Δ T k ⟨rest', left⟩ := by
  rw [ListIter.collect, listNext_of_some h]

end Iter

/-! ### The chain on the wire -/

/-- Zero or more groups of a boolean that reads true and an encoding of an element,
and then a boolean of 0. -/
inductive Chain (mode : Strictness) (Encodes : Bytes → Value → Prop) :
    Bytes → List Value → Prop
  | nil : Chain mode Encodes (u32ToBe 0) []
  | cons {w : UInt32} {e c : Bytes} {v : Value} {vs : List Value} (hw : ReadsTrue mode w)
      (he : Encodes e v) (hc : Chain mode Encodes c vs) :
      Chain mode Encodes (u32ToBe w ++ (e ++ c)) (v :: vs)

/-- The bytes `e` are an encoding of the value `v` of the type `T`, nested at most
`room` levels deep, by the wire format alone. -/
def Encodes (Δ : Decls) (mode : Strictness) (room : ℕ) (T : Ty) (e : Bytes) (v : Value) : Prop :=
  (read (Policy.anyCount mode room) Δ room T).run e = .ok (v, [])

section Chain

variable {P : Policy} {Δ : Decls} {T : Ty} {mode : Strictness} {room : ℕ} {b c t : Bytes}
  {vs : List Value}

theorem readOptional_carries {Q : Policy} {s t : Bytes} {room' : ℕ} (hPQ : P.Weaker Q s t)
    (hr : room ≤ room') :
    Carries 4 s t (readOptional P Δ room T) (readOptional Q Δ room' T) :=
  optional_carries hPQ hr (fun _ _ _ _ T hle => read_carries hPQ hle Δ T) T some none

/-- Whether bytes are an encoding does not depend on what stands behind them. -/
theorem encodes_iff {e : Bytes} {v : Value} (t : Bytes) :
    Encodes Δ mode room T e v ↔
      (read (Policy.anyCount mode room) Δ room T).run (e ++ t) = .ok (v, t) := by
  have hw (s u : Bytes) : (Policy.anyCount mode room).Weaker (Policy.anyCount mode room) s u :=
    ⟨id, fun _ _ => id⟩
  constructor
  · intro h
    have hrun := (read_carries (hw [] t) le_rfl Δ T).run (x := e) (u := [])
      (by simpa [Encodes] using h)
    simpa using hrun
  · intro h
    have hrun := (read_carries (hw t []) le_rfl Δ T).run (x := e) (u := []) (by simpa using h)
    simpa [Encodes] using hrun

theorem Chain.length_le {E : Bytes → Value → Prop} (h : Chain mode E c vs) :
    4 * (vs.length + 1) ≤ c.length := by
  induction h with
  | nil => simp
  | cons hw he hc ih =>
    simp only [List.length_cons, List.length_append, u32ToBe_length]
    omega

/-- Reading optional data up to the first absent one reads a chain. -/
theorem chain_iff_run {n : ℕ} (hn : c.length < 4 * n) :
    Chain mode (Encodes Δ mode room T) c vs ↔
      (chain (readOptional (Policy.anyCount mode room) Δ (room + 1) T) n).run c
        = .ok (vs, []) := by
  constructor
  · intro h
    induction h generalizing n with
    | nil =>
      obtain ⟨m, rfl⟩ : ∃ m, n = m + 1 := ⟨n - 1, by omega⟩
      rw [chain, run_bind_of_ok (readOptional_none.mpr (List.append_nil _).symm)]
      rfl
    | @cons w e c v vs hw he hc ih =>
      obtain ⟨m, rfl⟩ : ∃ m, n = m + 1 := ⟨n - 1, by omega⟩
      -- the boolean in front of the element has taken a unit
      have hm : c.length < 4 * m := by
        simp only [List.length_append, u32ToBe_length] at hn
        omega
      rw [chain, run_bind_of_ok (readOptional_some.mpr
        ⟨w, e ++ c, room, rfl, hw, rfl, (encodes_iff c).mp he⟩)]
      dsimp only
      rw [run_bind_of_ok (ih hm)]
      rfl
  · intro h
    induction n generalizing c vs with
    | zero => omega
    | succ n ih =>
      obtain ⟨x, u, hx, htail⟩ := run_bind_ok.mp h
      cases x with
      | none =>
        obtain ⟨rfl, rfl⟩ := run_pure_ok.mp htail
        rw [readOptional_none.mp hx, List.append_nil]
        exact Chain.nil
      | some v =>
        obtain ⟨w, u', r, rfl, hw, hr, hread⟩ := readOptional_some.mp hx
        obtain ⟨vs', u'', hrest, hpure⟩ := run_bind_ok.mp htail
        obtain ⟨rfl, rfl⟩ := run_pure_ok.mp hpure
        cases hr
        obtain ⟨e, rfl, -⟩ := read_advances _ _ _ _ hread
        refine Chain.cons hw ((encodes_iff u).mpr hread) (ih ?_ hrest)
        simp only [List.length_append, u32ToBe_length] at hn
        omega

/-- An iterator that decodes an element of a chain decodes what the chain has there. -/
theorem again_unique (hroom : room + 1 ≤ usizeMax) {w : UInt32} {e u : Bytes} {v v' : Value}
    (he : Encodes Δ mode room T e v)
    (h : (readOptionalAgain Δ T).run (u32ToBe w ++ (e ++ c)) = .ok (some v', u)) :
    v' = v ∧ u = c := by
  obtain ⟨w', u', r, hb, -, hr, hread⟩ := readOptional_some.mp h
  obtain ⟨-, rfl⟩ := List.append_inj hb (by simp)
  have hany (P : Policy) : P.Weaker (Policy.anyCount .lenient usizeMax) [] [] :=
    ⟨nofun, fun _ _ _ => rfl⟩
  have h1 := (read_carries (hany _) (by omega : room ≤ usizeMax) Δ T).run (x := e ++ c) (u := c)
    (by simpa using (encodes_iff c).mp he)
  have h2 := (read_carries (hany _) (by omega : r ≤ usizeMax) Δ T).run (x := e ++ c) (u := u)
    (by simpa using hread)
  rw [h1] at h2
  simpa [eq_comm] using h2

/-- The iterator over a chain yields its elements exactly when the chain decodes again
from its own bytes. -/
theorem collect_chain_iff (hroom : room + 1 ≤ usizeMax)
    (h : Chain mode (Encodes Δ mode room T) c vs) {n : ℕ} (hn : vs.length < n) :
    (∀ k, vs.length ≤ k → ListIter.collect Δ T k ⟨c, vs.length⟩ = vs.map .ok) ↔
      (chain (readOptionalAgain Δ T) n).run c = .ok (vs, []) := by
  induction h generalizing n with
  | nil =>
    obtain ⟨m, rfl⟩ : ∃ m, n = m + 1 := ⟨n - 1, by omega⟩
    have hend : (readOptionalAgain Δ T).run (u32ToBe 0) = .ok (none, []) :=
      readOptional_none.mpr (List.append_nil _).symm
    constructor
    · intro _
      rw [chain, run_bind_of_ok hend]
      rfl
    · intro _ k _
      cases k with
      | zero => rfl
      | succ k => simp only [ListIter.collect, ListIter.next, List.length_nil, List.map_nil]
  | @cons w e c v vs hw he hc ih =>
    rw [List.length_cons] at hn
    obtain ⟨m, rfl⟩ : ∃ m, n = m + 1 := ⟨n - 1, by omega⟩
    have ihm := ih (n := m) (by omega)
    constructor
    · intro hiter
      -- an element that is not decoded again ends the iteration with an error
      by_cases hsome : ∃ v' u, (readOptionalAgain Δ T).run (u32ToBe w ++ (e ++ c))
          = .ok (some v', u)
      · obtain ⟨v', u, hread⟩ := hsome
        obtain ⟨rfl, rfl⟩ := again_unique hroom he hread
        have htail : ∀ k, vs.length ≤ k →
            ListIter.collect Δ T k ⟨u, vs.length⟩ = vs.map .ok := by
          intro k hk
          have hall := hiter (k + 1) (Nat.succ_le_succ hk)
          rw [List.length_cons, listCollect_of_some k hread, List.map_cons] at hall
          exact List.tail_eq_of_cons_eq hall
        rw [chain, run_bind_of_ok hread]
        dsimp only
        rw [run_bind_of_ok (ihm.mp htail)]
        rfl
      · obtain ⟨err, hnext⟩ := listNext_of_not_some vs.length
          fun v' u hread => hsome ⟨v', u, hread⟩
        have hfirst := hiter (vs.length + 1) le_rfl
        rw [List.length_cons, ListIter.collect, hnext, List.map_cons] at hfirst
        cases hfirst
    · intro hrun k hk
      obtain ⟨x, u, hread, htail⟩ := run_bind_ok.mp hrun
      cases x with
      | none =>
        cases run_pure_ok.mp htail with
        | intro hvs _ => cases hvs
      | some v' =>
        obtain ⟨rfl, rfl⟩ := again_unique hroom he hread
        obtain ⟨vs', u', hrest, hpure⟩ := run_bind_ok.mp htail
        obtain ⟨hvs, rfl⟩ := run_pure_ok.mp hpure
        cases hvs
        rw [List.length_cons] at hk
        obtain ⟨j, rfl⟩ : ∃ j, k = j + 1 := ⟨k - 1, by omega⟩
        rw [List.length_cons, listCollect_of_some j hread, ihm.mpr hrest j (by omega),
          List.map_cons]

end Chain

/-! ### How often the counting loop runs -/

/-- How many elements, present or absent, the counting loop decodes before it ends. -/
def listCountRounds (element : De (Option Value)) : ℕ → Deserializer → ℕ
  | 0, _ => 0
  | n + 1, d =>
    match element.exec d with
    | .ok (some _, d') => listCountRounds element n d' + 1
    | .ok (none, _) => 1
    | .error _ => 0

/-- The state in which a borrowed list at the front of `b` starts to count: inside the
tuple struct and the tuple, with the start of the list marked. -/
def listStart (b : Bytes) (mode : Strictness) (maxDepth : ℕ) : Deserializer :=
  { (Deserializer.new b mode).withMaxDepth maxDepth with depth := 2, spanStart := some 0 }

/-- Every round takes a boolean, whatever its element takes. -/
theorem listCountRounds_le {mode : Strictness} {limit room : ℕ} {element : De (Option Value)}
    {Δ : Decls} {T : Ty}
    (h : Refines mode limit room none element
      (readOptional (Policy.ofInput mode limit) Δ room T))
    (n : ℕ) {d : Deserializer} (hd : Clear mode limit room none d) :
    listCountRounds element n d ≤ d.remaining.length / 4 := by
  induction n generalizing d with
  | zero => exact Nat.zero_le _
  | succ n ih =>
    rw [listCountRounds, h.run hd]
    match hread : (readOptional (Policy.ofInput mode limit) Δ room T).run d.remaining with
    | .error e => exact Nat.zero_le _
    | .ok (none, rest) =>
      have hlen := congrArg List.length (readOptional_none.mp hread)
      simp only [List.length_append, u32ToBe_length] at hlen
      show 1 ≤ _
      omega
    | .ok (some v, rest) =>
      obtain ⟨w, u, r, hb, -, -, helem⟩ := readOptional_some.mp hread
      obtain ⟨e, rfl, -⟩ := read_advances _ _ _ _ helem
      have hrest : (d.advanced rest).remaining = rest :=
        Deserializer.remaining_advanced (c := u32ToBe w ++ e) (by simp [hb])
      have hle := ih (hd.advanced rest)
      rw [hrest] at hle
      have hlen := congrArg List.length hb
      simp only [List.length_append, u32ToBe_length] at hlen
      show listCountRounds element n (d.advanced rest) + 1 ≤ _
      omega

/-! ### The list stands for the chain -/

/-- A borrowed list, decoded three levels above its elements, stands for the chain at the
front of `b`: it decodes when there is one, takes exactly that, its iterator yields the
elements, and the counting loop is bounded by the input. -/
structure ListRefRefinesChain (Δ : Decls) (T : Ty) (mode : Strictness) (room : ℕ) (b : Bytes) :
    Prop where
  decodes : (∃ r, decodeAs Δ (.listRef T) mode (room + 3) b = .ok r) ↔
    ∃ c t vs, b = c ++ t ∧ Chain mode (Encodes Δ mode room T) c vs
  agrees : ∀ c t vs, b = c ++ t → Chain mode (Encodes Δ mode room T) c vs →
    ∀ v d, decodeAs Δ (.listRef T) mode (room + 3) b = .ok (v, d) →
      v = .listRef vs.length c ∧ d.remaining = t ∧
        ∀ n, vs.length ≤ n → (iterList vs.length c).collect Δ T n = vs.map .ok
  rounds : listCountRounds (optionOf (deserializeAt Δ (room + 2)) T) usizeMax
    (listStart b mode (room + 3)) ≤ b.length / 4

/-- When a chain `c` stands at the front of `b`, every count inside one of its elements is at
most a quarter of the bytes between it and the end of the chain. -/
def ChainCountsWithin (Δ : Decls) (T : Ty) (mode : Strictness) (room : ℕ) (b : Bytes) : Prop :=
  ∀ c t vs, b = c ++ t → Chain mode (Encodes Δ mode room T) c vs →
    ∀ n left, CountInGroups Δ T usizeMax b n left → n ≤ (left - t.length) / bytesPerXdrUnit

section Refines

variable {Δ : Decls} {T : Ty} {mode : Strictness} {room : ℕ} {b c t : Bytes} {vs : List Value}

theorem decodeAs_listRef {v : Value} {d : Deserializer} :
    decodeAs Δ (.listRef T) mode (room + 3) b = .ok (v, d) ↔
      ∃ t vs c, (chain (readOptional (Policy.ofInput mode (room + 3)) Δ (room + 1) T)
          usizeMax).run b = .ok (vs, t) ∧
        b = c ++ t ∧ v = .listRef vs.length c ∧
        d = ((Deserializer.new b mode).withMaxDepth (room + 3)).advanced t := by
  rw [decodeAs_ok]
  constructor
  · rintro ⟨t, h, rfl⟩
    obtain ⟨r, vs, c, hr, hchain, hb, rfl⟩ := readListRef_ok.mp h
    obtain rfl : r = room + 1 := by omega
    exact ⟨t, vs, c, hchain, hb, rfl, rfl⟩
  · rintro ⟨t, vs, c, hchain, hb, rfl, rfl⟩
    exact ⟨t, readListRef_ok.mpr ⟨room + 1, vs, c, rfl, hchain, hb, rfl⟩, rfl⟩

theorem length_lt_of_le_usizeMax (h : (c ++ t).length ≤ usizeMax) : c.length < 4 * usizeMax := by
  have hpos : 0 < usizeMax := by decide
  rw [List.length_append] at h
  omega

/-- What the codec reads is a chain on the wire. -/
theorem chain_of_run (hlen : (c ++ t).length ≤ usizeMax)
    (h : (chain (readOptional (Policy.ofInput mode (room + 3)) Δ (room + 1) T) usizeMax).run
      (c ++ t) = .ok (vs, t)) :
    Chain mode (Encodes Δ mode room T) c vs := by
  have hw : (Policy.ofInput mode (room + 3)).Weaker (Policy.anyCount mode room) t [] :=
    ⟨id, fun _ _ _ => rfl⟩
  have hrun := (chain_carries (readOptional_carries (T := T) (Δ := Δ) hw (le_refl (room + 1)))
    usizeMax).run (x := c) (u := []) (by simpa using h)
  exact (chain_iff_run (length_lt_of_le_usizeMax hlen)).mpr (by simpa using hrun)

/-- A chain is read off the wire whatever stands behind it. -/
theorem wire_of_chain (hlen : (c ++ t).length ≤ usizeMax)
    (h : Chain mode (Encodes Δ mode room T) c vs) :
    (chain (readOptional (Policy.anyCount mode room) Δ (room + 1) T) usizeMax).run (c ++ t)
      = .ok (vs, t) := by
  have hw : (Policy.anyCount mode room).Weaker (Policy.anyCount mode room) [] t :=
    ⟨id, fun _ _ => id⟩
  have hrun := (chain_carries (readOptional_carries (T := T) (Δ := Δ) hw (le_refl (room + 1)))
    usizeMax).run (x := c) (u := [])
    (by simpa using (chain_iff_run (length_lt_of_le_usizeMax hlen)).mp h)
  simpa using hrun

/-- A chain whose counts are admitted is what a policy of the same mode reads. -/
theorem run_iff_of_chain (P : Policy) (hmode : P.mode = .strict → mode = .strict) {r : ℕ}
    (hroom : room < r) (hlen : (c ++ t).length ≤ usizeMax)
    (h : Chain mode (Encodes Δ mode room T) c vs) :
    (chain (readOptional P Δ r T) usizeMax).run (c ++ t) = .ok (vs, t) ↔
      ∀ n left, CountInGroups Δ T usizeMax (c ++ t) n left → P.fits n left = true := by
  have hw : (Policy.anyCount mode room).Weaker P.wire [] [] := ⟨hmode, fun _ _ _ => rfl⟩
  have hwire := (chain_carries (readOptional_carries (T := T) (Δ := Δ) hw hroom) usizeMax).run
    (x := c ++ t) (u := t) (by simpa using wire_of_chain hlen h)
  rw [List.append_nil, List.append_nil] at hwire
  rw [chain_guarded (fun r _ => read_counts P Δ r) T usizeMax (c ++ t) (vs, t)]
  exact and_iff_right hwire

/-- The chain decodes again from its own bytes exactly when its counts are met there. -/
theorem chainAgain_iff :
    (chain (readOptionalAgain Δ T) usizeMax).run c = .ok (vs, []) ↔
      (chain (readOptional (Policy.before .lenient usizeMax t.length) Δ usizeMax T) usizeMax).run
        (c ++ t) = .ok (vs, t) := by
  constructor
  · intro h
    have hw := Policy.ofInput_weaker_before .lenient usizeMax t
    have hrun := (chain_carries (readOptional_carries (T := T) (Δ := Δ) hw (le_refl usizeMax))
      usizeMax).run (x := c) (u := []) (by simpa [readOptionalAgain] using h)
    simpa using hrun
  · intro h
    have hw := Policy.before_weaker_ofInput .lenient usizeMax t
    have hrun := (chain_carries (readOptional_carries (T := T) (Δ := Δ) hw (le_refl usizeMax))
      usizeMax).run (x := c) (u := []) (by simpa using h)
    simpa [readOptionalAgain] using hrun

theorem Chain.length_lt_usizeMax {E : Bytes → Value → Prop} (h : Chain mode E c vs)
    (hlen : (c ++ t).length ≤ usizeMax) : vs.length < usizeMax := by
  have := h.length_le
  rw [List.length_append] at hlen
  omega

/-- The counting loop of a decode from the front of `b`. -/
theorem listStart_rounds (Δ : Decls) (T : Ty) (mode : Strictness) (room : ℕ) (b : Bytes) :
    listCountRounds (optionOf (deserializeAt Δ (room + 2)) T) usizeMax
      (listStart b mode (room + 3)) ≤ b.length / 4 := by
  have hopt : Refines mode (room + 3) (room + 1) none (optionOf (deserializeAt Δ (room + 2)) T)
      (readOptional (Policy.ofInput mode (room + 3)) Δ (room + 1) T) :=
    optionOf_refines (fun r hr T => (deserializeAt_computes Δ (room + 2) r (by omega)).reads T) T
  exact listCountRounds_le hopt usizeMax ⟨rfl, rfl, rfl, rfl, rfl, Nat.zero_le _⟩

end Refines

/-- **A borrowed list stands for the optional-data chain exactly when the counts inside
its elements are met within it.**  A depth limit and the length of an input are `usize`s. -/
theorem listRef_refines_chain_iff (Δ : Decls) (T : Ty) (mode : Strictness) (room : ℕ) (b : Bytes)
    (hd : room + 3 ≤ usizeMax) (hlen : b.length ≤ usizeMax) :
    ListRefRefinesChain Δ T mode room b ↔ ChainCountsWithin Δ T mode room b := by
  constructor
  · intro h c t vs hb hchain
    subst hb
    obtain ⟨⟨v, d⟩, hdec⟩ := h.decodes.mpr ⟨c, t, vs, rfl, hchain⟩
    obtain ⟨-, -, hiter⟩ := h.agrees c t vs rfl hchain v d hdec
    have hbefore := (chainAgain_iff (t := t)).mp
      ((collect_chain_iff (by omega) hchain (hchain.length_lt_usizeMax hlen)).mp hiter)
    have hfits := (run_iff_of_chain _ (by nofun) (by omega) hlen hchain).mp hbefore
    exact fun n left hn => of_decide_eq_true (hfits n left hn)
  · intro h
    -- a count that is met within the chain is met within the input
    have hrun : ∀ c t vs, b = c ++ t → Chain mode (Encodes Δ mode room T) c vs →
        (chain (readOptional (Policy.ofInput mode (room + 3)) Δ (room + 1) T) usizeMax).run b
          = .ok (vs, t) := by
      rintro c t vs rfl hchain
      refine (run_iff_of_chain _ id (Nat.lt_succ_self room) hlen hchain).mpr fun n left hn => ?_
      have hle := h c t vs rfl hchain n left hn
      exact decide_eq_true (hle.trans (Nat.div_le_div_right (Nat.sub_le _ _)))
    refine ⟨⟨?_, ?_⟩, ?_, listStart_rounds Δ T mode room b⟩
    · rintro ⟨⟨v, d⟩, hdec⟩
      obtain ⟨t, vs, c, hrun, rfl, -⟩ := decodeAs_listRef.mp hdec
      exact ⟨c, t, vs, rfl, chain_of_run hlen hrun⟩
    · rintro ⟨c, t, vs, rfl, hchain⟩
      exact ⟨_, decodeAs_listRef.mpr ⟨t, vs, c, hrun c t vs rfl hchain, rfl, rfl, rfl⟩⟩
    · rintro c t vs rfl hchain v d hdec
      obtain ⟨t', vs', c', hrun', hb, rfl, rfl⟩ := decodeAs_listRef.mp hdec
      rw [hrun c t vs rfl hchain] at hrun'
      cases hrun'
      obtain rfl := List.append_cancel_right hb
      have hbefore := (run_iff_of_chain (Policy.before .lenient usizeMax t.length) nofun
        (by omega : room < usizeMax) hlen hchain).mpr
          fun n left hn => decide_eq_true (h c t vs rfl hchain n left hn)
      exact ⟨rfl, new_advanced_remaining rfl _ _,
        (collect_chain_iff (by omega) hchain (hchain.length_lt_usizeMax hlen)).mpr
          (chainAgain_iff.mpr hbefore)⟩

/-- A chain of one vector of five unit values. -/
def unitVecChain : Bytes := [0, 0, 0, 1, 0, 0, 0, 5, 0, 0, 0, 0]

/-- What the encoder writes for five unit values. -/
theorem encodes_units : Encodes nodeDecls .strict 8 (.counted (.vec .unit)) [0, 0, 0, 5]
    (.seq (List.replicate 5 .unit)) := by
  rw [Encodes, read_eq]
  refine run_map_of_ok (readVec_ok.mpr ⟨5, [], rfl, nofun, rfl, level_ok.mpr
    ⟨7, by decide, rfl, ?_⟩⟩)
  rw [read_eq]
  rfl

/-- In front of sixteen bytes more the list decodes, but its iterator, which no longer sees
them, yields an error. -/
theorem listRef_of_unit_vec_breaks :
    ¬ ListRefRefinesChain nodeDecls (.counted (.vec .unit)) .strict 8
      (unitVecChain ++ List.replicate 16 0) := by
  intro h
  have htrue : ReadsTrue .strict 1 := ⟨by decide, fun _ => rfl⟩
  have hchain := Chain.cons htrue encodes_units Chain.nil
  obtain ⟨-, -, hiter⟩ := h.agrees unitVecChain _ _ rfl hchain (.listRef 1 unitVecChain) _ rfl
  have hfirst := hiter 1 le_rfl
  have hfail : (iterList 1 unitVecChain).collect nodeDecls (.counted (.vec .unit)) 1
      = [.error (.error (.eof 16))] := rfl
  rw [List.length_singleton, hfail] at hfirst
  cases hfirst

/-- A list of words has no count inside an element. -/
theorem listRef_refines_chain_words :
    ListRefRefinesChain nodeDecls .u32 .strict 8 [0, 0, 0, 1, 0, 0, 0, 7, 0, 0, 0, 0, 9] := by
  refine (listRef_refines_chain_iff nodeDecls .u32 .strict 8 _ (by decide) (by decide)).mpr ?_
  rintro c t vs - - n left ⟨e, -, hc⟩
  exact absurd hc (not_countIn nofun nofun nofun)

end Xdr
