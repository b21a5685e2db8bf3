/-
The deserializer computes `read`.

From a deserializer with nothing pending but perhaps a bound, a decode returns
what `read` returns on the unread bytes.  On success it has moved to the bytes
`read` leaves, has taken the bound, and everything else (the depth, the start
marked for an enclosing array, the mode) is as it was.  On an error it is at least
as deep as it was, so the levels around it can be left.  It never panics.

`Refines` states this for a piece of the deserializer and a piece of `read`.
The rules for sequencing, for a nested level and for the calls that set hidden
state compose it, and the main results are

* `deserializeAt_computes` — the impl of every type, with any fuel that covers
  the levels left;
* `deserialize_eq` — `Ty.deserialize` from any such state;
* `fromPrefixWith_eq`, `fromBytesWith_ok` — the entry points.
-/
import RosUtils.XdrWeaken

open BigEndian ExceptState

namespace Xdr

variable {α β : Type}

/-! ### Where a decode starts and ends -/

/-- The deserializer once all but `rest` is read and the bound is taken. -/
def Deserializer.advanced (d : Deserializer) (rest : Bytes) : Deserializer :=
  { d with pos := d.input.length - rest.length, boundPending := none }

/-- The outcome of a decode from `d`, given the outcome on the bytes. -/
def Deserializer.lift (d : Deserializer) :
    Except Error (α × Bytes) → Except Fault (α × Deserializer)
  | .ok (a, rest) => .ok (a, d.advanced rest)
  | .error e => .error (.error e)

/-- A state a decode may start from: `room` levels are left, and nothing is pending
but `bound`. -/
structure Clear (mode : Strictness) (limit room : ℕ) (bound : Option ℕ) (d : Deserializer) :
    Prop where
  mode : d.mode = mode
  limit : d.maxDepth = limit
  room : d.maxDepth - d.depth = room
  fixed : d.fixedPending = false
  bound : d.boundPending = bound
  pos : d.pos ≤ d.input.length

section Clear

variable {mode : Strictness} {limit room : ℕ} {bound : Option ℕ} {d : Deserializer}

theorem Deserializer.length_remaining (d : Deserializer) :
    d.remaining.length = d.input.length - d.pos := List.length_drop

theorem Clear.advanced (hd : Clear mode limit room bound d) (rest : Bytes) :
    Clear mode limit room none (d.advanced rest) :=
  ⟨hd.mode, hd.limit, hd.room, hd.fixed, rfl, Nat.sub_le _ _⟩

theorem Deserializer.advanced_remaining (hb : d.boundPending = none)
    (hpos : d.pos ≤ d.input.length) : d.advanced d.remaining = d := by
  have hp : d.input.length - d.remaining.length = d.pos := by
    rw [d.length_remaining]
    omega
  rw [Deserializer.advanced, hp, ← hb]

/-- What is unread after a front part has been read. -/
theorem Deserializer.remaining_advanced {c rest : Bytes} (h : d.remaining = c ++ rest) :
    (d.advanced rest).remaining = rest := by
  obtain ⟨front, hin⟩ : ∃ front, d.input = front ++ rest := by
    refine ⟨d.input.take d.pos ++ c, ?_⟩
    rw [List.append_assoc, ← h]
    exact (List.take_append_drop d.pos d.input).symm
  show d.input.drop (d.input.length - rest.length) = rest
  rw [hin, List.length_append, Nat.add_sub_cancel, List.drop_left]

end Clear

/-! ### What a computation returns -/

section Exec

variable {m : De α} {f : α → De β} {d d' : Deserializer} {a : α} {e : Fault}

theorem exec_ok {x : α × Deserializer} : m.exec d = .ok x ↔ m.run d = .ok x :=
  except_mapError_ok

theorem exec_of_error (h : m.run d = .error (e, d')) : m.exec d = .error e := by
  rw [De.exec, h]
  rfl

theorem exists_of_exec_error (h : m.exec d = .error e) : ∃ d', m.run d = .error (e, d') := by
  rw [De.exec] at h
  match hrun : m.run d with
  | .ok x =>
    rw [hrun] at h
    cases h
  | .error (e', d') =>
    rw [hrun] at h
    cases h
    exact ⟨d', rfl⟩

theorem exec_bind_of_ok (h : m.run d = .ok (a, d')) : (m >>= f).exec d = (f a).exec d' := by
  rw [De.exec, run_bind_of_ok h]
  rfl

theorem exec_bind_of_error (h : m.exec d = .error e) : (m >>= f).exec d = .error e := by
  obtain ⟨d', hrun⟩ := exists_of_exec_error h
  exact exec_of_error (run_bind_of_error hrun)

end Exec

/-- `m` decodes what `p` reads, from every clear state; when it fails, it is no less deep than
it was. -/
structure Refines (mode : Strictness) (limit room : ℕ) (bound : Option ℕ) (m : De α)
    (p : Parser α) : Prop where
  adv : Advances 1 p
  run : ∀ ⦃d⦄, Clear mode limit room bound d → m.exec d = d.lift (p.run d.remaining)
  depth : ∀ ⦃d e d'⦄, Clear mode limit room bound d → m.run d = .error (e, d') →
    d.depth ≤ d'.depth

section Rules

variable {mode : Strictness} {limit room : ℕ} {bound : Option ℕ}

theorem Refines.run_of_ok {m : De α} {p : Parser α} (h : Refines mode limit room bound m p)
    {d : Deserializer} (hd : Clear mode limit room bound d) {a : α} {rest : Bytes}
    (hp : p.run d.remaining = .ok (a, rest)) : m.run d = .ok (a, d.advanced rest) := by
  refine exec_ok.mp ?_
  rw [h.run hd, hp]
  rfl

theorem Refines.run_of_error {m : De α} {p : Parser α} (h : Refines mode limit room bound m p)
    {d : Deserializer} (hd : Clear mode limit room bound d) {e : Error}
    (hp : p.run d.remaining = .error e) :
    ∃ d', m.run d = .error (.error e, d') ∧ d.depth ≤ d'.depth := by
  have hexec : m.exec d = .error (.error e) := by
    rw [h.run hd, hp]
    rfl
  obtain ⟨d', hrun⟩ := exists_of_exec_error hexec
  exact ⟨d', hrun, h.depth hd hrun⟩

theorem Refines.pure (a : α) :
    Refines mode limit room none (Pure.pure a : De α) (Pure.pure a) := by
  refine ⟨Advances.pure 1 a, fun d hd => ?_, fun _ _ _ _ h => nomatch h⟩
  show Except.ok (a, d) = .ok (a, d.advanced d.remaining)
  rw [Deserializer.advanced_remaining hd.bound hd.pos]

theorem Refines.fail (e : Error) :
    Refines mode limit room bound (Xdr.fail e : De α) (throw e) :=
  ⟨Advances.throw 1 e, fun _ _ => rfl, fun d _ _ _ h => by cases h; exact le_rfl⟩

/-- Where two computations run alike. -/
theorem Refines.congr {m m' : De α} {p : Parser α} (h : Refines mode limit room bound m p)
    (heq : ∀ d, Clear mode limit room bound d → m'.run d = m.run d) :
    Refines mode limit room bound m' p := by
  refine ⟨h.adv, fun d hd => ?_, fun d e d' hd hrun => h.depth hd (heq d hd ▸ hrun)⟩
  rw [De.exec, heq d hd]
  exact h.run hd

/-- Sequencing; the second part is met only with what the first can read. -/
theorem Refines.bind_of {m : De α} {p : Parser α} {f : α → De β} {g : α → Parser β}
    (hm : Refines mode limit room bound m p)
    (hf : ∀ a, (∃ b t, p.run b = .ok (a, t)) → Refines mode limit room none (f a) (g a)) :
    Refines mode limit room bound (m >>= f) (p >>= g) := by
  refine ⟨fun b r t h => ?_, fun d hd => ?_, fun d e d' hd hfail => ?_⟩
  · obtain ⟨a, u, h1, h2⟩ := run_bind_ok.mp h
    obtain ⟨c, rfl, -⟩ := hm.adv h1
    obtain ⟨c', rfl, -⟩ := (hf a ⟨_, _, h1⟩).adv h2
    exact ⟨c ++ c', by simp, one_dvd _⟩
  · have hrun := hm.run hd
    match hp : p.run d.remaining with
    | .error e =>
      rw [hp] at hrun
      rw [exec_bind_of_error hrun, run_bind_of_error hp]
      rfl
    | .ok (a, rest) =>
      rw [hp] at hrun
      obtain ⟨c, hc, -⟩ := hm.adv hp
      rw [exec_bind_of_ok (exec_ok.mp hrun), run_bind_of_ok hp,
        (hf a ⟨_, _, hp⟩).run (hd.advanced rest), Deserializer.remaining_advanced hc]
      match (g a).run rest with
      | .error e => rfl
      | .ok (b, u) => rfl
  · match hm' : m.run d with
    | .error (e', d₁) =>
      rw [run_bind_of_error hm'] at hfail
      cases hfail
      exact hm.depth hd hm'
    | .ok (a, d₁) =>
      rw [run_bind_of_ok hm'] at hfail
      have hrun := (hm.run hd).symm.trans (exec_ok.mpr hm')
      match hp : p.run d.remaining with
      | .error e' =>
        rw [hp] at hrun
        cases hrun
      | .ok (a', rest) =>
        rw [hp] at hrun
        cases hrun
        exact (hf _ ⟨_, _, hp⟩).depth (d := d.advanced rest) (hd.advanced rest) hfail

theorem Refines.bind {m : De α} {p : Parser α} {f : α → De β} {g : α → Parser β}
    (hm : Refines mode limit room bound m p)
    (hf : ∀ a, Refines mode limit room none (f a) (g a)) :
    Refines mode limit room bound (m >>= f) (p >>= g) :=
  hm.bind_of fun a _ => hf a

theorem Refines.map {m : De α} {p : Parser α} (g : α → β)
    (hm : Refines mode limit room bound m p) :
    Refines mode limit room bound (g <$> m) (g <$> p) := by
  have h := hm.bind fun a => Refines.pure (g a)
  rwa [bind_pure_comp, bind_pure_comp] at h

/-- A test that both sides make. -/
theorem Refines.ite {m m' : De α} {p p' : Parser α} {c : Prop} [Decidable c]
    (h : c → Refines mode limit room bound m p)
    (h' : ¬ c → Refines mode limit room bound m' p') :
    Refines mode limit room bound (if c then m else m') (if c then p else p') := by
  split
  · exact h ‹c›
  · exact h' ‹¬ c›

/-- The mode is the one the decode started with. -/
theorem Refines.get_mode {f : Strictness → De α} {p : Parser α}
    (h : Refines mode limit room bound (f mode) p) :
    Refines mode limit room bound (get >>= fun d => f d.mode) p := by
  refine h.congr fun d hd => ?_
  show (f d.mode).run d = _
  rw [hd.mode]

end Rules

/-! ### Leaves -/

section Leaves

variable {mode : Strictness} {limit room : ℕ} {bound : Option ℕ}

/-- `take` touches the position and nothing else. -/
theorem take_run (n : ℕ) {d : Deserializer} (hpos : d.pos ≤ d.input.length) :
    (take n).run d =
      match (takeN Error.eof n).run d.remaining with
      | .ok (x, rest) => .ok (x, { d with pos := d.input.length - rest.length })
      | .error e => .error (.error e, d) := by
  have hlen := d.length_remaining
  by_cases hn : n ≤ d.remaining.length
  · have hstop : d.pos + n ≤ d.input.length := by omega
    have hx : (takeN Error.eof n).run d.remaining
        = .ok (d.remaining.take n, d.remaining.drop n) := by
      simp only [takeN, StateT.run, if_pos hn]
    have hrest : d.input.length - (d.remaining.drop n).length = d.pos + n := by
      rw [List.length_drop]
      omega
    have hdata : (d.input.take (d.pos + n)).drop d.pos = d.remaining.take n := by
      rw [List.drop_take, Nat.add_sub_cancel_left]
      rfl
    rw [hx]
    simp only [hrest, ← hdata]
    simp [take, slice, StateT.run_bind, hstop, Nat.not_lt.mpr hstop]
    rfl
  · have hshort : d.input.length < d.pos + n := by omega
    have heof : d.pos + n - d.input.length = n - d.remaining.length := by omega
    rw [takeN_error (by omega)]
    simp [take, StateT.run_bind, hshort, heof]
    rfl

theorem take_refines (n : ℕ) :
    Refines mode limit room none (take n) (takeN Error.eof n) := by
  refine ⟨Advances.takeN _ (one_dvd n), fun d hd => ?_, fun d e d' hd hfail => ?_⟩
  · rw [De.exec, take_run n hd.pos]
    match (takeN Error.eof n).run d.remaining with
    | .error e => rfl
    | .ok (x, rest) => simp only [Deserializer.lift, Deserializer.advanced, hd.bound,
        Except.mapError]
  · rw [take_run n hd.pos] at hfail
    split at hfail
    · cases hfail
    · cases hfail
      exact le_rfl

theorem readU32_refines : Refines mode limit room none readU32 word :=
  (take_refines 4).map _

theorem readU64_refines : Refines mode limit room none readU64 dword :=
  (take_refines 8).map _

theorem readPad_refines (len : ℕ) :
    Refines mode limit room none (readPad len) (padding mode len) := by
  have htake : Refines mode limit room none
      (do let pad ← take (pad4 len)
          let d ← get
          if d.mode = .strict ∧ pad.any (· ≠ 0) then fail .nonZeroPadding)
      (padding mode len) := by
    refine (take_refines _).bind fun pad => ?_
    refine Refines.get_mode (f := fun m => if m = .strict ∧ pad.any (· ≠ 0) then
      fail .nonZeroPadding else pure ()) ?_
    exact Refines.ite (fun _ => Refines.fail _) fun _ => Refines.pure _
  rw [readPad]
  split
  · exact htake
  · rename_i h
    -- no padding: the empty take changes nothing
    refine ⟨htake.adv, fun d hd => ?_, fun _ _ _ _ hfail => nomatch hfail⟩
    have hpad : (padding mode len).run d.remaining = .ok ((), d.remaining) :=
      padding_ok.mpr ⟨[], rfl, by simp; omega, fun _ => by simp; omega⟩
    rw [hpad]
    exact (Refines.pure ()).run hd

theorem readFixed_refines (n : ℕ) :
    Refines mode limit room none (readFixed n) (fixedBody mode n) :=
  (take_refines n).bind fun _ => (readPad_refines n).bind fun _ => Refines.pure _

theorem checkBound_run (len : ℕ) (d : Deserializer) :
    (checkBound len).run d =
      match d.boundPending with
      | some max =>
        if len > max then .error (.error (.tooLong len max), { d with boundPending := none })
        else .ok ((), { d with boundPending := none })
      | none => .ok ((), { d with boundPending := none }) := by
  simp only [checkBound, StateT.run_bind, StateT.run_get, StateT.run_set, pure_bind]
  cases d.boundPending with
  | none => rfl
  | some max =>
    dsimp only
    split <;> rfl

/-- Read a length and hold it to the bound that is pending. -/
def readLength : De ℕ := do
  let len ← UInt32.toNat <$> readU32
  checkBound len
  pure len

theorem readLength_run {d : Deserializer} (hpos : d.pos ≤ d.input.length) :
    readLength.run d =
      match (takeN Error.eof 4).run d.remaining with
      | .error e => .error (.error e, d)
      | .ok (x, rest) =>
        let len := (u32OfBe x).toNat
        match d.boundPending with
        | some max =>
          if len > max then .error (.error (.tooLong len max), d.advanced rest)
          else .ok (len, d.advanced rest)
        | none => .ok (len, d.advanced rest) := by
  have htake := take_run 4 hpos
  match hx : (takeN Error.eof 4).run d.remaining with
  | .error e =>
    rw [hx] at htake
    exact run_bind_of_error (run_map_of_error (run_map_of_error htake))
  | .ok (x, rest) =>
    rw [hx] at htake
    have hread := run_map_of_ok (g := UInt32.toNat) (run_map_of_ok (g := u32OfBe) htake)
    rw [readLength, readU32, run_bind_of_ok hread, StateT.run_bind, checkBound_run]
    cases d.boundPending with
    | none => rfl
    | some max =>
      dsimp only
      split <;> rfl

/-- The length of a counted type takes the bound that is pending. -/
theorem readLength_refines (mode : Strictness) (limit room : ℕ) (bound : Option ℕ) :
    Refines mode limit room bound readLength (lengthWord bound) := by
  refine ⟨(lengthWord_carries (s := []) (t := []) bound).adv.one, fun d hd => ?_,
    fun d e d' hd hfail => ?_⟩
  · rw [De.exec, readLength_run hd.pos, hd.bound]
    match hx : (takeN Error.eof 4).run d.remaining with
    | .error e =>
      have hword : (UInt32.toNat <$> word).run d.remaining = .error e :=
        run_map_of_error (run_map_of_error hx)
      rw [lengthWord, run_bind_of_error hword]
      rfl
    | .ok (x, rest) =>
      have hword := run_map_of_ok (g := UInt32.toNat) (run_map_of_ok (g := u32OfBe) hx)
      rw [lengthWord, word, run_bind_of_ok hword]
      cases bound with
      | none => rfl
      | some max =>
        dsimp only
        split <;> rfl
  · rw [readLength_run hd.pos] at hfail
    split at hfail
    · cases hfail
      exact le_rfl
    · dsimp only at hfail
      split at hfail
      · split at hfail <;> cases hfail
        exact le_rfl
      · cases hfail

theorem readOpaque_refines :
    Refines mode limit room bound readOpaque (varBody mode bound) := by
  have h := (readLength_refines mode limit room bound).bind fun len => readFixed_refines len
  simp only [readLength, bind_assoc, pure_bind] at h
  exact h

theorem readBool_refines : Refines mode limit room none readBool (boolean mode) := by
  refine readU32_refines.bind fun w => ?_
  refine Refines.ite (fun _ => Refines.pure _) fun _ => ?_
  refine Refines.ite (fun _ => Refines.pure _) fun _ => ?_
  refine Refines.get_mode (f := fun m => if m = .strict then fail (.invalidBool w)
    else pure true) ?_
  exact Refines.ite (fun _ => Refines.fail _) fun _ => Refines.pure _

theorem readStr_refines : Refines mode limit room bound readStr (text mode bound) := by
  refine readOpaque_refines.bind fun bytes => ?_
  rcases String.fromUTF8? ⟨bytes.toArray⟩ with _ | a
  · exact Refines.fail _
  refine Refines.get_mode (f := fun m => if m = .strict ∧ (0 : UInt8) ∈ bytes then
    fail .embeddedNul else pure a) ?_
  exact Refines.ite (fun _ => Refines.fail _) fun _ => Refines.pure _

theorem narrowSigned_refines (g : ℤ → α) (lo hi : ℤ) :
    Refines mode limit room none (do let w ← readU32; g <$> narrowSigned lo hi w)
      (g <$> signed lo hi) := by
  have h : Refines mode limit room none (readU32 >>= narrowSigned lo hi) (signed lo hi) :=
    readU32_refines.bind fun w =>
      Refines.ite (fun _ => Refines.pure _) fun _ => Refines.fail _
  simpa only [map_bind] using h.map g

theorem narrowUnsigned_refines (g : ℕ → α) (hi : ℕ) :
    Refines mode limit room none (do let w ← readU32; g <$> narrowUnsigned hi w)
      (g <$> unsigned hi) := by
  have h : Refines mode limit room none (readU32 >>= narrowUnsigned hi) (unsigned hi) :=
    readU32_refines.bind fun w =>
      Refines.ite (fun _ => Refines.pure _) fun _ => Refines.fail _
  simpa only [map_bind] using h.map g

theorem deserializeChar_refines :
    Refines mode limit room none deserializeChar scalar := by
  refine readU32_refines.bind fun w => ?_
  split
  · exact Refines.pure _
  · exact Refines.fail _

theorem ofDisc_refines (e : XdrEnum) (disc : Int32) :
    Refines mode limit room none (e.ofDisc disc) (e.read disc) := by
  rw [XdrEnum.ofDisc, XdrEnum.read]
  cases e.discs.idxOf? disc with
  | some i => exact Refines.pure _
  | none => exact Refines.fail _

theorem discOfDisc_refines (dt : DiscTy) (disc : Int32) :
    Refines mode limit room none (dt.ofDisc disc) (dt.read disc) := by
  cases dt with
  | i32 => exact Refines.pure _
  | xdrEnum e => exact ofDisc_refines e disc

end Leaves

/-! ### Levels and loops -/

section Levels

variable {mode : Strictness} {limit room : ℕ} {bound : Option ℕ}

theorem descend_run (d : Deserializer) :
    descend.run d =
      if d.depth + 1 > d.maxDepth then
        .error (.error (.recursionLimit d.maxDepth), { d with depth := d.depth + 1 })
      else .ok ((), { d with depth := d.depth + 1 }) := by
  simp only [descend, StateT.run_bind, StateT.run_modify, StateT.run_get, pure_bind]
  split <;> rfl

theorem ascend_run (d : Deserializer) :
    ascend.run d =
      if d.depth = 0 then .error (.panic, d) else .ok ((), { d with depth := d.depth - 1 }) := by
  simp only [ascend, StateT.run_bind, StateT.run_get, pure_bind]
  split <;> rfl

theorem attempt_of_ok {m : De α} {d d' : Deserializer} {a : α} (h : m.run d = .ok (a, d')) :
    (attempt m).run d = .ok (.ok a, d') := by
  show attempt m d = _
  rw [attempt, h]

theorem attempt_of_error {m : De α} {d d' : Deserializer} {e : Error}
    (h : m.run d = .error (.error e, d')) : (attempt m).run d = .ok (.error e, d') := by
  show attempt m d = _
  rw [attempt, h]

theorem ok_of_attempt {m : De α} {d d' : Deserializer} {a : α}
    (h : (attempt m).run d = .ok (.ok a, d')) : m.run d = .ok (a, d') := by
  replace h : attempt m d = .ok (.ok a, d') := h
  rw [attempt] at h
  match hm : m.run d with
  | .ok (b, d₁) =>
    rw [hm] at h
    cases h
    rfl
  | .error (.error e, d₁) =>
    rw [hm] at h
    cases h
  | .error (.panic, d₁) =>
    rw [hm] at h
    cases h

theorem attempt_congr {m m' : De α} {d d' : Deserializer} (h : m.run d = m'.run d') :
    (attempt m).run d = (attempt m').run d' := by
  show attempt m d = attempt m' d'
  rw [attempt, attempt, h]

section Nested

variable {m : De α} {d d' : Deserializer}

/-- A level that is refused. -/
theorem nested_of_full (hfull : d.depth + 1 > d.maxDepth) :
    (nested m).run d =
      .error (.error (.recursionLimit d.maxDepth), { d with depth := d.depth + 1 }) := by
  have hdescend := descend_run d
  rw [if_pos hfull] at hdescend
  exact run_bind_of_error hdescend

/-- The level is left again when the body fails. -/
theorem nested_of_error {e : Error} (hroom : ¬ d.depth + 1 > d.maxDepth)
    (hm : m.run { d with depth := d.depth + 1 } = .error (.error e, d')) (hpos : d'.depth ≠ 0) :
    (nested m).run d = .error (.error e, { d' with depth := d'.depth - 1 }) := by
  have hdescend := descend_run d
  rw [if_neg hroom] at hdescend
  have hascend := ascend_run d'
  rw [if_neg hpos] at hascend
  rw [nested, run_bind_of_ok hdescend, run_bind_of_ok (attempt_of_error hm), run_bind_of_ok hascend]
  rfl

theorem nested_of_ok {a : α} (hroom : ¬ d.depth + 1 > d.maxDepth)
    (hm : m.run { d with depth := d.depth + 1 } = .ok (a, d')) (hpos : d'.depth ≠ 0) :
    (nested m).run d = .ok (a, { d' with depth := d'.depth - 1 }) := by
  have hdescend := descend_run d
  rw [if_neg hroom] at hdescend
  have hascend := ascend_run d'
  rw [if_neg hpos] at hascend
  rw [nested, run_bind_of_ok hdescend, run_bind_of_ok (attempt_of_ok hm), run_bind_of_ok hascend]
  rfl

/-- Only the body's run one level down matters. -/
theorem nested_congr {m' : De α} (h : m.run { d with depth := d.depth + 1 } =
    m'.run { d with depth := d.depth + 1 }) : (nested m).run d = (nested m').run d := by
  by_cases hfull : d.depth + 1 > d.maxDepth
  · rw [nested_of_full hfull, nested_of_full hfull]
  · have hdescend := descend_run d
    rw [if_neg hfull] at hdescend
    rw [nested, nested, run_bind_of_ok hdescend, run_bind_of_ok hdescend, StateT.run_bind,
      StateT.run_bind, attempt_congr h]

/-- A level that is left with a value had its body succeed there. -/
theorem nested_ok {a : α} (h : (nested m).run d = .ok (a, d')) :
    ∃ d₁, m.run { d with depth := d.depth + 1 } = .ok (a, d₁) ∧
      d' = { d₁ with depth := d₁.depth - 1 } := by
  obtain ⟨_, _, hdescend, h⟩ := run_bind_ok.mp h
  rw [descend_run] at hdescend
  split at hdescend
  · cases hdescend
  cases hdescend
  obtain ⟨out, d₁, hbody, h⟩ := run_bind_ok.mp h
  obtain ⟨_, _, hascend, h⟩ := run_bind_ok.mp h
  rw [ascend_run] at hascend
  split at hascend
  · cases hascend
  cases hascend
  cases out with
  | error e => cases h
  | ok a' =>
    cases h
    exact ⟨d₁, ok_of_attempt hbody, rfl⟩

end Nested

/-- A level deeper, and back. -/
theorem nested_refines {m : De α} {p : (r : ℕ) → r < room → Parser α}
    (h : ∀ r hr, Refines mode limit r bound m (p r hr)) :
    Refines mode limit room bound (nested m) (level limit room p) := by
  have hadv : Advances 1 (level limit room p) := by
    cases room with
    | zero => exact Advances.throw 1 _
    | succ r => exact (h r _).adv
  -- what is returned, and how deep an error leaves the deserializer
  have hrun : ∀ d, Clear mode limit room bound d →
      (nested m).exec d = d.lift ((level limit room p).run d.remaining) ∧
        ∀ e d', (nested m).run d = .error (e, d') → d.depth ≤ d'.depth := by
    intro d hd
    have hl := hd.limit
    have hr := hd.room
    cases room with
    | zero =>
      have hfull := nested_of_full (m := m) (d := d) (by omega)
      rw [exec_of_error hfull, hfull, hl]
      refine ⟨rfl, fun e d' hfail => ?_⟩
      cases hfail
      exact Nat.le_succ _
    | succ r =>
      have hd' : Clear mode limit r bound { d with depth := d.depth + 1 } :=
        ⟨hd.mode, hd.limit, by dsimp only; omega, hd.fixed, hd.bound, hd.pos⟩
      have hroom : ¬ d.depth + 1 > d.maxDepth := by omega
      have hbody := h r (Nat.lt_succ_self r)
      rw [level_succ]
      match hp : (p r (Nat.lt_succ_self r)).run d.remaining with
      | .error e =>
        obtain ⟨d', hm, hdeep⟩ := hbody.run_of_error hd' hp
        replace hdeep : d.depth + 1 ≤ d'.depth := hdeep
        have hnested := nested_of_error hroom hm (by omega)
        rw [exec_of_error hnested, hnested]
        refine ⟨rfl, fun e' d'' hfail => ?_⟩
        cases hfail
        show d.depth ≤ d'.depth - 1
        omega
      | .ok (a, rest) =>
        have hnested := nested_of_ok hroom (hbody.run_of_ok hd' hp) (Nat.succ_ne_zero _)
        rw [exec_ok.mpr hnested, hnested]
        exact ⟨rfl, fun e' d'' hfail => nomatch hfail⟩
  exact ⟨hadv, fun d hd => (hrun d hd).1, fun d e d' hd => (hrun d hd).2 e d'⟩

/-- Enough elements are left for the fields. -/
theorem visitFields_refines {rec : Ty → De Value} {child : Ty → Parser Value}
    (h : ∀ t, Refines mode limit room none (rec t) (child t)) (missing : Error)
    (ts : List Ty) {remaining : ℕ} (hlen : ts.length ≤ remaining) :
    Refines mode limit room none (visitFields rec missing ts remaining)
      (readFields child ts) := by
  induction ts generalizing remaining with
  | nil => exact Refines.pure _
  | cons t ts ih =>
    cases remaining with
    | zero => simp at hlen
    | succ remaining =>
      have hts : ts.length ≤ remaining := by simpa using hlen
      have hstep := (h t).bind fun v => (ih hts).bind fun vs => Refines.pure (v :: vs)
      simpa only [visitFields, nextElement, readFields, bind_assoc, pure_bind] using hstep

theorem vecLoop_refines {seed : De Value} {p : Parser Value}
    (h : Refines mode limit room none seed p) (n : ℕ) :
    Refines mode limit room none (vecLoop seed n) (repeatN p n) := by
  induction n with
  | zero => exact Refines.pure _
  | succ n ih => exact h.bind fun v => ih.bind fun vs => Refines.pure _

/-- Counting from `len` with one more element in front. -/
theorem count_cons (x : Parser (List Value)) (v : Value) (len : ℕ) :
    (fun vs : List Value => len + vs.length) <$> (x >>= fun vs => pure (v :: vs))
      = (fun vs => len + 1 + vs.length) <$> x := by
  rw [bind_pure_comp, Functor.map_map]
  congr 1
  funext vs
  rw [List.length_cons]
  omega

theorem elementCountLoop_refines {seed : De Value} {p : Parser Value}
    (h : Refines mode limit room none seed p) (n len : ℕ) :
    Refines mode limit room none (elementCountLoop seed n len)
      ((fun vs => len + vs.length) <$> repeatN p n) := by
  induction n generalizing len with
  | zero => exact Refines.pure _
  | succ n ih =>
    rw [repeatN, map_bind]
    refine h.bind fun v => ?_
    rw [count_cons]
    exact ih (len + 1)

theorem listCountLoop_refines {element : De (Option Value)} {p : Parser (Option Value)}
    (h : Refines mode limit room none element p) (n len : ℕ) :
    Refines mode limit room none (listCountLoop element n len)
      ((fun vs => len + vs.length) <$> chain p n) := by
  induction n generalizing len with
  | zero => exact Refines.pure _
  | succ n ih =>
    rw [chain, map_bind]
    refine h.bind fun v => ?_
    cases v with
    | none => exact Refines.pure _
    | some v =>
      dsimp only
      rw [count_cons]
      exact ih (len + 1)

end Levels

/-! ### The calls that set hidden state -/

section Calls

variable {mode : Strictness} {limit room : ℕ} {bound : Option ℕ}

/-- A bound set for the length that comes next. -/
theorem setBound_refines {m : De α} {p : Parser α} {max : ℕ}
    (h : Refines mode limit room (some max) m p) :
    Refines mode limit room none
      (do modify fun d => { d with boundPending := some max }
          m) p := by
  have hclear : ∀ d, Clear mode limit room none d →
      Clear mode limit room (some max) { d with boundPending := some max } := fun d hd =>
    ⟨hd.mode, hd.limit, hd.room, hd.fixed, rfl, hd.pos⟩
  refine ⟨h.adv, fun d hd => ?_, fun d e d' hd hfail =>
    h.depth (d := { d with boundPending := some max }) (hclear d hd) hfail⟩
  show m.exec { d with boundPending := some max } = d.lift (p.run d.remaining)
  rw [h.run (hclear d hd)]
  show Deserializer.lift _ (p.run d.remaining) = _
  match p.run d.remaining with
  | .error e => rfl
  | .ok (a, rest) => rfl

/-- A tuple, when no fixed opaque is pending. -/
theorem deserializeTuple_refines {len : ℕ} {v : Visitor α}
    {p : (r : ℕ) → r < room → Parser α}
    (h : ∀ r hr, Refines mode limit r bound (v.visitSeq len) (p r hr)) :
    Refines mode limit room bound (deserializeTuple len v) (level limit room p) := by
  refine (nested_refines h).congr fun d hd => ?_
  rw [deserializeTuple, StateT.run_bind, StateT.run_get, pure_bind, hd.fixed]
  rfl

/-- Fixed opaque: the flag set here is taken by the tuple call one level down. -/
theorem deserializeFixed_run (n : ℕ) {d : Deserializer} (hfixed : d.fixedPending = false)
    (hroom : ¬ d.depth + 1 > d.maxDepth) :
    (deserializeNewtypeStruct .sentinelFixed (fixedVisitor n)).run d =
      (nested (readFixed n >>= (fixedBytesVisitor n).visitBorrowedBytes)).run d := by
  have hset := descend_run { d with fixedPending := true }
  have hplain := descend_run d
  rw [if_neg hroom] at hset hplain
  have htuple : (deserializeTuple n (fixedBytesVisitor n)).run
        { d with fixedPending := true, depth := d.depth + 1 }
      = (readFixed n >>= (fixedBytesVisitor n).visitBorrowedBytes).run
        { d with depth := d.depth + 1, fixedPending := false } := rfl
  rw [← hfixed] at htuple
  show (nested (deserializeTuple n (fixedBytesVisitor n))).run { d with fixedPending := true } = _
  rw [nested, run_bind_of_ok hset, nested, run_bind_of_ok hplain, StateT.run_bind, StateT.run_bind,
    attempt_congr htuple]

/-- A level that is refused leaves the flag set. -/
theorem deserializeFixed_of_full (n : ℕ) {d : Deserializer} (hfull : d.depth + 1 > d.maxDepth) :
    (deserializeNewtypeStruct .sentinelFixed (fixedVisitor n)).run d =
      .error (.error (.recursionLimit d.maxDepth),
        { d with fixedPending := true, depth := d.depth + 1 }) :=
  nested_of_full (d := { d with fixedPending := true }) hfull

theorem deserializeFixed_refines (n : ℕ) :
    Refines mode limit room none (deserializeNewtypeStruct .sentinelFixed (fixedVisitor n))
      (level limit room fun _ _ => Value.fixed <$> fixedBody mode n) := by
  have hbody : ∀ r, Refines mode limit r none
      (readFixed n >>= (fixedBytesVisitor n).visitBorrowedBytes)
      (Value.fixed <$> fixedBody mode n) := by
    intro r
    rw [← bind_pure_comp]
    refine (readFixed_refines n).bind_of fun data hdata => ?_
    obtain ⟨b, t, hrun⟩ := hdata
    obtain ⟨pad, -, hlen, -⟩ := fixedBody_ok.mp hrun
    show Refines mode limit r none (if data.length = n then _ else _) _
    rw [if_pos hlen]
    exact Refines.pure _
  have hn : Refines mode limit room none
      (nested (readFixed n >>= (fixedBytesVisitor n).visitBorrowedBytes))
      (level limit room fun _ _ => Value.fixed <$> fixedBody mode n) :=
    nested_refines fun r _ => hbody r
  refine ⟨hn.adv, fun d hd => ?_, fun d e d' hd hfail => ?_⟩
  · by_cases h : d.depth + 1 > d.maxDepth
    · rw [← hn.run hd, exec_of_error (deserializeFixed_of_full n h),
        exec_of_error (nested_of_full h)]
    · rw [De.exec, deserializeFixed_run n hd.fixed h]
      exact hn.run hd
  · by_cases h : d.depth + 1 > d.maxDepth
    · rw [deserializeFixed_of_full n h] at hfail
      cases hfail
      exact Nat.le_succ _
    · rw [deserializeFixed_run n hd.fixed h] at hfail
      exact hn.depth hd hfail

/-- A counted sequence: the count, the check against what is left, the elements. -/
theorem deserializeSeq_refines (bound : Option ℕ) {v : Visitor α}
    {p : (r : ℕ) → r < room → ℕ → Parser α}
    (h : ∀ r hr count, Refines mode limit r none (v.visitSeq count) (p r hr count)) :
    Refines mode limit room bound (deserializeSeq v)
      (do let count ← seqCount (Policy.ofInput mode limit).fits bound
          level limit room fun r hr => p r hr count) := by
  have hstep : ∀ count, Refines mode limit room none
      (do let d ← get
          let rem ← List.length <$> slice d.pos d.input.length
          if count > rem / bytesPerXdrUnit then fail (.eof (count * bytesPerXdrUnit - rem))
          else nested (v.visitSeq count))
      (admitted (Policy.ofInput mode limit).fits count >>= fun count =>
        level limit room fun r hr => p r hr count) := by
    intro count
    have hn := nested_refines fun r hr => h r hr count
    have hrun : ∀ d : Deserializer, d.pos ≤ d.input.length →
        (do let d ← get
            let rem ← List.length <$> slice d.pos d.input.length
            if count > rem / bytesPerXdrUnit then fail (.eof (count * bytesPerXdrUnit - rem))
            else nested (v.visitSeq count) : De α).run d =
          if count > d.remaining.length / bytesPerXdrUnit then
            .error (.error (.eof (count * bytesPerXdrUnit - d.remaining.length)), d)
          else (nested (v.visitSeq count)).run d := by
      intro d hpos
      have hslice : (slice d.pos d.input.length).run d = .ok (d.remaining, d) := by
        simp [slice, StateT.run_bind, hpos, Deserializer.remaining]
        rfl
      rw [StateT.run_bind, StateT.run_get, pure_bind, run_bind_of_ok (run_map_of_ok hslice)]
      split <;> rfl
    refine ⟨?_, fun d hd => ?_, fun d e d' hd hfail => ?_⟩
    · intro b a t hrun
      obtain ⟨n, u, h1, h2⟩ := run_bind_ok.mp hrun
      obtain ⟨rfl, rfl, -⟩ := admitted_ok.mp h1
      exact hn.adv h2
    · rw [De.exec, hrun d hd.pos]
      by_cases hc : count > d.remaining.length / bytesPerXdrUnit
      · have hrefuse : (admitted (Policy.ofInput mode limit).fits count).run d.remaining
            = .error (.eof (count * bytesPerXdrUnit - d.remaining.length)) := by
          have hfits : (Policy.ofInput mode limit).fits count d.remaining.length = false := by
            simpa [Policy.ofInput] using hc
          simp [admitted, StateT.run, hfits]
        rw [if_pos hc, run_bind_of_error hrefuse]
        rfl
      · have hadmit : (admitted (Policy.ofInput mode limit).fits count).run d.remaining
            = .ok (count, d.remaining) :=
          admitted_ok.mpr ⟨rfl, rfl, by simpa [Policy.ofInput] using hc⟩
        rw [if_neg hc, run_bind_of_ok hadmit]
        exact hn.run hd
    · rw [hrun d hd.pos] at hfail
      split at hfail
      · cases hfail
        exact le_rfl
      · exact hn.depth hd hfail
  have hseq := (readLength_refines mode limit room bound).bind hstep
  simp only [readLength, bind_assoc, pure_bind] at hseq
  simp only [seqCount, bind_assoc]
  exact hseq

theorem spanOf_run {d : Deserializer} {start : ℕ} (hs : d.spanStart = some start)
    (hstart : start ≤ d.pos) (hpos : d.pos ≤ d.input.length) :
    spanOf.run d = .ok ((d.input.take d.pos).drop start, d) := by
  have hslice : (slice start d.pos).run d = .ok ((d.input.take d.pos).drop start, d) := by
    simp [slice, StateT.run_bind, hstart, hpos]
    rfl
  simp only [spanOf, deserializeNewtypeStruct, if_true, StateT.run_bind, StateT.run_get,
    pure_bind, hs, hslice]
  rfl

/-- What has been read since the start was marked. -/
theorem span_advanced {d : Deserializer} {c rest : Bytes} (h : d.remaining = c ++ rest)
    (hpos : d.pos ≤ d.input.length) :
    d.pos ≤ d.input.length - rest.length ∧
      (d.input.take (d.input.length - rest.length)).drop d.pos = c := by
  have hlen := d.length_remaining
  rw [h, List.length_append] at hlen
  have hstop : d.input.length - rest.length = d.pos + c.length := by omega
  refine ⟨by omega, ?_⟩
  rw [hstop, List.drop_take, Nat.add_sub_cancel_left]
  show d.remaining.take c.length = c
  rw [h, List.take_left]

/-- The sentinel of a borrowed array or list: the start is marked, the elements are
counted, the span is handed back, and the enclosing mark is put back. -/
theorem marked_refines {count : De ℕ} (last : ℕ → Bytes → De Value)
    {q : Parser (List Value)} (val : ℕ → Bytes → Value)
    (hcount : Refines mode limit room bound count (List.length <$> q))
    (hlast : ∀ b vs c t, q.run b = .ok (vs, t) → b = c ++ t →
      last vs.length c = pure (val vs.length c)) :
    Refines mode limit room bound
      (do let d ← get
          set { d with spanStart := some d.pos }
          let out ← attempt do
            let len ← count
            let sp ← spanOf
            last len sp
          modify fun d' => { d' with spanStart := d.spanStart }
          finish out)
      (do let (vs, sp) ← span q
          pure (val vs.length sp)) := by
  have hadv : Advances 1 q := fun b vs t h => hcount.adv (run_map_of_ok h)
  -- what is returned, and how deep an error leaves the deserializer
  have hrun : ∀ d, Clear mode limit room bound d →
      (∃ e d', q.run d.remaining = .error e ∧ d.depth ≤ d'.depth ∧
        (do let len ← count
            let sp ← spanOf
            last len sp : De Value).run { d with spanStart := some d.pos } = .error (.error e, d')) ∨
      ∃ vs c rest, d.remaining = c ++ rest ∧ q.run d.remaining = .ok (vs, rest) ∧
        (do let len ← count
            let sp ← spanOf
            last len sp : De Value).run { d with spanStart := some d.pos } =
          .ok (val vs.length c, Deserializer.advanced { d with spanStart := some d.pos } rest) := by
    intro d hd
    have hd₁ : Clear mode limit room bound { d with spanStart := some d.pos } :=
      ⟨hd.mode, hd.limit, hd.room, hd.fixed, hd.bound, hd.pos⟩
    match hq : q.run d.remaining with
    | .error e =>
      obtain ⟨d', hd', hdeep⟩ := hcount.run_of_error hd₁ (run_map_of_error hq)
      exact .inl ⟨e, d', rfl, hdeep, run_bind_of_error hd'⟩
    | .ok (vs, rest) =>
      obtain ⟨c, hc, -⟩ := hadv hq
      have hok := hcount.run_of_ok hd₁ (run_map_of_ok hq)
      obtain ⟨hstart, hspan⟩ := span_advanced hc hd.pos
      have hspanOf : spanOf.run (Deserializer.advanced { d with spanStart := some d.pos } rest) =
          .ok (c, Deserializer.advanced { d with spanStart := some d.pos } rest) := by
        rw [spanOf_run rfl hstart (Nat.sub_le _ _), ← hspan]
        rfl
      refine .inr ⟨vs, c, rest, hc, rfl, ?_⟩
      rw [run_bind_of_ok hok, run_bind_of_ok hspanOf, hlast _ vs c rest hq hc]
      rfl
  refine ⟨hadv.span.bind fun _ => Advances.pure 1 _, fun d hd => ?_, fun d e d' hd hfail => ?_⟩
  · rcases hrun d hd with ⟨e, d', hq, -, hbody⟩ | ⟨vs, c, rest, hc, hq, hbody⟩
    · rw [De.exec, StateT.run_bind, StateT.run_get, pure_bind, StateT.run_bind, StateT.run_set,
        pure_bind, run_bind_of_ok (attempt_of_error hbody), run_bind_of_error (span_of_error hq)]
      rfl
    · rw [De.exec, StateT.run_bind, StateT.run_get, pure_bind, StateT.run_bind, StateT.run_set,
        pure_bind, run_bind_of_ok (attempt_of_ok hbody), hc,
        run_bind_of_ok (span_of_ok (hc ▸ hq))]
      rfl
  · rw [StateT.run_bind, StateT.run_get, pure_bind, StateT.run_bind, StateT.run_set,
      pure_bind] at hfail
    rcases hrun d hd with ⟨e, d', hq, hdeep, hbody⟩ | ⟨vs, c, rest, hc, hq, hbody⟩
    · rw [run_bind_of_ok (attempt_of_error hbody)] at hfail
      cases hfail
      exact hdeep
    · rw [run_bind_of_ok (attempt_of_ok hbody)] at hfail
      cases hfail

theorem deserializeOption_refines {visitSome : De α} {p : (r : ℕ) → r < room → Parser α}
    (hsome : ∀ r hr, Refines mode limit r none visitSome (p r hr)) (a : α) :
    Refines mode limit room none (deserializeOption visitSome (pure a))
      (optional (Policy.ofInput mode limit) room p a) := by
  refine readBool_refines.bind fun present => ?_
  cases present with
  | false => exact Refines.pure a
  | true => exact nested_refines hsome

end Calls

/-! ### The impls -/

theorem map_level (g : α → β) (limit room : ℕ) (body : (r : ℕ) → r < room → Parser α) :
    g <$> level limit room body = level limit room fun r h => g <$> body r h := by
  cases room <;> rfl

theorem level_bind (limit room : ℕ) (body : (r : ℕ) → r < room → Parser α)
    (f : α → Parser β) :
    level limit room body >>= f = level limit room fun r h => body r h >>= f := by
  cases room <;> rfl

theorem span_level (limit room : ℕ) (body : (r : ℕ) → r < room → Parser α) :
    span (level limit room body) = level limit room fun r h => span (body r h) := by
  cases room <;> rfl

/-- The span of a counted sequence holds its count. -/
theorem four_le_span_readVec {P : Policy} {room : ℕ} {child : Child room} {bound : Option ℕ}
    {t : Ty} {b c rest : Bytes} {vs : List Value}
    (hadv : ∀ r h T, Advances 1 (child r h T))
    (h : (readVec P room child bound t).run b = .ok (vs, rest)) (hb : b = c ++ rest) :
    4 ≤ c.length := by
  obtain ⟨w, u, rfl, -, -, h⟩ := readVec_ok.mp h
  have hlevel : Advances 1 (level P.limit room fun r hr => repeatN (child r hr t) w.toNat) := by
    cases room with
    | zero => exact Advances.throw 1 _
    | succ r => exact repeatN_advances (hadv r _ t) _
  obtain ⟨c', rfl, -⟩ := hlevel h
  rw [← List.append_assoc] at hb
  rw [← List.append_cancel_right hb, List.length_append, u32ToBe_length]
  omega

section Union

variable (u : XdrUnion)

theorem le_foldl_max (l : List ℕ) (a : ℕ) : a ≤ l.foldl max a ∧ ∀ x ∈ l, x ≤ l.foldl max a := by
  induction l generalizing a with
  | nil => simp
  | cons y l ih =>
    obtain ⟨h1, h2⟩ := ih (max a y)
    refine ⟨(le_max_left a y).trans h1, fun x hx => ?_⟩
    rcases List.mem_cons.mp hx with rfl | hx
    · exact (le_max_right a x).trans h1
    · exact h2 x hx

theorem XdrUnion.default_le_maxElems {dt : DiscTy} {ts : List Ty}
    (h : u.default = some (dt, ts)) : 1 + ts.length ≤ u.maxElems := by
  rw [XdrUnion.maxElems, h]
  exact (le_foldl_max _ _).1

theorem XdrUnion.arm_le_maxElems {arm : Arm} (h : arm ∈ u.arms) :
    1 + arm.fields.length ≤ u.maxElems :=
  (le_foldl_max _ _).2 _ (List.mem_map.mpr ⟨arm, h, rfl⟩)

theorem XdrUnion.maxElems_pos : 1 ≤ u.maxElems := by
  refine le_trans ?_ (le_foldl_max _ _).1
  split <;> omega

end Union

section Impls

variable {mode : Strictness} {limit room : ℕ} {bound : Option ℕ} {rec : Ty → De Value}
  {child : Child room}

section Parts

variable (hrec : ∀ r hr T, Refines mode limit r none (rec T) (child r hr T))
include hrec

theorem vec_refines (bound : Option ℕ) (t : Ty) :
    Refines mode limit room bound (deserializeSeq (vecVisitor rec t))
      (Value.seq <$> readVec (Policy.ofInput mode limit) room child bound t) := by
  have h := deserializeSeq_refines bound (v := vecVisitor rec t)
    fun r hr count => (vecLoop_refines (hrec r hr t) count).map Value.seq
  simp only [readVec, map_bind, map_level]
  exact h

theorem elementCount_refines (bound : Option ℕ) (t : Ty) :
    Refines mode limit room bound (elementCount rec t)
      (List.length <$> readVec (Policy.ofInput mode limit) room child bound t) := by
  have h := deserializeSeq_refines bound
    (v := { expecting := "a variable-length array"
            visitSeq := fun remaining => elementCountLoop (rec t) remaining 0 })
    fun r hr count => elementCountLoop_refines (hrec r hr t) count 0
  simp only [Nat.zero_add] at h
  simp only [readVec, map_bind, map_level]
  exact h

theorem optionOf_refines (t : Ty) :
    Refines mode limit room none (optionOf rec t)
      (readOption (Policy.ofInput mode limit) room child t) :=
  deserializeOption_refines (fun r hr => (hrec r hr t).map some) none

theorem arrayRef_refines (bound : Option ℕ) (t : Ty) :
    Refines mode limit room bound
      (deserializeTupleStruct .sentinelArrayRef 2 (arrayRefVisitor rec t))
      (readCounted (Policy.ofInput mode limit) room child bound (.varArrayRef t)) := by
  refine nested_refines fun r hr => ?_
  have hcount := elementCount_refines (fun r' hr' => hrec r' (hr'.trans hr)) bound t
  have h := marked_refines (fun len span => if span.length < bytesPerXdrUnit then
      fail (invalidLength span.length "a variable-length array to borrow")
    else pure (.arrayRef len (span.drop bytesPerXdrUnit)))
    (fun n sp => .arrayRef n (sp.drop bytesPerXdrUnit)) hcount ?_
  · simpa [arrayRefVisitor, nextElement] using h
  · intro b vs c t' hrun hb
    have h4 := four_le_span_readVec (fun r' hr' T => (hrec r' (hr'.trans hr) T).adv) hrun hb
    exact if_neg (Nat.not_lt.mpr h4)

theorem listRef_refines (t : Ty) :
    Refines mode limit room none
      (deserializeTupleStruct .sentinelArrayRef 2 (listRefVisitor rec t))
      (level limit room fun r h => level limit r fun r' h' => do
        let (vs, sp) ← span
          (chain (readOption (Policy.ofInput mode limit) r' ((child.below h).below h') t) usizeMax)
        pure (.listRef vs.length sp)) := by
  refine nested_refines fun r hr => ?_
  have hcount : Refines mode limit r none (listCount rec t)
      (List.length <$> level limit r fun r' hr' =>
        chain (readOption (Policy.ofInput mode limit) r' ((child.below hr).below hr') t)
          usizeMax) := by
    rw [map_level]
    refine deserializeTuple_refines fun r' hr' => ?_
    have hopt := optionOf_refines (fun r hr'' => hrec r ((hr''.trans hr').trans hr)) t
    have hloop := listCountLoop_refines hopt usizeMax 0
    simp only [Nat.zero_add] at hloop
    exact hloop
  have h := marked_refines (fun len encoded => pure (.listRef len encoded))
    (fun n sp => .listRef n sp) hcount fun _ _ _ _ _ _ => rfl
  rw [span_level, level_bind] at h
  simpa [listRefVisitor, nextElement] using h

theorem deserializeCounted_refines (bound : Option ℕ) (c : CountedTy Ty) :
    Refines mode limit room bound (deserializeCounted rec c)
      (readCounted (Policy.ofInput mode limit) room child bound c) := by
  cases c with
  | string | str => exact readStr_refines.map _
  | varOpaque | varOpaqueRef | varOpaqueCow => exact readOpaque_refines.map _
  | vec t => exact vec_refines hrec bound t
  | varArrayRef t => exact arrayRef_refines hrec bound t

end Parts

section Tagged

variable {child : Ty → Parser Value} (hrec : ∀ T, Refines mode limit room none (rec T) (child T))
include hrec

theorem fieldsVisitor_refines (ts : List Ty) :
    Refines mode limit room none ((fieldsVisitor rec ts).visitSeq ts.length)
      (Value.seq <$> readFields child ts) :=
  (visitFields_refines hrec _ ts le_rfl).map _

theorem visitEnum_refines (e : SerdeEnum) (tag : UInt32) :
    Refines mode limit room none (visitEnum rec e tag) (readVariant child e tag) := by
  rw [visitEnum, readVariant]
  rcases e.variants[tag.toNat]? with _ | _ | t | ts | ts
  · exact Refines.fail _
  · exact Refines.pure _
  · have h := (hrec t).bind fun v => Refines.pure (Value.variant tag.toNat [v])
    simpa [Variant.fields, readFields] using h
  · have h := visitFields_refines hrec (invalidLength ts.length "a tuple variant") ts le_rfl
    exact h.bind fun vs => Refines.pure _
  · have h := visitFields_refines hrec (invalidLength ts.length "a struct variant") ts le_rfl
    exact h.bind fun vs => Refines.pure _

/-- The elements of the arm a discriminant selects are within the widest arm's. -/
theorem unionVisitor_refines (u : XdrUnion) :
    Refines mode limit room none ((unionVisitor rec u).visitSeq u.maxElems)
      (do let tag ← UInt32.toInt32 <$> word
          readArm child u tag) := by
  obtain ⟨k, hk⟩ : ∃ k, u.maxElems = k + 1 := ⟨u.maxElems - 1, by have := u.maxElems_pos; omega⟩
  rw [hk]
  simp only [unionVisitor, nextElement, bind_assoc, pure_bind]
  show Refines mode limit room none (UInt32.toInt32 <$> readU32 >>= _) _
  refine (readU32_refines.map _).bind fun tag => ?_
  rw [readArm]
  rcases harm : u.armOf tag with _ | ⟨i, arm⟩
  · dsimp only
    rw [visitFallback]
    rcases hdef : u.default with _ | ⟨dt, ts⟩
    · exact Refines.fail _
    · have hlen : ts.length ≤ k := by
        have := u.default_le_maxElems hdef
        omega
      exact (discOfDisc_refines dt tag).bind fun d =>
        (visitFields_refines hrec _ ts hlen).bind fun vs => Refines.pure _
  · have hlen : arm.fields.length ≤ k := by
      have := u.arm_le_maxElems (List.mem_of_getElem? (XdrUnion.armOf_eq_some.mp harm).1)
      omega
    exact (visitFields_refines hrec _ arm.fields hlen).bind fun vs => Refines.pure _

end Tagged

section Types

variable (hrec : ∀ r hr T, Refines mode limit r none (rec T) (child r hr T))
include hrec

theorem deserializeNamed_refines (decl : Decl) :
    Refines mode limit room none (deserializeNamed rec decl)
      (readNamed (Policy.ofInput mode limit) room child decl) := by
  cases decl with
  | newtypeStruct t =>
    have h := nested_refines fun r hr => (hrec r hr t).map Value.newtype
    simp only [deserializeNamed, deserializeNewtypeStruct, reduceCtorEq, if_false]
    exact h
  | tupleStruct ts =>
    exact nested_refines fun r hr => fieldsVisitor_refines (hrec r hr) ts
  | struct ts => exact nested_refines fun r hr => fieldsVisitor_refines (hrec r hr) ts
  | enum e =>
    exact readU32_refines.bind fun tag =>
      nested_refines fun r hr => visitEnum_refines (hrec r hr) e tag
  | xdrUnion u => exact deserializeTuple_refines fun r hr => unionVisitor_refines (hrec r hr) u

/-- One level of the impl of a type that is not a bound. -/
theorem deserializeWith_refines_of_ne (Δ : Decls) {T : Ty} (hT : ∀ c max, T ≠ .bounded c max) :
    Refines mode limit room none (deserializeWith Δ rec T)
      (readShape (Policy.ofInput mode limit) Δ room child T) := by
  cases T with
  | bool => exact readBool_refines.map _
  | i8 => exact (narrowSigned_refines Int8.ofInt (-128) 127).map _
  | i16 => exact (narrowSigned_refines Int16.ofInt (-32768) 32767).map _
  | u8 => exact (narrowUnsigned_refines UInt8.ofNat 255).map _
  | u16 => exact (narrowUnsigned_refines UInt16.ofNat 65535).map _
  | i32 => exact (readU32_refines.map _).map _
  | i64 => exact (readU64_refines.map _).map _
  | u32 | f32 => exact readU32_refines.map _
  | u64 | f64 => exact readU64_refines.map _
  | char => exact deserializeChar_refines.map _
  | counted c => exact deserializeCounted_refines hrec none c
  | bounded c max => exact absurd rfl (hT c max)
  | fixedOpaque n => exact deserializeFixed_refines n
  | array t n =>
    have h := deserializeTuple_refines (v := fieldsVisitor rec (List.replicate n t)) fun r hr =>
      fieldsVisitor_refines (hrec r hr) (List.replicate n t)
    rwa [List.length_replicate] at h
  | tuple ts => exact deserializeTuple_refines fun r hr => fieldsVisitor_refines (hrec r hr) ts
  | unit | unitStruct => exact Refines.pure _
  | option t =>
    exact deserializeOption_refines (fun r hr => (hrec r hr t).map Value.some) Value.none
  | listRef t => exact listRef_refines hrec t
  | xdrEnum e => exact (readU32_refines.map _).bind fun disc => ofDisc_refines e disc
  | named id => exact deserializeNamed_refines hrec (Δ id)

omit hrec in
/-- One level of the impl of a bound: the counted type is read with the bound pending. -/
theorem deserializeBounded_refines {c : CountedTy Ty} {max : ℕ}
    (hbound : ∀ r (hr : r < room), Refines mode limit r (some max) (rec (.counted c))
      (readCounted (Policy.ofInput mode limit) r (child.below hr) (some max) c)) :
    Refines mode limit room none
      (deserializeTupleStruct .sentinelBounded max (boundedVisitor rec c max))
      (level limit room fun r hr => Value.newtype <$>
        readCounted (Policy.ofInput mode limit) r (child.below hr) (some max) c) := by
  have h := nested_refines fun r hr => setBound_refines ((hbound r hr).map Value.newtype)
  simp only [deserializeTupleStruct, if_true]
  exact h

end Types

end Impls

/-! ### The whole decode -/

/-- `rec` computes `read` where `room` levels are left, and where a bound is pending holds
a counted type to it. -/
structure Computes (Δ : Decls) (mode : Strictness) (limit room : ℕ) (rec : Ty → De Value) :
    Prop where
  reads (T : Ty) : Refines mode limit room none (rec T)
    (read (Policy.ofInput mode limit) Δ room T)
  holds (max : ℕ) (c : CountedTy Ty) : Refines mode limit room (some max) (rec (.counted c))
    (readC (Policy.ofInput mode limit) Δ room (some max) c)

section Computes

variable {Δ : Decls} {mode : Strictness} {limit room : ℕ} {rec : Ty → De Value}

/-- What computes `read` of the parts computes it of the whole. -/
theorem Computes.level (h : ∀ r < room, Computes Δ mode limit r rec) :
    Computes Δ mode limit room (deserializeWith Δ rec) := by
  have hrec : ∀ r (hr : r < room) (T : Ty), Refines mode limit r none (rec T)
      (read (Policy.ofInput mode limit) Δ r T) := fun r hr => (h r hr).reads
  refine ⟨fun T => ?_, fun max c => deserializeCounted_refines hrec (some max) c⟩
  rw [read_eq]
  cases T with
  | bounded c max => exact deserializeBounded_refines fun r hr => (h r hr).holds max c
  | _ => exact deserializeWith_refines_of_ne hrec Δ nofun

/-- There is no level below the last one. -/
theorem Computes.bottom : ∀ r < 0, Computes Δ mode limit r rec :=
  fun r hr => absurd hr (Nat.not_lt_zero r)

end Computes

/-- **The impl of every type computes `read`**, with any fuel that covers the levels
left. -/
theorem deserializeAt_computes (Δ : Decls) {mode : Strictness} {limit : ℕ} (fuel : ℕ) :
    ∀ room ≤ fuel, Computes Δ mode limit room (deserializeAt Δ fuel) := by
  induction fuel with
  | zero =>
    intro room hroom
    obtain rfl : room = 0 := by omega
    exact .level Computes.bottom
  | succ fuel ih =>
    intro room hroom
    exact .level fun r hr => ih r (by omega)

/-- **`Ty.deserialize` computes `read`** from every state with nothing pending, and
leaves everything but the position as it was. -/
theorem deserialize_eq (Δ : Decls) (T : Ty) {d : Deserializer} (hf : d.fixedPending = false)
    (hb : d.boundPending = none) (hpos : d.pos ≤ d.input.length) :
    (T.deserialize Δ).exec d =
      d.lift ((read (Policy.ofInput d.mode d.maxDepth) Δ (d.maxDepth - d.depth) T).run
        d.remaining) :=
  ((deserializeAt_computes Δ _ _ le_rfl).reads T).run ⟨rfl, rfl, rfl, hf, hb, hpos⟩

/-- What a new deserializer with a depth limit decodes. -/
theorem deserialize_new_eq (Δ : Decls) (T : Ty) (b : Bytes) (mode : Strictness)
    (maxDepth : ℕ) :
    (T.deserialize Δ).exec ((Deserializer.new b mode).withMaxDepth maxDepth) =
      ((Deserializer.new b mode).withMaxDepth maxDepth).lift
        ((read (Policy.ofInput mode maxDepth) Δ maxDepth T).run b) :=
  deserialize_eq Δ T rfl rfl (Nat.zero_le _)

/-- Decode a value from the front of `b` with a depth limit of one's own. -/
def decode (Δ : Decls) (T : Ty) (mode : Strictness) (maxDepth : ℕ) (b : Bytes) :
    Except Fault (Value × Bytes) := do
  let (value, d) ← (T.deserialize Δ).exec ((Deserializer.new b mode).withMaxDepth maxDepth)
  pure (value, d.remaining)

theorem decode_eq (Δ : Decls) (T : Ty) (mode : Strictness) (maxDepth : ℕ) (b : Bytes) :
    decode Δ T mode maxDepth b =
      ((read (Policy.ofInput mode maxDepth) Δ maxDepth T).run b).mapError Fault.error := by
  have hrun := deserialize_new_eq Δ T b mode maxDepth
  have hadv := read_advances (Policy.ofInput mode maxDepth) Δ maxDepth T
  rw [decode]
  rw [hrun]
  match h : (read (Policy.ofInput mode maxDepth) Δ maxDepth T).run b with
  | .error e => rfl
  | .ok (v, rest) =>
    obtain ⟨c, hc, -⟩ := hadv h
    have hrem : ((Deserializer.new b mode).withMaxDepth maxDepth).remaining = c ++ rest := hc
    have hrest := Deserializer.remaining_advanced hrem
    show Except.ok (v, _) = Except.ok (v, rest)
    rw [hrest]

theorem decode_ok {Δ : Decls} {T : Ty} {mode : Strictness} {maxDepth : ℕ} {b : Bytes}
    {x : Value × Bytes} :
    decode Δ T mode maxDepth b = .ok x ↔
      (read (Policy.ofInput mode maxDepth) Δ maxDepth T).run b = .ok x := by
  rw [decode_eq]
  cases (read (Policy.ofInput mode maxDepth) Δ maxDepth T).run b with
  | error e =>
    constructor
    · intro h
      cases h
    · intro h
      cases h
  | ok r =>
    constructor
    · rintro ⟨⟩
      rfl
    · rintro ⟨⟩
      rfl

theorem decode_error {Δ : Decls} {T : Ty} {mode : Strictness} {maxDepth : ℕ} {b : Bytes}
    {e : Error} (h : (read (Policy.ofInput mode maxDepth) Δ maxDepth T).run b = .error e) :
    decode Δ T mode maxDepth b = .error (.error e) := by
  rw [decode_eq, h]
  rfl

theorem fromPrefixWith_eq (Δ : Decls) (T : Ty) (b : Bytes) (mode : Strictness) :
    fromPrefixWith Δ T b mode = decode Δ T mode Deserializer.defaultMaxDepth b := rfl

theorem fromBytesWith_ok {Δ : Decls} {T : Ty} {b : Bytes} {mode : Strictness} {v : Value} :
    fromBytesWith Δ T b mode = .ok v ↔
      (read (Policy.ofInput mode Deserializer.defaultMaxDepth) Δ
        Deserializer.defaultMaxDepth T).run b = .ok (v, []) := by
  rw [fromBytesWith, fromPrefixWith_eq, ← decode_ok]
  cases decode Δ T mode Deserializer.defaultMaxDepth b with
  | error e =>
    constructor
    · intro h
      cases h
    · intro h
      cases h
  | ok r =>
    obtain ⟨v', rest⟩ := r
    cases rest with
    | nil =>
      constructor
      · rintro ⟨⟩
        rfl
      · rintro ⟨⟩
        rfl
    | cons x rest =>
      constructor
      · intro h
        cases h
      · intro h
        cases h

end Xdr
