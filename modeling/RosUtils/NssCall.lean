/-
Calling an NSS module with a buffer that may be too small (`truenas_nss/src/service.rs`).

A module answers with a status and an errno.  One pair of the two, `TRYAGAIN` with
`ERANGE`, asks for a larger buffer; `grow_and_call` doubles the buffer and calls again,
until the module answers anything else or the buffer is at its ceiling.  The module is a
function over a state of its own, so that its answers may depend on the lengths it was
offered and on everything that happened before.

* `classifyLookup`, `classifyEnt` — what an answer means;
* `growAndCall` — the loop, and `calls`, the calls it makes;
* `calls_eq` — all but the last of them asked for more, at a length below the ceiling;
* `calls_chain` — the lengths double;
* `calls_kept` — from a buffer that began at 1024 there are at most 15 of them.
-/
import Mathlib.Data.List.Chain
import Mathlib.Tactic

namespace Nss

/-! ### Answers -/

/-- `NSS_STATUS_TRYAGAIN`. -/
def statusTryagain : ℤ := -2

/-- `NSS_STATUS_UNAVAIL`. -/
def statusUnavail : ℤ := -1

/-- `NSS_STATUS_NOTFOUND`. -/
def statusNotfound : ℤ := 0

/-- `NSS_STATUS_SUCCESS`. -/
def statusSuccess : ℤ := 1

/-- `libc::ERANGE`. -/
def erange : ℤ := 34

/-- What a call of a module reports.  The errno is zero unless the module set it. -/
structure Answer where
  status : ℤ
  errno : ℤ
  deriving DecidableEq, Repr

/-- The three system NSS modules. -/
inductive Source where
  | files
  | sss
  | winbind
  deriving DecidableEq, Repr

/-- `Error`, but for the failures of host name lookups. -/
inductive Error where
  | call (module op : String) (status errno : ℤ)
  | load (module reason : String)
  | symbol (module symbol : String)
  | busy (module : String)
  | nulByte
  | notUtf8
  | nullName
  deriving DecidableEq, Repr

/-- `classify_lookup`: whether there is an entry to copy out.  An errno outranks any
status. -/
def classifyLookup (module op : String) (a : Answer) : Except Error Bool :=
  if a.errno ≠ 0 then .error (.call module op a.status a.errno)
  else if a.status = statusNotfound then .ok false
  else if a.status = statusSuccess then .ok true
  else .error (.call module op a.status 0)

/-- `classify_ent`: whether there is an entry to copy out, or the enumeration is over. -/
def classifyEnt (module op : String) (a : Answer) : Except Error Bool :=
  if a.errno ≠ 0 ∨ a.status = statusTryagain then .error (.call module op a.status a.errno)
  else .ok (a.status = statusSuccess)

/-- The one request for a larger buffer. -/
def Answer.Retry (a : Answer) : Prop := a.status = statusTryagain ∧ a.errno = erange

instance (a : Answer) : Decidable a.Retry := inferInstanceAs (Decidable (_ ∧ _))

/-! ### The loop -/

/-- `INITIAL_BUFLEN`. -/
def initialBuflen : ℕ := 1024

/-- `MAX_BUFLEN`. -/
def maxBuflen : ℕ := 2 ^ 24

/-- The length after one growth: an empty buffer doubles from one. -/
def grown (len : ℕ) : ℕ := max len 1 * 2

theorem lt_grown (len : ℕ) : len < grown len := by
  rw [grown]
  omega

variable {σ : Type}

/-- A call of a module, given the length of the buffer. -/
abbrev Callback (σ : Type) := σ → ℕ → Answer × σ

/-- What is left after a call: the answer, the length of the buffer, and the module. -/
structure Grown (σ : Type) where
  answer : Answer
  len : ℕ
  state : σ

/-- `grow_and_call`. -/
def growAndCall (call : Callback σ) (s : σ) (len : ℕ) : Grown σ :=
  let r := call s len
  if r.1.status ≠ statusTryagain ∨ r.1.errno ≠ erange then ⟨r.1, len, r.2⟩
  else if len ≥ maxBuflen then ⟨r.1, len, r.2⟩
  else growAndCall call r.2 (grown len)
termination_by maxBuflen - len
decreasing_by
  have := lt_grown len
  omega

/-- One call that was made. -/
structure Attempt (σ : Type) where
  len : ℕ
  answer : Answer
  /-- the module after the call -/
  state : σ

/-- The call that is made with a buffer of this length. -/
def callAt (call : Callback σ) (s : σ) (len : ℕ) : Attempt σ :=
  ⟨len, (call s len).1, (call s len).2⟩

/-- The answer asks for a larger buffer, and there can be one. -/
def Attempt.Grows (c : Attempt σ) : Prop := c.answer.Retry ∧ c.len < maxBuflen

instance (c : Attempt σ) : Decidable c.Grows := inferInstanceAs (Decidable (_ ∧ _))

/-- The calls that `grow_and_call` makes. -/
def calls (call : Callback σ) (s : σ) (len : ℕ) : List (Attempt σ) :=
  let c := callAt call s len
  if c.answer.Retry ∧ len < maxBuflen then c :: calls call c.state (grown len) else [c]
termination_by maxBuflen - len
decreasing_by
  have := lt_grown len
  omega

section Growth

variable (call : Callback σ)

theorem growAndCall_of_grows {s : σ} {len : ℕ} (h : (callAt call s len).Grows) :
    growAndCall call s len = growAndCall call (call s len).2 (grown len) := by
  obtain ⟨⟨hstatus, herrno⟩, hlen⟩ := h
  have hretry : ¬ ((call s len).1.status ≠ statusTryagain ∨ (call s len).1.errno ≠ erange) := by
    rintro (h | h)
    · exact h hstatus
    · exact h herrno
  rw [growAndCall]
  rw [if_neg hretry]
  exact if_neg (not_le.mpr hlen)

theorem growAndCall_of_not_grows {s : σ} {len : ℕ} (h : ¬ (callAt call s len).Grows) :
    growAndCall call s len = ⟨(call s len).1, len, (call s len).2⟩ := by
  rw [growAndCall]
  split
  · rfl
  · next hretry =>
    rw [not_or, not_not, not_not] at hretry
    exact if_pos (not_lt.mp fun hlen => h ⟨hretry, hlen⟩)

theorem calls_of_grows {s : σ} {len : ℕ} (h : (callAt call s len).Grows) :
    calls call s len = callAt call s len :: calls call (call s len).2 (grown len) := by
  rw [calls]
  exact if_pos h

theorem calls_of_not_grows {s : σ} {len : ℕ} (h : ¬ (callAt call s len).Grows) :
    calls call s len = [callAt call s len] := by
  rw [calls]
  exact if_neg h

/-- A fact about the loop: it holds of a call that settles, and before a call that grows if
it holds after. -/
@[elab_as_elim]
theorem growth_induction {motive : σ → ℕ → Prop}
    (settles : ∀ s len, ¬ (callAt call s len).Grows → motive s len)
    (grows : ∀ s len, (callAt call s len).Grows → motive (call s len).2 (grown len) →
      motive s len)
    (s : σ) (len : ℕ) : motive s len := by
  induction hn : maxBuflen - len using Nat.strong_induction_on generalizing s len with
  | _ n ih =>
    by_cases h : (callAt call s len).Grows
    · have hlen : len < maxBuflen := h.2
      have hlt := lt_grown len
      exact grows s len h (ih (maxBuflen - grown len) (by omega) _ _ rfl)
    · exact settles s len h

/-- **Every call but the last asked for more, below the ceiling; the last is the answer.** -/
theorem calls_eq (s : σ) (len : ℕ) :
    ∃ front last, calls call s len = front ++ [last] ∧ (∀ c ∈ front, c.Grows) ∧ ¬ last.Grows ∧
      growAndCall call s len = ⟨last.answer, last.len, last.state⟩ := by
  induction s, len using growth_induction call with
  | settles s len h =>
    refine ⟨[], callAt call s len, calls_of_not_grows call h, ?_, h,
      growAndCall_of_not_grows call h⟩
    intro c hc
    cases hc
  | grows s len h ih =>
    obtain ⟨front, last, hcalls, hfront, hlast, hresult⟩ := ih
    refine ⟨callAt call s len :: front, last, ?_, ?_, hlast, ?_⟩
    · rw [calls_of_grows call h, hcalls, List.cons_append]
    · exact List.forall_mem_cons.mpr ⟨h, hfront⟩
    · rw [growAndCall_of_grows call h, hresult]

theorem calls_head (s : σ) (len : ℕ) : (calls call s len).head? = some (callAt call s len) := by
  by_cases h : (callAt call s len).Grows
  · rw [calls_of_grows call h, List.head?_cons]
  · rw [calls_of_not_grows call h, List.head?_cons]

/-- **The lengths double from call to call.** -/
theorem calls_chain (s : σ) (len : ℕ) :
    (calls call s len).IsChain fun c d => d.len = grown c.len := by
  induction s, len using growth_induction call with
  | settles s len h =>
    rw [calls_of_not_grows call h]
    exact List.isChain_singleton _
  | grows s len h ih =>
    rw [calls_of_grows call h]
    refine List.isChain_cons.mpr ⟨?_, ih⟩
    intro d hd
    rw [calls_head] at hd
    cases hd
    rfl

/-! ### Watching the calls -/

/-- What each call adds to a log, the calls of the loop add to it one after another. -/
theorem growAndCall_log {β : Type} (log : σ → List β) (note : Attempt σ → β)
    (hcall : ∀ s len, log (call s len).2 = log s ++ [note (callAt call s len)]) (s : σ) (len : ℕ) :
    log (growAndCall call s len).state = log s ++ (calls call s len).map note := by
  induction s, len using growth_induction call with
  | settles s len h =>
    rw [growAndCall_of_not_grows call h, calls_of_not_grows call h]
    exact hcall s len
  | grows s len h ih =>
    rw [growAndCall_of_grows call h, calls_of_grows call h, ih, hcall, List.append_assoc]
    rfl

/-- What no call changes, the loop does not change. -/
theorem growAndCall_keeps {P : σ → Prop} (hcall : ∀ s len, P s → P (call s len).2) (s : σ)
    (len : ℕ) (hs : P s) : P (growAndCall call s len).state := by
  induction s, len using growth_induction call with
  | settles s len h =>
    rw [growAndCall_of_not_grows call h]
    exact hcall s len hs
  | grows s len h ih =>
    rw [growAndCall_of_grows call h]
    exact ih (hcall s len hs)

/-- The answer is that of a call which settles, in a state that the loop came to. -/
theorem growAndCall_settles (s : σ) (len : ℕ) :
    ∃ t n, ¬ (callAt call t n).Grows ∧
      growAndCall call s len = ⟨(call t n).1, n, (call t n).2⟩ ∧
      ∀ P : σ → Prop, (∀ s len, P s → P (call s len).2) → P s → P t := by
  induction s, len using growth_induction call with
  | settles s len h =>
    exact ⟨s, len, h, growAndCall_of_not_grows call h, fun P _ hs => hs⟩
  | grows s len h ih =>
    obtain ⟨t, n, hsettles, hresult, hkeeps⟩ := ih
    refine ⟨t, n, hsettles, ?_, ?_⟩
    · rw [growAndCall_of_grows call h, hresult]
    · intro P hstep hs
      exact hkeeps P hstep (hstep s len hs)

/-- The callback that keeps a record of its calls. -/
def recorded : Callback (σ × List (ℕ × Answer)) :=
  fun s len => ((call s.1 len).1, (call s.1 len).2, s.2 ++ [(len, (call s.1 len).1)])

/-- Keeping the record changes nothing else. -/
theorem growAndCall_recorded (s : σ × List (ℕ × Answer)) (len : ℕ) :
    growAndCall (recorded call) s len =
      ⟨(growAndCall call s.1 len).answer, (growAndCall call s.1 len).len,
        (growAndCall call s.1 len).state,
        s.2 ++ (calls call s.1 len).map fun c => (c.len, c.answer)⟩ := by
  obtain ⟨s, log⟩ := s
  induction s, len using growth_induction call generalizing log with
  | settles s len h =>
    have h' : ¬ (callAt (recorded call) (s, log) len).Grows := h
    rw [growAndCall_of_not_grows call h, calls_of_not_grows call h,
      growAndCall_of_not_grows (recorded call) h']
    rfl
  | grows s len h ih =>
    have h' : (callAt (recorded call) (s, log) len).Grows := h
    rw [growAndCall_of_grows call h, calls_of_grows call h,
      growAndCall_of_grows (recorded call) h']
    have hstep : (recorded call (s, log) len).2 =
        ((call s len).2, log ++ [(len, (call s len).1)]) := rfl
    rw [hstep, ih, List.append_assoc]
    rfl

end Growth

/-! ### A buffer that began at 1024 -/

/-- A buffer that began at 1024 and was doubled so many times, up to the ceiling. -/
def Kept (len : ℕ) : Prop := ∃ k, k ≤ 14 ∧ len = initialBuflen * 2 ^ k

theorem kept_initial : Kept initialBuflen := ⟨0, by omega, by rw [pow_zero, mul_one]⟩

theorem Kept.le {len : ℕ} (h : Kept len) : len ≤ maxBuflen := by
  obtain ⟨k, hk, rfl⟩ := h
  calc initialBuflen * 2 ^ k ≤ initialBuflen * 2 ^ 14 :=
        Nat.mul_le_mul_left _ (Nat.pow_le_pow_right (by omega) hk)
    _ = maxBuflen := by decide

theorem grown_of_pos {len : ℕ} (h : 0 < len) : grown len = 2 * len := by
  rw [grown, max_eq_left h, mul_comm]

/-- Below the ceiling there is room for one more doubling. -/
theorem Kept.grown {len k : ℕ} (hk : len = initialBuflen * 2 ^ k) (hlt : len < maxBuflen) :
    k < 14 ∧ Nss.grown len = initialBuflen * 2 ^ (k + 1) := by
  constructor
  · by_contra hge
    have hpow : 2 ^ 14 ≤ 2 ^ k := Nat.pow_le_pow_right (by omega) (by omega)
    have hmax : maxBuflen = initialBuflen * 2 ^ 14 := by decide
    have : initialBuflen * 2 ^ 14 ≤ initialBuflen * 2 ^ k := Nat.mul_le_mul_left _ hpow
    omega
  · have hpos : 0 < initialBuflen * 2 ^ k := Nat.mul_pos (by decide) (Nat.two_pow_pos k)
    rw [hk, grown_of_pos hpos, pow_succ]
    ring

/-- **From a kept buffer every length is one of fifteen, and each is offered once.** -/
theorem calls_kept (call : Callback σ) (s : σ) (len : ℕ) :
    ∀ k, k ≤ 14 → len = initialBuflen * 2 ^ k →
      (∀ c ∈ calls call s len, Kept c.len) ∧ (calls call s len).length + k ≤ 15 := by
  induction s, len using growth_induction call with
  | settles s len h =>
    intro k hk hlen
    rw [calls_of_not_grows call h]
    refine ⟨?_, ?_⟩
    · intro c hc
      rw [List.mem_singleton.mp hc]
      exact ⟨k, hk, hlen⟩
    · rw [List.length_singleton]
      omega
  | grows s len h ih =>
    intro k hk hlen
    -- one doubling more, and one call more
    obtain ⟨hlt, hgrown⟩ := Kept.grown hlen h.2
    obtain ⟨hkept, hcount⟩ := ih (k + 1) hlt hgrown
    rw [calls_of_grows call h]
    refine ⟨List.forall_mem_cons.mpr ⟨⟨k, hk, hlen⟩, hkept⟩, ?_⟩
    rw [List.length_cons]
    omega

/-- The buffer that is left can be kept for the next entry. -/
theorem Kept.growAndCall {len : ℕ} (h : Kept len) (call : Callback σ) (s : σ) :
    Kept (Nss.growAndCall call s len).len := by
  obtain ⟨k, hk, hlen⟩ := h
  obtain ⟨front, last, hcalls, -, -, hresult⟩ := calls_eq call s len
  rw [hresult]
  refine (calls_kept call s len k hk hlen).1 last ?_
  rw [hcalls]
  exact List.mem_append_right _ List.mem_cons_self

/-! ### What is said of a whole sequence of calls -/

/-- The lengths and the answers of the calls that are made, as the callback sees them. -/
def record (call : Callback σ) (s : σ) (len : ℕ) : List (ℕ × Answer) :=
  (growAndCall (recorded call) (s, []) len).state.2

theorem record_eq (call : Callback σ) (s : σ) (len : ℕ) :
    record call s len = (calls call s len).map fun c => (c.len, c.answer) := by
  rw [record, growAndCall_recorded]
  rfl

/-- The loop returns what the last call reported, makes a call again only when it asked for
more room, doubles the length each time, and gives up at the ceiling only. -/
structure GrowthExact (call : Callback σ) (s : σ) (len : ℕ) : Prop where
  returns : ∃ front last, record call s len = front ++ [last] ∧
    (growAndCall call s len).answer = last.2 ∧ (growAndCall call s len).len = last.1 ∧
    (∀ c ∈ front, c.2.Retry) ∧ (last.2.Retry → maxBuflen ≤ last.1)
  starts : (record call s len).head?.map Prod.fst = some len
  doubles : (record call s len).IsChain fun c d =>
    (c.1 = 0 → d.1 = 2) ∧ (0 < c.1 → d.1 = 2 * c.1)

theorem growthExact (call : Callback σ) (s : σ) (len : ℕ) : GrowthExact call s len where
  returns := by
    obtain ⟨front, last, hcalls, hfront, hlast, hresult⟩ := calls_eq call s len
    refine ⟨front.map fun c => (c.len, c.answer), (last.len, last.answer), ?_, ?_, ?_, ?_, ?_⟩
    · rw [record_eq, hcalls, List.map_append, List.map_singleton]
    · rw [hresult]
    · rw [hresult]
    · intro c hc
      obtain ⟨c, hmem, rfl⟩ := List.mem_map.mp hc
      exact (hfront c hmem).1
    · intro hretry
      exact not_lt.mp fun hlt => hlast ⟨hretry, hlt⟩
  starts := by
    rw [record_eq, List.head?_map, calls_head]
    rfl
  doubles := by
    rw [record_eq, List.isChain_map]
    refine (calls_chain call s len).imp ?_
    intro c d hd
    have hgrown_zero : grown 0 = 2 := rfl
    refine ⟨fun hzero => ?_, fun hpos => hd.trans (grown_of_pos hpos)⟩
    exact hd.trans ((congrArg grown hzero).trans hgrown_zero)

end Nss
