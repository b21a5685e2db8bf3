/-
The ids that a caller mints.

A `Caller` counts up from one, and a request takes the next number once its frame is built.
Calls of all kinds may follow each other, and any of them may fail to build.  What a run mints
depends only on how many of its requests build (`minted_eq`), and so does where it leaves the
counter (`after_eq`).

The counter is a `u64` that stays where it is at its end.  So the ids are 1, 2, 3 and so on, all
different, as long as there are enough of them:

  the ids of a run are sound  ↔  fewer than `2 ^ 64` of its requests build.
-/
import RosUtils.JsonClient

open JsonReader

namespace Jsonrpc

namespace Caller

/-! ### Runs -/

/-- A call on a `Caller`. -/
inductive Call (ε : Type) where
  | request (method : String) (params : Encoded ε)
  | requestWithId (id : Id) (method : String) (params : Encoded ε)
  | notification (method : String) (params : Encoded ε)
  | peekId

/-- What a call returns. -/
inductive Outcome (ε : Type) where
  | requested (result : Except (BuildError ε) (Id × List UInt8))
  | built (result : Except (BuildError ε) (List UInt8))
  | peeked (id : Id)

variable {ε : Type} (lib : SerdeJson)

/-- The id of a request that is built. -/
def Outcome.minted : Outcome ε → Option Id
  | .requested (.ok (id, _)) => some id
  | _ => none

/-- One call. -/
def call (caller : Caller) : Call ε → Outcome ε × Caller
  | .request method params =>
    let (result, caller) := caller.request lib method params
    (.requested result, caller)
  | .requestWithId id method params =>
    (.built (caller.requestWithId lib id method params), caller)
  | .notification method params => (.built (caller.notification lib method params), caller)
  | .peekId => (.peeked caller.peekId, caller)

/-- The caller after the calls. -/
def after (caller : Caller) : List (Call ε) → Caller
  | [] => caller
  | c :: calls => (caller.call lib c).2.after calls

/-- The ids that the requests return which are built, in order. -/
def minted (caller : Caller) : List (Call ε) → List Id
  | [] => []
  | c :: calls => (caller.call lib c).1.minted.toList ++ (caller.call lib c).2.minted calls

/-- The id is the number. -/
def IsNumber (n : ℕ) (id : Id) : Prop := ∃ k : Integer, id = .number (.int k) ∧ k.val = n

/-- The ids of a run can be relied on. -/
structure IdsSound (calls : List (Call ε)) : Prop where
  /-- No two of them are the same. -/
  distinct : (new.minted lib calls).Nodup
  /-- They count up from one. -/
  counted : ∀ n id, (new.minted lib calls)[n]? = some id → IsNumber (n + 1) id
  /-- What mints no id leaves the caller as it is. -/
  kept : ∀ before c rest, calls = before ++ c :: rest →
    ((new.after lib before).call lib c).1.minted = none →
      ((new.after lib before).call lib c).2 = new.after lib before
  /-- The id that is seen is the next one that is minted. -/
  peeked : ∀ before others c rest id, calls = before ++ (others ++ c :: rest) →
    (new.after lib before).minted lib others = [] →
    ((new.after lib (before ++ others)).call lib c).1.minted = some id →
      (new.after lib before).peekId = id

/-! ### Which requests are built -/

/-- The parameters are absent, or encode to a text that begins like an array or an object. -/
def structured : Encoded ε → Bool
  | none => true
  | some (.error _) => false
  | some (.ok raw) =>
    (Utf8.encode raw.val).head? = some '['.toUInt8 ∨ (Utf8.encode raw.val).head? = some '{'.toUInt8

/-- A request whose parameters let it be built. -/
def Call.mints : Call ε → Bool
  | .request _ params => structured params
  | _ => false

theorem openCall_of_structured {params : Encoded ε} (h : structured params = true)
    (out : List UInt8) (method : String) : ∃ out', openCall lib out method params = .ok out' := by
  cases params with
  | none => exact ⟨_, rfl⟩
  | some encoded =>
    cases encoded with
    | error e => cases h
    | ok raw => exact ⟨_, if_pos (of_decide_eq_true h)⟩

theorem openCall_of_not_structured {params : Encoded ε} (h : structured params = false)
    (out : List UInt8) (method : String) : ∃ e, openCall lib out method params = .error e := by
  cases params with
  | none => cases h
  | some encoded =>
    cases encoded with
    | error e => exact ⟨_, rfl⟩
    | ok raw => exact ⟨_, if_neg (of_decide_eq_false h)⟩

/-- **What a call does**, all in all: a request that is built takes the id that was next, and
nothing else changes the caller. -/
theorem call_spec (caller : Caller) (c : Call ε) :
    (caller.call lib c).1.minted = (if c.mints then some caller.peekId else none) ∧
      (caller.call lib c).2 = if c.mints then ⟨saturatingSucc caller.next⟩ else caller := by
  cases c with
  | request method params =>
    cases hparams : structured params with
    | true =>
      obtain ⟨out, hout⟩ := openCall_of_structured lib hparams [] method
      simp only [call, request, requestWithId, hout, Call.mints, hparams]
      exact ⟨rfl, rfl⟩
    | false =>
      obtain ⟨e, he⟩ := openCall_of_not_structured lib hparams [] method
      simp only [call, request, requestWithId, he, Call.mints, hparams]
      exact ⟨rfl, rfl⟩
  -- the ids of the program's own are not the caller's
  | requestWithId id method params => exact ⟨rfl, rfl⟩
  | notification method params => exact ⟨rfl, rfl⟩
  | peekId => exact ⟨rfl, rfl⟩

/-! ### What a run does -/

/-- The caller after `n` ids more. -/
def advanced (caller : Caller) (n : ℕ) : Caller := ⟨saturatingSucc^[n] caller.next⟩

theorem after_eq (caller : Caller) (calls : List (Call ε)) :
    caller.after lib calls = caller.advanced (calls.countP Call.mints) := by
  induction calls generalizing caller with
  | nil => rfl
  | cons c calls ih =>
    rw [after, (call_spec lib caller c).2, ih]
    -- only a call that mints moves the counter
    cases hc : c.mints with
    | true =>
      rw [List.countP_cons_of_pos hc]
      rfl
    | false =>
      rw [List.countP_cons_of_neg (ne_true_of_eq_false hc)]
      rfl

/-- **The ids of a run**: one for each request that is built, from the next one on. -/
theorem minted_eq (caller : Caller) (calls : List (Call ε)) :
    caller.minted lib calls =
      (List.range (calls.countP Call.mints)).map fun n => (caller.advanced n).peekId := by
  induction calls generalizing caller with
  | nil => rfl
  | cons c calls ih =>
    rw [minted, (call_spec lib caller c).1, (call_spec lib caller c).2, ih]
    cases hc : c.mints with
    | true =>
      rw [List.countP_cons_of_pos hc, List.range_succ_eq_map, List.map_cons, List.map_map]
      rfl
    | false =>
      rw [List.countP_cons_of_neg (ne_true_of_eq_false hc)]
      rfl

theorem after_append (caller : Caller) (before others : List (Call ε)) :
    caller.after lib (before ++ others) = (caller.after lib before).after lib others := by
  induction before generalizing caller with
  | nil => rfl
  | cons c before ih => exact ih _

/-- A run that mints nothing leaves the caller as it is. -/
theorem after_of_minted_nil {caller : Caller} {calls : List (Call ε)}
    (h : caller.minted lib calls = []) : caller.after lib calls = caller := by
  rw [minted_eq, List.map_eq_nil_iff, List.range_eq_nil] at h
  rw [after_eq, h]
  rfl

/-! ### The end of the counter -/

theorem saturatingSucc_toNat (n : UInt64) :
    (saturatingSucc n).toNat = min (n.toNat + 1) (2 ^ 64 - 1) := by
  have hn := n.toNat_lt
  rw [saturatingSucc]
  split
  · next h =>
    rw [UInt64.toNat_add]
    show (n.toNat + 1) % 2 ^ 64 = _
    omega
  · omega

theorem iterate_saturatingSucc (n : UInt64) (k : ℕ) :
    (saturatingSucc^[k] n).toNat = min (n.toNat + k) (2 ^ 64 - 1) := by
  have hn := n.toNat_lt
  induction k with
  | zero =>
    show n.toNat = _
    omega
  | succ k ih =>
    rw [Function.iterate_succ_apply', saturatingSucc_toNat, ih]
    omega

/-- The id that a new caller mints after `k` others. -/
theorem isNumber_advanced (k : ℕ) :
    IsNumber (min (k + 1) (2 ^ 64 - 1)) (new.advanced k).peekId := by
  refine ⟨_, rfl, ?_⟩
  show ((saturatingSucc^[k] 1).toNat : ℤ) = _
  rw [iterate_saturatingSucc]
  show ((min (1 + k) (2 ^ 64 - 1) : ℕ) : ℤ) = _
  rw [Nat.add_comm]

theorem IsNumber.unique {n m : ℕ} {id : Id} (h : IsNumber n id) (h' : IsNumber m id) : n = m := by
  obtain ⟨k, rfl, hk⟩ := h
  obtain ⟨k', hid, hk'⟩ := h'
  cases hid
  omega

theorem IsNumber.eq {n : ℕ} {id id' : Id} (h : IsNumber n id) (h' : IsNumber n id') : id = id' := by
  obtain ⟨k, rfl, hk⟩ := h
  obtain ⟨k', rfl, hk'⟩ := h'
  obtain ⟨v, _, _⟩ := k
  obtain ⟨v', _, _⟩ := k'
  cases (hk.trans hk'.symm : v = v')
  rfl

/-- The ids are distinct until the counter stays where it is. -/
theorem minted_nodup_iff (calls : List (Call ε)) :
    (new.minted lib calls).Nodup ↔ calls.countP Call.mints < 2 ^ 64 := by
  rw [minted_eq, List.nodup_map_iff_inj_on List.nodup_range]
  constructor
  · intro hinj
    by_contra hmany
    obtain ⟨k, hk⟩ : ∃ k, k = 2 ^ 64 - 2 := ⟨_, rfl⟩
    -- the request after the one that mints the greatest number mints it again
    have hlast := isNumber_advanced k
    have hagain := isNumber_advanced (k + 1)
    rw [show min (k + 1) (2 ^ 64 - 1) = 2 ^ 64 - 1 by omega] at hlast
    rw [show min (k + 1 + 1) (2 ^ 64 - 1) = 2 ^ 64 - 1 by omega] at hagain
    have hsame := hinj k (List.mem_range.mpr (by omega)) (k + 1) (List.mem_range.mpr (by omega))
      (hlast.eq hagain)
    omega
  · intro hfew i hi j hj hsame
    have hi : i < calls.countP Call.mints := List.mem_range.mp hi
    have hj : j < calls.countP Call.mints := List.mem_range.mp hj
    have hnumber := (isNumber_advanced i).unique (hsame ▸ isNumber_advanced j)
    omega

theorem minted_counted {calls : List (Call ε)} (hfew : calls.countP Call.mints < 2 ^ 64) {n : ℕ}
    {id : Id} (h : (new.minted lib calls)[n]? = some id) : IsNumber (n + 1) id := by
  rw [minted_eq, List.getElem?_map, Option.map_eq_some_iff] at h
  obtain ⟨k, hk, rfl⟩ := h
  obtain ⟨hn, hk⟩ := List.getElem?_eq_some_iff.mp hk
  rw [List.length_range] at hn
  rw [List.getElem_range] at hk
  subst hk
  have hnumber := isNumber_advanced n
  rwa [Nat.min_eq_left (by omega)] at hnumber

/-- **When the ids of a run can be relied on.**  They are distinct and count up from one, and
whatever mints no id uses none up, exactly for the runs in which fewer than `2 ^ 64` requests
are built. -/
theorem idsSound_iff (calls : List (Call ε)) :
    IdsSound lib calls ↔ calls.countP Call.mints < 2 ^ 64 := by
  refine ⟨fun h => (minted_nodup_iff lib calls).mp h.distinct, fun hfew => ?_⟩
  refine ⟨(minted_nodup_iff lib calls).mpr hfew, fun n id => minted_counted lib hfew, ?_, ?_⟩
  · intro before c rest _ hnone
    obtain ⟨hminted, hcaller⟩ := call_spec lib (new.after lib before) c
    rw [hnone] at hminted
    split at hminted
    · cases hminted
    · next hc => rw [hcaller, if_neg hc]
  · intro before others c rest id _ hothers hid
    rw [after_append, after_of_minted_nil lib hothers, (call_spec lib _ c).1] at hid
    split at hid
    · exact Option.some.inj hid
    · cases hid

/-- `2 ^ 64` requests for `ping`: the last two return the same id. -/
theorem ids_collide :
    ¬ IdsSound SerdeJson.reference
      (List.replicate (2 ^ 64) (Call.request "ping" (none : Encoded Unit))) := by
  intro h
  have hmints : (Call.request "ping" (none : Encoded Unit)).mints = true := rfl
  have hfew := (minted_nodup_iff SerdeJson.reference _).mp h.distinct
  rw [List.countP_replicate, if_pos hmints] at hfew
  exact lt_irrefl _ hfew

end Caller

end Jsonrpc
