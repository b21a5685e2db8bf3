/-
The conversation of a PAM transaction (`truenas_pam/src/conv.rs`, `txn.rs`).

A module asks the application through a C callback, `trampoline`, which may run any number
of times inside one stack operation.  It hands the messages to the application's
conversation and the answers back to the module.  A module can be told no more than
`PAM_CONV_ERR`, so the reason of a failure is left in the slot that the callback and the
transaction share, and taken from there when the operation returns.

* `trampoline`, `Transaction.stackOp` — the callback and the operation around it;
* `Callback.Round`, `Callback.Fails` — the round that a callback brings, and why it fails,
  in terms of what libpam passes and what the application answers;
* `trampoline_exact` — what one callback does to the slot and hands over;
* `conversation_accounting` — what an operation reports, after any run of operations.
-/
import RosUtils.PamStepped
import RosUtils.EventLog

open Transition EventLog

namespace Pam.Conv

/-! ### Messages and answers -/

/-- `MsgStyle`. -/
inductive MsgStyle where
  | promptEchoOff
  | promptEchoOn
  | errorMsg
  | textInfo
  deriving DecidableEq, Repr

/-- `MsgStyle::from_raw`. -/
def MsgStyle.fromRaw (style : ℤ) : Option MsgStyle :=
  if style = 1 then some .promptEchoOff
  else if style = 2 then some .promptEchoOn
  else if style = 3 then some .errorMsg
  else if style = 4 then some .textInfo
  else none

/-- A message as the application sees it, and as it is recorded. -/
structure Message where
  style : MsgStyle
  text : List UInt8
  deriving DecidableEq, Repr

/-- `pam_message`: a raw style, and a text or a null pointer. -/
structure PamMessage where
  msgStyle : ℤ
  msg : Option (List UInt8)
  deriving DecidableEq, Repr

/-- `Secret`, by its bytes. -/
abbrev Secret := List UInt8

/-- `pam_response`: the bytes that `resp` points at, or a null pointer. -/
structure Response where
  resp : Option (List UInt8)
  retcode : ℤ
  deriving DecidableEq, Repr

/-- A response as `calloc` leaves it. -/
def Response.zeroed : Response := ⟨none, 0⟩

/-- What a module reads in a response: the string up to its terminator. -/
def Response.read (r : Response) : Option Secret := r.resp.map (·.takeWhile (· != 0))

/-- `PAM_SUCCESS`. -/
def pamSuccess : ℤ := 0

/-- `PAM_BUF_ERR`. -/
def pamBufErr : ℤ := 5

/-- `PAM_CONV_ERR`. -/
def pamConvErr : ℤ := 19

/-- `PAM_MAX_NUM_MSG`. -/
def pamMaxNumMsg : ℤ := 32

/-- `Error::from_raw`: the codes are the block `0..32`. -/
def fromRaw (rc : ℤ) : Error := if 0 ≤ rc ∧ rc < 32 then .pam rc else .unknown rc

/-- `check`. -/
def check (rc : ℤ) : Except Error Unit := if rc = pamSuccess then .ok () else .error (fromRaw rc)

/-- The loop of `responses_to_c`, at answer `i`.  The memory for it is there or not. -/
def fillResponses (alloc : ℕ → Bool) (array : List Response) (i : ℕ) :
    List (Option Secret) → Except Error (List Response)
  | [] => .ok array
  | none :: answers => fillResponses alloc array (i + 1) answers
  | some bytes :: answers =>
    -- the module reads a C string, so the answer must hold no NUL
    if (0 : UInt8) ∈ bytes then .error .nulByte
    else if alloc (i + 1) then
      fillResponses alloc (array.set i ⟨some (bytes ++ [0]), 0⟩) (i + 1) answers
    else .error (.pam pamBufErr)

/-- `responses_to_c`: the array is zeroed, and then one response filled in for each answer. -/
def responsesToC (alloc : ℕ → Bool) (answers : List (Option Secret)) :
    Except Error (List Response) :=
  if alloc 0 then fillResponses alloc (List.replicate answers.length .zeroed) 0 answers
  else .error (.pam pamBufErr)

/-! ### The callback -/

variable {κ P : Type}

/-- `Failure`: an error, or the payload of a panic. -/
inductive Failure (P : Type) where
  | err (e : Error)
  | panic (payload : P)

/-- `ConvSlot`. -/
structure ConvSlot (κ P : Type) where
  conv : κ
  log : List (List Message)
  failure : Option (Failure P)

/-- `ConvSlot::fail`: the first failure wins. -/
def ConvSlot.fail (slot : ConvSlot κ P) (f : Failure P) : ConvSlot κ P :=
  match slot.failure with
  | none => { slot with failure := some f }
  | some _ => slot

/-- How `Conversation::converse` ends. -/
inductive Converse (P : Type) where
  | ok (answers : List (Option Secret))
  | err (e : Error)
  | panicked (payload : P)

/-- A call of the trampoline by libpam.  Where the message array is there, it holds
`num_msg` entries. -/
structure Callback where
  numMsg : ℤ
  msg : Option (List (Option PamMessage))
  /-- the out-parameter is not null -/
  resp : Bool
  appdata : Bool
  /-- the allocations the call makes that succeed -/
  alloc : ℕ → Bool
  holds : ∀ array, msg = some array → numMsg ≤ array.length

/-- What the out-parameter is left with. -/
inductive Handed where
  | untouched
  | null
  | array (responses : List Response)
  deriving DecidableEq, Repr

/-- What libpam gets back from the trampoline. -/
structure Reply where
  code : ℤ
  handed : Handed
  deriving DecidableEq, Repr

/-- The loop that reads the messages. -/
def readMessages : List (Option PamMessage) → Except Error (List Message)
  | [] => .ok []
  | none :: _ => .error (.pam pamConvErr)
  | some m :: rest =>
    match MsgStyle.fromRaw m.msgStyle with
    | none => .error (.unknownMsgStyle m.msgStyle)
    -- a module may send a style with no text
    | some style => (readMessages rest).map (⟨style, m.msg.getD []⟩ :: ·)

/-- The body that the trampoline runs under `catch_unwind`. -/
def build (converse : κ → List Message → Converse P × κ) (slot : ConvSlot κ P)
    (raw : List (Option PamMessage)) (alloc : ℕ → Bool) :
    Except (Failure P) (List Response) × ConvSlot κ P :=
  match readMessages raw with
  | .error e => (.error (.err e), slot)
  | .ok messages =>
    -- recorded before the answer, so that a round that fails is still visible
    let slot := { slot with log := slot.log ++ [messages] }
    match converse slot.conv messages with
    | (.panicked payload, conv) => (.error (.panic payload), { slot with conv })
    | (.err e, conv) => (.error (.err e), { slot with conv })
    | (.ok answers, conv) =>
      if answers.length ≠ raw.length then
        (.error (.err (.pam pamConvErr)), { slot with conv })
      else
        match responsesToC alloc answers with
        | .error e => (.error (.err e), { slot with conv })
        | .ok array => (.ok array, { slot with conv })

/-- `trampoline`. -/
def trampoline (converse : κ → List Message → Converse P × κ) (slot : ConvSlot κ P)
    (c : Callback) : Reply × ConvSlot κ P :=
  match c.appdata, c.msg, c.resp with
  | true, some msg, true =>
    if 1 ≤ c.numMsg ∧ c.numMsg ≤ pamMaxNumMsg then
      match build converse slot (msg.take c.numMsg.toNat) c.alloc with
      | (.ok array, slot) => (⟨pamSuccess, .array array⟩, slot)
      | (.error f, slot) => (⟨pamConvErr, .null⟩, slot.fail f)
    else (⟨pamConvErr, .untouched⟩, slot)
  | _, _, _ => (⟨pamConvErr, .untouched⟩, slot)

/-! ### The transaction -/

/-- A stack operation: the callbacks that libpam makes in it, and the code it returns. -/
structure Operation where
  callbacks : List Callback
  rc : ℤ

/-- The part of a `Transaction` that the operations use. -/
structure Transaction (κ P : Type) where
  slot : ConvSlot κ P
  last : ℤ

/-- What a stack operation returns, if it returns. -/
inductive Outcome (P : Type) where
  | ok
  | err (e : Error)
  | panicked (payload : P)

variable (converse : κ → List Message → Converse P × κ)

/-- The slot after so many callbacks. -/
def converseAll (slot : ConvSlot κ P) (callbacks : List Callback) : ConvSlot κ P :=
  callbacks.foldl (fun slot c => (trampoline converse slot c).2) slot

namespace Transaction

/-- `Transaction::take_conv_failure`. -/
def takeConvFailure (t : Transaction κ P) : Option (Failure P) × Transaction κ P :=
  (t.slot.failure, { t with slot := { t.slot with failure := none } })

/-- `Transaction::stack_op`. -/
def stackOp (t : Transaction κ P) (o : Operation) : Outcome P × Transaction κ P :=
  let t : Transaction κ P := { slot := converseAll converse t.slot o.callbacks, last := o.rc }
  match t.takeConvFailure with
  | (some (.err e), t) => (.err e, t)
  -- the panic resumes here, on the thread that drove the call
  | (some (.panic payload), t) => (.panicked payload, t)
  | (none, t) =>
    match check o.rc with
    | .ok () => (.ok, t)
    | .error e => (.err e, t)

end Transaction

/-- What is done with a transaction. -/
inductive Event (κ : Type) where
  | op (o : Operation)
  /-- `set_conversation` -/
  | setConversation (conv : κ)
  /-- `take_messages` -/
  | takeMessages

/-- The runs of a transaction, from `ConvSlot::new`. -/
def system (conv : κ) : System (Transaction κ P) (Event κ) where
  init := { slot := { conv, log := [], failure := none }, last := pamSuccess }
  step t
    | .op o => some (t.stackOp converse o).2
    | .setConversation conv => some { t with slot := { t.slot with conv } }
    | .takeMessages => some { t with slot := { t.slot with log := [] } }

/-! ### The responses -/

/-- The response for an answer. -/
def toResponse (answer : Option Secret) : Response := ⟨answer.map (· ++ [0]), 0⟩

theorem bne_of_not_mem {c : UInt8} {b : List UInt8} (h : c ∉ b) : ∀ x ∈ b, (x != c) = true := by
  intro x hx
  rw [bne_iff_ne]
  rintro rfl
  exact h hx

/-- A C string is read up to its NUL. -/
theorem takeWhile_string {b : List UInt8} (h : 0 ∉ b) : (b ++ [0]).takeWhile (· != 0) = b := by
  rw [List.takeWhile_append_of_pos (bne_of_not_mem h)]
  exact List.append_nil b

/-- An answer without NUL reads as it was given. -/
theorem read_toResponse {answer : Option Secret} (h : ∀ bytes, answer = some bytes → 0 ∉ bytes) :
    (toResponse answer).read = answer := by
  cases answer with
  | none => rfl
  | some bytes => exact congrArg some (takeWhile_string (h bytes rfl))

/-- The array while it is filled: the responses so far, and zeroes. -/
theorem fillResponses_ok {alloc : ℕ → Bool} {answers : List (Option Secret)}
    {array : List Response} (done : List (Option Secret))
    (h : fillResponses alloc
      (done.map toResponse ++ List.replicate answers.length .zeroed) done.length answers =
        .ok array) :
    array = (done ++ answers).map toResponse ∧ ∀ bytes, some bytes ∈ answers → 0 ∉ bytes := by
  induction answers generalizing done with
  | nil =>
    cases h
    refine ⟨?_, fun bytes hmem => by cases hmem⟩
    rw [List.length_nil, List.replicate_zero, List.append_nil, List.append_nil]
  | cons answer answers ih =>
    -- the next zero becomes the response to the answer
    have hnext : done ++ answer :: answers = done ++ [answer] ++ answers := by
      rw [List.append_assoc, List.singleton_append]
    have hlength : (done ++ [answer]).length = done.length + 1 := by
      rw [List.length_append, List.length_singleton]
    have harray : (done ++ [answer]).map toResponse ++ List.replicate answers.length .zeroed =
        done.map toResponse ++ toResponse answer :: List.replicate answers.length .zeroed := by
      rw [List.map_append, List.append_assoc, List.map_singleton, List.singleton_append]
    cases answer with
    | none =>
      rw [fillResponses, List.length_cons, List.replicate_succ] at h
      have hrest := ih (done ++ [none])
      rw [harray, hlength] at hrest
      obtain ⟨rfl, hnul⟩ := hrest h
      refine ⟨by rw [hnext], fun bytes hmem => hnul bytes ?_⟩
      simpa using hmem
    | some bytes =>
      -- a NUL in the answer ends the loop, and so does a failed allocation
      rw [fillResponses] at h
      split at h
      · cases h
      · next hbytes =>
        split at h
        · have hset : (done.map toResponse ++
              List.replicate (some bytes :: answers).length Response.zeroed).set done.length
                ⟨some (bytes ++ [0]), 0⟩ =
              (done ++ [some bytes]).map toResponse ++
                List.replicate answers.length .zeroed := by
            rw [List.set_append, List.length_map, if_neg (lt_irrefl _), Nat.sub_self,
              List.length_cons, List.replicate_succ, List.set_cons_zero, harray]
            rfl
          rw [hset, ← hlength] at h
          obtain ⟨rfl, hnul⟩ := ih (done ++ [some bytes]) h
          refine ⟨by rw [hnext], fun b hmem => ?_⟩
          obtain heq | hmem := List.mem_cons.mp hmem
          · cases heq
            exact hbytes
          · exact hnul b hmem
        · cases h

/-- There is memory for these answers, and no NUL in them. -/
def Copied (alloc : ℕ → Bool) (answers : List (Option Secret)) : Prop :=
  ∀ (i : ℕ) (bytes : Secret), answers[i]? = some (some bytes) → 0 ∉ bytes ∧ alloc (i + 1) = true

/-- Why answers cannot be handed over: there is no memory for the array, or the first answer
that cannot be copied holds a NUL or finds no memory. -/
inductive Unanswerable (alloc : ℕ → Bool) (answers : List (Option Secret)) : Error → Prop
  | noArray (h : alloc 0 = false) : Unanswerable alloc answers (.pam pamBufErr)
  | nul {before after : List (Option Secret)} {bytes : Secret} (harray : alloc 0 = true)
      (h : answers = before ++ some bytes :: after) (hbefore : Copied alloc before)
      (hnul : 0 ∈ bytes) : Unanswerable alloc answers .nulByte
  | noMemory {before after : List (Option Secret)} {bytes : Secret} (harray : alloc 0 = true)
      (h : answers = before ++ some bytes :: after) (hbefore : Copied alloc before)
      (hnul : 0 ∉ bytes) (hmemory : alloc (before.length + 1) = false) :
      Unanswerable alloc answers (.pam pamBufErr)

theorem Copied.snoc {alloc : ℕ → Bool} {done : List (Option Secret)} (h : Copied alloc done)
    {answer : Option Secret}
    (hlast : ∀ bytes, answer = some bytes → 0 ∉ bytes ∧ alloc (done.length + 1) = true) :
    Copied alloc (done ++ [answer]) := by
  intro i bytes hi
  rcases lt_trichotomy i done.length with hlt | rfl | hlt
  · rw [List.getElem?_append_left hlt] at hi
    exact h i bytes hi
  · rw [List.getElem?_concat_length, Option.some.injEq] at hi
    exact hlast bytes hi
  · rw [List.getElem?_eq_none (by rw [List.length_append, List.length_singleton]; omega)] at hi
    cases hi

/-- The loop ends at the first answer that cannot be copied. -/
theorem fillResponses_total {alloc : ℕ → Bool} (harray : alloc 0 = true)
    {done : List (Option Secret)} (hdone : Copied alloc done) (array : List Response)
    (answers : List (Option Secret)) :
    (∃ array', fillResponses alloc array done.length answers = .ok array') ∨
      ∃ e, fillResponses alloc array done.length answers = .error e ∧
        Unanswerable alloc (done ++ answers) e := by
  induction answers generalizing done array with
  | nil => exact .inl ⟨array, rfl⟩
  | cons answer answers ih =>
    have hlength : (done ++ [answer]).length = done.length + 1 := by
      rw [List.length_append, List.length_singleton]
    have hnext : done ++ answer :: answers = done ++ [answer] ++ answers := by
      rw [List.append_assoc, List.singleton_append]
    cases answer with
    | none =>
      have hcopied : Copied alloc (done ++ [none]) := hdone.snoc fun bytes h => by cases h
      rw [fillResponses, hnext, ← hlength]
      exact ih hcopied array
    | some bytes =>
      rw [fillResponses]
      by_cases hnul : (0 : UInt8) ∈ bytes
      · rw [if_pos hnul]
        exact .inr ⟨_, rfl, .nul harray rfl hdone hnul⟩
      · rw [if_neg hnul]
        cases hmemory : alloc (done.length + 1) with
        | false => exact .inr ⟨_, rfl, .noMemory harray rfl hdone hnul hmemory⟩
        | true =>
          have hcopied : Copied alloc (done ++ [some bytes]) :=
            hdone.snoc fun b h => by cases h; exact ⟨hnul, hmemory⟩
          rw [if_pos rfl, hnext, ← hlength]
          exact ih hcopied _

/-- What can be copied is copied, and then the loop goes on. -/
theorem fillResponses_append {alloc : ℕ → Bool} {before : List (Option Secret)}
    (h : Copied alloc before) (rest : List (Option Secret)) (array : List Response) :
    ∃ array', fillResponses alloc array 0 (before ++ rest) =
      fillResponses alloc array' before.length rest := by
  induction before using List.reverseRecOn generalizing rest with
  | nil => exact ⟨array, rfl⟩
  | append_singleton before answer ih =>
    have hbefore : Copied alloc before := by
      intro i bytes hi
      refine h i bytes ?_
      rw [List.getElem?_append_left (List.getElem?_eq_some_iff.mp hi).1, hi]
    obtain ⟨array', harray⟩ := ih hbefore (answer :: rest)
    rw [List.append_assoc, List.singleton_append, harray, List.length_append,
      List.length_singleton]
    cases answer with
    | none => exact ⟨array', rfl⟩
    | some bytes =>
      obtain ⟨hnul, hmemory⟩ := h before.length bytes List.getElem?_concat_length
      rw [fillResponses, if_neg hnul, if_pos hmemory]
      exact ⟨_, rfl⟩

theorem responsesToC_of_unanswerable {alloc : ℕ → Bool} {answers : List (Option Secret)}
    {e : Error} (h : Unanswerable alloc answers e) : responsesToC alloc answers = .error e := by
  rw [responsesToC]
  cases h with
  | noArray h =>
    rw [h]
    rfl
  | nul harray h hbefore hnul =>
    generalize List.replicate answers.length Response.zeroed = array
    obtain ⟨array', hfill⟩ := fillResponses_append hbefore _ array
    rw [if_pos harray, h, hfill, fillResponses, if_pos hnul]
  | noMemory harray h hbefore hnul hmemory =>
    generalize List.replicate answers.length Response.zeroed = array
    obtain ⟨array', hfill⟩ := fillResponses_append hbefore _ array
    rw [if_pos harray, h, hfill, fillResponses, if_neg hnul, hmemory]
    rfl

theorem responsesToC_total (alloc : ℕ → Bool) (answers : List (Option Secret)) :
    (∃ array, responsesToC alloc answers = .ok array) ∨ ∃ e, Unanswerable alloc answers e := by
  rw [responsesToC]
  cases harray : alloc 0 with
  | false => exact .inr ⟨_, .noArray harray⟩
  | true =>
    have hnone : Copied alloc [] := fun i bytes h => by cases h
    rw [if_pos rfl]
    obtain hok | ⟨e, -, hbad⟩ := fillResponses_total harray hnone _ answers
    · exact .inl hok
    · exact .inr ⟨e, hbad⟩

/-- **The array that is handed over holds one response for each answer, in order.** -/
theorem responsesToC_ok {alloc : ℕ → Bool} {answers : List (Option Secret)}
    {array : List Response} (h : responsesToC alloc answers = .ok array) :
    array.map Response.read = answers := by
  rw [responsesToC] at h
  split at h
  · obtain ⟨rfl, hnul⟩ := fillResponses_ok [] h
    rw [List.nil_append, List.map_map]
    calc answers.map (Response.read ∘ toResponse) = answers.map id := by
          refine List.map_congr_left fun answer hmem => read_toResponse ?_
          rintro bytes rfl
          exact hnul bytes hmem
      _ = answers := List.map_id answers
  · cases h

/-! ### Reading the messages -/

/-- The number that PAM has for a style. -/
def MsgStyle.code : MsgStyle → ℤ
  | .promptEchoOff => 1
  | .promptEchoOn => 2
  | .errorMsg => 3
  | .textInfo => 4

theorem fromRaw_eq_some {n : ℤ} {style : MsgStyle} :
    MsgStyle.fromRaw n = some style ↔ n = style.code := by
  rw [MsgStyle.fromRaw]
  cases style <;> simp only [MsgStyle.code] <;> split_ifs <;> simp_all

theorem fromRaw_eq_none {n : ℤ} :
    MsgStyle.fromRaw n = none ↔ ∀ style : MsgStyle, n ≠ style.code := by
  rw [Option.eq_none_iff_forall_ne_some]
  exact forall_congr' fun style => not_congr fromRaw_eq_some

/-- The pointer leads to a message of one of PAM's styles.  It may have no text. -/
inductive Valid : Option PamMessage → Message → Prop
  | mk {m : PamMessage} {style : MsgStyle} (h : m.msgStyle = style.code) :
      Valid (some m) ⟨style, m.msg.getD []⟩

/-- The first message that is not valid, and the error it is. -/
inductive Unreadable (raw : List (Option PamMessage)) : Error → Prop
  | null {before after : List (Option PamMessage)} {messages : List Message}
      (h : raw = before ++ none :: after) (hbefore : List.Forall₂ Valid before messages) :
      Unreadable raw (.pam pamConvErr)
  | unknown {before after : List (Option PamMessage)} {m : PamMessage} {messages : List Message}
      (h : raw = before ++ some m :: after) (hbefore : List.Forall₂ Valid before messages)
      (hstyle : ∀ style : MsgStyle, m.msgStyle ≠ style.code) :
      Unreadable raw (.unknownMsgStyle m.msgStyle)

/-- Valid messages are read, and then the rest. -/
theorem readMessages_append {before : List (Option PamMessage)} {messages : List Message}
    (h : List.Forall₂ Valid before messages) (rest : List (Option PamMessage)) :
    readMessages (before ++ rest) = (readMessages rest).map (messages ++ ·) := by
  induction h with
  | nil =>
    rw [List.nil_append]
    cases readMessages rest <;> rfl
  | cons hvalid hbefore ih =>
    cases hvalid with
    | mk hstyle =>
      rw [List.cons_append, readMessages, fromRaw_eq_some.mpr hstyle, ih]
      cases readMessages rest <;> rfl

theorem readMessages_of_valid {raw : List (Option PamMessage)} {messages : List Message}
    (h : List.Forall₂ Valid raw messages) : readMessages raw = .ok messages := by
  have hread := readMessages_append h []
  rw [List.append_nil] at hread
  rw [hread]
  exact congrArg Except.ok (List.append_nil messages)

theorem readMessages_of_unreadable {raw : List (Option PamMessage)} {e : Error}
    (h : Unreadable raw e) : readMessages raw = .error e := by
  cases h with
  | null h hbefore =>
    rw [h, readMessages_append hbefore]
    rfl
  | unknown h hbefore hstyle =>
    rw [h, readMessages_append hbefore, readMessages, fromRaw_eq_none.mpr hstyle]
    rfl

/-- All of the messages are valid, or one of them is the first that is not. -/
theorem valid_or_unreadable (raw : List (Option PamMessage)) :
    (∃ messages, List.Forall₂ Valid raw messages) ∨ ∃ e, Unreadable raw e := by
  induction raw with
  | nil => exact .inl ⟨[], .nil⟩
  | cons m raw ih =>
    have hfirst : m :: raw = [] ++ m :: raw := rfl
    cases m with
    | none => exact .inr ⟨_, .null hfirst .nil⟩
    | some m =>
      cases hstyle : MsgStyle.fromRaw m.msgStyle with
      | none => exact .inr ⟨_, .unknown hfirst .nil (fromRaw_eq_none.mp hstyle)⟩
      | some style =>
        have hm := Valid.mk (fromRaw_eq_some.mp hstyle)
        obtain ⟨messages, hvalid⟩ | ⟨e, hbad⟩ := ih
        · exact .inl ⟨_, .cons hm hvalid⟩
        · refine .inr ⟨e, ?_⟩
          cases hbad with
          | null h hbefore => exact .null (congrArg (some m :: ·) h) (.cons hm hbefore)
          | unknown h hbefore hnot =>
            exact .unknown (congrArg (some m :: ·) h) (.cons hm hbefore) hnot

/-! ### One callback -/

/-- Why the body of the trampoline does not complete. -/
inductive FailsOn (conv : κ) (raw : List (Option PamMessage)) (alloc : ℕ → Bool) :
    Failure P → Prop
  /-- a message is null, or of an unknown style -/
  | unreadable {e : Error} (h : Unreadable raw e) : FailsOn conv raw alloc (.err e)
  | refused {messages : List Message} {e : Error} {conv' : κ}
      (h : List.Forall₂ Valid raw messages) (hconv : converse conv messages = (.err e, conv')) :
      FailsOn conv raw alloc (.err e)
  | panicked {messages : List Message} {payload : P} {conv' : κ}
      (h : List.Forall₂ Valid raw messages)
      (hconv : converse conv messages = (.panicked payload, conv')) :
      FailsOn conv raw alloc (.panic payload)
  /-- the number of answers is not the number of messages -/
  | miscounted {messages : List Message} {answers : List (Option Secret)} {conv' : κ}
      (h : List.Forall₂ Valid raw messages)
      (hconv : converse conv messages = (.ok answers, conv'))
      (hcount : answers.length ≠ raw.length) :
      FailsOn conv raw alloc (.err (.pam pamConvErr))
  /-- an answer holds a NUL, or there is no memory for it -/
  | unanswerable {messages : List Message} {answers : List (Option Secret)} {conv' : κ}
      {e : Error} (h : List.Forall₂ Valid raw messages)
      (hconv : converse conv messages = (.ok answers, conv'))
      (hcount : answers.length = raw.length) (hbad : Unanswerable alloc answers e) :
      FailsOn conv raw alloc (.err e)

section Build

variable {converse} {slot : ConvSlot κ P} {raw : List (Option PamMessage)} {alloc : ℕ → Bool}

/-- The body completes: everyone did what was asked. -/
structure Completes (converse : κ → List Message → Converse P × κ) (conv : κ)
    (raw : List (Option PamMessage)) (alloc : ℕ → Bool) (array : List Response)
    (messages : List Message) (answers : List (Option Secret)) : Prop where
  valid : List.Forall₂ Valid raw messages
  answered : (converse conv messages).1 = .ok answers
  count : answers.length = raw.length
  responses : responsesToC alloc answers = .ok array

/-- **The body completes or fails for a reason, and records the round if its messages are
valid.** -/
theorem build_spec (converse : κ → List Message → Converse P × κ) (slot : ConvSlot κ P)
    (raw : List (Option PamMessage)) (alloc : ℕ → Bool) :
    (∀ messages, List.Forall₂ Valid raw messages →
        (build converse slot raw alloc).2.log = slot.log ++ [messages]) ∧
      ((∀ messages, ¬ List.Forall₂ Valid raw messages) →
        (build converse slot raw alloc).2.log = slot.log) ∧
      (build converse slot raw alloc).2.failure = slot.failure ∧
      ((∃ array messages answers, (build converse slot raw alloc).1 = .ok array ∧
        Completes converse slot.conv raw alloc array messages answers) ∨
      ∃ f, (build converse slot raw alloc).1 = .error f ∧
        FailsOn converse slot.conv raw alloc f) := by
  -- one case for each way out of the body
  rw [build]
  obtain ⟨messages, hvalid⟩ | ⟨e, hbad⟩ := valid_or_unreadable raw
  · have hread := readMessages_of_valid hvalid
    have honly : ∀ messages', List.Forall₂ Valid raw messages' → messages' = messages := by
      intro messages' hvalid'
      cases hread.symm.trans (readMessages_of_valid hvalid')
      rfl
    have hlogged : ∀ messages', List.Forall₂ Valid raw messages' →
        slot.log ++ [messages] = slot.log ++ [messages'] :=
      fun messages' hvalid' => by rw [honly messages' hvalid']
    have hnone : (∀ messages', ¬ List.Forall₂ Valid raw messages') →
        slot.log ++ [messages] = slot.log := fun hnot => absurd hvalid (hnot messages)
    rw [hread]
    dsimp only
    cases hconv : converse slot.conv messages with
    | mk r conv =>
    cases r with
    | panicked payload => exact ⟨hlogged, hnone, rfl, .inr ⟨_, rfl, .panicked hvalid hconv⟩⟩
    | err e => exact ⟨hlogged, hnone, rfl, .inr ⟨_, rfl, .refused hvalid hconv⟩⟩
    | ok answers =>
      dsimp only
      by_cases hcount : answers.length = raw.length
      · rw [if_neg (not_not.mpr hcount)]
        obtain ⟨array, hresp⟩ | ⟨e, hbad⟩ := responsesToC_total alloc answers
        · rw [hresp]
          exact ⟨hlogged, hnone, rfl, .inl ⟨array, messages, answers, rfl, hvalid, by rw [hconv],
            hcount, hresp⟩⟩
        · rw [responsesToC_of_unanswerable hbad]
          exact ⟨hlogged, hnone, rfl, .inr ⟨_, rfl, .unanswerable hvalid hconv hcount hbad⟩⟩
      · rw [if_pos hcount]
        exact ⟨hlogged, hnone, rfl, .inr ⟨_, rfl, .miscounted hvalid hconv hcount⟩⟩
  · have hread := readMessages_of_unreadable hbad
    rw [hread]
    refine ⟨fun messages hvalid => ?_, fun _ => rfl, rfl, .inr ⟨.err e, rfl, .unreadable hbad⟩⟩
    cases hread.symm.trans (readMessages_of_valid hvalid)

/-- Where it fails for a reason, that is the reason. -/
theorem build_of_failsOn {f : Failure P} (h : FailsOn converse slot.conv raw alloc f) :
    (build converse slot raw alloc).1 = .error f := by
  rw [build]
  cases h with
  | unreadable h => rw [readMessages_of_unreadable h]
  | refused h hconv =>
    rw [readMessages_of_valid h]
    simp only [hconv]
  | panicked h hconv =>
    rw [readMessages_of_valid h]
    simp only [hconv]
  | miscounted h hconv hcount =>
    rw [readMessages_of_valid h]
    simp only [hconv]
    rw [if_pos hcount]
  | unanswerable h hconv hcount hbad =>
    rw [readMessages_of_valid h]
    simp only [hconv]
    rw [if_neg (not_not.mpr hcount), responsesToC_of_unanswerable hbad]

end Build

namespace Callback

/-- The call gets past the checks of its arguments. -/
structure Reaches (c : Callback) : Prop where
  appdata : c.appdata = true
  msg : c.msg.isSome = true
  resp : c.resp = true
  least : 1 ≤ c.numMsg
  most : c.numMsg ≤ pamMaxNumMsg

instance (c : Callback) : Decidable c.Reaches :=
  decidable_of_iff
    (c.appdata = true ∧ c.msg.isSome = true ∧ c.resp = true ∧ 1 ≤ c.numMsg ∧
      c.numMsg ≤ pamMaxNumMsg)
    ⟨fun ⟨h₁, h₂, h₃, h₄, h₅⟩ => ⟨h₁, h₂, h₃, h₄, h₅⟩,
      fun ⟨h₁, h₂, h₃, h₄, h₅⟩ => ⟨h₁, h₂, h₃, h₄, h₅⟩⟩

/-- The message pointers. -/
def raw (c : Callback) : List (Option PamMessage) := (c.msg.getD []).take c.numMsg.toNat

/-- The call brings these messages: its arguments are there, the number of its messages is
from 1 to `PAM_MAX_NUM_MSG`, and all of them are valid. -/
def Round (c : Callback) (messages : List Message) : Prop :=
  c.Reaches ∧ List.Forall₂ Valid c.raw messages

/-- Why the call fails, once it is past the checks of its arguments. -/
def Fails (c : Callback) (conv : κ) (f : Failure P) : Prop :=
  c.Reaches ∧ FailsOn converse conv c.raw c.alloc f

/-- There are as many pointers as the call says. -/
theorem length_raw {c : Callback} (h : c.Reaches) : (c.raw.length : ℤ) = c.numMsg := by
  obtain ⟨array, harray⟩ := Option.isSome_iff_exists.mp h.msg
  have hholds := c.holds array harray
  have hleast := h.least
  rw [raw, harray, Option.getD_some, List.length_take]
  omega

end Callback

section Trampoline

variable {converse} {slot : ConvSlot κ P} {c : Callback}

/-- What is refused for its arguments leaves everything as it was. -/
theorem trampoline_refused (h : ¬ c.Reaches) :
    trampoline converse slot c = (⟨pamConvErr, .untouched⟩, slot) := by
  rw [trampoline]
  split
  · next msg happdata hmsg hresp =>
    refine if_neg fun hcount => h ⟨happdata, ?_, hresp, hcount.1, hcount.2⟩
    rw [hmsg, Option.isSome_some]
  · rfl

theorem trampoline_reached (h : c.Reaches) :
    trampoline converse slot c =
      match build converse slot c.raw c.alloc with
      | (.ok array, slot) => (⟨pamSuccess, .array array⟩, slot)
      | (.error f, slot) => (⟨pamConvErr, .null⟩, slot.fail f) := by
  obtain ⟨array, harray⟩ := Option.isSome_iff_exists.mp h.msg
  rw [trampoline, h.appdata, harray, h.resp, Callback.raw, harray]
  exact if_pos ⟨h.least, h.most⟩

theorem log_fail (slot : ConvSlot κ P) (f : Failure P) : (slot.fail f).log = slot.log := by
  rw [ConvSlot.fail]
  split <;> rfl

/-- **A callback**, from any slot: what it hands over, what it records, and the failure it
leaves. -/
structure CallbackExact (converse : κ → List Message → Converse P × κ) (slot : ConvSlot κ P)
    (c : Callback) : Prop where
  /-- what succeeds hands over one response for each message, the answer to it -/
  success : (trampoline converse slot c).1.code = pamSuccess →
    ∃ messages answers array, c.Round messages ∧
      (converse slot.conv messages).1 = .ok answers ∧
      (trampoline converse slot c).1.handed = .array array ∧
      (array.length : ℤ) = c.numMsg ∧ (messages.length : ℤ) = c.numMsg ∧
      ∀ i : ℕ, (array[i]?).map Response.read = answers[i]?
  /-- a round is recorded, however it ends -/
  logged : ∀ messages, c.Round messages →
    (trampoline converse slot c).2.log = slot.log ++ [messages]
  /-- and nothing else is -/
  unlogged : (∀ messages, ¬ c.Round messages) → (trampoline converse slot c).2.log = slot.log
  /-- what fails after the messages were looked at hands over nothing -/
  failed : c.Reaches → (trampoline converse slot c).1.code ≠ pamSuccess →
    (trampoline converse slot c).1 = ⟨pamConvErr, .null⟩ ∧ ∃ f, c.Fails converse slot.conv f
  /-- what is refused before that touches nothing -/
  refused : ¬ c.Reaches → trampoline converse slot c = (⟨pamConvErr, .untouched⟩, slot)
  /-- the failure is left in the slot, unless one is there -/
  failure : ∀ f, c.Fails converse slot.conv f →
    (trampoline converse slot c).2.failure = some (slot.failure.getD f)
  quiet : (∀ f, ¬ c.Fails converse slot.conv f) →
    (trampoline converse slot c).2.failure = slot.failure

theorem failure_fail (slot : ConvSlot κ P) (f : Failure P) :
    (slot.fail f).failure = some (slot.failure.getD f) := by
  cases h : slot.failure with
  | none =>
    rw [ConvSlot.fail, h]
    rfl
  | some g =>
    rw [ConvSlot.fail, h]
    exact h

/-- The two ways a callback that gets past its checks can go. -/
theorem trampoline_cases (converse : κ → List Message → Converse P × κ) (slot : ConvSlot κ P)
    (h : c.Reaches) :
    (∃ array messages answers, Completes converse slot.conv c.raw c.alloc array messages answers ∧
        (trampoline converse slot c).1 = ⟨pamSuccess, .array array⟩ ∧
        (trampoline converse slot c).2.failure = slot.failure ∧
        ∀ f, ¬ c.Fails converse slot.conv f) ∨
      ∃ f, c.Fails converse slot.conv f ∧
        (trampoline converse slot c).1 = ⟨pamConvErr, .null⟩ ∧
        (trampoline converse slot c).2.failure = some (slot.failure.getD f) := by
  obtain ⟨-, -, hfailure, hcases⟩ := build_spec converse slot c.raw c.alloc
  rw [trampoline_reached h]
  obtain ⟨array, messages, answers, hbuild, hcompletes⟩ | ⟨f, hbuild, hfails⟩ := hcases
  · refine .inl ⟨array, messages, answers, hcompletes, ?_⟩
    have hnot : ∀ f, ¬ c.Fails converse slot.conv f := by
      rintro f ⟨-, hf⟩
      cases hbuild.symm.trans (build_of_failsOn hf)
    rw [← Prod.eta (build converse slot c.raw c.alloc), hbuild]
    exact ⟨rfl, hfailure, hnot⟩
  · refine .inr ⟨f, ⟨h, hfails⟩, ?_⟩
    rw [← Prod.eta (build converse slot c.raw c.alloc), hbuild]
    refine ⟨rfl, ?_⟩
    dsimp only
    rw [failure_fail, hfailure]

theorem log_reached (converse : κ → List Message → Converse P × κ) (slot : ConvSlot κ P)
    (h : c.Reaches) :
    (trampoline converse slot c).2.log = (build converse slot c.raw c.alloc).2.log := by
  rw [trampoline_reached h]
  split
  · next heq => rw [heq]
  · next heq => rw [log_fail, heq]

/-- The failure is the one that was left. -/
theorem fails_unique {conv : κ} {f g : Failure P} (hf : c.Fails converse conv f)
    (hg : c.Fails converse conv g) : f = g := by
  have hbuild : ∀ f, c.Fails converse conv f →
      (build converse ⟨conv, [], none⟩ c.raw c.alloc).1 = .error f :=
    fun f hf => build_of_failsOn hf.2
  cases (hbuild f hf).symm.trans (hbuild g hg)
  rfl

theorem trampoline_exact (converse : κ → List Message → Converse P × κ) (slot : ConvSlot κ P)
    (c : Callback) : CallbackExact converse slot c where
  success := by
    intro hcode
    by_cases h : c.Reaches
    · obtain ⟨array, messages, answers, hc, hreply, -, -⟩ | ⟨f, -, hreply, -⟩ :=
        trampoline_cases converse slot h
      · -- the answers are read back from the array, so there are as many as messages
        have hread : array.map Response.read = answers := responsesToC_ok hc.responses
        have hlen := Callback.length_raw h
        have harray : array.length = answers.length := by rw [← hread, List.length_map]
        refine ⟨messages, answers, array, ⟨h, hc.valid⟩, hc.answered, by rw [hreply], ?_, ?_, ?_⟩
        · rw [harray, hc.count, hlen]
        · rw [← hc.valid.length_eq, hlen]
        · intro i
          rw [← hread, List.getElem?_map]
      · rw [hreply] at hcode
        cases hcode
    · rw [trampoline_refused h] at hcode
      cases hcode
  logged := by
    rintro messages ⟨h, hvalid⟩
    rw [log_reached converse slot h]
    exact (build_spec converse slot c.raw c.alloc).1 messages hvalid
  unlogged := by
    intro hnot
    by_cases h : c.Reaches
    · rw [log_reached converse slot h]
      exact (build_spec converse slot c.raw c.alloc).2.1 fun messages hvalid =>
        hnot messages ⟨h, hvalid⟩
    · rw [trampoline_refused h]
  failed := by
    intro h hcode
    obtain ⟨array, messages, answers, -, hreply, -, -⟩ | ⟨f, hfails, hreply, -⟩ :=
      trampoline_cases converse slot h
    · rw [hreply] at hcode
      exact absurd rfl hcode
    · exact ⟨hreply, f, hfails⟩
  refused := trampoline_refused
  failure := by
    intro f hf
    obtain ⟨array, messages, answers, -, -, -, hnot⟩ | ⟨g, hg, -, hfailure⟩ :=
      trampoline_cases converse slot hf.1
    · exact absurd hf (hnot f)
    · rw [hfailure, fails_unique hf hg]
  quiet := by
    intro hquiet
    by_cases h : c.Reaches
    · obtain ⟨array, messages, answers, -, -, hfailure, -⟩ | ⟨f, hf, -, -⟩ :=
        trampoline_cases converse slot h
      · exact hfailure
      · exact absurd hf (hquiet f)
    · rw [trampoline_refused h]

end Trampoline

/-! ### One operation -/

/-- What a failure makes of an operation. -/
def Failure.outcome : Failure P → Outcome P
  | .err e => .err e
  | .panic payload => .panicked payload

/-- What the code of the stack makes of it. -/
def codeOutcome (rc : ℤ) : Outcome P :=
  match check rc with
  | .ok () => .ok
  | .error e => .err e

/-- None of the callbacks fails; each is made with the slot as those before left it. -/
def Quiet (slot : ConvSlot κ P) (callbacks : List Callback) : Prop :=
  Everywhere (fun before c _ => ∀ f, ¬ c.Fails converse (converseAll converse slot before).conv f)
    callbacks

/-- These are the rounds of the callbacks, in their order. -/
inductive Rounds : List Callback → List (List Message) → Prop
  | nil : Rounds [] []
  | round {c : Callback} {messages : List Message} {callbacks : List Callback}
      {rounds : List (List Message)} (h : c.Round messages) (hrest : Rounds callbacks rounds) :
      Rounds (c :: callbacks) (messages :: rounds)
  | none {c : Callback} {callbacks : List Callback} {rounds : List (List Message)}
      (h : ∀ messages, ¬ c.Round messages) (hrest : Rounds callbacks rounds) :
      Rounds (c :: callbacks) rounds

/-- An operation on a transaction. -/
structure OpExact (t : Transaction κ P) (o : Operation) : Prop where
  callbacks : Everywhere
    (fun before c _ => CallbackExact converse (converseAll converse t.slot before) c) o.callbacks
  /-- the rounds are recorded in order -/
  log : ∃ rounds, Rounds o.callbacks rounds ∧
    (t.stackOp converse o).2.slot.log = t.slot.log ++ rounds
  /-- the first failure is what is reported, whatever the stack returned and whatever failed
  after it -/
  first : ∀ before c after f, o.callbacks = before ++ c :: after → Quiet converse t.slot before →
    c.Fails converse (converseAll converse t.slot before).conv f →
    (t.stackOp converse o).1 = f.outcome
  /-- where nothing fails in it, the operation reports the code of the stack -/
  none : Quiet converse t.slot o.callbacks → (t.stackOp converse o).1 = codeOutcome o.rc
  /-- nothing is left for a later operation -/
  taken : (t.stackOp converse o).2.slot.failure = Option.none
  last : (t.stackOp converse o).2.last = o.rc

section Operations

variable {converse} {slot : ConvSlot κ P}

theorem converseAll_append (before after : List Callback) :
    converseAll converse slot (before ++ after) =
      converseAll converse (converseAll converse slot before) after := List.foldl_append

theorem log_converseAll (slot : ConvSlot κ P) (callbacks : List Callback) :
    ∃ rounds, Rounds callbacks rounds ∧
      (converseAll converse slot callbacks).log = slot.log ++ rounds := by
  induction callbacks generalizing slot with
  | nil => exact ⟨[], .nil, (List.append_nil _).symm⟩
  | cons c callbacks ih =>
    obtain ⟨rounds, hrounds, hlog⟩ := ih (trampoline converse slot c).2
    have hexact := trampoline_exact converse slot c
    rw [converseAll, List.foldl_cons, ← converseAll, hlog]
    by_cases hround : ∃ messages, c.Round messages
    · obtain ⟨messages, h⟩ := hround
      refine ⟨messages :: rounds, .round h hrounds, ?_⟩
      rw [hexact.logged messages h, List.append_assoc, List.singleton_append]
    · rw [not_exists] at hround
      exact ⟨rounds, .none hround hrounds, by rw [hexact.unlogged hround]⟩

/-- Where nothing fails, the slot is left without a failure. -/
theorem failure_of_quiet {callbacks : List Callback} (h : Quiet converse slot callbacks)
    (hslot : slot.failure = none) : (converseAll converse slot callbacks).failure = none := by
  induction callbacks using List.reverseRecOn with
  | nil => exact hslot
  | append_singleton callbacks c ih =>
    have hbefore : Quiet converse slot callbacks := by
      rintro before d after rfl
      exact h before d (after ++ [c]) (by rw [List.append_assoc, List.cons_append])
    have hlast := h callbacks c [] rfl
    rw [converseAll_append]
    exact ((trampoline_exact converse _ c).quiet hlast).trans (ih hbefore)

/-- A failure stays, whatever comes after. -/
theorem failure_kept {f : Failure P} (callbacks : List Callback) (hslot : slot.failure = some f) :
    (converseAll converse slot callbacks).failure = some f := by
  induction callbacks generalizing slot with
  | nil => exact hslot
  | cons c callbacks ih =>
    refine ih ?_
    have hexact := trampoline_exact converse slot c
    by_cases hfails : ∃ g, c.Fails converse slot.conv g
    · obtain ⟨g, hg⟩ := hfails
      rw [hexact.failure g hg, hslot, Option.getD_some]
    · rw [hexact.quiet (not_exists.mp hfails), hslot]

/-- The first failure is what is left. -/
theorem failure_first {before after : List Callback} {c : Callback} {f : Failure P}
    (hslot : slot.failure = none) (hbefore : Quiet converse slot before)
    (hf : c.Fails converse (converseAll converse slot before).conv f) :
    (converseAll converse slot (before ++ c :: after)).failure = some f := by
  have hquiet := failure_of_quiet hbefore hslot
  rw [converseAll_append]
  refine failure_kept after ?_
  rw [(trampoline_exact converse _ c).failure f hf, hquiet, Option.getD_none]

variable {t : Transaction κ P} {o : Operation}

theorem stackOp_failure {f : Failure P}
    (h : (converseAll converse t.slot o.callbacks).failure = some f) :
    (t.stackOp converse o).1 = f.outcome := by
  rw [Transaction.stackOp, Transaction.takeConvFailure]
  simp only [h]
  cases f <;> rfl

theorem stackOp_none (h : (converseAll converse t.slot o.callbacks).failure = none) :
    (t.stackOp converse o).1 = codeOutcome o.rc := by
  rw [Transaction.stackOp, Transaction.takeConvFailure, codeOutcome]
  simp only [h]
  split <;> rfl

/-- Whatever is reported, the failure is gone from the slot. -/
theorem stackOp_state (t : Transaction κ P) (o : Operation) :
    (t.stackOp converse o).2 =
      { slot := { converseAll converse t.slot o.callbacks with failure := none }
        last := o.rc } := by
  rw [Transaction.stackOp, Transaction.takeConvFailure]
  cases h : (converseAll converse t.slot o.callbacks).failure with
  | none =>
    dsimp only
    split <;> rfl
  | some f => cases f <;> rfl

theorem opExact (ht : t.slot.failure = none) (o : Operation) : OpExact converse t o where
  callbacks := fun _ c _ _ => trampoline_exact converse _ c
  log := by
    rw [stackOp_state]
    exact log_converseAll _ o.callbacks
  first := by
    intro before c after f hsplit hbefore hf
    refine stackOp_failure ?_
    rw [hsplit]
    exact failure_first ht hbefore hf
  none := fun hquiet => stackOp_none (failure_of_quiet hquiet ht)
  taken := by rw [stackOp_state]
  last := by rw [stackOp_state]

/-- Between operations there is no failure in the slot. -/
theorem failure_of_reachable {conv : κ} (h : (system converse conv).Reachable t) :
    t.slot.failure = none := by
  have hstep : ∀ (t : Transaction κ P) e t', t.slot.failure = none →
      (system converse conv).step t e = some t' → t'.slot.failure = none := ?_
  · have hinit : (system converse conv).init.slot.failure = none := rfl
    exact h.invariant hinit hstep
  intro t e t' ht he
  cases e with
  | op o =>
    cases he
    exact (opExact ht o).taken
  | setConversation conv =>
    cases he
    exact ht
  | takeMessages =>
    cases he
    exact ht

end Operations

/-- **After any run of a transaction, every further operation accounts for its callbacks**:
each hands over an answer for each message or nothing, the rounds are recorded, and the
operation reports its own first failure, or else the code of the stack. -/
theorem conversation_accounting {conv : κ} {t : Transaction κ P}
    (ht : (system converse conv).Reachable t) (o : Operation) : OpExact converse t o :=
  opExact (failure_of_reachable ht) o

/-- A conversation that panics when it is asked twice. -/
def once : ℕ → List Message → Converse ℕ × ℕ
  | 0, messages => (.ok (messages.map fun _ => some [112, 119]), 1)
  | n + 1, _ => (.panicked n, n + 2)

/-- One password prompt. -/
def prompt : Callback where
  numMsg := 1
  msg := some [some ⟨1, some [63]⟩]
  resp := true
  appdata := true
  alloc := fun _ => true
  holds := by
    intro array h
    cases h
    exact le_rfl

theorem conversation_accounting_once :
    ∃ t, (system once 0).run (system once 0).init [.op ⟨[prompt], 0⟩] = some t ∧
      (t.stackOp once ⟨[prompt, prompt], 0⟩).1 = .panicked 0 ∧
      OpExact once t ⟨[prompt, prompt], 0⟩ := by
  have hrun : (system once 0).run (system once 0).init [.op ⟨[prompt], 0⟩] = some _ := rfl
  exact ⟨_, rfl, rfl, conversation_accounting once (System.Reachable.init.run hrun) _⟩

end Pam.Conv
