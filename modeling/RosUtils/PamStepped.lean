/-
An authentication driven one round at a time.

`Stepped` runs a PAM operation on a worker thread.  The worker's conversation hands each
round of messages over a rendezvous channel and waits on another one for the answers; the
driver waits for a round, answers it, and lets go by dropping its two ends.  `system` is
the two processes with every interleaving of their steps, the timeouts included.  The
worker may call the conversation any number of times and return anything.

* `Inv.step` — what one step keeps: which of the two is where, and what has passed between
  them;
* `exchange_protocol` — rounds and answers are matched one to one, `Step::Done` means that
  the operation succeeded, nothing is delivered after a timeout, a worker that was let go
  is never blocked, and the transaction comes back with the caller's own conversation.
-/
import RosUtils.Transition

open Transition

namespace Pam

/-- `Error`, with libpam's codes and the system's by their numbers. -/
inductive Error where
  | pam (code : ℤ)
  | unknown (code : ℤ)
  | os (errno : ℤ)
  | unknownMsgStyle (style : ℤ)
  | timeout
  | nulByte
  | invalidName
  | notUtf8
  | outOfSequence
  deriving DecidableEq, Repr

/-- How the operation on the worker ends. -/
inductive OpResult where
  | ok
  | err (e : Error)
  /-- A panic in the conversation, resumed on the driver's thread. -/
  | panicked
  deriving DecidableEq, Repr

/-! ### The driver's half -/

/-- `Phase` -/
inductive Phase where
  /-- Running, and the next round has not been waited for. -/
  | started
  /-- Parked in the conversation. -/
  | prompting
  /-- The operation returned. -/
  | ended
  /-- Abandoned. -/
  | stopped
  deriving DecidableEq, Repr

/-- `Stepped`: whether it has the worker's handle, the two ends of the channels, and the
transaction. -/
structure Stepped where
  worker : Bool
  answers : Bool
  events : Bool
  phase : Phase
  done : Bool
  deriving DecidableEq, Repr

/-- What `Stepped::run` returns. -/
def Stepped.spawned : Stepped := ⟨true, true, true, .started, false⟩

/-- The driver lets go of both channels. -/
def Stepped.release (d : Stepped) : Stepped := { d with answers := false, events := false }

/-- The worker is joined, and the transaction kept. -/
def Stepped.joined (d : Stepped) : Stepped := { d with worker := false, done := true }

/-! ### Both halves -/

/-- What the driver waits for the worker to end for. -/
inductive Join where
  /-- A `wait` or `respond`, by `reap`. -/
  | step
  | finish
  | drop
  deriving DecidableEq, Repr

/-- Where the driver is. -/
inductive DriverPc (A : Type) where
  /-- In `Stepped::run`. -/
  | spawning
  /-- Between two calls. -/
  | idle
  /-- In `respond`, handing the answers over; `limit` says whether there is a timeout. -/
  | sending (answers : A) (limit : Bool)
  /-- In `collect`. -/
  | collecting (limit : Bool)
  | joining (k : Join)
  /-- The `Stepped` is consumed, or was never made. -/
  | gone
  deriving DecidableEq, Repr

/-- Where the worker is. -/
inductive Worker (M : Type) where
  | notStarted
  /-- In the PAM stack. -/
  | running
  /-- In `converse`, handing the messages over. -/
  | sending (messages : M)
  /-- In `converse`, waiting for the answers. -/
  | awaiting
  /-- The operation has returned. -/
  | returned (r : OpResult)
  /-- The caller's conversation is put back; handing `Event::Finished` over. -/
  | restored (r : OpResult)
  /-- The thread has ended. -/
  | exited (r : OpResult)
  deriving DecidableEq, Repr

/-- Whose conversation the transaction has. -/
inductive Conversation where
  | own
  | channel
  deriving DecidableEq, Repr

/-- The two processes, and what has happened so far. -/
structure State (M A : Type) where
  stepped : Stepped
  pc : DriverPc A
  worker : Worker M
  conversation : Conversation
  /-- The messages of every `converse` call, and what the calls that are over returned. -/
  conversed : List M
  results : List (Except Error A)
  /-- The rounds the driver was given by `Step::Prompt`, and the answers it gave. -/
  prompts : List M
  responses : List A
  /-- `Step::Done` was returned. -/
  saidDone : Bool
  /-- The caller has the transaction back. -/
  back : Bool
  /-- How many answers had been delivered when a round timed out. -/
  timedOut : Option ℕ
  /-- How many `converse` calls were over when the driver let go. -/
  releasedAt : Option ℕ

/-- The answers delivered to the worker. -/
def delivered {A : Type} (results : List (Except Error A)) : ℕ := results.countP (·.isOk)

/-- The calls of the driver's owner. -/
inductive Call (A : Type) where
  | wait (limit : Bool)
  | respond (answers : A) (limit : Bool)
  | finish
  | drop

/-- What the worker does alone. -/
inductive Work (M : Type) where
  /-- The stack calls the conversation. -/
  | converse (messages : M)
  | opReturns (r : OpResult)
  | putBack
  /-- The driver's end of a channel is gone. -/
  | promptFails
  | answerFails
  | finishedFails

/-- The two meet on a channel. -/
inductive Meeting where
  | prompt
  | answer
  | finished

/-- How a call of the driver's goes on without a meeting. -/
inductive Wake where
  /-- The worker's end of a channel is gone. -/
  | sendFails
  | disconnected
  | timesOut
  | joins

/-- What can happen. -/
inductive Event (M A : Type) where
  | spawned
  | spawnFails
  | call (c : Call A)
  | work (w : Work M)
  | meet (m : Meeting)
  | wake (w : Wake)

namespace State

variable {M A : Type}

/-- The driver drops its ends. -/
def release (s : State M A) : State M A :=
  { s with
    stepped := s.stepped.release
    releasedAt := s.releasedAt.or (some s.results.length) }

/-- The operation has ended: `reap`, up to the join. -/
def reap (s : State M A) : State M A :=
  let s := { s with stepped := { s.stepped with phase := .ended } }.release
  if s.stepped.worker then { s with pc := .joining .step }
  else { s with pc := .idle, saidDone := true }

/-- `finish`, up to the join.  A worker that is already joined has left the transaction. -/
def finish (s : State M A) : State M A :=
  let s := s.release
  if s.stepped.worker then { s with pc := .joining .finish }
  else { s with
    pc := .gone, back := s.back || s.stepped.done, stepped := { s.stepped with done := false } }

/-- `Drop`, up to the join. -/
def drop (s : State M A) : State M A :=
  let s := s.release
  if s.stepped.worker then { s with pc := .joining .drop }
  else { s with pc := .gone, stepped := { s.stepped with done := false } }

/-- A `converse` call returns. -/
def converseReturns (s : State M A) (r : Except Error A) : State M A :=
  { s with worker := .running, results := s.results ++ [r] }

/-- The worker is joined.  A panic is resumed in the driver, so that `finish` returns
nothing then; `Drop` discards it with the transaction. -/
def join (s : State M A) (r : OpResult) : Join → State M A
  | .step => { s with
      stepped := s.stepped.joined, pc := .idle, saidDone := s.saidDone || r = .ok }
  | .finish => { s with
      stepped := { s.stepped.joined with done := false }, pc := .gone
      back := s.back || r ≠ .panicked }
  | .drop => { s with stepped := { s.stepped.joined with done := false }, pc := .gone }

/-- A round was not answered in time. -/
def abandon (s : State M A) : State M A :=
  { s with
    pc := .idle
    stepped := { s.stepped with phase := .stopped }
    timedOut := s.timedOut.or (some (delivered s.results)) }

/-- `wait`, `respond`, `finish` and `Drop` as far as they go alone. -/
def call (s : State M A) : Call A → State M A
  | .wait limit =>
    -- anything else is `OutOfSequence`
    if s.stepped.phase = .started ∧ s.stepped.events then { s with pc := .collecting limit }
    else s
  | .respond a limit =>
    if s.stepped.phase = .prompting then
      if s.stepped.answers then
        { s with pc := .sending a limit, responses := s.responses ++ [a] }
      else s.reap
    else s
  | .finish => s.finish
  | .drop => s.drop

/-- The worker's steps. -/
def work (s : State M A) : Work M → Option (State M A)
  | .converse m =>
    match s.worker with
    | .running => some { s with worker := .sending m, conversed := s.conversed ++ [m] }
    | _ => none
  | .opReturns r =>
    match s.worker with
    | .running => some { s with worker := .returned r }
    | _ => none
  | .putBack =>
    match s.worker with
    | .returned r => some { s with worker := .restored r, conversation := .own }
    | _ => none
  | .promptFails =>
    match s.worker with
    | .sending _ => if s.stepped.events then none else some (s.converseReturns (.error .timeout))
    | _ => none
  | .answerFails =>
    match s.worker with
    | .awaiting => if s.stepped.answers then none else some (s.converseReturns (.error .timeout))
    | _ => none
  | .finishedFails =>
    match s.worker with
    | .restored r => if s.stepped.events then none else some { s with worker := .exited r }
    | _ => none

/-- A value changes hands: the sender and the receiver go on together. -/
def meet (s : State M A) : Meeting → Option (State M A)
  | .prompt =>
    match s.worker, s.pc with
    | .sending m, .collecting _ =>
      some { s with
        worker := .awaiting, pc := .idle, prompts := s.prompts ++ [m]
        stepped := { s.stepped with phase := .prompting } }
    | _, _ => none
  | .answer =>
    match s.worker, s.pc with
    | .awaiting, .sending a limit =>
      let s := s.converseReturns (.ok a)
      let s := { s with stepped := { s.stepped with phase := .started } }
      -- `collect` without its end is `OutOfSequence`
      some { s with pc := if s.stepped.events then .collecting limit else .idle }
    | _, _ => none
  | .finished =>
    match s.worker, s.pc with
    | .restored r, .collecting _ => some { s with worker := .exited r }.reap
    | _, _ => none

/-- The steps of the driver's calls.  The worker's ends go with the channel that was its
conversation, and with the thread. -/
def wake (s : State M A) : Wake → Option (State M A)
  | .sendFails =>
    match s.pc, s.worker with
    | .sending _ _, .restored _ | .sending _ _, .exited _ => some s.reap
    | _, _ => none
  | .disconnected =>
    match s.pc, s.worker with
    | .collecting _, .exited _ => some s.reap
    | _, _ => none
  | .timesOut =>
    match s.pc with
    | .collecting true => some s.abandon
    | _ => none
  | .joins =>
    match s.pc, s.worker with
    | .joining k, .exited r => some (s.join r k)
    | _, _ => none

/-- One step of either process, or of both on a channel. -/
def step (s : State M A) : Event M A → Option (State M A)
  | .spawned =>
    match s.pc with
    | .spawning => some { s with stepped := .spawned, pc := .idle, worker := .running }
    | _ => none
  | .spawnFails =>
    match s.pc with
    | .spawning => some { s with pc := .gone, conversation := .own, back := true }
    | _ => none
  | .call c =>
    match s.pc with
    | .idle => some (s.call c)
    | _ => none
  | .work w => s.work w
  | .meet m => s.meet m
  | .wake w => s.wake w

end State

/-- The driver and its worker, from `Stepped::run` on: the conversation has been replaced by
the channel. -/
def system (M A : Type) : System (State M A) (Event M A) where
  init := {
    stepped := .spawned, pc := .spawning, worker := .notStarted, conversation := .channel
    conversed := [], results := [], prompts := [], responses := []
    saidDone := false, back := false, timedOut := none, releasedAt := none }
  step := State.step

/-! ### Who is where, and what has passed -/

variable {M A : Type}

/-- The worker is in a `converse` call. -/
@[simp]
def Worker.inConverse : Worker M → ℕ
  | .sending _ | .awaiting => 1
  | _ => 0

/-- The round the worker is handing over. -/
@[simp]
def Worker.offered : Worker M → List M
  | .sending m => [m]
  | _ => []

/-- The worker has put the caller's conversation back. -/
@[simp]
def Worker.Past : Worker M → Prop
  | .restored _ | .exited _ => True
  | _ => False

theorem Worker.not_past_of_inConverse {w : Worker M} (h : w.inConverse = 1) : ¬ w.Past := by
  cases w with
  | restored r => exact absurd h Nat.zero_ne_one
  | exited r => exact absurd h Nat.zero_ne_one
  | _ => exact not_false

/-- The answers the driver is handing over. -/
@[simp]
def DriverPc.offered : DriverPc A → List (Except Error A)
  | .sending a _ => [.ok a]
  | _ => []

/-- All of `answers` were delivered, and the calls since then have failed. -/
def Cut (answers : List A) (results : List (Except Error A)) : Prop :=
  ∃ j, results = answers.map .ok ++ List.replicate j (.error .timeout)

theorem Cut.of_map (answers : List A) : Cut answers (answers.map .ok) := ⟨0, by simp⟩

theorem Cut.snoc {answers : List A} {results : List (Except Error A)} (h : Cut answers results) :
    Cut answers (results ++ [.error .timeout]) := by
  obtain ⟨j, rfl⟩ := h
  exact ⟨j + 1, by rw [List.replicate_succ', List.append_assoc]⟩

theorem delivered_map_ok (answers : List A) :
    delivered (answers.map Except.ok) = answers.length := by
  rw [delivered, List.countP_map]
  exact List.countP_eq_length.mpr fun _ _ => rfl

theorem Cut.delivered {answers : List A} {results : List (Except Error A)}
    (h : Cut answers results) : delivered results = answers.length := by
  obtain ⟨j, rfl⟩ := h
  have hfail : (List.replicate j (.error .timeout : Except Error A)).countP (·.isOk) = 0 :=
    List.countP_eq_zero.mpr fun r hr => by
      rw [List.eq_of_mem_replicate hr]
      exact Bool.false_ne_true
  have hok := delivered_map_ok answers
  rw [Pam.delivered] at hok ⊢
  rw [List.countP_append, hok, hfail, Nat.add_zero]

/-- Where the driver and its worker are. -/
structure Placed (s : State M A) : Prop where
  ends : s.stepped.answers = s.stepped.events
  handle : s.stepped.events = true → s.stepped.worker = true
  spawning : s.pc = .spawning → s.worker = .notStarted ∧ s.stepped = .spawned
  notStarted : s.worker = .notStarted → s.pc = .spawning ∨ s.pc = .gone
  idle : s.pc = .idle → s.stepped.phase = .prompting → s.stepped.events = true
  collecting : ∀ l, s.pc = .collecting l → s.stepped.phase = .started ∧ s.stepped.events = true
  sending : ∀ a l, s.pc = .sending a l →
    s.stepped.phase = .prompting ∧ s.stepped.events = true
  joining : ∀ k, s.pc = .joining k → s.stepped.events = false ∧ s.stepped.worker = true ∧
    (k = .step → s.stepped.phase = .ended)
  prompting : s.stepped.phase = .prompting → s.stepped.events = true → s.worker = .awaiting
  exited : ∀ r, s.worker = .exited r → s.stepped.events = false
  joined : s.stepped.worker = false → ∃ r, s.worker = .exited r
  own : s.conversation = .own ↔ s.worker.Past ∨ s.worker = .notStarted ∧ s.pc = .gone
  back : s.stepped.done = true ∨ s.back = true → s.conversation = .own
  saidDone : s.saidDone = true → s.worker = .exited .ok
  released : s.releasedAt.isSome ↔ s.stepped.events = false
  ended : s.stepped.phase = .ended → s.stepped.events = false
  gone : s.pc = .gone → s.worker = .notStarted ∨ s.stepped.events = false

/-- What has passed between them.  As long as the driver has its ends this is known exactly;
once it has let go, the worker adds nothing but failed calls. -/
structure Passed (s : State M A) : Prop where
  calls : s.conversed.length = s.results.length + s.worker.inConverse
  rounds : s.stepped.events = true → s.conversed = s.prompts ++ s.worker.offered
  answers : s.stepped.events = true → s.responses.map .ok = s.results ++ s.pc.offered
  shown : s.prompts <+: s.conversed
  cut : ∀ n, s.releasedAt = some n → n = s.responses.length ∧ Cut s.responses s.results
  answered : s.responses.length ≤ s.prompts.length
  unanswered : s.prompts.length ≤ s.responses.length + 1
  timedOut : ∀ n, s.timedOut = some n → s.stepped.phase = .stopped ∧ n = s.responses.length

/-- The invariant of the exchange. -/
structure Inv (s : State M A) : Prop extends Placed s, Passed s

theorem Inv.init : Inv (system M A).init := by
  refine ⟨?_, ?_⟩ <;> constructor <;> simp [system, Stepped.spawned]

/-! ### One step -/

variable {s s' : State M A}

theorem Placed.attached (h : Placed s) (hr : s.releasedAt = none) : s.stepped.events = true := by
  by_contra hne
  have hsome := h.released.mpr (Bool.not_eq_true _ ▸ hne)
  rw [hr] at hsome
  cases hsome

/-- A round in hand has a worker waiting for its answers, so that giving them never fails:
the worker still has its end. -/
theorem Placed.awaiting (h : Placed s) {a : A} {l : Bool} (hpc : s.pc = .sending a l) :
    s.worker = .awaiting :=
  h.prompting (h.sending a l hpc).1 (h.sending a l hpc).2

/-- While a round is waited for the worker has not ended. -/
theorem Placed.not_exited (h : Placed s) {l : Bool} (hpc : s.pc = .collecting l) (r : OpResult) :
    s.worker ≠ .exited r := by
  intro hw
  have hattached := (h.collecting l hpc).2
  rw [h.exited r hw] at hattached
  cases hattached

theorem Placed.started (h : Placed s) (hspawning : s.pc ≠ .spawning) (hgone : s.pc ≠ .gone) :
    s.worker ≠ .notStarted := by
  intro hw
  obtain hpc | hpc := h.notStarted hw
  · exact hspawning hpc
  · exact hgone hpc

/-- A worker that is alive moves on. -/
theorem Placed.worker_moves (h : Placed s) (w : Worker M) (conversation : Conversation)
    (conversed : List M) (results : List (Except Error A)) (hold : s.worker ≠ .notStarted)
    (halive : ∀ r, s.worker ≠ .exited r) (hnew : w ≠ .notStarted)
    (hprompting : s.stepped.phase = .prompting → s.stepped.events = true → w = .awaiting)
    (hexited : ∀ r, w = .exited r → s.stepped.events = false)
    (hown : conversation = .own ↔ w.Past)
    (hkept : s.conversation = .own → conversation = .own) :
    Placed { s with
      worker := w, conversation := conversation, conversed := conversed, results := results } where
  ends := h.ends
  handle := h.handle
  spawning hpc := absurd (h.spawning hpc).1 hold
  notStarted hw := absurd hw hnew
  idle := h.idle
  collecting := h.collecting
  sending := h.sending
  joining := h.joining
  prompting := hprompting
  exited := hexited
  joined := by
    intro hjoined
    obtain ⟨r, hr⟩ := h.joined hjoined
    exact absurd hr (halive r)
  own := ⟨fun hc => .inl (hown.mp hc), fun hw => hown.mpr (hw.resolve_right fun hn => hnew hn.1)⟩
  back hb := hkept (h.back hb)
  saidDone hd := absurd (h.saidDone hd) (halive _)
  released := h.released
  ended := h.ended
  gone hpc := .inr ((h.gone hpc).resolve_left hold)

/-- A driver that has its ends goes on. -/
theorem Placed.driver_moves (h : Placed s) (pc : DriverPc A) (phase : Phase) (prompts : List M)
    (responses : List A) (timedOut : Option ℕ) (hevents : s.stepped.events = true)
    (hold : s.worker ≠ .notStarted) (hspawning : pc ≠ .spawning)
    (hjoining : ∀ k, pc ≠ .joining k) (hcollecting : ∀ l, pc = .collecting l → phase = .started)
    (hsending : ∀ a l, pc = .sending a l → phase = .prompting)
    (hprompting : phase = .prompting → s.worker = .awaiting) (hended : phase ≠ .ended)
    (hgone : pc ≠ .gone) :
    Placed { s with
      pc := pc, stepped := { s.stepped with phase := phase }, prompts := prompts
      responses := responses, timedOut := timedOut } where
  ends := h.ends
  handle := h.handle
  spawning hpc := absurd hpc hspawning
  notStarted hw := absurd hw hold
  idle _ _ := hevents
  collecting l hpc := ⟨hcollecting l hpc, hevents⟩
  sending a l hpc := ⟨hsending a l hpc, hevents⟩
  joining k hpc := absurd hpc (hjoining k)
  prompting hphase _ := hprompting hphase
  exited := h.exited
  joined := h.joined
  own := ⟨fun hc => .inl ((h.own.mp hc).resolve_right fun hn => hold hn.1),
    fun hw => h.own.mpr (.inl (hw.resolve_right fun hn => hold hn.1))⟩
  back := h.back
  saidDone := h.saidDone
  released := h.released
  ended hphase := absurd hphase hended
  gone hpc := absurd hpc hgone

/-- The driver lets go, and waits for the worker to end. -/
theorem Placed.lets_go (h : Placed s) (k : Join) (phase : Phase) (hold : s.worker ≠ .notStarted)
    (hw : s.stepped.worker = true) (hphase : k = .step → phase = .ended) :
    Placed { s.release with
      pc := .joining k, stepped := { s.stepped.release with phase := phase } } where
  ends := rfl
  handle := nofun
  spawning := nofun
  notStarted hn := absurd hn hold
  idle := nofun
  collecting := nofun
  sending := nofun
  joining k' hpc := ⟨rfl, hw, fun hk => hphase (by cases hpc; exact hk)⟩
  prompting := nofun
  exited _ _ := rfl
  joined := h.joined
  own := ⟨fun hc => .inl ((h.own.mp hc).resolve_right fun hn => hold hn.1),
    fun hp => h.own.mpr (.inl (hp.resolve_right nofun))⟩
  back := h.back
  saidDone := h.saidDone
  released := by
    refine ⟨fun _ => rfl, fun _ => ?_⟩
    show (s.releasedAt.or (some s.results.length)).isSome = true
    cases s.releasedAt <;> rfl
  ended _ := rfl
  gone := nofun

/-- A worker that has ended is joined, or was joined before. -/
theorem Placed.joins (h : Placed s) {r : OpResult} {pc : DriverPc A}
    {worker done back saidDone : Bool} {releasedAt : Option ℕ} (hw : s.worker = .exited r)
    (hpc : pc = .idle ∧ s.stepped.phase = .ended ∨ pc = .gone)
    (hdone : saidDone = true → r = .ok) (hreleased : releasedAt.isSome = true) :
    Placed { s with
      pc := pc, stepped := { s.stepped.release with worker := worker, done := done }
      back := back, saidDone := saidDone, releasedAt := releasedAt } := by
  have hpast : s.worker.Past := by rw [hw]; trivial
  have hstarted : s.worker ≠ .notStarted := by rw [hw]; nofun
  obtain ⟨rfl, hphase⟩ | rfl := hpc
  · have hidle : s.stepped.phase ≠ .prompting := by rw [hphase]; nofun
    exact ⟨rfl, nofun, nofun, fun hn => absurd hn hstarted, fun _ hp => absurd hp hidle, nofun,
      nofun, nofun, nofun, fun _ _ => rfl, fun _ => ⟨r, hw⟩,
      ⟨fun _ => .inl hpast, fun _ => h.own.mpr (.inl hpast)⟩, fun _ => h.own.mpr (.inl hpast),
      fun hd => by rw [← hdone hd]; exact hw, ⟨fun _ => rfl, fun _ => hreleased⟩, fun _ => rfl,
      fun _ => .inr rfl⟩
  · exact ⟨rfl, nofun, nofun, fun hn => absurd hn hstarted, nofun, nofun,
      nofun, nofun, nofun, fun _ _ => rfl, fun _ => ⟨r, hw⟩,
      ⟨fun _ => .inl hpast, fun _ => h.own.mpr (.inl hpast)⟩, fun _ => h.own.mpr (.inl hpast),
      fun hd => by rw [← hdone hd]; exact hw, ⟨fun _ => rfl, fun _ => hreleased⟩, fun _ => rfl,
      fun _ => .inr rfl⟩

/-- `Step::Done` was returned for an operation that succeeded. -/
theorem Placed.ok_of_saidDone (h : Placed s) {r : OpResult} (hw : s.worker = .exited r)
    (hd : s.saidDone = true) : r = .ok := by
  have hok := h.saidDone hd
  rw [hw] at hok
  cases hok
  rfl

theorem State.release_isSome (s : State M A) : s.release.releasedAt.isSome = true := by
  show (s.releasedAt.or (some s.results.length)).isSome = true
  cases s.releasedAt <;> rfl

theorem Placed.call (h : Placed s) (hpc : s.pc = .idle) (c : Call A) : Placed (s.call c) := by
  have hold : s.worker ≠ .notStarted := h.started (by rw [hpc]; nofun) (by rw [hpc]; nofun)
  cases c with
  | wait l =>
    rw [State.call]
    split
    · next hphase =>
      have hprompting : s.stepped.phase ≠ .prompting := by rw [hphase.1]; nofun
      exact h.driver_moves _ _ _ _ _ hphase.2 hold nofun nofun (fun _ _ => hphase.1) nofun
        (fun hp => absurd hp hprompting) (by rw [hphase.1]; nofun) nofun
    · exact h
  | respond a l =>
    rw [State.call]
    split
    · next hphase =>
      have hevents := h.idle hpc hphase
      have hanswers : s.stepped.answers = true := by rw [h.ends]; exact hevents
      rw [if_pos hanswers]
      exact h.driver_moves _ _ _ _ _ hevents hold nofun nofun nofun (fun _ _ _ => hphase)
        (fun _ => h.prompting hphase hevents) (by rw [hphase]; nofun) nofun
    · exact h
  | finish =>
    rw [State.call, State.finish]
    split
    · next hw => exact h.lets_go _ _ hold hw nofun
    · next hw =>
      obtain ⟨r, hr⟩ := h.joined (Bool.not_eq_true _ ▸ hw)
      exact h.joins hr (.inr rfl) (h.ok_of_saidDone hr) s.release_isSome
  | drop =>
    rw [State.call, State.drop]
    split
    · next hw => exact h.lets_go _ _ hold hw nofun
    · next hw =>
      obtain ⟨r, hr⟩ := h.joined (Bool.not_eq_true _ ▸ hw)
      exact h.joins hr (.inr rfl) (h.ok_of_saidDone hr) s.release_isSome

/-- Until it puts the conversation back the worker has the channel. -/
theorem Placed.channel (h : Placed s) (hw : s.worker ≠ .notStarted) (hpast : ¬ s.worker.Past) :
    s.conversation ≠ .own := by
  intro hc
  obtain hp | hn := h.own.mp hc
  · exact hpast hp
  · exact hw hn.1

/-- The worker's steps: the stack calls the conversation or returns, the conversation is put
back, and with the driver gone a call fails or the thread ends. -/
theorem Placed.work_cases (h : Placed s) {w : Work M} (hs : s.work w = some s') :
    (∃ m, s.worker = .running ∧
      s' = { s with worker := .sending m, conversed := s.conversed ++ [m] }) ∨
    (∃ r, s.worker = .running ∧ s' = { s with worker := .returned r }) ∨
    (∃ r, s.worker = .returned r ∧
      s' = { s with worker := .restored r, conversation := .own }) ∨
    (s.worker.inConverse = 1 ∧ s.stepped.events = false ∧
      s' = s.converseReturns (.error .timeout)) ∨
    (∃ r, s.worker = .restored r ∧ s.stepped.events = false ∧
      s' = { s with worker := .exited r }) := by
  cases w with
  | converse m =>
    simp only [State.work] at hs
    split at hs <;> cases hs
    next hw => exact .inl ⟨m, hw, rfl⟩
  | opReturns r =>
    simp only [State.work] at hs
    split at hs <;> cases hs
    next hw => exact .inr (.inl ⟨r, hw, rfl⟩)
  | putBack =>
    simp only [State.work] at hs
    split at hs <;> cases hs
    next r hw => exact .inr (.inr (.inl ⟨r, hw, rfl⟩))
  | promptFails =>
    simp only [State.work] at hs
    split at hs
    · next hw =>
      split at hs <;> cases hs
      next hevents =>
        exact .inr (.inr (.inr (.inl ⟨by rw [hw]; rfl, Bool.not_eq_true _ ▸ hevents, rfl⟩)))
    · cases hs
  | answerFails =>
    simp only [State.work] at hs
    split at hs
    · next hw =>
      split at hs <;> cases hs
      next hanswers =>
        rw [h.ends] at hanswers
        exact .inr (.inr (.inr (.inl ⟨by rw [hw]; rfl, Bool.not_eq_true _ ▸ hanswers, rfl⟩)))
    · cases hs
  | finishedFails =>
    simp only [State.work] at hs
    split at hs
    · next r hw =>
      split at hs <;> cases hs
      next hevents =>
        exact .inr (.inr (.inr (.inr ⟨r, hw, Bool.not_eq_true _ ▸ hevents, rfl⟩)))
    · cases hs

theorem Placed.work (h : Placed s) {w : Work M} (hs : s.work w = some s') : Placed s' := by
  -- a worker that moves on alone is not at a prompt that the driver has in hand
  have hmoves {w : Worker M} (hw : s.worker ≠ .awaiting) :
      s.stepped.phase = .prompting → s.stepped.events = true → w = .awaiting :=
    fun hphase hevents => absurd (h.prompting hphase hevents) hw
  obtain ⟨m, hw, rfl⟩ | ⟨r, hw, rfl⟩ | ⟨r, hw, rfl⟩ | ⟨hw, hevents, rfl⟩ | ⟨r, hw, hevents, rfl⟩ :=
    h.work_cases hs
  · have hc := h.channel (by rw [hw]; nofun) (by rw [hw]; exact not_false)
    exact h.worker_moves _ _ _ _ (by rw [hw]; nofun) (by rw [hw]; nofun) nofun
      (hmoves (by rw [hw]; nofun)) nofun ⟨fun ho => absurd ho hc, False.elim⟩ id
  · have hc := h.channel (by rw [hw]; nofun) (by rw [hw]; exact not_false)
    exact h.worker_moves _ _ _ _ (by rw [hw]; nofun) (by rw [hw]; nofun) nofun
      (hmoves (by rw [hw]; nofun)) nofun ⟨fun ho => absurd ho hc, False.elim⟩ id
  · exact h.worker_moves _ _ _ _ (by rw [hw]; nofun) (by rw [hw]; nofun) nofun
      (hmoves (by rw [hw]; nofun)) nofun ⟨fun _ => trivial, fun _ => rfl⟩ fun _ => rfl
  · have hgone : s.stepped.events ≠ true := by rw [hevents]; nofun
    have hstarted : s.worker ≠ .notStarted := by
      intro hn
      rw [hn] at hw
      cases hw
    have halive (r : OpResult) : s.worker ≠ .exited r := by
      intro hn
      rw [hn] at hw
      cases hw
    have hc := h.channel hstarted (Worker.not_past_of_inConverse hw)
    exact h.worker_moves _ _ _ _ hstarted halive nofun (fun _ he => absurd he hgone) nofun
      ⟨fun ho => absurd ho hc, False.elim⟩ id
  · have hgone : s.stepped.events ≠ true := by rw [hevents]; nofun
    have hc : s.conversation = .own := h.own.mpr (.inl (by rw [hw]; trivial))
    exact h.worker_moves _ _ _ _ (by rw [hw]; nofun) (by rw [hw]; nofun) nofun
      (fun _ he => absurd he hgone) (fun _ _ => hevents) ⟨fun _ => trivial, fun _ => hc⟩ id

theorem State.reap_of_worker (hw : s.stepped.worker = true) :
    s.reap = { s.release with
      pc := .joining .step, stepped := { s.stepped.release with phase := .ended } } :=
  if_pos hw

theorem Placed.meet (h : Placed s) {m : Meeting} (hs : s.meet m = some s') : Placed s' := by
  cases m with
  | prompt =>
    simp only [State.meet] at hs
    split at hs <;> cases hs
    next m l hw hpc =>
      have hold : s.worker ≠ .notStarted := by rw [hw]; nofun
      have hc := h.channel hold (by rw [hw]; exact not_false)
      -- the worker has handed its round over, and then the driver has it in hand
      have hworker := h.worker_moves .awaiting s.conversation s.conversed s.results hold
        (by rw [hw]; nofun) nofun (fun _ _ => rfl) nofun ⟨fun ho => absurd ho hc, False.elim⟩ id
      exact hworker.driver_moves .idle .prompting (s.prompts ++ [m]) s.responses s.timedOut
        (h.collecting l hpc).2 nofun nofun nofun nofun nofun (fun _ => rfl) nofun nofun
  | answer =>
    simp only [State.meet] at hs
    split at hs <;> cases hs
    next a l hw hpc =>
      have hevents := (h.sending a l hpc).2
      have hold : s.worker ≠ .notStarted := by rw [hw]; nofun
      have halive (r : OpResult) : s.worker ≠ .exited r := by rw [hw]; nofun
      have hc := h.channel hold (by rw [hw]; exact not_false)
      -- the driver has no round in hand any more, and then the worker goes on with its answers
      have hdriver := h.driver_moves (.collecting l) .started s.prompts s.responses s.timedOut
        hevents hold nofun nofun (fun _ _ => rfl) nofun nofun nofun nofun
      have hworker := hdriver.worker_moves .running s.conversation s.conversed
        (s.results ++ [.ok a]) hold halive nofun nofun nofun
        ⟨fun ho => absurd ho hc, False.elim⟩ id
      simpa only [State.converseReturns, hevents, if_true] using hworker
  | finished =>
    simp only [State.meet] at hs
    split at hs <;> cases hs
    next r l hw hpc =>
      have hhandle := h.handle (h.collecting l hpc).2
      have hold : s.worker ≠ .notStarted := by rw [hw]; nofun
      have halive (r : OpResult) : s.worker ≠ .exited r := by rw [hw]; nofun
      have hc : s.conversation = .own := h.own.mpr (.inl (by rw [hw]; trivial))
      have hdriver := h.lets_go .step .ended hold hhandle fun _ => rfl
      have hworker := hdriver.worker_moves (.exited r) s.conversation s.conversed s.results
        hold halive nofun nofun (fun _ _ => rfl) ⟨fun _ => trivial, fun _ => hc⟩ id
      rw [State.reap_of_worker (s := { s with worker := .exited r }) hhandle]
      exact hworker

/-- Of the ways a call goes on alone, only the timeout and the join ever happen: a worker
that is still needed has not gone. -/
theorem Placed.wake_cases (h : Placed s) {w : Wake} (hs : s.wake w = some s') :
    (s.pc = .collecting true ∧ s' = s.abandon) ∨
      ∃ k r, s.pc = .joining k ∧ s.worker = .exited r ∧ s' = s.join r k := by
  cases w with
  | sendFails =>
    simp only [State.wake] at hs
    split at hs
    · next hpc hw => rw [h.awaiting hpc] at hw; cases hw
    · next hpc hw => rw [h.awaiting hpc] at hw; cases hw
    · cases hs
  | disconnected =>
    simp only [State.wake] at hs
    split at hs
    · next hpc hw => exact absurd hw (h.not_exited hpc _)
    · cases hs
  | timesOut =>
    simp only [State.wake] at hs
    split at hs <;> cases hs
    next hpc => exact .inl ⟨hpc, rfl⟩
  | joins =>
    simp only [State.wake] at hs
    split at hs <;> cases hs
    next k r hpc hw => exact .inr ⟨k, r, hpc, hw, rfl⟩

theorem Placed.wake (h : Placed s) {w : Wake} (hs : s.wake w = some s') : Placed s' := by
  obtain ⟨hpc, rfl⟩ | ⟨k, r, hpc, hw, rfl⟩ := h.wake_cases hs
  · have hold := h.started (by rw [hpc]; nofun) (by rw [hpc]; nofun)
    exact h.driver_moves _ _ _ _ _ (h.collecting true hpc).2 hold nofun nofun nofun nofun nofun
      nofun nofun
  · obtain ⟨hevents, -, hphase⟩ := h.joining k hpc
    have hjoined : s.stepped.joined = { s.stepped.release with worker := false, done := true } := by
      rw [Stepped.joined, Stepped.release, ← hevents, h.ends]
    have hreleased := h.released.mpr hevents
    cases k with
    | step =>
      rw [State.join, hjoined]
      refine h.joins hw (.inl ⟨rfl, hphase rfl⟩) (fun hd => ?_) hreleased
      obtain hd | hd := (Bool.or_eq_true _ _).mp hd
      · exact h.ok_of_saidDone hw hd
      · exact of_decide_eq_true hd
    | finish =>
      rw [State.join, hjoined]
      exact h.joins hw (.inr rfl) (h.ok_of_saidDone hw) hreleased
    | drop =>
      rw [State.join, hjoined]
      exact h.joins hw (.inr rfl) (h.ok_of_saidDone hw) hreleased

/-- Letting go between two meetings cuts the exchange where it stands. -/
theorem Passed.cut_release (h : Passed s) (hp : Placed s) (hpc : s.pc.offered = []) :
    ∀ n, s.release.releasedAt = some n → n = s.responses.length ∧ Cut s.responses s.results := by
  intro n hn
  rw [State.release] at hn
  cases hr : s.releasedAt with
  | some k =>
    rw [hr, Option.some_or, Option.some.injEq] at hn
    exact hn ▸ h.cut k hr
  | none =>
    have hall := h.answers (hp.attached hr)
    rw [hpc, List.append_nil] at hall
    rw [hr, Option.none_or, Option.some.injEq] at hn
    rw [← hn, ← hall, List.length_map]
    exact ⟨rfl, .of_map _⟩

/-- A step that hands nothing over leaves what has passed. -/
theorem Passed.moves (h : Passed s) (stepped : Stepped) (pc : DriverPc A) (worker : Worker M)
    (conversation : Conversation) (saidDone back : Bool) (releasedAt : Option ℕ)
    (hevents : stepped.events = true → s.stepped.events = true)
    (hcalls : worker.inConverse = s.worker.inConverse) (hround : worker.offered = s.worker.offered)
    (hanswers : pc.offered = s.pc.offered)
    (hcut : ∀ n, releasedAt = some n → n = s.responses.length ∧ Cut s.responses s.results)
    (hstopped : s.stepped.phase = .stopped → stepped.phase = .stopped) :
    Passed { s with
      stepped := stepped, pc := pc, worker := worker, conversation := conversation
      saidDone := saidDone, back := back, releasedAt := releasedAt } where
  calls := by rw [hcalls]; exact h.calls
  rounds he := by rw [hround]; exact h.rounds (hevents he)
  answers he := by rw [hanswers]; exact h.answers (hevents he)
  shown := h.shown
  cut := hcut
  answered := h.answered
  unanswered := h.unanswered
  timedOut n ht := ⟨hstopped (h.timedOut n ht).1, (h.timedOut n ht).2⟩

/-- As long as the driver has its ends nothing has been cut. -/
theorem Placed.cut_of_attached (h : Placed s) (hevents : s.stepped.events = true) {P : ℕ → Prop} :
    ∀ n, s.releasedAt = some n → P n := by
  intro n hn
  have hreleased := h.released.mp (by rw [hn]; rfl)
  rw [hevents] at hreleased
  cases hreleased

/-- Until the driver stops, no call of it has timed out. -/
theorem Passed.timedOut_eq_none (h : Passed s) (hrunning : s.stepped.phase ≠ .stopped) :
    s.timedOut = none := by
  cases ht : s.timedOut with
  | none => rfl
  | some n => exact absurd (h.timedOut n ht).1 hrunning

theorem Passed.call (h : Passed s) (hp : Placed s) (hpc : s.pc = .idle) (c : Call A) :
    Passed (s.call c) := by
  have hidle : s.pc.offered = [] := by rw [hpc]; rfl
  have hcut := h.cut_release hp hidle
  cases c with
  | wait l =>
    rw [State.call]
    split
    · exact h.moves _ _ _ _ _ _ _ id rfl rfl hidle.symm h.cut id
    · exact h
  | respond a l =>
    rw [State.call]
    split
    · next hphase =>
      have hevents := hp.idle hpc hphase
      have hanswers : s.stepped.answers = true := by rw [hp.ends]; exact hevents
      have hw := hp.prompting hphase hevents
      have hall := h.answers hevents
      have hrounds := congrArg List.length (h.rounds hevents)
      have hcalls := h.calls
      rw [hidle, List.append_nil] at hall
      rw [hw, List.length_append] at hrounds
      rw [hw] at hcalls
      -- the worker waits in the call of the last prompt, which has no answers yet
      have hlength : s.prompts.length = s.responses.length + 1 := by
        rw [← hall, List.length_map] at hcalls
        exact (hrounds.symm.trans hcalls)
      rw [if_pos hanswers]
      refine ⟨h.calls, h.rounds, fun _ => ?_, h.shown, hp.cut_of_attached hevents, ?_, ?_,
        fun n ht => ?_⟩
      · show (s.responses ++ [a]).map Except.ok = s.results ++ [.ok a]
        rw [List.map_append, hall]
        rfl
      · show (s.responses ++ [a]).length ≤ s.prompts.length
        rw [List.length_append, hlength]
        rfl
      · show s.prompts.length ≤ (s.responses ++ [a]).length + 1
        rw [List.length_append, hlength]
        omega
      · have hnone := h.timedOut_eq_none (by rw [hphase]; nofun)
        cases hnone.symm.trans ht
    · exact h
  | finish =>
    rw [State.call, State.finish]
    split
    · exact h.moves _ _ _ _ _ _ _ nofun rfl rfl hidle.symm hcut id
    · exact h.moves _ _ _ _ _ _ _ nofun rfl rfl hidle.symm hcut id
  | drop =>
    rw [State.call, State.drop]
    split
    · exact h.moves _ _ _ _ _ _ _ nofun rfl rfl hidle.symm hcut id
    · exact h.moves _ _ _ _ _ _ _ nofun rfl rfl hidle.symm hcut id

theorem Passed.work (h : Passed s) (hp : Placed s) {w : Work M} (hs : s.work w = some s') :
    Passed s' := by
  have hcalls := h.calls
  obtain ⟨m, hw, rfl⟩ | ⟨r, hw, rfl⟩ | ⟨r, hw, rfl⟩ | ⟨hw, hevents, rfl⟩ | ⟨r, hw, hevents, rfl⟩ :=
    hp.work_cases hs
  -- the stack calls the conversation: there is one call more than results
  · rw [hw] at hcalls
    refine ⟨?_, fun hevents => ?_, h.answers, h.shown.trans (List.prefix_append _ _), h.cut,
      h.answered, h.unanswered, h.timedOut⟩
    · show (s.conversed ++ [m]).length = s.results.length + 1
      rw [List.length_append, hcalls]
      rfl
    · have hrounds := h.rounds hevents
      simp only [hw, Worker.offered, List.append_nil] at hrounds
      show s.conversed ++ [m] = s.prompts ++ [m]
      rw [hrounds]
  · exact h.moves _ _ _ _ _ _ _ id (by rw [hw]; rfl) (by rw [hw]; rfl) rfl h.cut id
  · exact h.moves _ _ _ _ _ _ _ id (by rw [hw]; rfl) (by rw [hw]; rfl) rfl h.cut id
  · -- a call fails: the driver has let go, so that only the cut grows
    have hgone : s.stepped.events ≠ true := by rw [hevents]; nofun
    rw [hw] at hcalls
    refine ⟨?_, fun he => absurd he hgone, fun he => absurd he hgone, h.shown, fun n hn => ?_,
      h.answered, h.unanswered, h.timedOut⟩
    · show s.conversed.length = (s.results ++ [Except.error Error.timeout]).length + 0
      rw [hcalls, List.length_append, List.length_singleton, Nat.add_zero]
    · exact ⟨(h.cut n hn).1, (h.cut n hn).2.snoc⟩
  · exact h.moves _ _ _ _ _ _ _ id (by rw [hw]; rfl) (by rw [hw]; rfl) rfl h.cut id

theorem Passed.meet (h : Passed s) (hp : Placed s) {m : Meeting} (hs : s.meet m = some s') :
    Passed s' := by
  cases m with
  | prompt =>
    simp only [State.meet] at hs
    split at hs <;> cases hs
    next m l hw hpc =>
      obtain ⟨hphase, hevents⟩ := hp.collecting l hpc
      have hrounds := h.rounds hevents
      have hall := h.answers hevents
      have hcalls := h.calls
      rw [hw] at hrounds hcalls
      simp only [hpc, DriverPc.offered, List.append_nil] at hall
      -- every prompt before this one is answered, as the calls before it have returned
      have hlength : s.prompts.length = s.responses.length := by
        rw [hrounds, ← hall, List.length_append, List.length_map] at hcalls
        exact Nat.add_right_cancel hcalls
      refine ⟨?_, fun _ => ?_, fun _ => ?_, ?_, hp.cut_of_attached hevents, ?_, ?_, fun n ht => ?_⟩
      · exact hcalls
      · show s.conversed = s.prompts ++ [m] ++ []
        rw [List.append_nil]
        exact hrounds
      · show s.responses.map Except.ok = s.results ++ []
        rw [List.append_nil]
        exact hall
      · rw [hrounds]
        exact List.prefix_rfl
      · show s.responses.length ≤ (s.prompts ++ [m]).length
        rw [List.length_append, hlength]
        omega
      · show (s.prompts ++ [m]).length ≤ s.responses.length + 1
        rw [List.length_append, hlength]
        rfl
      · have hnone := h.timedOut_eq_none (by rw [hphase]; nofun)
        cases hnone.symm.trans ht
  | answer =>
    simp only [State.meet] at hs
    split at hs <;> cases hs
    next a l hw hpc =>
      obtain ⟨hphase, hevents⟩ := hp.sending a l hpc
      have hrounds := h.rounds hevents
      have hall := h.answers hevents
      have hcalls := h.calls
      rw [hw] at hrounds hcalls
      rw [hpc] at hall
      refine ⟨?_, fun _ => hrounds, fun _ => ?_, h.shown, hp.cut_of_attached hevents, h.answered,
        h.unanswered, fun n ht => ?_⟩
      · show s.conversed.length = (s.results ++ [Except.ok a]).length + 0
        rw [hcalls, List.length_append]
        rfl
      · simp only [State.converseReturns, hevents, if_true, DriverPc.offered, List.append_nil]
        exact hall
      · have hnone := h.timedOut_eq_none (by rw [hphase]; nofun)
        cases hnone.symm.trans ht
  | finished =>
    simp only [State.meet] at hs
    split at hs <;> cases hs
    next r l hw hpc =>
      obtain ⟨hphase, hevents⟩ := hp.collecting l hpc
      have hcut := h.cut_release hp (by rw [hpc]; rfl)
      have hrunning : s.stepped.phase ≠ .stopped := by rw [hphase]; nofun
      rw [State.reap_of_worker (s := { s with worker := .exited r }) (hp.handle hevents)]
      exact h.moves _ _ _ _ _ _ _ nofun (by rw [hw]; rfl) (by rw [hw]; rfl) (by rw [hpc]; rfl)
        hcut fun hs => absurd hs hrunning

theorem Passed.wake (h : Passed s) (hp : Placed s) {w : Wake} (hs : s.wake w = some s') :
    Passed s' := by
  obtain ⟨hpc, rfl⟩ | ⟨k, r, hpc, hw, rfl⟩ := hp.wake_cases hs
  · obtain ⟨hphase, hevents⟩ := hp.collecting true hpc
    have hall := h.answers hevents
    simp only [hpc, DriverPc.offered, List.append_nil] at hall
    have hdelivered : delivered s.results = s.responses.length := by rw [← hall, delivered_map_ok]
    have hfirst := h.timedOut_eq_none (by rw [hphase]; nofun)
    refine ⟨h.calls, h.rounds, fun _ => ?_, h.shown, h.cut, h.answered, h.unanswered,
      fun n ht => ⟨rfl, ?_⟩⟩
    · show s.responses.map Except.ok = s.results ++ []
      rw [List.append_nil]
      exact hall
    · simp only [State.abandon, hfirst, Option.none_or, Option.some.injEq] at ht
      rw [← ht]
      exact hdelivered
  · have hgone : s.stepped.events ≠ true := by rw [(hp.joining k hpc).1]; nofun
    have hidle : s.pc.offered = [] := by rw [hpc]; rfl
    cases k <;>
      exact h.moves _ _ _ _ _ _ _ (fun he => absurd he hgone) rfl rfl hidle.symm h.cut id

theorem Inv.step (h : Inv s) {e : Event M A} (hs : s.step e = some s') : Inv s' := by
  obtain ⟨hp, hd⟩ := h
  cases e with
  | spawned =>
    simp only [State.step] at hs
    split at hs <;> cases hs
    next hpc =>
      obtain ⟨hw, hstepped⟩ := hp.spawning hpc
      -- the channel took the place of the conversation before the thread was spawned
      have hc : s.conversation ≠ .own := by
        intro ho
        have hown := hp.own.mp ho
        rw [hw, hpc] at hown
        obtain hpast | ⟨-, hgone⟩ := hown
        · exact hpast
        · cases hgone
      have hrunning : s.worker ≠ .exited .ok := by rw [hw]; nofun
      refine ⟨⟨rfl, fun _ => rfl, nofun, nofun, fun _ _ => rfl, nofun, nofun, nofun, nofun, nofun,
        nofun, ⟨fun ho => absurd ho hc, ?_⟩, fun hb => ?_, fun hd => ?_, ?_, nofun, nofun⟩, ?_⟩
      · rintro (hpast | ⟨hn, -⟩)
        · exact hpast.elim
        · cases hn
      · exact hp.back (by rw [hstepped]; exact hb)
      · exact absurd (hp.saidDone hd) hrunning
      · rw [hp.released, hstepped]
      · exact hd.moves _ _ _ _ _ _ _ (fun _ => by rw [hstepped]; rfl) (by rw [hw]; rfl)
          (by rw [hw]; rfl) (by rw [hpc]; rfl) hd.cut fun hs => by rw [hstepped] at hs; cases hs
  | spawnFails =>
    simp only [State.step] at hs
    split at hs <;> cases hs
    next hpc =>
      have hw := (hp.spawning hpc).1
      exact ⟨⟨hp.ends, hp.handle, nofun, fun _ => .inr rfl, nofun, nofun, nofun, nofun,
        hp.prompting, hp.exited, hp.joined, ⟨fun _ => .inr ⟨hw, rfl⟩, fun _ => rfl⟩, fun _ => rfl,
        hp.saidDone, hp.released, hp.ended, fun _ => .inl hw⟩,
        hd.moves _ _ _ _ _ _ _ id rfl rfl (by rw [hpc]; rfl) hd.cut id⟩
  | call c =>
    simp only [State.step] at hs
    split at hs <;> cases hs
    next hpc => exact ⟨hp.call hpc c, hd.call hp hpc c⟩
  | work w => exact ⟨hp.work hs, hd.work hp hs⟩
  | meet m => exact ⟨hp.meet hs, hd.meet hp hs⟩
  | wake w => exact ⟨hp.wake hs, hd.wake hp hs⟩

theorem reachable_inv (h : (system M A).Reachable s) : Inv s :=
  h.invariant Inv.init fun _ _ _ hs he => hs.step he

/-! ### The exchange -/

/-- The worker is not blocked on a channel: what it does there fails at once, and nothing
else can happen to it there. -/
structure Unblocked (s : State M A) : Prop where
  prompt : ∀ m, s.worker = .sending m →
    s.work .promptFails = some (s.converseReturns (.error .timeout))
  answer : s.worker = .awaiting → s.work .answerFails = some (s.converseReturns (.error .timeout))
  finished : ∀ r, s.worker = .restored r →
    s.work .finishedFails = some { s with worker := .exited r }
  alone : ∀ m, s.meet m = none

/-- The driver has let go of both of its ends. -/
structure LetGo (s : State M A) : Prop where
  released : s.releasedAt.isSome
  answers : s.stepped.answers = false
  events : s.stepped.events = false

theorem State.letGo_reap (s : State M A) : LetGo s.reap := by
  rw [State.reap]
  split <;> exact ⟨State.release_isSome _, rfl, rfl⟩

theorem State.letGo_finish (s : State M A) : LetGo s.finish := by
  rw [State.finish]
  split <;> exact ⟨s.release_isSome, rfl, rfl⟩

theorem State.letGo_drop (s : State M A) : LetGo s.drop := by
  rw [State.drop]
  split <;> exact ⟨s.release_isSome, rfl, rfl⟩

theorem State.pc_finish (s : State M A) :
    s.finish.pc = .joining .finish ∨ s.finish.pc = .gone := by
  rw [State.finish]
  split
  · exact .inl rfl
  · exact .inr rfl

theorem State.pc_drop (s : State M A) : s.drop.pc = .joining .drop ∨ s.drop.pc = .gone := by
  rw [State.drop]
  split
  · exact .inl rfl
  · exact .inr rfl

/-- What the exchange promises. -/
structure Protocol (s : State M A) : Prop where
  /-- The k-th prompt has the messages of the k-th call. -/
  prompt : ∀ (k : ℕ) (m : M), s.prompts[k]? = some m → s.conversed[k]? = some m
  /-- A prompt is answered once, before the next one. -/
  inTurn : s.responses.length ≤ s.prompts.length ∧ s.prompts.length ≤ s.responses.length + 1
  /-- The answers to the k-th prompt are what the k-th call returns, as soon as they are
  handed over. -/
  respond : ∀ (k : ℕ) (a : A), s.responses[k]? = some a →
    s.results[k]? = some (.ok a) ∨ k = s.results.length ∧ ∃ l, s.pc = .sending a l
  result : ∀ (k : ℕ) (a : A), s.results[k]? = some (.ok a) → s.responses[k]? = some a
  done : s.saidDone = true → s.worker = .exited .ok
  timedOut : ∀ n, s.timedOut = some n → delivered s.results = n
  released : s.releasedAt.isSome ↔ s.stepped.answers = false ∧ s.stepped.events = false
  /-- `finish`, `Drop` and `reap` let go, whatever the exchange is at. -/
  finish : LetGo (s.call .finish) ∧ ((s.call .finish).pc = .joining .finish ∨
    (s.call .finish).pc = .gone)
  drop : LetGo (s.call .drop) ∧ ((s.call .drop).pc = .joining .drop ∨ (s.call .drop).pc = .gone)
  reap : LetGo s.reap
  /-- So the worker is joined, the `Stepped` consumed and an exchange ended with both of the
  ends gone, unless there never was a worker. -/
  joining : ∀ k, s.pc = .joining k → LetGo s
  gone : s.pc = .gone → s.worker = .notStarted ∨ LetGo s
  ended : s.stepped.phase = .ended → LetGo s
  /-- The calls that were not over then return `Error::Timeout`. -/
  cancelled : ∀ n, s.releasedAt = some n → ∀ r ∈ s.results.drop n, r = .error .timeout
  unblocked : s.releasedAt.isSome → Unblocked s
  back : s.stepped.done = true ∨ s.back = true → s.conversation = .own

theorem Placed.unblocked (h : Placed s) (hr : s.stepped.events = false) : Unblocked s where
  prompt := by
    intro m hw
    simp only [State.work, hw, hr, Bool.false_eq_true, if_false]
  answer := by
    intro hw
    simp only [State.work, hw, h.ends, hr, Bool.false_eq_true, if_false]
  finished := by
    intro r hw
    simp only [State.work, hw, hr, Bool.false_eq_true, if_false]
  alone := by
    intro m
    -- both ends meet only while the driver holds its own
    have hcollecting (l : Bool) : s.pc ≠ .collecting l := by
      intro hpc
      have hevents := (h.collecting l hpc).2
      rw [hr] at hevents
      cases hevents
    have hsending (a : A) (l : Bool) : s.pc ≠ .sending a l := by
      intro hpc
      have hevents := (h.sending a l hpc).2
      rw [hr] at hevents
      cases hevents
    cases m with
    | prompt =>
      simp only [State.meet]
      split
      · next hpc => exact absurd hpc (hcollecting _)
      · rfl
    | answer =>
      simp only [State.meet]
      split
      · next hpc => exact absurd hpc (hsending _ _)
      · rfl
    | finished =>
      simp only [State.meet]
      split
      · next hpc => exact absurd hpc (hcollecting _)
      · rfl

/-- The results are the answers in their order, up to the ones still being handed over and
to the calls that failed. -/
theorem Inv.results_eq (h : Inv s) :
    s.responses.map .ok = s.results ++ s.pc.offered ∨
      s.pc.offered = [] ∧ Cut s.responses s.results := by
  cases hr : s.releasedAt with
  | none => exact .inl (h.answers (h.attached hr))
  | some n =>
    refine .inr ⟨?_, (h.cut n hr).2⟩
    have hevents := h.released.mp (by rw [hr]; rfl)
    cases hpc : s.pc with
    | sending a l =>
      have hattached := (h.sending a l hpc).2
      rw [hevents] at hattached
      cases hattached
    | _ => rfl

theorem Inv.result_of_response (h : Inv s) {k : ℕ} {a : A} (hk : s.responses[k]? = some a) :
    s.results[k]? = some (.ok a) ∨ k = s.results.length ∧ ∃ l, s.pc = .sending a l := by
  have hok : (s.responses.map (Except.ok : A → Except Error A))[k]? = some (.ok a) := by
    rw [List.getElem?_map, hk]
    rfl
  have hlt := (List.getElem?_eq_some_iff.mp hok).1
  obtain hall | ⟨-, j, hcut⟩ := h.results_eq
  · rw [hall] at hok hlt
    by_cases hlen : k < s.results.length
    · rw [List.getElem?_append_left hlen] at hok
      exact .inl hok
    · -- only the answers being handed over are beyond the results
      rw [List.getElem?_append_right (by omega)] at hok
      cases hpc : s.pc with
      | sending b l =>
        rw [hpc] at hok hlt
        simp only [DriverPc.offered, List.length_append, List.length_singleton] at hok hlt
        have hk0 : k = s.results.length := by omega
        rw [hk0, Nat.sub_self, List.getElem?_cons_zero, Option.some.injEq, Except.ok.injEq] at hok
        exact .inr ⟨hk0, l, by rw [hok]⟩
      | _ => simp [hpc] at hok
  · rw [hcut, List.getElem?_append_left hlt]
    exact .inl hok

theorem Inv.response_of_result (h : Inv s) {k : ℕ} {a : A} (hk : s.results[k]? = some (.ok a)) :
    s.responses[k]? = some a := by
  have hok : (s.responses.map (Except.ok : A → Except Error A))[k]? = some (.ok a) := by
    obtain hall | ⟨-, j, hcut⟩ := h.results_eq
    · rw [hall, List.getElem?_append_left (List.getElem?_eq_some_iff.mp hk).1, hk]
    · rw [hcut] at hk
      by_cases hlt : k < (s.responses.map (Except.ok : A → Except Error A)).length
      · rwa [List.getElem?_append_left hlt] at hk
      · rw [List.getElem?_append_right (by omega)] at hk
        have hfail := List.eq_of_mem_replicate (List.mem_of_getElem? hk)
        cases hfail
  rw [List.getElem?_map, Option.map_eq_some_iff] at hok
  obtain ⟨b, hb, hba⟩ := hok
  cases hba
  exact hb

/-- What was delivered by the time of a timeout is all that ever is. -/
theorem Inv.delivered_eq (h : Inv s) {n : ℕ} (ht : s.timedOut = some n) :
    delivered s.results = n := by
  obtain ⟨hphase, rfl⟩ := h.timedOut n ht
  obtain hall | ⟨-, hcut⟩ := h.results_eq
  · have hidle : s.pc.offered = [] := by
      cases hpc : s.pc with
      | sending a l =>
        have hprompting := (h.sending a l hpc).1
        rw [hphase] at hprompting
        cases hprompting
      | _ => rfl
    rw [hidle, List.append_nil] at hall
    rw [← hall, delivered_map_ok]
  · exact hcut.delivered

theorem Inv.timeout_of_released (h : Inv s) {n : ℕ} (hn : s.releasedAt = some n) :
    ∀ r ∈ s.results.drop n, r = .error .timeout := by
  obtain ⟨rfl, j, hcut⟩ := h.cut n hn
  intro r hr
  rw [hcut, List.drop_left' (by rw [List.length_map])] at hr
  exact List.eq_of_mem_replicate hr

/-- **The exchange**: in every interleaving of the driver, its worker, the timeouts and the
driver's letting go, rounds and answers are matched one to one, `Step::Done` is a success,
nothing is delivered after a timeout, a worker that was let go is never blocked, and the
transaction comes back with the caller's conversation. -/
theorem exchange_protocol (h : (system M A).Reachable s) : Protocol s := by
  have hinv := reachable_inv h
  have hreleased : s.releasedAt.isSome ↔ s.stepped.answers = false ∧ s.stepped.events = false := by
    rw [hinv.ends, and_self]
    exact hinv.released
  have hletGo (hevents : s.stepped.events = false) : LetGo s :=
    ⟨hinv.released.mpr hevents, hinv.ends.trans hevents, hevents⟩
  exact {
    prompt := by
      intro k m hk
      obtain ⟨rest, hrest⟩ := hinv.shown
      have hlt := (List.getElem?_eq_some_iff.mp hk).1
      rw [← hrest, List.getElem?_append_left hlt]
      exact hk
    inTurn := ⟨hinv.answered, hinv.unanswered⟩
    respond := fun _ _ => hinv.result_of_response
    result := fun _ _ => hinv.response_of_result
    done := hinv.saidDone
    timedOut := fun _ => hinv.delivered_eq
    released := hreleased
    finish := ⟨s.letGo_finish, s.pc_finish⟩
    drop := ⟨s.letGo_drop, s.pc_drop⟩
    reap := s.letGo_reap
    joining := fun k hpc => hletGo (hinv.joining k hpc).1
    gone := fun hpc => (hinv.gone hpc).imp_right hletGo
    ended := fun hphase => hletGo (hinv.ended hphase)
    cancelled := fun _ => hinv.timeout_of_released
    unblocked := fun hsome => hinv.unblocked (hinv.released.mp hsome)
    back := hinv.back }

/-- Two rounds are asked for, the second one times out before it is seen, and `finish` takes
the transaction back. -/
def timedOutRun : List (Event ℕ ℕ) :=
  [.spawned, .call (.wait true), .work (.converse 1), .meet .prompt, .call (.respond 7 true),
    .meet .answer, .wake .timesOut, .work (.converse 2), .call .finish, .work .promptFails,
    .work (.opReturns (.err .timeout)), .work .putBack, .work .finishedFails, .wake .joins]

theorem exchange_protocol_timed_out :
    ∃ s, (system ℕ ℕ).run (system ℕ ℕ).init timedOutRun = some s ∧
      s.results = [.ok 7, .error .timeout] ∧ s.timedOut = some 1 ∧ s.releasedAt = some 1 ∧
      s.back = true ∧ Protocol s := by
  have hrun : (system ℕ ℕ).run (system ℕ ℕ).init timedOutRun = some _ := rfl
  exact ⟨_, hrun, rfl, rfl, rfl, rfl, exchange_protocol (.run .init hrun)⟩

end Pam
