/-
Requests over chronyd's socket.

`Client::exchange` sends a request, with a fresh sequence number for every attempt, and reads
datagrams until one is the reply or the wait is over.  The socket has one queue for all
attempts of all exchanges, and what is in it can be anything: replies to any request sent so
far, in any order, any number of times and at any time, and datagrams from nowhere.

* `State.step` — the client and the socket, one system call at a time;
* `Permitted` — what is assumed of the daemon and the system: chronyd's replies are well
  formed, datagrams from nowhere carry none of the sequence numbers drawn, and calls fail with
  timeouts and interruptions only;
* `system` — the runs in which this is so;
* `Attempt.own_iff` — with distinct sequence numbers, a received datagram echoes an attempt
  exactly when it is a reply to it;
* `exchange_exact_iff` — what `exchange` returns is the first reply to its own attempts, or
  `Timeout` without one, as long as no send is interrupted.
-/
import RosUtils.ChronyWire
import RosUtils.Transition

open Transition

namespace Chrony

namespace Exchange

/-! ### The client and its socket -/

/-- `io::ErrorKind` of a failed call. -/
inductive IoError where
  | wouldBlock
  | timedOut
  | interrupted
  | other (errno : ℕ)
  deriving DecidableEq

/-- `timed_out`. -/
def IoError.isTimeout : IoError → Bool
  | .wouldBlock | .timedOut => true
  | .interrupted | .other _ => false

/-- `From<io::Error>`, by the number of the error. -/
def IoError.error : IoError → Error
  | .wouldBlock => .io 11
  | .timedOut => .io 110
  | .interrupted => .io 4
  | .other errno => .io errno

/-- A datagram on its way to the client, with the number of the request it replies to. -/
structure Parcel where
  origin : Option ℕ
  bytes : Datagram
  deriving DecidableEq

/-- An attempt: which of the client's draws made its sequence number, its request, and what
was received during it. -/
structure Attempt (T : Type) where
  number : ℕ
  request : Request T
  received : List Parcel

/-- An exchange: what is asked for, and the attempts that are over. -/
structure Asking (T : Type) where
  layout : Layout T
  data : List UInt8
  log : List (Attempt T)

/-- An attempt is over. -/
def Asking.push {T : Type} (x : Asking T) (a : Attempt T) : Asking T :=
  { x with log := x.log ++ [a] }

/-- Where the client is. -/
inductive Pc (T : Type) where
  | idle
  /-- At the head of the loop over the attempts. -/
  | loop (x : Asking T)
  /-- The request is made, and not sent yet. -/
  | sending (x : Asking T) (a : Attempt T)
  /-- The request is sent. -/
  | receiving (x : Asking T) (a : Attempt T)

/-- The client, its socket, and the requests that reached the daemon. -/
structure State (T : Type) where
  attempts : ℕ
  drawn : ℕ
  pc : Pc T
  queue : List Parcel
  sent : List (ℕ × Datagram)
  /-- What the last exchange returned, and its attempts. -/
  returned : Option (Except Error T × Asking T)

/-- What can happen. -/
inductive Event (T : Type) where
  /-- `Client::set_attempts`. -/
  | setAttempts (attempts : ℕ)
  /-- `Client::exchange` is called. -/
  | call (layout : Layout T) (data : List UInt8)
  /-- The loop goes on: a sequence number is read, or the attempts have run out. -/
  | attempt (failure : Option ℕ)
  /-- `set_write_timeout` or `set_read_timeout` fails. -/
  | setTimeout (errno : ℕ)
  /-- `send` returns. -/
  | send (failure : Option IoError)
  /-- The wait of an attempt is over. -/
  | deadline
  /-- `recv` returns; what it returns is the head of the queue. -/
  | recv (failure : Option IoError)
  /-- A reply to a request arrives. -/
  | reply (number : ℕ) (d : Datagram)
  /-- A datagram from nowhere arrives. -/
  | garbage (d : Datagram)

namespace State

variable {T : Type}

def goto (s : State T) (pc : Pc T) : State T := { s with pc := pc }

/-- `exchange` returns. -/
def ret (s : State T) (result : Except Error T) (x : Asking T) : State T :=
  { s with pc := .idle, returned := some (result, x) }

/-- The next attempt, with the sequence number that is drawn. -/
def nextAttempt (s : State T) (x : Asking T) (sequence : UInt32) : State T :=
  let request := (build x.layout x.data sequence).withAttempt (.ofNat (min x.log.length 65535))
  { s with drawn := s.drawn + 1 }.goto (.sending x ⟨s.drawn, request, []⟩)

/-- `send` returns. -/
def send (s : State T) (x : Asking T) (a : Attempt T) : Option IoError → State T
  | none => { s with sent := s.sent ++ [(a.number, a.request.bytes)] }.goto (.receiving x a)
  | some err =>
    -- on a timeout the daemon's queue is full: it is not reading
    if err.isTimeout then s.goto (.loop (x.push a))
    else s.ret (.error err.error) (x.push a)

/-- `recv` fails. -/
def recvFails (s : State T) (x : Asking T) (a : Attempt T) (err : IoError) : State T :=
  if err = .interrupted then s
  else if err.isTimeout then s.goto (.loop (x.push a))
  else s.ret (.error err.error) (x.push a)

/-- `recv` returns the datagram, which the buffer may cut short. -/
def receive (s : State T) (x : Asking T) (a : Attempt T) (p : Parcel) : State T :=
  let a' := { a with received := a.received ++ [p] }
  match a.request.decode (p.bytes.take recvBuf) with
  | .answer result => s.ret result (x.push a')
  | .unrelated => s.goto (.receiving x a')

/-- What an event leads to; `urandom` is what `/dev/urandom` yields. -/
def step (urandom : List UInt32) (s : State T) : Event T → Option (State T)
  | .setAttempts attempts =>
    match s.pc with
    | .idle => some { s with attempts := max attempts 1 }
    | _ => none
  | .call layout data =>
    match s.pc with
    | .idle => some (s.goto (.loop ⟨layout, data, []⟩))
    | _ => none
  | .attempt failure =>
    match s.pc with
    | .loop x =>
      if x.log.length < s.attempts then
        match failure with
        | some errno => some (s.ret (.error (.io errno)) x)
        | none => (urandom[s.drawn]?).map (s.nextAttempt x)
      else some (s.ret (.error .timeout) x)
    | _ => none
  | .setTimeout errno =>
    match s.pc with
    | .sending x a | .receiving x a => some (s.ret (.error (.io errno)) (x.push a))
    | _ => none
  | .send failure =>
    match s.pc with
    | .sending x a => some (s.send x a failure)
    | _ => none
  | .deadline =>
    match s.pc with
    | .receiving x a => some (s.goto (.loop (x.push a)))
    | _ => none
  | .recv (some err) =>
    match s.pc with
    | .receiving x a => some (s.recvFails x a err)
    | _ => none
  | .recv none =>
    match s.pc, s.queue with
    | .receiving x a, p :: queue => some ({ s with queue := queue }.receive x a p)
    | _, _ => none
  | .reply number d =>
    if ∃ req ∈ s.sent, req.1 = number ∧ Replies req.2 d then
      some { s with queue := s.queue ++ [⟨some number, d⟩] }
    else none
  | .garbage d => some { s with queue := s.queue ++ [⟨none, d⟩] }

end State

/-! ### What is promised -/

/-- The failures of a call that are timeouts or interruptions. -/
def IoError.Mild (err : IoError) : Prop := err.isTimeout = true ∨ err = .interrupted

/-- What may happen: chronyd's replies have the form of replies, datagrams from nowhere carry
none of the sequence numbers, and calls fail with timeouts and interruptions only. -/
def Permitted {T : Type} (urandom : List UInt32) : Event T → Prop
  | .attempt failure => failure = none
  | .setTimeout _ => False
  | .send failure | .recv failure => ∀ err, failure = some err → err.Mild
  | .reply _ d => WellFormed d
  | .garbage d => ∀ sequence ∈ urandom, ¬ Carries sequence d
  | _ => True

instance : DecidablePred IoError.Mild := fun _ => inferInstanceAs (Decidable (_ ∨ _))

instance (failure : Option IoError) : Decidable (∀ err, failure = some err → err.Mild) :=
  match failure with
  | none => isTrue nofun
  | some err => decidable_of_iff err.Mild ⟨fun h _ he => Option.some.inj he ▸ h, fun h => h err rfl⟩

instance {T : Type} (urandom : List UInt32) : DecidablePred (Permitted (T := T) urandom)
  | .attempt _ => inferInstanceAs (Decidable (_ = _))
  | .setTimeout _ => inferInstanceAs (Decidable False)
  | .send _ => inferInstanceAs (Decidable (∀ _, _ → _))
  | .recv _ => inferInstanceAs (Decidable (∀ _, _ → _))
  | .reply _ d => inferInstanceAs (Decidable (WellFormed d))
  | .garbage _ => inferInstanceAs (Decidable (∀ _ ∈ _, _))
  | .setAttempts _ | .call _ _ | .deadline => isTrue trivial

/-- A fresh client, and what may happen to it when `/dev/urandom` yields `urandom`. -/
def system (T : Type) (urandom : List UInt32) : System (State T) (Event T) where
  init := ⟨3, 0, .idle, [], [], none⟩
  step s e := if Permitted urandom e then s.step urandom e else none

section

variable {T : Type}

/-- The datagram echoes the sequence number and the command of the attempt. -/
def Attempt.Own (a : Attempt T) (p : Parcel) : Prop :=
  Echoes a.request.command a.request.sequence p.bytes

/-- The attempt received nothing that echoes it. -/
def Attempt.Unanswered (a : Attempt T) : Prop := ∀ p ∈ a.received, ¬ a.Own p

/-- The attempt asks for what the exchange is about, with the sequence number it drew. -/
def Attempt.Made (urandom : List UInt32) (x : Asking T) (a : Attempt T) : Prop :=
  ∃ sequence counter, urandom[a.number]? = some sequence ∧
    a.request = (build x.layout x.data sequence).withAttempt counter

/-- The result is what the first reply to the exchange's own attempts says, and `Timeout`
without such a reply. -/
structure Exact (urandom : List UInt32) (result : Except Error T) (x : Asking T) : Prop where
  made : ∀ a ∈ x.log, a.Made urandom x
  answer : result ≠ .error .timeout → ∃ before a after earlier p later,
    x.log = before ++ a :: after ∧ a.received = earlier ++ p :: later ∧
    a.Own p ∧ a.request.decode p.bytes = .answer result ∧
    (∀ q ∈ earlier, ¬ a.Own q) ∧ ∀ b ∈ before, b.Unanswered
  timeout : result = .error .timeout → ∀ a ∈ x.log, a.Unanswered
  /-- What echoes an attempt is a reply to it, and to no other. -/
  origin : ∀ a ∈ x.log, ∀ p ∈ a.received, a.Own p ↔ p.origin = some a.number

/-- What the last exchange returned is right. -/
def State.Exact (urandom : List UInt32) (s : State T) : Prop :=
  ∀ result x, s.returned = some (result, x) → Exchange.Exact urandom result x

/-- The event is not the interruption of a `send`. -/
def Uninterrupted (_ : State T) (e : Event T) : Prop := e ≠ .send (some .interrupted)

/-! ### Replies and attempts -/

theorem Attempt.Made.echoes {urandom : List UInt32} {x : Asking T} {a : Attempt T}
    (ha : a.Made urandom x) {d : Datagram} (hd : Replies a.request.bytes d) :
    Echoes a.request.command a.request.sequence d := by
  obtain ⟨sequence, counter, -, hrequest⟩ := ha
  rw [hrequest] at hd ⊢
  exact hd.echoes

/-- A request that reached the daemon, with the number of its draw. -/
def Sent (T : Type) (urandom : List UInt32) (req : ℕ × Datagram) : Prop :=
  ∃ (x : Asking T) (a : Attempt T), a.Made urandom x ∧ req = (a.number, a.request.bytes)

/-- A datagram in the queue is a well-formed reply to a request, or carries no sequence
number. -/
def Parcel.Ok (urandom : List UInt32) (sent : List (ℕ × Datagram)) (p : Parcel) : Prop :=
  (p.origin = none ∧ ∀ sequence ∈ urandom, ¬ Carries sequence p.bytes) ∨
    ∃ req ∈ sent, p.origin = some req.1 ∧ Replies req.2 p.bytes ∧ WellFormed p.bytes

/-- With distinct sequence numbers, a datagram echoes an attempt exactly when it is a reply
to it. -/
theorem Attempt.own_iff {urandom : List UInt32} (hdistinct : urandom.Nodup) {x : Asking T}
    {a : Attempt T} (ha : a.Made urandom x) {sent : List (ℕ × Datagram)}
    (hsent : ∀ req ∈ sent, Sent T urandom req)
    (hself : ∀ req ∈ sent, req.1 = a.number → req.2 = a.request.bytes) {p : Parcel}
    (hp : p.Ok urandom sent) : a.Own p ↔ p.origin = some a.number := by
  obtain ⟨sequence, counter, hsequence, hrequest⟩ := ha
  have hmine : a.request.sequence = sequence := by rw [hrequest]; rfl
  rcases hp with ⟨hnone, hclean⟩ | ⟨req, hreq, horigin, hreply, -⟩
  · -- a datagram from nowhere carries no sequence number of the client
    rw [hnone]
    refine ⟨fun hown => absurd hown.2 ?_, nofun⟩
    rw [hmine]
    exact hclean sequence (List.mem_of_getElem? hsequence)
  · rw [horigin, Option.some.injEq]
    constructor
    · intro hown
      obtain ⟨x', a', ha', rfl⟩ := hsent req hreq
      -- a reply to another attempt carries that attempt's number, and the numbers differ
      have hcarries : Carries a'.request.sequence p.bytes := (ha'.echoes hreply).2
      have hsame : a'.request.sequence = sequence := (hcarries.unique hown.2).trans hmine
      obtain ⟨sequence', counter', hsequence', hrequest'⟩ := ha'
      have htheirs : a'.request.sequence = sequence' := by rw [hrequest']; rfl
      obtain ⟨hlt, hget⟩ := List.getElem?_eq_some_iff.mp hsequence
      obtain ⟨hlt', hget'⟩ := List.getElem?_eq_some_iff.mp hsequence'
      have hequal : urandom[a'.number] = urandom[a.number] := by
        rw [hget, hget', ← hsame, htheirs]
      exact hdistinct.getElem_inj_iff.mp hequal
    · intro hnumber
      rw [hself req hreq hnumber] at hreply
      exact Attempt.Made.echoes ⟨sequence, counter, hsequence, hrequest⟩ hreply

/-! ### The invariant -/

/-- The attempt is part of the exchange, and knows its replies. -/
structure Attempt.Ok (urandom : List UInt32) (x : Asking T) (a : Attempt T) : Prop where
  made : a.Made urandom x
  origin : ∀ p ∈ a.received, a.Own p ↔ p.origin = some a.number

/-- The attempts so far are in order, and none of them was answered. -/
def Asking.Open (urandom : List UInt32) (x : Asking T) : Prop :=
  ∀ a ∈ x.log, a.Ok urandom x ∧ a.Unanswered

theorem Asking.open_push {urandom : List UInt32} {x : Asking T} {a : Attempt T} :
    (x.push a).Open urandom ↔ x.Open urandom ∧ a.Ok urandom x ∧ a.Unanswered := by
  constructor
  · intro h
    have hlast := h a (List.mem_append_right _ (List.mem_singleton_self _))
    refine ⟨fun b hb => ?_, ⟨hlast.1.made, hlast.1.origin⟩, hlast.2⟩
    have hb := h b (List.mem_append_left _ hb)
    exact ⟨⟨hb.1.made, hb.1.origin⟩, hb.2⟩
  · rintro ⟨hx, ha⟩ b hb
    rcases List.mem_append.mp hb with hb | hb
    · exact ⟨⟨(hx b hb).1.made, (hx b hb).1.origin⟩, (hx b hb).2⟩
    · rw [List.mem_singleton.mp hb]
      exact ⟨⟨ha.1.made, ha.1.origin⟩, ha.2⟩

/-- When the attempts run out, none of them was answered. -/
theorem Asking.Open.timeout {urandom : List UInt32} {x : Asking T} (hx : x.Open urandom) :
    Exact urandom (.error .timeout) x :=
  ⟨fun a ha => (hx a ha).1.made, fun h => absurd rfl h, fun _ a ha => (hx a ha).2,
    fun a ha => (hx a ha).1.origin⟩

/-- A reply to the last attempt is the first one to any. -/
theorem Asking.Open.answer {urandom : List UInt32} {x : Asking T} {a : Attempt T}
    (hx : (x.push a).Open urandom) {p : Parcel} (hown : a.Own p)
    (horigin : p.origin = some a.number) {result : Except Error T}
    (hresult : a.request.decode p.bytes = .answer result) (hne : result ≠ .error .timeout) :
    Exact urandom result (x.push { a with received := a.received ++ [p] }) := by
  obtain ⟨hlog, ha, hun⟩ := open_push.mp hx
  have hcases : ∀ b ∈ (x.push { a with received := a.received ++ [p] }).log,
      b ∈ x.log ∨ b = { a with received := a.received ++ [p] } := by
    intro b hb
    simpa only [push, List.mem_append, List.mem_singleton] using hb
  refine ⟨?_, ?_, fun h => absurd h hne, ?_⟩
  · intro b hb
    rcases hcases b hb with hb | rfl
    · exact (hlog b hb).1.made
    · exact ha.made
  -- the earlier attempts are all unanswered, and so is this one before `p`
  · intro _
    exact ⟨x.log, _, [], a.received, p, [], rfl, rfl, hown, hresult, hun,
      fun b hb => (hlog b hb).2⟩
  · intro b hb
    rcases hcases b hb with hb | rfl
    · exact (hlog b hb).1.origin
    · intro q hq
      rcases List.mem_append.mp hq with hq | hq
      · exact ha.origin q hq
      · rw [List.mem_singleton.mp hq]
        exact iff_of_true hown horigin

/-- What does not echo the attempt leaves it unanswered. -/
theorem Asking.Open.unrelated {urandom : List UInt32} {x : Asking T} {a : Attempt T}
    (hx : (x.push a).Open urandom) {p : Parcel} (hown : ¬ a.Own p)
    (horigin : p.origin ≠ some a.number) :
    (x.push { a with received := a.received ++ [p] }).Open urandom := by
  obtain ⟨hlog, ha, hun⟩ := open_push.mp hx
  refine open_push.mpr ⟨hlog, ⟨ha.made, fun q hq => ?_⟩, fun q hq => ?_⟩
  · rcases List.mem_append.mp hq with hq | hq
    · exact ha.origin q hq
    · rw [List.mem_singleton.mp hq]
      exact iff_of_false hown horigin
  · rcases List.mem_append.mp hq with hq | hq
    · exact hun q hq
    · rw [List.mem_singleton.mp hq]
      exact hown

/-- What holds where the client is. -/
def Pc.Ok (urandom : List UInt32) (drawn : ℕ) (sent : List (ℕ × Datagram)) : Pc T → Prop
  | .idle => True
  | .loop x => x.Open urandom
  | .sending x a => (x.push a).Open urandom ∧ a.number < drawn ∧ ∀ req ∈ sent, req.1 ≠ a.number
  | .receiving x a => (x.push a).Open urandom ∧ (a.number, a.request.bytes) ∈ sent

namespace State

/-- The requests have numbers of their own, the queue holds nothing unexpected, the running
exchange is unanswered so far, and the last one was right. -/
structure Inv (urandom : List UInt32) (s : State T) : Prop where
  sent : ∀ req ∈ s.sent, req.1 < s.drawn ∧ Sent T urandom req
  single : ∀ req ∈ s.sent, ∀ req' ∈ s.sent, req.1 = req'.1 → req = req'
  queue : ∀ p ∈ s.queue, p.Ok urandom s.sent
  pc : s.pc.Ok urandom s.drawn s.sent
  exact : s.Exact urandom

variable {urandom : List UInt32} {s : State T}

theorem Inv.goto (hs : s.Inv urandom) {pc : Pc T} (hpc : pc.Ok urandom s.drawn s.sent) :
    (s.goto pc).Inv urandom :=
  ⟨hs.sent, hs.single, hs.queue, hpc, hs.exact⟩

theorem Inv.ret (hs : s.Inv urandom) {result : Except Error T} {x : Asking T}
    (h : Exchange.Exact urandom result x) : (s.ret result x).Inv urandom := by
  refine ⟨hs.sent, hs.single, hs.queue, trivial, ?_⟩
  intro result' x' heq
  obtain ⟨rfl, rfl⟩ : result = result' ∧ x = x' := by
    simpa only [State.ret, Option.some.injEq, Prod.mk.injEq] using heq
  exact h

theorem Inv.arrive (hs : s.Inv urandom) {p : Parcel} (hp : p.Ok urandom s.sent) :
    { s with queue := s.queue ++ [p] }.Inv urandom := by
  refine ⟨hs.sent, hs.single, ?_, hs.pc, hs.exact⟩
  intro q hq
  rcases List.mem_append.mp hq with hq | hq
  · exact hs.queue q hq
  · rw [List.mem_singleton.mp hq]
    exact hp

theorem Inv.nextAttempt (hs : s.Inv urandom) {x : Asking T} (hx : x.Open urandom)
    {sequence : UInt32} (hsequence : urandom[s.drawn]? = some sequence) :
    (s.nextAttempt x sequence).Inv urandom := by
  have hsent : ∀ req ∈ s.sent, req.1 < s.drawn + 1 ∧ Sent T urandom req :=
    fun req hreq => ⟨Nat.lt_succ_of_lt (hs.sent req hreq).1, (hs.sent req hreq).2⟩
  refine ⟨hsent, hs.single, hs.queue, ⟨?_, Nat.lt_succ_self _, ?_⟩, hs.exact⟩
  · refine Asking.open_push.mpr ⟨hx, ⟨⟨sequence, _, hsequence, rfl⟩, ?_⟩, ?_⟩
    · exact List.forall_mem_nil _
    · exact List.forall_mem_nil _
  · intro req hreq
    exact Nat.ne_of_lt (hs.sent req hreq).1

theorem Inv.sendOk (hs : s.Inv urandom) {x : Asking T} {a : Attempt T}
    (hpc : s.pc = .sending x a) : (s.send x a none).Inv urandom := by
  obtain ⟨hsent, hsingle, hqueue, hok, hexact⟩ := hs
  rw [hpc] at hok
  obtain ⟨hopen, hlt, hfresh⟩ := hok
  have hmade : a.Made urandom x := (Asking.open_push.mp hopen).2.1.made
  have hnew : ∀ req, req ∈ s.sent ++ [(a.number, a.request.bytes)] ↔
      req ∈ s.sent ∨ req = (a.number, a.request.bytes) := by
    intro req
    rw [List.mem_append, List.mem_singleton]
  refine ⟨?_, ?_, ?_, ⟨hopen, (hnew _).mpr (.inr rfl)⟩, hexact⟩
  · intro req hreq
    rcases (hnew req).mp hreq with hreq | rfl
    · exact hsent req hreq
    · exact ⟨hlt, x, a, hmade, rfl⟩
  -- the number is drawn for this attempt, so no request before bears it
  · intro req hreq req' hreq' heq
    rcases (hnew req).mp hreq with hreq | rfl
    · rcases (hnew req').mp hreq' with hreq' | rfl
      · exact hsingle req hreq req' hreq' heq
      · exact absurd heq (hfresh req hreq)
    · rcases (hnew req').mp hreq' with hreq' | rfl
      · exact absurd heq.symm (hfresh req' hreq')
      · rfl
  · intro p hp
    refine (hqueue p hp).imp_right ?_
    rintro ⟨req, hreq, horigin⟩
    exact ⟨req, (hnew req).mpr (.inl hreq), horigin⟩

/-- A datagram is received: unless it is a reply to the attempt, the exchange goes on. -/
theorem Inv.receive (hdistinct : urandom.Nodup) (hs : s.Inv urandom) {x : Asking T}
    {a : Attempt T} (hpc : s.pc = .receiving x a) {p : Parcel} (hp : p.Ok urandom s.sent) :
    (s.receive x a p).Inv urandom := by
  have hok := hs.pc
  rw [hpc] at hok
  obtain ⟨hopen, hsent⟩ := hok
  obtain ⟨-, ⟨hmade, -⟩, -⟩ := Asking.open_push.mp hopen
  -- with distinct sequence numbers, an echo is a reply to the request itself
  have hiff : a.Own p ↔ p.origin = some a.number := by
    refine a.own_iff hdistinct hmade (fun req hreq => (hs.sent req hreq).2) ?_ hp
    intro req hreq hnumber
    rw [hs.single req hreq _ hsent hnumber]
  have hlayout : a.request.decodeData = x.layout.decode := by
    obtain ⟨sequence, counter, -, hrequest⟩ := hmade
    rw [hrequest]
    rfl
  -- the buffer holds all that `decode` looks at
  simp only [State.receive, a.request.decode_take hlayout]
  by_cases hown : a.Own p
  · have hform : WellFormed p.bytes := by
      rcases hp with ⟨hnone, -⟩ | ⟨req, -, -, -, hform⟩
      · rw [hiff.mp hown] at hnone
        cases hnone
      · exact hform
    have hanswer := a.request.decode_eq_answer hform hown
    rw [hanswer]
    exact hs.ret (hopen.answer hown (hiff.mp hown) hanswer (a.request.answer_ne hlayout _).1)
  · rw [a.request.decode_eq_unrelated hown]
    exact hs.goto ⟨hopen.unrelated hown (fun h => hown (hiff.mpr h)), hsent⟩

/-- Everything but the interruption of a `send` keeps the invariant. -/
theorem Inv.step (hdistinct : urandom.Nodup) (hs : s.Inv urandom) {e : Event T}
    (he : Permitted urandom e) (hun : Uninterrupted s e) {s' : State T}
    (h : s.step urandom e = some s') : s'.Inv urandom := by
  have hok := hs.pc
  cases e with
  | setAttempts attempts =>
    simp only [State.step] at h
    split at h
    · cases h
      exact ⟨hs.sent, hs.single, hs.queue, hs.pc, hs.exact⟩
    · cases h
  | call layout data =>
    simp only [State.step] at h
    split at h
    · cases h
      exact hs.goto (List.forall_mem_nil _)
    · cases h
  | attempt failure =>
    obtain rfl : failure = none := he
    simp only [State.step] at h
    split at h
    · next x hpc =>
      rw [hpc] at hok
      split at h
      · obtain ⟨sequence, hsequence, rfl⟩ := Option.map_eq_some_iff.mp h
        exact hs.nextAttempt hok hsequence
      · -- no attempt is left
        cases h
        exact hs.ret (Asking.Open.timeout hok)
    · cases h
  | setTimeout errno => exact he.elim
  | send failure =>
    simp only [State.step] at h
    split at h
    · next x a hpc =>
      cases h
      rw [hpc] at hok
      cases failure with
      | none => exact hs.sendOk hpc
      | some err =>
        -- a timeout gives up the attempt; an interruption is excluded
        rcases he err rfl with htimeout | rfl
        · rw [State.send, if_pos htimeout]
          exact hs.goto hok.1
        · exact absurd rfl hun
    · cases h
  | deadline =>
    simp only [State.step] at h
    split at h
    · next x a hpc =>
      cases h
      rw [hpc] at hok
      exact hs.goto hok.1
    · cases h
  | recv failure =>
    cases failure with
    | none =>
      simp only [State.step] at h
      split at h
      · next x a p queue hpc hqueue =>
        cases h
        have hall : ∀ q ∈ p :: queue, q.Ok urandom s.sent := hqueue ▸ hs.queue
        have hs' : { s with queue := queue }.Inv urandom :=
          ⟨hs.sent, hs.single, fun q hq => hall q (List.mem_cons_of_mem _ hq), hs.pc, hs.exact⟩
        exact hs'.receive hdistinct hpc (hall p List.mem_cons_self)
      · cases h
    | some err =>
      simp only [State.step] at h
      split at h
      · next x a hpc =>
        cases h
        rw [hpc] at hok
        -- an interruption is retried, and a timeout gives up the attempt
        rw [recvFails]
        split
        · exact hs
        · next hne =>
          rw [if_pos ((he err rfl).resolve_right hne)]
          exact hs.goto hok.1
      · cases h
  | reply number d =>
    simp only [State.step] at h
    split at h
    · next hreq =>
      cases h
      obtain ⟨req, hmem, rfl, hreply⟩ := hreq
      exact hs.arrive (.inr ⟨req, hmem, rfl, hreply, he⟩)
    · cases h
  | garbage d =>
    cases h
    exact hs.arrive (.inl ⟨rfl, he⟩)

/-- After an interrupted `send` the result is no reply to anything. -/
theorem not_exact {s' : State T}
    (h : s.step urandom (.send (some .interrupted)) = some s') : ¬ s'.Exact urandom := by
  intro hexact
  simp only [State.step] at h
  split at h
  · next x a hpc =>
    cases h
    have hresult := hexact (.error IoError.interrupted.error) (x.push a) rfl
    obtain ⟨before, b, after, -, p, -, hlog, -, -, hdecode, -⟩ := hresult.answer nofun
    obtain ⟨sequence, counter, -, hrequest⟩ := hresult.made b (by
      rw [hlog]
      exact List.mem_append_right _ List.mem_cons_self)
    have hlayout : b.request.decodeData = x.layout.decode := by
      rw [hrequest]
      rfl
    -- no datagram decodes to the error of a system call
    exact b.request.decode_ne_io hlayout p.bytes hdecode
  · cases h

theorem inv_init (T : Type) (urandom : List UInt32) : (system T urandom).init.Inv urandom :=
  ⟨List.forall_mem_nil _, List.forall_mem_nil _, List.forall_mem_nil _, trivial, fun _ _ => nofun⟩

end State

/-- **An exchange takes no stale or foreign datagram for its reply.**  Let the sequence numbers
be distinct.  Whatever arrives, and in whatever order, every result of `exchange` is the first
reply to its own attempts, or `Timeout` without one, exactly as long as no `send` is
interrupted: such an interruption is returned as an error. -/
theorem exchange_exact_iff {urandom : List UInt32} (hdistinct : urandom.Nodup)
    (es : List (Event T)) :
    (system T urandom).AllStates (State.Exact urandom) (system T urandom).init es ↔
      (system T urandom).AllSteps Uninterrupted (system T urandom).init es := by
  have hstep : ∀ {s : State T} {e : Event T} {s' : State T},
      (system T urandom).step s e = some s' →
        Permitted urandom e ∧ s.step urandom e = some s' := by
    intro s e s' h
    simp only [system] at h
    split at h
    · next he => exact ⟨he, h⟩
    · cases h
  have hexact : ∀ s : State T, s.Inv urandom → s.Exact urandom := fun s hs => hs.exact
  refine System.allStates_iff_allSteps hexact ?_ ?_ (State.inv_init T urandom) es
  · intro s e s' hs hun h
    exact hs.step hdistinct (hstep h).1 hun (hstep h).2
  · intro s e s' hs hun h
    obtain rfl : e = .send (some .interrupted) := not_not.mp hun
    exact State.not_exact (hstep h).2

/-- The number of sources is asked for twice, and the reply to the first request comes late. -/
def late : List (Event UInt32) :=
  [.call .sourceCount [], .attempt none, .send none, .deadline, .attempt none, .send none,
    .reply 0 (countReply 7 4), .reply 1 (countReply 8 5), .recv none, .recv none]

theorem exchange_exact_late :
    ([7, 8] : List UInt32).Nodup ∧
      ((system UInt32 [7, 8]).run (system UInt32 [7, 8]).init late).bind
          (·.returned.map Prod.fst) = some (.ok 5) ∧
      (system UInt32 [7, 8]).AllStates (State.Exact [7, 8]) (system UInt32 [7, 8]).init late := by
  have hdistinct : ([7, 8] : List UInt32).Nodup := by decide
  refine ⟨hdistinct, rfl, (exchange_exact_iff hdistinct late).mpr ?_⟩
  exact System.allSteps_of_forall (by simp [late, Uninterrupted]) _

/-- A request whose `send` a signal interrupts. -/
def interrupted : List (Event UInt32) :=
  [.call .sourceCount [], .attempt none, .send (some .interrupted)]

theorem exchange_interrupted :
    ([7] : List UInt32).Nodup ∧
      ∃ s, (system UInt32 [7]).run (system UInt32 [7]).init interrupted = some s ∧
        s.returned.map Prod.fst = some (.error (.io 4)) ∧ ¬ s.Exact [7] := by
  -- the request is made, and its `send` is next
  let asked := (system UInt32 [7]).init.nextAttempt ⟨.sourceCount, [], []⟩ 7
  have hstep : asked.step [7] (.send (some .interrupted)) = some _ := rfl
  exact ⟨by decide, _, rfl, rfl, State.not_exact hstep⟩

end

end Exchange

end Chrony
