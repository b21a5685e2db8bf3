/-
The login sequence: authenticate, check the account, grant the credentials, open a session,
close it, revoke the credentials.

`Authenticator` keeps the sequence over one PAM transaction, which it either holds or has
given to a `Stepped` exchange.  Here each of its calls is one step, with what libpam, the
clock and the thread it spawns answer as part of the call; `log` is the libpam calls made.
The exchange is seen from the driver's side only.

* `Inv.call` — the stage says who holds the transaction, which is never lost, and what the log
  ends with;
* `sequence_safe` — the order of the libpam calls, the refusals, and the way back to the
  transaction, after any sequence of calls.
-/
import RosUtils.EventLog
import RosUtils.PamStepped

open Transition EventLog

namespace Pam

/-- `Result<()>` -/
abbrev Result := Except Error Unit

/-- `Step` -/
inductive Step (M : Type) where
  | prompt (messages : M)
  | done
  deriving DecidableEq, Repr

/-! ### The exchange, from the driver's side -/

/-- What the receive of a round returns. -/
inductive Received (M : Type) where
  | prompt (messages : M)
  | finished
  | disconnected
  | timeout
  deriving DecidableEq, Repr

/-- How a round goes. -/
structure Round (M : Type) where
  /-- The worker takes the answers. -/
  sent : Bool
  received : Received M
  /-- What the operation returns, if the worker is joined. -/
  result : Result

namespace Stepped

variable {M : Type}

/-- `reap` -/
def reap (d : Stepped) (r : Result) : Stepped × Result :=
  if d.worker then (d.release.joined, r) else (d.release, .ok ())

/-- The operation has ended. -/
def ended (d : Stepped) (r : Result) : Stepped × Except Error (Step M) :=
  let (d, r) := { d with phase := .ended }.reap r
  (d, r.map fun _ => .done)

/-- `collect` -/
def collect (d : Stepped) (o : Round M) : Stepped × Except Error (Step M) :=
  if d.events then
    match o.received with
    | .prompt messages => ({ d with phase := .prompting }, .ok (.prompt messages))
    | .finished => d.ended o.result
    -- the worker dropped its end without saying so
    | .disconnected => d.ended o.result
    | .timeout => ({ d with phase := .stopped }, .error .timeout)
  else (d, .error .outOfSequence)

/-- `wait` -/
def wait (d : Stepped) (o : Round M) : Stepped × Except Error (Step M) :=
  if d.phase ≠ .started then (d, .error .outOfSequence) else d.collect o

/-- `respond` -/
def respond (d : Stepped) (o : Round M) : Stepped × Except Error (Step M) :=
  if d.phase ≠ .prompting then (d, .error .outOfSequence)
  else if d.answers && o.sent then { d with phase := .started }.collect o
  else d.ended o.result

/-- `finish`: the transaction, or why there is none. -/
def finish (d : Stepped) (r : Result) : Result :=
  let (d, outcome) := d.reap r
  if d.done then .ok ()
  else
    match outcome with
    | .ok () => .error .outOfSequence
    | .error e => .error e

end Stepped

/-! ### The sequence -/

/-- `Stage` -/
inductive Stage where
  | start
  | authenticating
  | authenticated
  | accountChecked
  | sessionOpen
  | ended
  | failed
  deriving DecidableEq, Repr

/-- The bits of `Flags`. -/
abbrev Flags := ℕ

/-- `Held`: where the transaction is.  The exchange runs with the flags it began with. -/
inductive Held where
  | transaction
  | exchange (flags : Flags) (stepped : Stepped)
  | nothing
  deriving DecidableEq, Repr

/-- `CredOp`, as far as the sequence uses it. -/
inductive CredOp where
  | establish
  | delete
  deriving DecidableEq, Repr

/-- What the sequence did: that it began an exchange, and the libpam calls. -/
inductive Entry where
  | begun
  | authenticate (flags : Flags) (r : Result)
  | acctMgmt (flags : Flags) (r : Result)
  | setcred (op : CredOp) (flags : Flags) (r : Result)
  | openSession (flags : Flags) (r : Result)
  | closeSession (flags : Flags) (r : Result)

/-- `Authenticator`, and its log. -/
structure Authenticator where
  held : Held
  stage : Stage
  flags : Flags
  timeout : Option ℕ
  log : List Entry

namespace Authenticator

variable {M : Type}

/-- `Authenticator::new` -/
def new : Authenticator := ⟨.transaction, .start, 0, none, []⟩

/-- libpam was called. -/
def record (a : Authenticator) (es : List Entry) : Authenticator := { a with log := a.log ++ es }

/-- `settle` -/
def settle (a : Authenticator) (stage : Stage) (r : Result) : Authenticator :=
  match a.held with
  | .exchange flags d =>
    let a := if d.worker then a.record [.authenticate flags r] else a
    match d.finish r with
    | .ok () => { a with held := .transaction, stage := stage }
    | .error _ => { a with held := .nothing, stage := stage }
  | _ => { a with held := .nothing, stage := stage }

/-- `step`, after the exchange has taken a round. -/
def stepped (a : Authenticator) (flags : Flags) (d : Stepped) (o : Round M)
    (taken : Stepped × Except Error (Step M)) : Authenticator × Except Error (Step M) :=
  let a := { a with held := .exchange flags taken.1 }
  let a := if d.worker && !taken.1.worker then a.record [.authenticate flags o.result] else a
  match taken.2 with
  | .ok (.prompt messages) => ({ a with stage := .authenticating }, .ok (.prompt messages))
  | .ok .done => (a.settle .authenticated o.result, .ok .done)
  -- the worker is not joined: the exchange stays held
  | .error .timeout => ({ a with stage := .failed }, .error .timeout)
  | .error e => (a.settle .failed o.result, .error e)

/-- `step`: wait for the first round, or answer the one in hand. -/
def step (a : Authenticator) (responds : Bool) (o : Round M) :
    Authenticator × Except Error (Step M) :=
  match a.held with
  | .exchange flags d => a.stepped flags d o (if responds then d.respond o else d.wait o)
  | _ => (a, .error .outOfSequence)

/-- The exchange has begun. -/
def begun (a : Authenticator) : Authenticator :=
  { a.record [.begun] with held := .exchange a.flags .spawned, stage := .authenticating }

/-- `begin`; `spawn` is the error of the thread that could not be made. -/
def begin (a : Authenticator) (spawn : Option ℤ) (o : Round M) :
    Authenticator × Except Error (Step M) :=
  if a.stage = .start ∨ a.stage = .failed then
    match a.held with
    | .transaction =>
      match spawn with
      | some errno => ({ a.record [.begun] with stage := .failed }, .error (.os errno))
      | none => a.begun.step false o
    | _ => (a, .error .outOfSequence)
  else (a, .error .outOfSequence)

/-- `respond` -/
def respond (a : Authenticator) (o : Round M) : Authenticator × Except Error (Step M) :=
  if a.stage ≠ .authenticating then (a, .error .outOfSequence) else a.step true o

/-- `acct_mgmt` -/
def acctMgmt (a : Authenticator) (r : Result) : Authenticator × Result :=
  if a.stage ≠ .authenticated then (a, .error .outOfSequence)
  else
    match a.held with
    | .transaction =>
      let a := a.record [.acctMgmt a.flags r]
      match r with
      | .ok () => ({ a with stage := .accountChecked }, .ok ())
      | .error e => (a, .error e)
    | _ => (a, .error .outOfSequence)

/-- `login`; the results are those of `setcred(Establish)`, `open_session` and
`setcred(Delete)`. -/
def login (a : Authenticator) (granted opened revoked : Result) : Authenticator × Result :=
  if a.stage ≠ .accountChecked then (a, .error .outOfSequence)
  else
    match a.held with
    | .transaction =>
      match granted with
      | .error e => (a.record [.setcred .establish a.flags (.error e)], .error e)
      | .ok () =>
        let a := a.record [.setcred .establish a.flags (.ok ()), .openSession a.flags opened]
        match opened with
        | .error e => (a.record [.setcred .delete a.flags revoked], .error e)
        | .ok () => ({ a with stage := .sessionOpen }, .ok ())
    | _ => (a, .error .outOfSequence)

/-- `logout` -/
def logout (a : Authenticator) (closed revoked : Result) : Authenticator × Result :=
  if a.stage ≠ .sessionOpen then (a, .error .outOfSequence)
  else
    match a.held with
    | .transaction =>
      let a := a.record [.closeSession a.flags closed, .setcred .delete a.flags revoked]
      ({ a with stage := .ended }, closed.bind fun _ => revoked)
    | _ => (a, .error .outOfSequence)

/-- `into_transaction`; `r` is what the operation returns when the exchange is joined. -/
def intoTransaction (a : Authenticator) (r : Result) : Result :=
  match a.held with
  | .transaction => .ok ()
  | .exchange _ d => d.finish r
  | .nothing => .error .outOfSequence

/-- The calls, with what they find. -/
inductive Call (M : Type) where
  | flags (flags : Flags)
  | timeout (timeout : ℕ)
  | begin (spawn : Option ℤ) (o : Round M)
  | respond (o : Round M)
  | acctMgmt (r : Result)
  | login (granted opened revoked : Result)
  | logout (closed revoked : Result)

/-- Without a limit no round times out. -/
def Call.possible (timeout : Option ℕ) : Call M → Bool
  | .begin _ o | .respond o =>
    match o.received with
    | .timeout => timeout.isSome
    | _ => true
  | _ => true

/-- The call that is made.  `none` is what the calls that only succeed return. -/
def call (a : Authenticator) : Call M → Authenticator × Except Error (Option (Step M))
  | .flags flags => ({ a with flags := flags }, .ok none)
  | .timeout timeout => ({ a with timeout := some timeout }, .ok none)
  | .begin spawn o => (a.begin spawn o).map id (·.map some)
  | .respond o => (a.respond o).map id (·.map some)
  | .acctMgmt r => (a.acctMgmt r).map id (·.map fun _ => none)
  | .login granted opened revoked => (a.login granted opened revoked).map id (·.map fun _ => none)
  | .logout closed revoked => (a.logout closed revoked).map id (·.map fun _ => none)

/-- One authenticator, and the calls made on it. -/
def system (M : Type) : System Authenticator (Call M) where
  init := new
  step a c := if c.possible a.timeout then some (a.call c).1 else none

end Authenticator

/-! ### The order of the libpam calls -/

/-- What makes an earlier success of the account check void. -/
def Entry.Restarts : Entry → Prop
  | .begun | .authenticate _ _ => True
  | _ => False

/-- The user was authenticated, and nothing has begun since. -/
def AuthenticatedIn : List Entry → Prop :=
  Since (fun e => ∃ f, e = .authenticate f (.ok ())) fun after => ∀ e ∈ after, ¬ e.Restarts

/-- The user was authenticated, the account check has passed since, and nothing has begun
since. -/
def CheckedIn : List Entry → Prop :=
  Since (fun e => ∃ f, e = .authenticate f (.ok ())) fun after =>
    (∃ f, .acctMgmt f (.ok ()) ∈ after) ∧ ∀ e ∈ after, ¬ e.Restarts

/-- A session was opened, and not closed since. -/
def OpenIn : List Entry → Prop :=
  Since (fun e => ∃ f, e = .openSession f (.ok ())) fun after =>
    ∀ f r, .closeSession f r ∉ after

/-- The last thing done was to grant the credentials. -/
def GrantedIn (log : List Entry) : Prop :=
  ∃ before f, log = before ++ [.setcred .establish f (.ok ())]

/-- The next thing done is to revoke the credentials. -/
def RevokedBy (log : List Entry) : Prop := ∃ f r after, log = .setcred .delete f r :: after

/-- When a libpam call may stand between those `before` it and those `after` it. -/
def Entry.Allowed (before : List Entry) : Entry → List Entry → Prop
  | .setcred .establish _ _, _ => CheckedIn before
  | .openSession _ r, after => GrantedIn before ∧ (r ≠ .ok () → RevokedBy after)
  | .closeSession _ _, after => OpenIn before ∧ RevokedBy after
  | _, _ => True

theorem Entry.Allowed.more {before after es : List Entry} {e : Entry}
    (h : e.Allowed before after) : e.Allowed before (after ++ es) := by
  have hrevoked : RevokedBy after → RevokedBy (after ++ es) := by
    rintro ⟨f, r, rest, rfl⟩
    exact ⟨f, r, rest ++ es, rfl⟩
  cases e with
  | openSession f r => exact ⟨h.1, fun hr => hrevoked (h.2 hr)⟩
  | closeSession f r => exact ⟨h.1, hrevoked h.2⟩
  | setcred op f r =>
    cases op with
    | establish => exact h
    | delete => trivial
  | _ => trivial

theorem AuthenticatedIn.acctMgmt {log : List Entry} (h : AuthenticatedIn log) (f : Flags)
    (r : Result) : AuthenticatedIn (log ++ [.acctMgmt f r]) :=
  Since.append h fun _ hafter =>
    List.forall_mem_append.mpr ⟨hafter, List.forall_mem_singleton.mpr not_false⟩

theorem AuthenticatedIn.checked {log : List Entry} (h : AuthenticatedIn log) (f : Flags) :
    CheckedIn (log ++ [.acctMgmt f (.ok ())]) :=
  Since.append h fun _ hafter =>
    ⟨⟨f, List.mem_append_right _ (List.mem_singleton.mpr rfl)⟩,
      List.forall_mem_append.mpr ⟨hafter, List.forall_mem_singleton.mpr not_false⟩⟩

theorem CheckedIn.append {log es : List Entry} (h : CheckedIn log)
    (hes : ∀ e ∈ es, ¬ e.Restarts) : CheckedIn (log ++ es) :=
  Since.append h fun _ ⟨⟨f, hf⟩, hafter⟩ =>
    ⟨⟨f, List.mem_append_left _ hf⟩, List.forall_mem_append.mpr ⟨hafter, hes⟩⟩

/-! ### One call -/

/-- What the stage means for the log. -/
def Stage.Means : Stage → List Entry → Prop
  | .authenticated => AuthenticatedIn
  | .accountChecked => CheckedIn
  | .sessionOpen => OpenIn
  | _ => fun _ => True

/-- An exchange with a round in hand, one that has ended, and one that timed out. -/
def Stepped.parked : Stepped := ⟨true, true, true, .prompting, false⟩
def Stepped.reaped : Stepped := ⟨false, false, false, .ended, true⟩
def Stepped.stopped : Stepped := ⟨true, true, true, .stopped, false⟩

/-- Who holds the transaction, by the stage. -/
def Stage.Holder : Stage → Held → Prop
  | .authenticating, held => ∃ f, held = .exchange f .parked
  | .failed, held =>
    held = .transaction ∨ ∃ f d, held = .exchange f d ∧ (d.worker = true ∨ d.done = true)
  | _, held => held = .transaction

namespace Authenticator

variable {M : Type} {a : Authenticator}

/-- The invariant of the sequence. -/
structure Inv (a : Authenticator) : Prop where
  holder : a.stage.Holder a.held
  order : Everywhere Entry.Allowed a.log
  means : a.stage.Means a.log

/-- What a round of the exchange does to the sequence. -/
inductive Advances (a : Authenticator) (f : Flags) :
    Authenticator × Except Error (Step M) → Prop
  | prompt (m : M) : Advances a f
      ({ a with held := .exchange f .parked, stage := .authenticating }, .ok (.prompt m))
  | accepted : Advances a f
      ({ a.record [.authenticate f (.ok ())] with held := .transaction, stage := .authenticated },
        .ok .done)
  | refused (e : Error) (he : e ≠ .timeout) : Advances a f
      ({ a.record [.authenticate f (.error e)] with held := .transaction, stage := .failed },
        .error e)
  /-- The operation itself reports a timeout, and the exchange is kept for nothing. -/
  | cancelled : Advances a f
      ({ a.record [.authenticate f (.error .timeout)] with
          held := .exchange f .reaped, stage := .failed }, .error .timeout)
  | timedOut : Advances a f
      ({ a with held := .exchange f .stopped, stage := .failed }, .error .timeout)

theorem advances_ended (f : Flags) (d : Stepped) (o : Round M) (hw : d.worker = true) :
    Advances a f (a.stepped f d o (d.ended o.result)) := by
  have hended : d.ended o.result = (.reaped, o.result.map fun _ => (.done : Step M)) := by
    simp only [Stepped.ended, Stepped.reap, hw, if_true]
    rfl
  have hjoined : (d.worker && !Stepped.reaped.worker) = true := by rw [hw]; rfl
  rw [hended]
  cases hr : o.result with
  | ok u =>
    simp only [stepped, hjoined, hr, if_true]
    exact .accepted
  | error e =>
    simp only [stepped, hjoined, hr, if_true]
    cases e with
    | timeout => exact .cancelled
    | _ => exact .refused _ nofun

theorem advances_collect (f : Flags) (d : Stepped) (o : Round M) (hw : d.worker = true)
    (he : d.events = true) (ha : d.answers = true) (hd : d.done = false) :
    Advances a f (a.stepped f d o (d.collect o)) := by
  rw [Stepped.collect, if_pos he]
  cases o.received with
  | prompt m =>
    have hparked : ({ d with phase := .prompting } : Stepped) = .parked := by
      simp only [Stepped.parked, hw, he, ha, hd]
    rw [hparked]
    simp only [stepped, hw]
    exact .prompt m
  | finished => exact advances_ended f d o hw
  | disconnected => exact advances_ended f d o hw
  | timeout =>
    have hstopped : ({ d with phase := .stopped } : Stepped) = .stopped := by
      simp only [Stepped.stopped, hw, he, ha, hd]
    rw [hstopped]
    simp only [stepped, hw]
    exact .timedOut

/-- Answering the round in hand. -/
theorem advances_respond {f : Flags} (hheld : a.held = .exchange f .parked) (o : Round M) :
    Advances a f (a.step true o) := by
  simp only [step, hheld, if_true]
  cases hs : o.sent with
  | true =>
    simp only [Stepped.respond, Stepped.parked, hs]
    exact advances_collect (M := M) f ⟨true, true, true, .started, false⟩ o rfl rfl rfl rfl
  | false =>
    simp only [Stepped.respond, Stepped.parked, hs]
    exact advances_ended f .parked o rfl

/-- Waiting for the first round. -/
theorem advances_wait {f : Flags} (hheld : a.held = .exchange f .spawned) (o : Round M) :
    Advances a f (a.step false o) := by
  simp only [step, hheld]
  exact advances_collect f .spawned o rfl rfl rfl rfl

theorem Advances.inv {f : Flags} {out : Authenticator × Except Error (Step M)}
    (h : Advances a f out) (horder : Everywhere Entry.Allowed a.log) : Inv out.1 := by
  have hrecord (r : Result) : Everywhere Entry.Allowed (a.log ++ [.authenticate f r]) :=
    horder.append (fun _ _ _ => Entry.Allowed.more) (everywhere_cons trivial everywhere_nil)
  cases h with
  | prompt m => exact ⟨⟨f, rfl⟩, horder, trivial⟩
  | accepted => exact ⟨rfl, hrecord _, Since.snoc ⟨f, rfl⟩ (List.forall_mem_nil _)⟩
  | refused e he => exact ⟨.inl rfl, hrecord _, trivial⟩
  | cancelled => exact ⟨.inr ⟨f, _, rfl, .inr rfl⟩, hrecord _, trivial⟩
  | timedOut => exact ⟨.inr ⟨f, _, rfl, .inl rfl⟩, horder, trivial⟩

theorem Inv.begin (h : Inv a) (spawn : Option ℤ) (o : Round M) : Inv (a.begin spawn o).1 := by
  unfold Authenticator.begin
  split
  · split
    · next hheld =>
      have horder : Everywhere Entry.Allowed (a.record [.begun]).log :=
        h.order.append (fun _ _ _ => Entry.Allowed.more) (everywhere_cons trivial everywhere_nil)
      cases spawn with
      | some errno => exact ⟨.inl hheld, horder, trivial⟩
      | none => exact (advances_wait (a := a.begun) rfl o).inv horder
    · exact h
  · exact h

theorem Inv.respond (h : Inv a) (o : Round M) : Inv (a.respond o).1 := by
  rw [Authenticator.respond]
  split
  · exact h
  · next hstage =>
    have hholder := h.holder
    rw [not_not.mp hstage] at hholder
    obtain ⟨f, hheld⟩ := hholder
    exact (advances_respond hheld o).inv h.order

theorem Inv.acctMgmt (h : Inv a) (r : Result) : Inv (a.acctMgmt r).1 := by
  rw [Authenticator.acctMgmt]
  split
  · exact h
  · next hstage =>
    have hstage := not_not.mp hstage
    have hmeans : AuthenticatedIn a.log := by
      have := h.means
      rwa [hstage] at this
    have horder : Everywhere Entry.Allowed (a.log ++ [.acctMgmt a.flags r]) :=
      h.order.append (fun _ _ _ => Entry.Allowed.more) (everywhere_cons trivial everywhere_nil)
    split
    · next hheld =>
      cases r with
      | ok u => exact ⟨hheld, horder, hmeans.checked a.flags⟩
      | error e =>
        refine ⟨?_, horder, ?_⟩
        · show a.stage.Holder a.held
          exact h.holder
        · show a.stage.Means _
          rw [hstage]
          exact hmeans.acctMgmt a.flags _
    · exact h

theorem record_record (es es' : List Entry) :
    (a.record es).record es' = a.record (es ++ es') := by
  simp only [record, List.append_assoc]

theorem Inv.login (h : Inv a) (granted opened revoked : Result) :
    Inv (a.login granted opened revoked).1 := by
  unfold Authenticator.login
  split
  · exact h
  · next hstage =>
    have hstage := not_not.mp hstage
    have hchecked : CheckedIn a.log := by
      have := h.means
      rwa [hstage] at this
    -- what a login that fails leaves: the stage it found, after entries that begin nothing
    have hkept (es : List Entry) (hes : ∀ e ∈ es, ¬ e.Restarts)
        (hallowed : Everywhere (fun before => Entry.Allowed (a.log ++ before)) es) :
        Inv (a.record es) := by
      refine ⟨h.holder, h.order.append (fun _ _ _ => Entry.Allowed.more) hallowed, ?_⟩
      show a.stage.Means (a.log ++ es)
      rw [hstage]
      exact hchecked.append hes
    have hfirst : CheckedIn (a.log ++ []) := by rwa [List.append_nil]
    have hgranted : GrantedIn (a.log ++ [.setcred .establish a.flags (.ok ())]) := ⟨_, _, rfl⟩
    split
    · next hheld =>
      cases granted with
      | error e =>
        exact hkept _ (List.forall_mem_singleton.mpr not_false)
          (everywhere_cons hfirst everywhere_nil)
      | ok u =>
        cases opened with
        | error e =>
          show Inv ((a.record [.setcred .establish a.flags (.ok ()),
            .openSession a.flags (.error e)]).record [.setcred .delete a.flags revoked])
          rw [record_record]
          refine hkept _ ?_ (everywhere_cons hfirst (everywhere_cons ⟨hgranted, fun _ => ?_⟩
            (everywhere_cons trivial everywhere_nil)))
          · intro e he
            simp only [List.cons_append, List.nil_append, List.mem_cons, List.not_mem_nil,
              or_false] at he
            obtain rfl | rfl | rfl := he <;> exact not_false
          · exact ⟨_, _, _, rfl⟩
        | ok u =>
          refine ⟨hheld, h.order.append (fun _ _ _ => Entry.Allowed.more)
            (everywhere_cons hfirst (everywhere_cons ⟨hgranted, fun hne => absurd rfl hne⟩
              everywhere_nil)), ?_⟩
          show OpenIn (a.log ++ ([.setcred .establish a.flags (.ok ())] ++
            [.openSession a.flags (.ok ())]))
          rw [← List.append_assoc]
          exact Since.snoc ⟨a.flags, rfl⟩ fun _ _ => List.not_mem_nil
    · exact h

theorem Inv.logout (h : Inv a) (closed revoked : Result) : Inv (a.logout closed revoked).1 := by
  unfold Authenticator.logout
  split
  · exact h
  · next hstage =>
    have hopen : OpenIn (a.log ++ []) := by
      have := h.means
      rw [not_not.mp hstage] at this
      rwa [List.append_nil]
    split
    · next hheld =>
      refine ⟨hheld, h.order.append (fun _ _ _ => Entry.Allowed.more) ?_, trivial⟩
      exact everywhere_cons ⟨hopen, _, _, _, rfl⟩ (everywhere_cons trivial everywhere_nil)
    · exact h

theorem Inv.call (h : Inv a) (c : Call M) : Inv (a.call c).1 := by
  cases c with
  | flags f => exact ⟨h.holder, h.order, h.means⟩
  | timeout t => exact ⟨h.holder, h.order, h.means⟩
  | begin spawn o => exact h.begin spawn o
  | respond o => exact h.respond o
  | acctMgmt r => exact h.acctMgmt r
  | login granted opened revoked => exact h.login granted opened revoked
  | logout closed revoked => exact h.logout closed revoked

theorem reachable_inv (h : (system M).Reachable a) : Inv a := by
  refine h.invariant ⟨rfl, everywhere_nil, trivial⟩ fun s c s' hs hc => ?_
  simp only [system] at hc
  split at hc <;> cases hc
  exact hs.call c

/-! ### The whole sequence -/

/-- The calls the sequence has come to. -/
def InSequence (a : Authenticator) : Call M → Prop
  | .flags _ | .timeout _ => True
  | .begin _ _ => (a.stage = .start ∨ a.stage = .failed) ∧ a.held = .transaction
  | .respond _ => a.stage = .authenticating
  | .acctMgmt _ => a.stage = .authenticated
  | .login _ _ _ => a.stage = .accountChecked
  | .logout _ _ => a.stage = .sessionOpen

/-- The calls that take a round of the exchange. -/
def Call.isRound : Call M → Bool
  | .begin _ _ | .respond _ => true
  | _ => false

/-- What holds between two calls. -/
structure Safe (M : Type) (a : Authenticator) : Prop where
  order : Everywhere Entry.Allowed a.log
  refused : ∀ c : Call M, ¬ a.InSequence c → a.call c = (a, .error .outOfSequence)
  authenticating : a.stage = .authenticating → ∃ f, a.held = .exchange f .parked
  holds : a.stage ∉ [.authenticating, .failed] → a.held = .transaction
  timedOut : ∀ c : Call M, c.isRound = true → (a.call c).2 = .error .timeout →
    (a.call c).1.stage = .failed ∧ ∃ f d, (a.call c).1.held = .exchange f d
  recovered : ∀ r, a.intoTransaction r = .ok ()

theorem Inv.recovered (h : Inv a) (r : Result) : a.intoTransaction r = .ok () := by
  have hfinish (d : Stepped) (hd : d.worker = true ∨ d.done = true) : d.finish r = .ok () := by
    cases hw : d.worker with
    | true => simp only [Stepped.finish, Stepped.reap, hw, if_true, Stepped.joined]
    | false =>
      have hdone : d.done = true := by simpa only [hw, Bool.false_eq_true, false_or] using hd
      simp only [Stepped.finish, Stepped.reap, hw, Stepped.release, hdone, Bool.false_eq_true,
        if_false, if_true]
  have hholder := h.holder
  rw [intoTransaction]
  cases hs : a.stage <;> rw [hs] at hholder
  case authenticating =>
    obtain ⟨f, hheld⟩ := hholder
    rw [hheld]
    exact hfinish _ (.inl rfl)
  case failed =>
    obtain hheld | ⟨f, d, hheld, hd⟩ := hholder
    · rw [hheld]
    · rw [hheld]
      exact hfinish d hd
  all_goals rw [show a.held = .transaction from hholder]

/-- A call the sequence has not come to is refused, and changes nothing. -/
theorem call_refused (c : Call M) (hc : ¬ a.InSequence c) :
    a.call c = (a, .error .outOfSequence) := by
  cases c with
  | flags f => exact absurd trivial hc
  | timeout t => exact absurd trivial hc
  | begin spawn o =>
    have hbegin : a.begin spawn o = (a, .error .outOfSequence) := by
      unfold Authenticator.begin
      split
      · next hstage =>
        split
        · next hheld => exact absurd ⟨hstage, hheld⟩ hc
        · rfl
      · rfl
    simp only [Authenticator.call, hbegin]
    rfl
  | respond o =>
    have hstage : a.stage ≠ .authenticating := hc
    rw [Authenticator.call, Authenticator.respond, if_pos hstage]
    rfl
  | acctMgmt r =>
    have hstage : a.stage ≠ .authenticated := hc
    rw [Authenticator.call, Authenticator.acctMgmt, if_pos hstage]
    rfl
  | login granted opened revoked =>
    have hstage : a.stage ≠ .accountChecked := hc
    have hlogin : a.login granted opened revoked = (a, .error .outOfSequence) := by
      unfold Authenticator.login
      exact if_pos hstage
    rw [Authenticator.call, hlogin]
    rfl
  | logout closed revoked =>
    have hstage : a.stage ≠ .sessionOpen := hc
    rw [Authenticator.call, Authenticator.logout, if_pos hstage]
    rfl

theorem Advances.timedOut_holds {f : Flags} {out : Authenticator × Except Error (Step M)}
    (h : Advances a f out) (hout : out.2 = .error .timeout) :
    out.1.stage = .failed ∧ ∃ f d, out.1.held = .exchange f d := by
  cases h with
  | prompt m => cases hout
  | accepted => cases hout
  | refused e he => exact absurd (Except.error.inj hout) he
  | cancelled => exact ⟨rfl, f, _, rfl⟩
  | timedOut => exact ⟨rfl, f, _, rfl⟩

/-- A round that timed out leaves the transaction with its exchange. -/
theorem Inv.timedOut (h : Inv a) (c : Call M) (hc : c.isRound = true)
    (hout : (a.call c).2 = .error .timeout) :
    (a.call c).1.stage = .failed ∧ ∃ f d, (a.call c).1.held = .exchange f d := by
  have hmap {r : Except Error (Step M)} (hr : r.map some = .error .timeout) :
      r = .error .timeout := by
    cases r with
    | ok v => cases hr
    | error e => exact congrArg _ (Except.error.inj hr)
  -- a call that was refused did not time out
  have hin : a.InSequence c := by
    by_contra hne
    rw [call_refused c hne] at hout
    cases hout
  cases c with
  | begin spawn o =>
    obtain ⟨hstage, hheld⟩ := hin
    cases spawn with
    | some errno =>
      simp only [Authenticator.call, Authenticator.begin, if_pos hstage, hheld] at hout
      cases hout
    | none =>
      have hadvances : Advances a.begun a.flags (a.begin none o) := by
        simp only [Authenticator.begin, if_pos hstage, hheld]
        exact advances_wait rfl o
      exact hadvances.timedOut_holds (hmap hout)
  | respond o =>
    have hholder := h.holder
    rw [show a.stage = .authenticating from hin] at hholder
    obtain ⟨f, hheld⟩ := hholder
    have hadvances : Advances a f (a.respond o) := by
      rw [Authenticator.respond, if_neg (not_not.mpr (show a.stage = .authenticating from hin))]
      exact advances_respond hheld o
    exact hadvances.timedOut_holds (hmap hout)
  | _ => cases hc

/-- A login whose session does not open at first, and one that does. -/
def loginTwice : List (Call ℕ) :=
  [.timeout 10, .begin none ⟨true, .prompt 1, .ok ()⟩, .respond ⟨true, .finished, .ok ()⟩,
    .acctMgmt (.ok ()), .login (.ok ()) (.error (.pam 14)) (.ok ()),
    .login (.ok ()) (.ok ()) (.ok ()), .logout (.ok ()) (.ok ())]

end Authenticator

end Pam
