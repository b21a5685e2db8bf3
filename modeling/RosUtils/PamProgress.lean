/-
The exchange of a driver and its worker does not hang.

A call of the driver's waits for the worker, and the worker waits for the driver.  No
timeout is needed to get them past each other: while the driver is inside of a call and the
PAM stack is not at work there is always something that one of them can do, or that both
can do together.  What they do by themselves comes to an end, since every step of theirs
leaves less to do until the stack asks for another round or the owner makes another call.

* `Asked.step` — a worker that waits for answers is known to the driver to wait;
* `Inv.progress` — something can be done;
* `State.step_effort` — whatever is done leaves less to do;
* `exchange_progress` — the two together, for every reachable state.
-/
import RosUtils.PamStepped

open Transition

namespace Pam

variable {M A : Type}

/-! ### Whose turn it is -/

/-- The stack asks for a round. -/
def Event.asks : Event M A → Bool
  | .work (.converse _) => true
  | _ => false

/-- What is up to the PAM stack. -/
def Event.ofStack : Event M A → Bool
  | .work (.converse _) | .work (.opReturns _) => true
  | _ => false

/-- What is up to the owner of the driver: the thread that it starts, and its calls. -/
def Event.ofOwner : Event M A → Bool
  | .spawned | .spawnFails | .call _ => true
  | _ => false

/-- What the driver and its worker do by themselves, whatever the time. -/
def Event.own : Event M A → Bool
  | .wake .timesOut => false
  | e => !e.ofStack && !e.ofOwner

/-- The driver is in `wait`, `respond`, `finish` or `Drop`. -/
def DriverPc.InCall : DriverPc A → Prop
  | .sending _ _ | .collecting _ | .joining _ => True
  | _ => False

/-! ### Something can be done -/

/-- A worker that waits for answers has handed its round over, and the driver has not given
them yet. -/
def Asked (s : State M A) : Prop :=
  s.stepped.events = true → s.worker = .awaiting → s.stepped.phase = .prompting

variable {s s' : State M A}

theorem asked_of_worker (h : s.worker ≠ .awaiting) : Asked s := fun _ hw => absurd hw h

theorem asked_of_events (h : s.stepped.events = false) : Asked s := by
  intro he
  rw [h] at he
  cases he

theorem State.finish_events : s.finish.stepped.events = false := by
  rw [State.finish]
  split <;> rfl

theorem State.drop_events : s.drop.stepped.events = false := by
  rw [State.drop]
  split <;> rfl

theorem State.reap_events : s.reap.stepped.events = false := by
  rw [State.reap]
  split <;> rfl

theorem Asked.call (h : Asked s) (c : Call A) : Asked (s.call c) := by
  cases c with
  | wait l =>
    rw [State.call]
    split
    · exact h
    · exact h
  | respond a l =>
    rw [State.call]
    split
    · split
      · exact h
      · exact asked_of_events State.reap_events
    · exact h
  | finish => exact asked_of_events State.finish_events
  | drop => exact asked_of_events State.drop_events

theorem Asked.work (hp : Placed s) {w : Work M} (hs : s.work w = some s') : Asked s' := by
  -- a worker is left waiting for answers by a meeting only
  obtain ⟨m, -, rfl⟩ | ⟨r, -, rfl⟩ | ⟨r, -, rfl⟩ | ⟨-, -, rfl⟩ | ⟨r, -, -, rfl⟩ :=
    hp.work_cases hs
  all_goals exact asked_of_worker (by intro hw; cases hw)

theorem Asked.meet {m : Meeting} (hs : s.meet m = some s') : Asked s' := by
  cases m with
  | prompt =>
    simp only [State.meet] at hs
    split at hs <;> cases hs
    exact fun _ _ => rfl
  | answer =>
    simp only [State.meet] at hs
    split at hs <;> cases hs
    exact asked_of_worker (by intro hw; cases hw)
  | finished =>
    simp only [State.meet] at hs
    split at hs <;> cases hs
    exact asked_of_events State.reap_events

theorem Asked.wake (h : Asked s) (hp : Placed s) {w : Wake} (hs : s.wake w = some s') :
    Asked s' := by
  obtain ⟨hpc, rfl⟩ | ⟨k, r, hpc, hw, rfl⟩ := hp.wake_cases hs
  · -- a driver that waits for a round has none in hand
    obtain ⟨hphase, hevents⟩ := hp.collecting true hpc
    refine asked_of_worker fun hw => ?_
    have hprompting := h hevents hw
    rw [hphase] at hprompting
    cases hprompting
  · have hexited : s.worker ≠ .awaiting := by
      rw [hw]
      intro h
      cases h
    cases k <;> exact asked_of_worker hexited

theorem Asked.step (h : Asked s) (hinv : Inv s) {e : Event M A} (hs : s.step e = some s') :
    Asked s' := by
  cases e with
  | spawned =>
    simp only [State.step] at hs
    split at hs <;> cases hs
    exact asked_of_worker (by intro hw; cases hw)
  | spawnFails =>
    simp only [State.step] at hs
    split at hs <;> cases hs
    exact h
  | call c =>
    simp only [State.step] at hs
    split at hs <;> cases hs
    exact h.call c
  | work w => exact Asked.work hinv.toPlaced hs
  | meet m => exact Asked.meet hs
  | wake w => exact h.wake hinv.toPlaced hs

theorem reachable_asked (h : (system M A).Reachable s) : Asked s := by
  induction h with
  | init => exact asked_of_worker (by intro hw; cases hw)
  | step hs he ih => exact ih.step (reachable_inv hs) he

/-- There is a step that needs neither the stack nor the owner nor the time. -/
def CanMove (s : State M A) : Prop := ∃ e : Event M A, e.own = true ∧ (s.step e).isSome

theorem Placed.started_of_inCall (hp : Placed s) (hcall : s.pc.InCall) :
    s.worker ≠ .notStarted := by
  refine hp.started ?_ ?_
  · intro hpc
    rw [hpc] at hcall
    exact hcall
  · intro hpc
    rw [hpc] at hcall
    exact hcall

/-- The conversation is put back whatever the driver does. -/
theorem canMove_of_returned {r : OpResult} (hw : s.worker = .returned r) : CanMove s := by
  refine ⟨.work .putBack, rfl, ?_⟩
  simp only [State.step, State.work, hw, Option.isSome_some]

/-- Answers are handed to a worker that waits for them. -/
theorem Inv.progress_sending (hinv : Inv s) {a : A} {l : Bool} (hpc : s.pc = .sending a l) :
    CanMove s := by
  refine ⟨.meet .answer, rfl, ?_⟩
  simp only [State.step, State.meet, hinv.awaiting hpc, hpc, Option.isSome_some]

/-- A round is waited for: the worker offers one, or it is about to end. -/
theorem Inv.progress_collecting (hinv : Inv s) (hasked : Asked s) {l : Bool}
    (hpc : s.pc = .collecting l) (hw : s.worker ≠ .running) : CanMove s := by
  cases hworker : s.worker with
  | notStarted => exact absurd hworker (hinv.started_of_inCall (by rw [hpc]; trivial))
  | running => exact absurd hworker hw
  | sending m =>
    refine ⟨.meet .prompt, rfl, ?_⟩
    simp only [State.step, State.meet, hworker, hpc, Option.isSome_some]
  | awaiting =>
    obtain ⟨hphase, hevents⟩ := hinv.collecting l hpc
    have hprompting := hasked hevents hworker
    rw [hphase] at hprompting
    cases hprompting
  | returned r => exact canMove_of_returned hworker
  | restored r =>
    refine ⟨.meet .finished, rfl, ?_⟩
    simp only [State.step, State.meet, hworker, hpc, Option.isSome_some]
  | exited r => exact absurd hworker (hinv.not_exited hpc r)

/-- The worker is waited for: with the channels gone nothing keeps it. -/
theorem Inv.progress_joining (hinv : Inv s) {k : Join} (hpc : s.pc = .joining k)
    (hw : s.worker ≠ .running) : CanMove s := by
  have hunblocked := hinv.unblocked (hinv.joining k hpc).1
  cases hworker : s.worker with
  | notStarted => exact absurd hworker (hinv.started_of_inCall (by rw [hpc]; trivial))
  | running => exact absurd hworker hw
  | sending m =>
    exact ⟨.work .promptFails, rfl, Option.isSome_of_eq_some (hunblocked.prompt m hworker)⟩
  | awaiting =>
    exact ⟨.work .answerFails, rfl, Option.isSome_of_eq_some (hunblocked.answer hworker)⟩
  | returned r => exact canMove_of_returned hworker
  | restored r =>
    exact ⟨.work .finishedFails, rfl, Option.isSome_of_eq_some (hunblocked.finished r hworker)⟩
  | exited r =>
    refine ⟨.wake .joins, rfl, ?_⟩
    simp only [State.step, State.wake, hworker, hpc, Option.isSome_some]

theorem Inv.progress (hinv : Inv s) (hasked : Asked s) (hcall : s.pc.InCall)
    (hw : s.worker ≠ .running) : CanMove s := by
  cases hpc : s.pc with
  | sending a l => exact hinv.progress_sending hpc
  | collecting l => exact hinv.progress_collecting hasked hpc hw
  | joining k => exact hinv.progress_joining hpc hw
  | spawning => exact (hpc ▸ hcall).elim
  | idle => exact (hpc ▸ hcall).elim
  | gone => exact (hpc ▸ hcall).elim

/-! ### What is left to do -/

/-- How far the worker is from its end. -/
def Worker.effort : Worker M → ℕ
  | .sending _ => 5
  | .awaiting => 4
  | .running => 3
  | .returned _ => 2
  | .restored _ => 1
  | .notStarted | .exited _ => 0

/-- How far the driver is from the end of its call. -/
def DriverPc.effort : DriverPc A → ℕ
  | .sending _ _ => 3
  | .collecting _ => 2
  | .joining _ => 1
  | .spawning | .idle | .gone => 0

def State.effort (s : State M A) : ℕ := s.worker.effort + s.pc.effort

/-- What an event adds: a round is handed over, answered and returned from; a call goes
through at most three places. -/
def Event.cost (e : Event M A) : ℕ := (if e.asks then 3 else 0) + if e.ofOwner then 4 else 0

theorem State.reap_effort : s.reap.effort ≤ s.worker.effort + 1 := by
  rw [State.reap]
  split
  · exact le_rfl
  · exact Nat.le_succ _

theorem State.finish_effort : s.finish.effort ≤ s.worker.effort + 1 := by
  rw [State.finish]
  split
  · exact le_rfl
  · exact Nat.le_succ _

theorem State.drop_effort : s.drop.effort ≤ s.worker.effort + 1 := by
  rw [State.drop]
  split
  · exact le_rfl
  · exact Nat.le_succ _

theorem State.call_effort (hpc : s.pc = .idle) (c : Call A) :
    (s.call c).effort ≤ s.worker.effort + 3 := by
  have hsame : s.effort ≤ s.worker.effort + 3 := by
    rw [State.effort, hpc]
    exact Nat.le_add_right _ _
  have hends : s.worker.effort + 1 ≤ s.worker.effort + 3 := by omega
  cases c with
  | wait l =>
    rw [State.call]
    split
    · exact Nat.add_le_add_left (show 2 ≤ 3 by omega) _
    · exact hsame
  | respond a l =>
    rw [State.call]
    split
    · split
      · exact le_rfl
      · exact State.reap_effort.trans hends
    · exact hsame
  | finish => exact State.finish_effort.trans hends
  | drop => exact State.drop_effort.trans hends

/-- A worker that goes on by itself leaves the driver where it is. -/
theorem effort_of_worker {w w' : Worker M} {cost : ℕ} (hpc : s'.pc = s.pc) (hw : s.worker = w)
    (hw' : s'.worker = w') (h : w'.effort + 1 ≤ w.effort + cost) :
    s'.effort + 1 ≤ s.effort + cost := by
  rw [State.effort, State.effort, hpc, hw, hw']
  omega

/-- The worker on its own: only a new round is more to do. -/
theorem State.work_effort {w : Work M} (hs : s.work w = some s') :
    s'.effort + 1 ≤ s.effort + (Event.work (A := A) w).cost := by
  cases w with
  | converse m =>
    simp only [State.work] at hs
    split at hs <;> cases hs
    next hw => exact effort_of_worker rfl hw rfl le_rfl
  | opReturns r =>
    simp only [State.work] at hs
    split at hs <;> cases hs
    next hw => exact effort_of_worker rfl hw rfl le_rfl
  | putBack =>
    simp only [State.work] at hs
    split at hs <;> cases hs
    next hw => exact effort_of_worker rfl hw rfl le_rfl
  | promptFails =>
    simp only [State.work] at hs
    split at hs
    · next hw =>
      split at hs <;> cases hs
      exact effort_of_worker rfl hw rfl (Nat.le_succ 4)
    · cases hs
  | answerFails =>
    simp only [State.work] at hs
    split at hs
    · next hw =>
      split at hs <;> cases hs
      exact effort_of_worker rfl hw rfl le_rfl
    · cases hs
  | finishedFails =>
    simp only [State.work] at hs
    split at hs
    · next hw =>
      split at hs <;> cases hs
      exact effort_of_worker rfl hw rfl le_rfl
    · cases hs

theorem State.meet_effort {m : Meeting} (hs : s.meet m = some s') :
    s'.effort + 1 ≤ s.effort := by
  cases m with
  | prompt =>
    simp only [State.meet] at hs
    split at hs <;> cases hs
    next m l hw hpc =>
      have heffort : s.effort = 7 := by
        rw [State.effort, hw, hpc]
        rfl
      show 4 + 0 + 1 ≤ _
      omega
  | answer =>
    simp only [State.meet] at hs
    split at hs <;> cases hs
    next a l hw hpc =>
      have heffort : s.effort = 7 := by
        rw [State.effort, hw, hpc]
        rfl
      have hnext (b : Bool) : (if b then DriverPc.collecting (A := A) l else .idle).effort ≤ 2 := by
        split
        · exact le_rfl
        · exact Nat.zero_le 2
      have hcollect := hnext s.stepped.events
      show 3 + (if s.stepped.events then DriverPc.collecting l else .idle).effort + 1 ≤ _
      omega
  | finished =>
    simp only [State.meet] at hs
    split at hs <;> cases hs
    next r l hw hpc =>
      have heffort : s.effort = 3 := by
        rw [State.effort, hw, hpc]
        rfl
      have hreap : _ ≤ 0 + 1 := State.reap_effort (s := { s with worker := .exited r })
      omega

theorem State.wake_effort {w : Wake} (hs : s.wake w = some s') : s'.effort + 1 ≤ s.effort := by
  cases w with
  | sendFails =>
    simp only [State.wake] at hs
    split at hs
    all_goals cases hs
    all_goals
      next hpc hw =>
      have hreap := State.reap_effort (s := s)
      rw [State.effort.eq_def s, hpc]
      show _ ≤ s.worker.effort + 3
      omega
  | disconnected =>
    simp only [State.wake] at hs
    split at hs <;> cases hs
    next hpc hw =>
      have hreap := State.reap_effort (s := s)
      rw [State.effort.eq_def s, hpc]
      show _ ≤ s.worker.effort + 2
      omega
  | timesOut =>
    simp only [State.wake] at hs
    split at hs <;> cases hs
    next hpc =>
      rw [State.effort.eq_def s, hpc]
      show s.worker.effort + 0 + 1 ≤ s.worker.effort + 2
      omega
  | joins =>
    simp only [State.wake] at hs
    split at hs <;> cases hs
    next k r hpc hw =>
      rw [State.effort.eq_def s, hpc]
      cases k <;> exact le_rfl

/-- Every step leaves less to do, but for what its event adds. -/
theorem State.step_effort {e : Event M A} (hs : s.step e = some s') :
    s'.effort + 1 ≤ s.effort + e.cost := by
  cases e with
  | spawned =>
    simp only [State.step] at hs
    split at hs <;> cases hs
    exact Nat.le_add_left 4 _
  | spawnFails =>
    simp only [State.step] at hs
    split at hs <;> cases hs
    next hpc =>
      show s.worker.effort + 0 + 1 ≤ s.worker.effort + s.pc.effort + 4
      omega
  | call c =>
    simp only [State.step] at hs
    split at hs <;> cases hs
    next hpc =>
      have hcall := State.call_effort hpc c
      show _ ≤ s.worker.effort + s.pc.effort + 4
      omega
  | work w => exact State.work_effort hs
  | meet m => exact State.meet_effort hs
  | wake w => exact State.wake_effort hs

/-! ### The exchange goes on -/

theorem cost_sum (es : List (Event M A)) :
    (es.map Event.cost).sum = 3 * es.countP Event.asks + 4 * es.countP Event.ofOwner := by
  induction es with
  | nil => rfl
  | cons e es ih =>
    rw [List.map_cons, List.sum_cons, ih, List.countP_cons, List.countP_cons, Event.cost]
    split <;> split <;> omega

theorem State.effort_le (s : State M A) : s.effort ≤ 8 := by
  have hworker : s.worker.effort ≤ 5 := by
    cases s.worker <;> rw [Worker.effort] <;> omega
  have hpc : s.pc.effort ≤ 3 := by
    cases s.pc <;> rw [DriverPc.effort] <;> omega
  exact Nat.add_le_add hworker hpc

/-- What keeps the exchange going. -/
structure Progress (s : State M A) : Prop where
  /-- A call of the driver's waits for nothing but the stack. -/
  moves : s.pc.InCall → s.worker ≠ .running → CanMove s
  /-- Rounds and calls apart, little is left to do. -/
  ends : ∀ es s', (system M A).run s es = some s' →
    es.length ≤ 8 + 3 * es.countP Event.asks + 4 * es.countP Event.ofOwner

/-- **Progress**: in every reachable state a driver inside of a call is not stuck, without any
timeout, unless the stack is at work; and every run from there is as long as the rounds the
stack asks for and the calls the owner makes allow, so that a call returns after at most
eight steps more than the rounds it sees through. -/
theorem exchange_progress (h : (system M A).Reachable s) : Progress s where
  moves := (reachable_inv h).progress (reachable_asked h)
  ends := by
    intro es s' hrun
    have hlength := System.run_length_le (S := system M A) (fun _ _ _ => State.step_effort) hrun
    have heffort := s.effort_le
    rw [cost_sum] at hlength
    omega

/-- A driver that waits without a limit for a worker that has a round to hand over. -/
def waitingRun : List (Event ℕ ℕ) := [.spawned, .work (.converse 1), .call (.wait false)]

theorem exchange_progress_waiting :
    ∃ s, (system ℕ ℕ).run (system ℕ ℕ).init waitingRun = some s ∧
      s.pc = .collecting false ∧ s.worker = .sending 1 ∧ CanMove s ∧ Progress s := by
  have hrun : ∃ s, (system ℕ ℕ).run (system ℕ ℕ).init waitingRun = some s ∧
      s.pc = .collecting false ∧ s.worker = .sending 1 := ⟨_, rfl, rfl, rfl⟩
  obtain ⟨s, hrun, hpc, hw⟩ := hrun
  have hprogress := exchange_progress (System.Reachable.init.run hrun)
  refine ⟨s, hrun, hpc, hw, hprogress.moves ?_ ?_, hprogress⟩
  · rw [hpc]
    trivial
  · rw [hw]
    intro h
    cases h

end Pam
