/-
Runs of a system that takes step after step.

A `System` has a state it starts in and a partial step function: an event either is
not possible in a state or leads to the next one.  What a run keeps follows from what
one step keeps:

* `System.Reachable.invariant` — what holds at the start and is kept by every step holds
  in every reachable state;
* `System.Reachable.invariant_while` — the same as long as a condition holds;
* `System.run_invariant` — the same for one run, of the events in it only;
* `System.Reachable.watched_invariant` — the same of a system and of what somebody who
  watches it notes down;
* `System.run_length_le` — a run is no longer than what is left to do, plus what its events
  add to that;
* `System.allStates_iff_allSteps` — when a property is kept exactly by the good steps, it
  holds all along a run if and only if the steps of the run are all good.
-/
import Mathlib.Tactic

namespace Transition

/-- Where a system starts, and what an event does to a state it is possible in. -/
structure System (σ ε : Type) where
  init : σ
  step : σ → ε → Option σ

namespace System

variable {σ ε : Type} (S : System σ ε)

/-- The states some run of the system leads to. -/
inductive Reachable : σ → Prop
  | init : Reachable S.init
  | step {s s' : σ} {e : ε} (hs : Reachable s) (he : S.step s e = some s') : Reachable s'

/-- Where the events lead, if they are possible one after another. -/
def run : σ → List ε → Option σ
  | s, [] => some s
  | s, e :: es =>
    match S.step s e with
    | some s' => run s' es
    | none => none

/-- The property holds in every state the events lead through. -/
def AllStates (P : σ → Prop) : σ → List ε → Prop
  | s, [] => P s
  | s, e :: es => P s ∧ ∀ s', S.step s e = some s' → AllStates P s' es

/-- Every step the events make is good. -/
def AllSteps (G : σ → ε → Prop) : σ → List ε → Prop
  | _, [] => True
  | s, e :: es => ∀ s', S.step s e = some s' → G s e ∧ AllSteps G s' es

variable {S} {P Inv : σ → Prop} {G : σ → ε → Prop}

/-- What holds at the start and is kept by every step holds in every reachable state. -/
theorem Reachable.invariant (hinit : Inv S.init)
    (hstep : ∀ s e s', Inv s → S.step s e = some s' → Inv s') {s : σ} (h : S.Reachable s) :
    Inv s := by
  induction h with
  | init => exact hinit
  | step _ he ih => exact hstep _ _ _ ih he

/-- The same where the steps keep it only as long as a condition holds, which no step brings
back. -/
theorem Reachable.invariant_while {C : σ → Prop} (hinit : Inv S.init)
    (hback : ∀ s e s', S.step s e = some s' → C s' → C s)
    (hstep : ∀ s e s', C s' → Inv s → S.step s e = some s' → Inv s') {s : σ}
    (h : S.Reachable s) (hs : C s) : Inv s := by
  induction h with
  | init => exact hinit
  | step _ he ih => exact hstep _ _ _ hs (ih (hback _ _ _ he hs)) he

/-- What the events of a run keep holds where the run leads. -/
theorem run_invariant (Inv : σ → Prop) {es : List ε}
    (hstep : ∀ s e s', e ∈ es → Inv s → S.step s e = some s' → Inv s') {s s' : σ} (hs : Inv s)
    (h : S.run s es = some s') : Inv s' := by
  induction es generalizing s with
  | nil =>
    cases h
    exact hs
  | cons e es ih =>
    rw [System.run] at h
    split at h
    · next s₁ he =>
      exact ih (fun s e s' hmem => hstep s e s' (List.mem_cons_of_mem _ hmem))
        (hstep _ _ _ List.mem_cons_self hs he) h
    · cases h

theorem Reachable.run {s s' : σ} (hs : S.Reachable s) {es : List ε} (h : S.run s es = some s') :
    S.Reachable s' :=
  run_invariant S.Reachable (fun _ _ _ _ hs he => hs.step he) hs h

/-- The system and somebody who watches it: after each step they note what they have seen. -/
def watched (S : System σ ε) {ω : Type} (start : ω) (see : ω → σ → ε → σ → ω) :
    System (σ × ω) ε where
  init := (S.init, start)
  step p e := (S.step p.1 e).map fun s' => (s', see p.2 p.1 e s')

/-- To be watched changes nothing, and what the steps and the notes keep together holds
throughout. -/
theorem Reachable.watched_invariant {ω : Type} {start : ω} {see : ω → σ → ε → σ → ω}
    {Inv : σ → ω → Prop} (hinit : Inv S.init start)
    (hstep : ∀ s o e s', S.Reachable s → Inv s o → S.step s e = some s' → Inv s' (see o s e s'))
    {s : σ} {o : ω} (h : (S.watched start see).Reachable (s, o)) : S.Reachable s ∧ Inv s o := by
  have hall : ∀ p, (S.watched start see).Reachable p → S.Reachable p.1 ∧ Inv p.1 p.2 := by
    intro p hp
    induction hp with
    | init => exact ⟨.init, hinit⟩
    | step _ he ih =>
      obtain ⟨s', hs', rfl⟩ := Option.map_eq_some_iff.mp he
      exact ⟨ih.1.step hs', hstep _ _ _ s' ih.1 ih.2 hs'⟩
  exact hall (s, o) h

/-- A step that leaves less to do, but for what its event adds, bounds the runs. -/
theorem run_length_le {μ : σ → ℕ} {cost : ε → ℕ}
    (hstep : ∀ s e s', S.step s e = some s' → μ s' + 1 ≤ μ s + cost e) {s s' : σ} {es : List ε}
    (h : S.run s es = some s') : es.length + μ s' ≤ μ s + (es.map cost).sum := by
  induction es generalizing s with
  | nil =>
    cases h
    simp
  | cons e es ih =>
    rw [System.run] at h
    split at h
    · next s₁ he =>
      have hfirst := hstep s e s₁ he
      have hrest := ih h
      simp only [List.length_cons, List.map_cons, List.sum_cons]
      omega
    · cases h

theorem allStates_head {s : σ} {es : List ε} (h : S.AllStates P s es) : P s := by
  cases es with
  | nil => exact h
  | cons e es => exact h.1

theorem allSteps_of_forall {es : List ε} (h : ∀ e ∈ es, ∀ s, G s e) (s : σ) :
    S.AllSteps G s es := by
  induction es generalizing s with
  | nil => trivial
  | cons e es ih =>
    intro s' _
    exact ⟨h e List.mem_cons_self s, ih (fun e he => h e (List.mem_cons_of_mem _ he)) s'⟩

/-- A property that good steps keep and other steps break holds all along a run exactly
when the steps are all good. -/
theorem allStates_iff_allSteps (hP : ∀ s, Inv s → P s)
    (hgood : ∀ s e s', Inv s → G s e → S.step s e = some s' → Inv s')
    (hbad : ∀ s e s', Inv s → ¬ G s e → S.step s e = some s' → ¬ P s') {s : σ} (hs : Inv s)
    (es : List ε) : S.AllStates P s es ↔ S.AllSteps G s es := by
  induction es generalizing s with
  | nil => exact ⟨fun _ => trivial, fun _ => hP s hs⟩
  | cons e es ih =>
    constructor
    · rintro ⟨-, hall⟩ s' he
      have hG : G s e := by
        by_contra hG
        exact hbad s e s' hs hG he (allStates_head (hall s' he))
      exact ⟨hG, (ih (hgood s e s' hs hG he)).mp (hall s' he)⟩
    · intro hall
      refine ⟨hP s hs, fun s' he => ?_⟩
      obtain ⟨hG, hrest⟩ := hall s' he
      exact (ih (hgood s e s' hs hG he)).mpr hrest

end System

end Transition
