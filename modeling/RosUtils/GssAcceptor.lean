/-
The accept side of a security context (`truenas_gssapi/src/accept.rs`).

An acceptor feeds tokens to the library until the exchange is complete, and then reports
the name of the initiator.  `step` takes over the name that a call of the library sets
before it looks at the status of the call, and notes that the context is established
after it.  The name is therefore not shown before a step has returned
`Complete` (`established_run`), but a step that fails after that can replace it:
`identityProven_iff` says when it does not.
-/
import RosUtils.EventLog
import Mathlib.Tactic

namespace Gss

open EventLog

/-! ### The code -/

/-- `ERROR_BITS`: the calling and the routine errors of a status. -/
def errorBits : UInt32 := (0o377 : UInt32) <<< 24 ||| (0o377 : UInt32) <<< 16

/-- `GSS_C_SUPPLEMENTARY_MASK`. -/
def supplementaryMask : UInt32 := 0o177777

/-- `GSS_S_CONTINUE_NEEDED`. -/
def continueNeeded : UInt32 := 1

/-- `RoutineError::NO_CONTEXT`, in its place in a major status. -/
def noContext : UInt32 := (8 : UInt32) <<< 16

/-- `Error`. -/
structure Error where
  major : UInt32
  minor : UInt32
  message : String
  deriving DecidableEq, Repr

/-- What the library does in one `gss_accept_sec_context` call: the statuses it returns, and
what it leaves in the out-parameters. -/
structure Accepted (Ctx Name Oid : Type) where
  major : UInt32
  minor : UInt32
  context : Option Ctx
  src : Option Name
  mech : Option Oid
  out : List UInt8
  retFlags : UInt32

/-- `Step`. -/
inductive Step where
  | continue_ (token : List UInt8)
  | complete (token : List UInt8)
  deriving DecidableEq, Repr

/-- `State`. -/
structure State (Ctx Name Oid : Type) where
  context : Option Ctx
  established : Bool
  source : Option Name
  mech : Option Oid
  flags : UInt32

/-- `Context`, as the acceptor hands it over. -/
structure Context (Ctx Name Oid : Type) where
  raw : Option Ctx
  source : Option Name
  mech : Option Oid
  flags : UInt32

variable {Ctx Name Oid : Type}

/-- `check`; the library has a text for each failure. -/
def check (text : UInt32 → UInt32 → Option Oid → String) (major minor : UInt32)
    (mech : Option Oid) : Except Error UInt32 :=
  if major &&& errorBits ≠ 0 then .error ⟨major, minor, text major minor mech⟩
  else .ok (major &&& supplementaryMask)

namespace State

/-- `State::new`. -/
def new : State Ctx Name Oid := ⟨none, false, none, none, 0⟩

/-- `State::step`, where `a` is what the library does. -/
def step (text : UInt32 → UInt32 → Option Oid → String) (s : State Ctx Name Oid)
    (a : Accepted Ctx Name Oid) : Except Error Step × State Ctx Name Oid :=
  let s := { s with context := a.context }
  -- the name is taken over before any error return, so that it cannot leak
  let s := match a.src with
    | some name => { s with source := some name }
    | none => s
  let s := match a.mech with
    | some oid => { s with mech := some oid }
    | none => s
  match check text a.major a.minor s.mech with
  | .error e => (.error e, s)
  | .ok supplementary =>
    let s := { s with flags := a.retFlags }
    if supplementary &&& continueNeeded ≠ 0 then (.ok (.continue_ a.out), s)
    else (.ok (.complete a.out), { s with established := true })

/-- `State::source_name`. -/
def sourceName (s : State Ctx Name Oid) : Option Name := if s.established then s.source else none

/-- `State::take_context`. -/
def takeContext (s : State Ctx Name Oid) :
    Except Error (Context Ctx Name Oid) × State Ctx Name Oid :=
  if s.established then
    (.ok ⟨s.context, s.source, s.mech, s.flags⟩,
      { s with context := none, source := none, mech := none })
  else (.error ⟨noContext, 0, "the context is not established"⟩, s)

end State

variable (text : UInt32 → UInt32 → Option Oid → String)

/-- The acceptor in a run of calls: what each step returns, and the state after all of
them. -/
def runSteps (s : State Ctx Name Oid) :
    List (Accepted Ctx Name Oid) → List (Except Error Step) × State Ctx Name Oid
  | [] => ([], s)
  | a :: calls =>
    let (r, s) := s.step text a
    let (rs, s) := runSteps s calls
    (r :: rs, s)

/-! ### One step -/

namespace Accepted

/-- The call fails. -/
def Fails (a : Accepted Ctx Name Oid) : Prop := a.major &&& errorBits ≠ 0

/-- The call completes the exchange. -/
def Completes (a : Accepted Ctx Name Oid) : Prop :=
  ¬ a.Fails ∧ a.major &&& supplementaryMask &&& continueNeeded = 0

end Accepted

/-- A step returned `Complete`. -/
def IsComplete : Except Error Step → Prop
  | .ok (.complete _) => True
  | .ok (.continue_ _) => False
  | .error _ => False

/-- A step failed. -/
def IsError : Except Error Step → Prop
  | .ok _ => False
  | .error _ => True

section Step

variable {text} {s : State Ctx Name Oid} {a : Accepted Ctx Name Oid}

/-- The state of the acceptor when the status of the call is looked at. -/
def State.takeOver (s : State Ctx Name Oid) (a : Accepted Ctx Name Oid) : State Ctx Name Oid :=
  { s with context := a.context, source := a.src.or s.source, mech := a.mech.or s.mech }

/-- A step takes over the name and the mechanism; the rest follows from the status. -/
theorem step_eq : s.step text a =
    match check text a.major a.minor (a.mech.or s.mech) with
    | .error e => (.error e, s.takeOver a)
    | .ok supplementary =>
      if supplementary &&& continueNeeded ≠ 0 then
        (.ok (.continue_ a.out), { s.takeOver a with flags := a.retFlags })
      else
        (.ok (.complete a.out),
          { s.takeOver a with flags := a.retFlags, established := true }) := by
  obtain ⟨major, minor, context, src, mech, out, retFlags⟩ := a
  cases src <;> cases mech <;> rfl

theorem step_fails (h : a.Fails) : s.step text a =
    (.error ⟨a.major, a.minor, text a.major a.minor (a.mech.or s.mech)⟩, s.takeOver a) := by
  have hcheck : check text a.major a.minor (a.mech.or s.mech) = .error _ := if_pos h
  rw [step_eq, hcheck]

variable (text s a) in
/-- **What a step does**: it fails, continues or completes by the status of its call alone,
and notes only in the last case that the context is established. -/
theorem step_cases :
    (a.Fails ∧ ∃ e, s.step text a = (.error e, s.takeOver a)) ∨
    (¬ a.Fails ∧ ¬ a.Completes ∧ s.step text a =
      (.ok (.continue_ a.out), { s.takeOver a with flags := a.retFlags })) ∨
    (¬ a.Fails ∧ a.Completes ∧ s.step text a =
      (.ok (.complete a.out), { s.takeOver a with flags := a.retFlags, established := true })) := by
  by_cases hfails : a.Fails
  · exact .inl ⟨hfails, _, step_fails hfails⟩
  · have hcheck : check text a.major a.minor (a.mech.or s.mech) = .ok _ := if_neg hfails
    rw [step_eq, hcheck]
    by_cases hmore : a.major &&& supplementaryMask &&& continueNeeded = 0
    · exact .inr (.inr ⟨hfails, ⟨hfails, hmore⟩, if_neg (not_not_intro hmore)⟩)
    · exact .inr (.inl ⟨hfails, fun h => hmore h.2, if_pos hmore⟩)

theorem isError_step : IsError (s.step text a).1 ↔ a.Fails := by
  obtain ⟨hfails, e, hstep⟩ | ⟨hfails, -, hstep⟩ | ⟨hfails, -, hstep⟩ :=
    step_cases text s a
  · rw [hstep]
    exact iff_of_true trivial hfails
  · rw [hstep]
    exact iff_of_false id hfails
  · rw [hstep]
    exact iff_of_false id hfails

/-- The context is established by a step that returns `Complete`, and stays so. -/
theorem established_step : (s.step text a).2.established = true ↔
    s.established = true ∨ IsComplete (s.step text a).1 := by
  obtain ⟨-, e, hstep⟩ | ⟨-, -, hstep⟩ | ⟨-, -, hstep⟩ :=
    step_cases text s a
  · rw [hstep]
    exact (or_iff_left id).symm
  · rw [hstep]
    exact (or_iff_left id).symm
  · rw [hstep]
    exact iff_of_true rfl (.inr trivial)

end Step

/-! ### Runs -/

section Runs

variable {text} {s : State Ctx Name Oid} {calls : List (Accepted Ctx Name Oid)}

/-- **The context is established exactly when a step has returned `Complete`.** -/
theorem established_run : (runSteps text s calls).2.established = true ↔
    s.established = true ∨ ∃ r ∈ (runSteps text s calls).1, IsComplete r := by
  induction calls generalizing s with
  | nil => simp [runSteps]
  | cons a calls ih =>
    change (runSteps text (s.step text a).2 calls).2.established = true ↔ _ ∨
      ∃ r ∈ (s.step text a).1 :: (runSteps text (s.step text a).2 calls).1, IsComplete r
    rw [ih, established_step, List.exists_mem_cons_iff, or_assoc]

/-- The name is hidden, and the context kept back, until the context is established. -/
theorem hidden_of_not_established (h : ¬ s.established = true) : s.sourceName = none ∧
    s.takeContext = (.error ⟨noContext, 0, "the context is not established"⟩, s) :=
  ⟨if_neg h, if_neg h⟩

theorem sourceName_established (h : s.established = true) : s.sourceName = s.source := if_pos h

end Runs

/-! ### The identity -/

namespace State

/-- The name in the context that the acceptor hands over. -/
def handedOver (s : State Ctx Name Oid) : Except Error (Option Name) :=
  s.takeContext.1.map Context.source

end State

/-- The acceptor never shows a name that the exchange has not proven. -/
structure IdentityProven (calls : List (Accepted Ctx Name Oid)) : Prop where
  /-- As long as no step has returned `Complete`, there is no name and no context. -/
  hidden : ∀ front, front <+: calls →
    (∀ r ∈ (runSteps text .new front).1, ¬ IsComplete r) →
    (runSteps text .new front).2.sourceName = none ∧
      (runSteps text .new front).2.takeContext =
        (.error ⟨noContext, 0, "the context is not established"⟩, (runSteps text .new front).2)
  /-- After one has, a step that fails leaves the name as it is. -/
  kept : Everywhere (fun before a _ =>
    (∃ r ∈ (runSteps text .new before).1, IsComplete r) →
    IsError ((runSteps text .new before).2.step text a).1 →
    ((runSteps text .new before).2.step text a).2.sourceName =
        (runSteps text .new before).2.sourceName ∧
      ((runSteps text .new before).2.step text a).2.handedOver =
        (runSteps text .new before).2.handedOver) calls

section Identity

variable {text} {s : State Ctx Name Oid} {a : Accepted Ctx Name Oid}
  {calls : List (Accepted Ctx Name Oid)}

theorem handedOver_established (h : s.established = true) : s.handedOver = .ok s.source := by
  rw [State.handedOver, State.takeContext, if_pos h]
  rfl

/-- A step that fails on an established context keeps the name exactly when its call sets
none, or the same one. -/
theorem keeps_name_iff (h : s.established = true) (ha : a.Fails) :
    ((s.step text a).2.sourceName = s.sourceName ∧
      (s.step text a).2.handedOver = s.handedOver) ↔ a.src = none ∨ a.src = s.source := by
  have hafter : (s.takeOver a).established = true := h
  rw [step_fails ha, sourceName_established h, sourceName_established hafter,
    handedOver_established h, handedOver_established hafter, Except.ok.injEq, and_self]
  change a.src.or s.source = s.source ↔ _
  cases a.src with
  | none => exact iff_of_true rfl (.inl rfl)
  | some name =>
    rw [Option.some_or]
    exact (or_iff_right (Option.some_ne_none name)).symm

/-- The name is hidden in every run until a step returns `Complete`. -/
theorem hidden_run (h : ∀ r ∈ (runSteps text .new calls).1, ¬ IsComplete r) :
    (runSteps text .new calls).2.sourceName = none ∧
      (runSteps text .new calls).2.takeContext =
        (.error ⟨noContext, 0, "the context is not established"⟩,
          (runSteps text .new calls).2) := by
  apply hidden_of_not_established
  -- a new acceptor is not established, and no step has changed that
  rw [established_run]
  rintro (hnew | ⟨r, hr, hcomplete⟩)
  · cases hnew
  · exact h r hr hcomplete

end Identity

/-- **The acceptor's name is the proven one exactly when no failing call sets another.**  The
name stays hidden until a step has returned `Complete` in any case; but a call that fails
after that, and still sets a source name, replaces the one that was proven. -/
theorem identityProven_iff (calls : List (Accepted Ctx Name Oid)) :
    IdentityProven text calls ↔
      Everywhere (fun before a _ =>
        (∃ r ∈ (runSteps text .new before).1, IsComplete r) → a.Fails →
        a.src = none ∨ a.src = (runSteps text .new before).2.source) calls := by
  constructor
  · intro h before a after hcalls hdone ha
    have hestablished := established_run.mpr (.inr hdone)
    exact (keeps_name_iff hestablished ha).mp
      (h.kept before a after hcalls hdone (isError_step.mpr ha))
  · intro h
    -- the name is hidden in any case: only `kept` needs the condition
    refine ⟨fun front _ => hidden_run, ?_⟩
    intro before a after hcalls hdone herror
    have hestablished := established_run.mpr (.inr hdone)
    have ha : a.Fails := isError_step.mp herror
    exact (keeps_name_iff hestablished ha).mpr (h before a after hcalls hdone ha)

/-- The exchange proves the name 1, and the next call fails with the name 2. -/
theorem identityProven_replaced : ¬ IdentityProven (fun _ _ _ => "")
    ([⟨0, 0, some (), some 1, some 0, [], 0⟩,
      ⟨0xd0000, 0, some (), some 2, none, [], 0⟩] : List (Accepted Unit ℕ ℕ)) := by
  intro h
  have hname := (h.kept [_] _ [] rfl ⟨_, List.mem_singleton.mpr rfl, trivial⟩ trivial).1
  exact absurd hname (by decide)

end Gss
