/-
The pool that keeps one LMDB environment per path.

`Env::open_with` looks the slot of a canonical path up in a map, and makes it if there is
none; the map is locked for that only.  Threads interleave in any way, and whatever can
fail may fail: `system`.

What happens under a slot is a matter of that slot.  The map has to lead every path to a
slot of its own, and the threads have to keep off each other's `Env`s: `State.Inv`, which
every step keeps (`Inv.step`).  `State.Step` is what a step can be.
-/
import RosUtils.MdbSlot
import RosUtils.Transition

open Transition

namespace Mdb

namespace Pool

/-! ### Threads -/

/-- Where a thread is. -/
inductive Pc (Path : Type) where
  | idle
  /-- In `DirBuilder::create`. -/
  | making
  /-- In `canonicalize`. -/
  | canonicalizing
  /-- In `path_slot`, waiting for the map. -/
  | lockPool (key : Path)
  /-- In `path_slot`, the map locked. -/
  | lookup (key : Path)
  /-- In `path_slot`, no slot found. -/
  | insert (key : Path)
  /-- In `path_slot`, about to return the slot. -/
  | unlockPool (key : Path) (σ : ℕ)
  /-- In `PathSlot::lock`. -/
  | lockSlot (σ : ℕ) (call : Call Path)
  /-- With the guard of the slot. -/
  | inside (σ : ℕ)

/-- The pool and its threads. -/
structure State (Thread Path : Type) where
  pc : Thread → Pc Path
  pool : Path → Option ℕ
  poolGuard : Option Thread
  slots : List (Slot Thread Path)

/-- What can happen. -/
inductive Event (Thread Path : Type) where
  /-- A thread calls `Env::open_with`. -/
  | openWith (t : Thread)
  /-- A thread calls `Env::clone` on an `Env` of the slot. -/
  | clone (t : Thread) (σ i : ℕ)
  /-- A thread drops an `Env` of the slot. -/
  | drop (t : Thread) (σ i : ℕ)
  /-- `canonicalize` returns. -/
  | canonicalized (t : Thread) (key : Option Path)
  /-- The next step of a thread; where it is a call that can fail, `ok` is whether it
  succeeds. -/
  | advance (t : Thread) (ok : Bool)

namespace State

variable {Thread Path : Type} [DecidableEq Thread] [DecidableEq Path]

def goto (s : State Thread Path) (t : Thread) (pc : Pc Path) : State Thread Path :=
  { s with pc := Function.update s.pc t pc }

def setSlot (s : State Thread Path) (σ : ℕ) (slot : Slot Thread Path) : State Thread Path :=
  { s with slots := s.slots.set σ slot }

/-- A thread that waits for the guard of the slot takes it when it is free. -/
def enter (s : State Thread Path) (t : Thread) (σ : ℕ) (call : Call Path) :
    Option (State Thread Path) := do
  let slot ← s.slots[σ]?
  if slot.guard.isNone then
    some ((s.setSlot σ (slot.goto t (.begin call))).goto t (.inside σ))
  else none

/-- A thread that holds the guard of the slot makes its next step. -/
def workInside (s : State Thread Path) (t : Thread) (σ : ℕ) (ok : Bool) :
    Option (State Thread Path) := do
  let slot ← s.slots[σ]?
  let (holder, w) ← slot.guard
  if holder = t then
    let slot := slot.work t ok w
    some ((s.setSlot σ slot).goto t (if slot.guard.isSome then .inside σ else .idle))
  else none

/-- The next step of a thread, if it is not blocked. -/
def advance (s : State Thread Path) (t : Thread) (ok : Bool) : Option (State Thread Path) :=
  match s.pc t with
  | .idle | .canonicalizing => none
  | .making => some (s.goto t (if ok then .canonicalizing else .idle))
  | .lockPool key =>
    if s.poolGuard = none then some ({ s with poolGuard := some t }.goto t (.lookup key)) else none
  | .lookup key =>
    match s.pool key with
    | some σ => some (s.goto t (.unlockPool key σ))
    | none => some (s.goto t (.insert key))
  | .insert key =>
    some ({ s with
      slots := s.slots ++ [Slot.new]
      pool := Function.update s.pool key (some s.slots.length) }.goto t
        (.unlockPool key s.slots.length))
  | .unlockPool key σ => some ({ s with poolGuard := none }.goto t (.lockSlot σ (.openWith key)))
  | .lockSlot σ call => s.enter t σ call
  | .inside σ => s.workInside t σ ok

/-- `Env::clone` is called: the `Env` is borrowed from now on. -/
def callClone (s : State Thread Path) (t : Thread) (σ i : ℕ) : Option (State Thread Path) := do
  let slot ← s.slots[σ]?
  let self ← slot.shares.lookup i
  if slot.dropper i = none then
    some ((s.setSlot σ (slot.borrow t i)).goto t (.lockSlot σ (.clone i self)))
  else none

/-- `Env::drop` is called, on an `Env` that nobody borrows. -/
def callDrop (s : State Thread Path) (t : Thread) (σ i : ℕ) : Option (State Thread Path) := do
  let slot ← s.slots[σ]?
  let self ← slot.shares.lookup i
  if slot.dropper i = none ∧ slot.borrowers i = ∅ then
    some ((s.setSlot σ (slot.giveAway t i)).goto t (.lockSlot σ (.drop i self)))
  else none

def step (s : State Thread Path) : Event Thread Path → Option (State Thread Path)
  | .openWith t =>
    match s.pc t with
    | .idle => some (s.goto t .making)
    | _ => none
  | .clone t σ i =>
    match s.pc t with
    | .idle => s.callClone t σ i
    | _ => none
  | .drop t σ i =>
    match s.pc t with
    | .idle => s.callDrop t σ i
    | _ => none
  | .canonicalized t key =>
    match s.pc t with
    | .canonicalizing =>
      match key with
      | some key => some (s.goto t (.lockPool key))
      | none => some (s.goto t .idle)
    | _ => none
  | .advance t ok => s.advance t ok

/-- No path has been opened yet. -/
def init : State Thread Path where
  pc _ := .idle
  pool _ := none
  poolGuard := none
  slots := []

end State

/-- The pool, with any threads and paths in any interleaving. -/
def system (Thread Path : Type) [DecidableEq Thread] [DecidableEq Path] :
    System (State Thread Path) (Event Thread Path) where
  init := State.init
  step := State.step

/-! ### The steps -/

namespace State

variable {Thread Path : Type} [DecidableEq Thread] [DecidableEq Path]

/-- What an event makes of a state in which it is possible. -/
inductive Step (s : State Thread Path) : Event Thread Path → State Thread Path → Prop
  | openWith {t : Thread} (hpc : s.pc t = .idle) : Step s (.openWith t) (s.goto t .making)
  | clone {t : Thread} {σ i : ℕ} {slot : Slot Thread Path} {self : Env Path}
      (hpc : s.pc t = .idle) (hslot : s.slots[σ]? = some slot) (hself : (i, self) ∈ slot.shares)
      (hdropper : slot.dropper i = none) :
      Step s (.clone t σ i)
        ((s.setSlot σ (slot.borrow t i)).goto t (.lockSlot σ (.clone i self)))
  | drop {t : Thread} {σ i : ℕ} {slot : Slot Thread Path} {self : Env Path}
      (hpc : s.pc t = .idle) (hslot : s.slots[σ]? = some slot) (hself : (i, self) ∈ slot.shares)
      (hdropper : slot.dropper i = none) (hborrowers : slot.borrowers i = ∅) :
      Step s (.drop t σ i)
        ((s.setSlot σ (slot.giveAway t i)).goto t (.lockSlot σ (.drop i self)))
  | canonicalized {t : Thread} {key : Path} (hpc : s.pc t = .canonicalizing) :
      Step s (.canonicalized t (some key)) (s.goto t (.lockPool key))
  | notCanonicalized {t : Thread} (hpc : s.pc t = .canonicalizing) :
      Step s (.canonicalized t none) (s.goto t .idle)
  | made {t : Thread} (hpc : s.pc t = .making) :
      Step s (.advance t true) (s.goto t .canonicalizing)
  | notMade {t : Thread} (hpc : s.pc t = .making) : Step s (.advance t false) (s.goto t .idle)
  | lockPool {t : Thread} {ok : Bool} {key : Path} (hpc : s.pc t = .lockPool key)
      (hfree : s.poolGuard = none) :
      Step s (.advance t ok) ({ s with poolGuard := some t }.goto t (.lookup key))
  | found {t : Thread} {ok : Bool} {key : Path} {σ : ℕ} (hpc : s.pc t = .lookup key)
      (hσ : s.pool key = some σ) : Step s (.advance t ok) (s.goto t (.unlockPool key σ))
  | notFound {t : Thread} {ok : Bool} {key : Path} (hpc : s.pc t = .lookup key)
      (hnone : s.pool key = none) : Step s (.advance t ok) (s.goto t (.insert key))
  | insert {t : Thread} {ok : Bool} {key : Path} (hpc : s.pc t = .insert key) :
      Step s (.advance t ok)
        ({ s with
          slots := s.slots ++ [Slot.new]
          pool := Function.update s.pool key (some s.slots.length) }.goto t
            (.unlockPool key s.slots.length))
  | unlockPool {t : Thread} {ok : Bool} {key : Path} {σ : ℕ} (hpc : s.pc t = .unlockPool key σ) :
      Step s (.advance t ok) ({ s with poolGuard := none }.goto t (.lockSlot σ (.openWith key)))
  | lockSlot {t : Thread} {ok : Bool} {σ : ℕ} {call : Call Path} {slot : Slot Thread Path}
      (hpc : s.pc t = .lockSlot σ call) (hslot : s.slots[σ]? = some slot)
      (hfree : slot.guard = none) :
      Step s (.advance t ok)
        ((s.setSlot σ (slot.goto t (.begin call))).goto t (.inside σ))
  | work {t : Thread} {ok : Bool} {σ : ℕ} {slot : Slot Thread Path} {w : Work Path}
      (hpc : s.pc t = .inside σ) (hslot : s.slots[σ]? = some slot)
      (hg : slot.guard = some (t, w)) :
      Step s (.advance t ok)
        ((s.setSlot σ (slot.work t ok w)).goto t
          (if (slot.work t ok w).guard.isSome then .inside σ else .idle))

variable {s s' : State Thread Path} {t : Thread}

theorem step_of_advance {ok : Bool} (he : s.advance t ok = some s') :
    Step s (.advance t ok) s' := by
  simp only [State.advance] at he
  split at he
  · cases he
  · cases he
  · next hpc =>
    cases he
    cases ok with
    | true => exact .made hpc
    | false => exact .notMade hpc
  · next key hpc =>
    split at he
    · next hfree =>
      cases he
      exact .lockPool hpc hfree
    · cases he
  · next key hpc =>
    split at he
    · next σ hσ =>
      cases he
      exact .found hpc hσ
    · next hnone =>
      cases he
      exact .notFound hpc hnone
  · next key hpc =>
    cases he
    exact .insert hpc
  · next key σ hpc =>
    cases he
    exact .unlockPool hpc
  · next σ call hpc =>
    simp only [State.enter, Option.bind_eq_bind, Option.bind_eq_some_iff] at he
    obtain ⟨slot, hslot, he⟩ := he
    split at he
    · next hfree =>
      cases he
      exact .lockSlot hpc hslot (Option.isNone_iff_eq_none.mp hfree)
    · cases he
  · next σ hpc =>
    simp only [State.workInside, Option.bind_eq_bind, Option.bind_eq_some_iff] at he
    obtain ⟨slot, hslot, ⟨holder, w⟩, hg, he⟩ := he
    split at he
    · next hholder =>
      cases he
      exact .work hpc hslot (hholder ▸ hg)
    · cases he

theorem step_cases {e : Event Thread Path} (he : s.step e = some s') : Step s e s' := by
  cases e with
  | openWith t =>
    simp only [State.step] at he
    split at he
    · next hpc =>
      cases he
      exact .openWith hpc
    · cases he
  | clone t σ i =>
    simp only [State.step, State.callClone, Option.bind_eq_bind] at he
    split at he
    · next hpc =>
      obtain ⟨slot, hslot, he⟩ := Option.bind_eq_some_iff.mp he
      obtain ⟨self, hself, he⟩ := Option.bind_eq_some_iff.mp he
      split at he
      · next hdropper =>
        cases he
        exact .clone hpc hslot (Slot.mem_of_lookup hself) hdropper
      · cases he
    · cases he
  | drop t σ i =>
    simp only [State.step, State.callDrop, Option.bind_eq_bind] at he
    split at he
    · next hpc =>
      obtain ⟨slot, hslot, he⟩ := Option.bind_eq_some_iff.mp he
      obtain ⟨self, hself, he⟩ := Option.bind_eq_some_iff.mp he
      split at he
      · next hfree =>
        cases he
        exact .drop hpc hslot (Slot.mem_of_lookup hself) hfree.1 hfree.2
      · cases he
    · cases he
  | canonicalized t key =>
    simp only [State.step] at he
    split at he
    · next hpc =>
      cases key with
      | some key =>
        cases he
        exact .canonicalized hpc
      | none =>
        cases he
        exact .notCanonicalized hpc
    · cases he
  | advance t ok => exact step_of_advance he

end State

/-! ### What the pool keeps -/

namespace State

variable {Thread Path : Type} {s : State Thread Path} {t : Thread}

/-- What a thread relies on where it is. -/
def PcOk (s : State Thread Path) (t : Thread) : Pc Path → Prop
  | .lookup _ => s.poolGuard = some t
  | .insert key => s.poolGuard = some t ∧ s.pool key = none
  | .unlockPool key σ => s.poolGuard = some t ∧ s.pool key = some σ
  | .lockSlot σ (.openWith key) => s.pool key = some σ
  | .lockSlot σ (.clone i self) =>
    ∃ slot : Slot Thread Path, s.slots[σ]? = some slot ∧ (i, self) ∈ slot.shares ∧
      t ∈ slot.borrowers i
  | .lockSlot σ (.drop i self) =>
    ∃ slot : Slot Thread Path, s.slots[σ]? = some slot ∧ (i, self) ∈ slot.shares ∧
      slot.dropper i = some t
  | _ => True

/-- Every path has a slot of its own, every slot is in order, and a thread holds the guard
of no slot but the one it is inside of. -/
structure Inv (s : State Thread Path) : Prop where
  slots : ∀ (σ : ℕ) (slot : Slot Thread Path), s.slots[σ]? = some slot →
    slot.Ok fun k => s.pool k = some σ
  inside : ∀ (σ : ℕ) (slot : Slot Thread Path) (t : Thread) (w : Work Path),
    s.slots[σ]? = some slot → slot.guard = some (t, w) → s.pc t = .inside σ
  bound : ∀ k σ, s.pool k = some σ → σ < s.slots.length
  inj : ∀ k k' σ, s.pool k = some σ → s.pool k' = some σ → k = k'
  threads : ∀ t, s.PcOk t (s.pc t)

theorem inv_init : (init : State Thread Path).Inv where
  slots := by simp [init]
  inside := by simp [init]
  bound := by simp [init]
  inj := by simp [init]
  threads _ := trivial

/-- The environment with this number under the slot. -/
def HasHandle (s : State Thread Path) (σ n : ℕ) (h : Handle Thread Path) : Prop :=
  ∃ slot : Slot Thread Path, s.slots[σ]? = some slot ∧ slot.handles[n]? = some h

/-- An environment that is not closed is the current one of the slot of its path. -/
theorem Inv.current_of_open (h : s.Inv) {σ n : ℕ} {x : Handle Thread Path}
    (hx : s.HasHandle σ n x) (hopen : x.closes = 0) :
    ∃ slot : Slot Thread Path, s.slots[σ]? = some slot ∧ s.pool x.path = some σ ∧
      slot.current = some n := by
  obtain ⟨slot, hslot, hn⟩ := hx
  have hok := h.slots σ slot hslot
  exact ⟨slot, hslot, hok.handles.paths n x hn, (hok.handles.closed n x hn).2 hopen⟩

theorem Inv.count_of_free (h : s.Inv) {σ : ℕ} {slot : Slot Thread Path}
    (hslot : s.slots[σ]? = some slot) (hfree : slot.guard = none) :
    slot.refcnt = slot.shares.length ∧ (slot.env = none ↔ slot.refcnt = 0) ∧
      slot.current = slot.env := by
  have hok := h.slots σ slot hslot
  have hcount := hok.count
  rw [Slot.extra, hfree] at hcount
  refine ⟨by simpa using hcount, hok.settled ?_, ?_⟩
  · rw [Slot.Settled, hfree]
    trivial
  · rw [Slot.current, hfree]

variable [DecidableEq Thread]

/-- A step that changes one thread and no slot. -/
theorem Inv.goto (h : s.Inv) {guard : Option Thread} {pc : Pc Path}
    (hpc : ∀ σ, s.pc t ≠ .inside σ) (hguard : ∀ u ≠ t, s.poolGuard = some u → guard = some u)
    (hok : PcOk { s with poolGuard := guard } t pc) :
    ({ s with poolGuard := guard }.goto t pc).Inv := by
  refine ⟨h.slots, fun σ slot u w hslot hu => ?_, h.bound, h.inj, fun u => ?_⟩
  · have hinside := h.inside σ slot u w hslot hu
    have hne : u ≠ t := by
      rintro rfl
      exact hpc σ hinside
    exact (Function.update_of_ne hne _ _).trans hinside
  · show PcOk _ u (Function.update s.pc t pc u)
    by_cases hu : u = t
    · subst hu
      rw [Function.update_self]
      exact hok
    -- another thread only relies on the guard of the pool if it holds it
    · rw [Function.update_of_ne hu]
      have hold := h.threads u
      cases hp : s.pc u with
      | lookup key =>
        rw [hp] at hold
        exact hguard u hu hold
      | insert key =>
        rw [hp] at hold
        exact ⟨hguard u hu hold.1, hold.2⟩
      | unlockPool key σ =>
        rw [hp] at hold
        exact ⟨hguard u hu hold.1, hold.2⟩
      | lockSlot σ call =>
        rw [hp] at hold
        cases call <;> exact hold
      | _ => trivial

/-- A step that changes one thread and the slot it is at. -/
theorem Inv.setSlot (h : s.Inv) {σ : ℕ} {slot slot' : Slot Thread Path} {pc : Pc Path}
    (hslot : s.slots[σ]? = some slot) (hpc : ∀ τ, s.pc t = .inside τ → τ = σ)
    (hslot' : slot'.Ok fun k => s.pool k = some σ)
    (hkeeps : ∀ u ≠ t, Slot.Keeps u slot slot')
    (hguard : ∀ u w, slot'.guard = some (u, w) →
      u = t ∧ pc = .inside σ ∨ u ≠ t ∧ ∃ w', slot.guard = some (u, w'))
    (hok : PcOk (s.setSlot σ slot') t pc) : ((s.setSlot σ slot').goto t pc).Inv := by
  have hσ : σ < s.slots.length := (List.getElem?_eq_some_iff.mp hslot).1
  have hget : ∀ {τ x}, (s.slots.set σ slot')[τ]? = some x →
      τ = σ ∧ x = slot' ∨ τ ≠ σ ∧ s.slots[τ]? = some x := by
    intro τ x hx
    by_cases hτ : σ = τ
    · subst hτ
      rw [List.getElem?_set_self hσ] at hx
      exact .inl ⟨rfl, (Option.some.inj hx).symm⟩
    · rw [List.getElem?_set_ne hτ] at hx
      exact .inr ⟨Ne.symm hτ, hx⟩
  -- what another thread knows of a slot it still knows
  have hclaim : ∀ u ≠ t, ∀ {τ : ℕ} {x : Slot Thread Path}, s.slots[τ]? = some x →
      ∃ x', (s.slots.set σ slot')[τ]? = some x' ∧ Slot.Keeps u x x' := by
    intro u hu τ x hx
    by_cases hτ : σ = τ
    · subst hτ
      cases hslot.symm.trans hx
      exact ⟨slot', List.getElem?_set_self hσ, hkeeps u hu⟩
    · exact ⟨x, (List.getElem?_set_ne hτ).trans hx, .of_eq rfl rfl rfl⟩
  refine ⟨fun τ x hx => ?_, fun τ x u w hx hu => ?_, fun k τ hk => ?_, h.inj, fun u => ?_⟩
  · rcases hget hx with ⟨rfl, rfl⟩ | ⟨-, hx⟩
    · exact hslot'
    · exact h.slots τ x hx
  · show Function.update s.pc t pc u = _
    rcases hget hx with ⟨rfl, rfl⟩ | ⟨hτ, hx⟩
    · rcases hguard u w hu with ⟨rfl, rfl⟩ | ⟨hne, w', hw'⟩
      · rw [Function.update_self]
      · rw [Function.update_of_ne hne]
        exact h.inside τ slot u w' hslot hw'
    · have hinside := h.inside τ x u w hx hu
      have hne : u ≠ t := by
        rintro rfl
        exact hτ (hpc τ hinside)
      rw [Function.update_of_ne hne, hinside]
  · show τ < (s.slots.set σ slot').length
    rw [List.length_set]
    exact h.bound k τ hk
  · show PcOk _ u (Function.update s.pc t pc u)
    by_cases hu : u = t
    · subst hu
      rw [Function.update_self]
      exact hok
    · rw [Function.update_of_ne hu]
      have hold := h.threads u
      cases hp : s.pc u with
      | lockSlot τ call =>
        rw [hp] at hold
        cases call with
        | openWith key => exact hold
        | clone i self =>
          obtain ⟨x, hx, hmem, hborrowed⟩ := hold
          obtain ⟨x', hx', hk⟩ := hclaim u hu hx
          exact ⟨x', hx', hk.clone i self hmem hborrowed⟩
        | drop i self =>
          obtain ⟨x, hx, hmem, hdropper⟩ := hold
          obtain ⟨x', hx', hk⟩ := hclaim u hu hx
          exact ⟨x', hx', hk.drop i self hmem hdropper⟩
      | _ =>
        rw [hp] at hold
        exact hold

/-- A path that has no slot gets one of its own. -/
theorem Inv.newSlot [DecidableEq Path] (h : s.Inv) {key : Path} (hpc : s.pc t = .insert key) :
    ({ s with
      slots := s.slots ++ [Slot.new]
      pool := Function.update s.pool key (some s.slots.length) }.goto t
        (.unlockPool key s.slots.length)).Inv := by
  have hthread := h.threads t
  rw [hpc] at hthread
  obtain ⟨hguard, hnone⟩ := hthread
  have hpool : ∀ {k σ}, s.pool k = some σ →
      Function.update s.pool key (some s.slots.length) k = some σ := by
    intro k σ hk
    rw [Function.update_of_ne, hk]
    rintro rfl
    cases hnone.symm.trans hk
  have hlookup : ∀ {k σ}, Function.update s.pool key (some s.slots.length) k = some σ →
      s.pool k = some σ ∨ k = key ∧ σ = s.slots.length := by
    intro k σ hk
    by_cases hkey : k = key
    · rw [hkey, Function.update_self] at hk
      exact .inr ⟨hkey, (Option.some.inj hk).symm⟩
    · rw [Function.update_of_ne hkey] at hk
      exact .inl hk
  have hslot : ∀ {σ : ℕ} {slot : Slot Thread Path}, s.slots[σ]? = some slot →
      (s.slots ++ [Slot.new])[σ]? = some slot := fun hσ => getElem?_concat_eq_some.mpr (.inl hσ)
  refine ⟨fun σ slot hσ => ?_, fun σ slot u w hσ hu => ?_, fun k σ hk => ?_,
    fun k k' σ hk hk' => ?_, fun u => ?_⟩
  · rcases getElem?_concat_eq_some.mp hσ with hσ | ⟨-, rfl⟩
    · exact (h.slots σ slot hσ).mono fun k => hpool
    · exact Slot.ok_new
  · rcases getElem?_concat_eq_some.mp hσ with hσ | ⟨-, rfl⟩
    · have hinside := h.inside σ slot u w hσ hu
      refine (Function.update_of_ne ?_ _ _).trans hinside
      rintro rfl
      cases hpc.symm.trans hinside
    · cases hu
  · show σ < (s.slots ++ [Slot.new]).length
    rw [List.length_append, List.length_singleton]
    rcases hlookup hk with hk | ⟨-, rfl⟩
    · exact Nat.lt_succ_of_lt (h.bound k σ hk)
    · exact Nat.lt_succ_self _
  · rcases hlookup hk with hold | ⟨hkey, hσ⟩
    · rcases hlookup hk' with hold' | ⟨-, hσ'⟩
      · exact h.inj k k' σ hold hold'
      · exact absurd hσ' (h.bound k σ hold).ne
    · rcases hlookup hk' with hold' | ⟨hkey', -⟩
      · exact absurd hσ (h.bound k' σ hold').ne
      · rw [hkey, hkey']
  · show PcOk _ u (Function.update s.pc t _ u)
    by_cases hu : u = t
    · subst hu
      rw [Function.update_self]
      exact ⟨hguard, Function.update_self _ _ _⟩
    · rw [Function.update_of_ne hu]
      have hold := h.threads u
      cases hp : s.pc u with
      | insert k =>
        -- only one thread has the map
        rw [hp] at hold
        exact absurd (Option.some.inj (hold.1.symm.trans hguard)) hu
      | unlockPool k σ =>
        rw [hp] at hold
        exact ⟨hold.1, hpool hold.2⟩
      | lookup k =>
        rw [hp] at hold
        exact hold
      | lockSlot σ call =>
        rw [hp] at hold
        cases call with
        | openWith k => exact hpool hold
        | clone i self =>
          obtain ⟨slot, hσ, hclaim⟩ := hold
          exact ⟨slot, hslot hσ, hclaim⟩
        | drop i self =>
          obtain ⟨slot, hσ, hclaim⟩ := hold
          exact ⟨slot, hslot hσ, hclaim⟩
      | _ => trivial

/-- The guard of a slot is taken. -/
theorem Inv.lockSlot (h : s.Inv) {σ : ℕ} {call : Call Path} {slot : Slot Thread Path}
    (hpc : s.pc t = .lockSlot σ call) (hslot : s.slots[σ]? = some slot)
    (hfree : slot.guard = none) :
    ((s.setSlot σ (slot.goto t (.begin call))).goto t (.inside σ)).Inv := by
  have hthread := h.threads t
  rw [hpc] at hthread
  refine h.setSlot hslot (by simp [hpc]) ?_ (fun u _ => .of_eq rfl rfl rfl) ?_ trivial
  · refine (h.slots σ slot hslot).lock hfree ?_
    cases call with
    | openWith key => exact hthread
    | clone i self =>
      obtain ⟨slot', hslot', hclaim⟩ := hthread
      cases hslot.symm.trans hslot'
      exact hclaim
    | drop i self =>
      obtain ⟨slot', hslot', hclaim⟩ := hthread
      cases hslot.symm.trans hslot'
      exact hclaim
  · intro u w hu
    cases hu
    exact .inl ⟨rfl, rfl⟩

/-- The holder of a guard makes a step. -/
theorem Inv.work [DecidableEq Path] (h : s.Inv) {σ : ℕ} {ok : Bool} {slot : Slot Thread Path}
    {w : Work Path} (hpc : s.pc t = .inside σ) (hslot : s.slots[σ]? = some slot)
    (hg : slot.guard = some (t, w)) :
    ((s.setSlot σ (slot.work t ok w)).goto t
      (if (slot.work t ok w).guard.isSome then .inside σ else .idle)).Inv := by
  have hok := h.slots σ slot hslot
  refine h.setSlot hslot (fun τ hτ => ?_) (hok.step hg ok) (fun u hu => hok.keeps hg ok hu) ?_ ?_
  · rw [hpc] at hτ
    cases hτ
    rfl
  · intro u w' hu
    rcases slot.guard_work t ok w with hnone | ⟨w'', hsome⟩
    · cases hnone.symm.trans hu
    · cases hsome.symm.trans hu
      exact .inl ⟨rfl, if_pos (by rw [hsome]; rfl)⟩
  · split <;> trivial

/-- A thread that is in no call changes what a slot has lent, and not its guard. -/
theorem Inv.lend (h : s.Inv) {σ : ℕ} {slot slot' : Slot Thread Path} {pc : Pc Path}
    (hslot : s.slots[σ]? = some slot) (hpc : s.pc t = .idle) (hguard : slot'.guard = slot.guard)
    (hslot' : slot'.Ok fun k => s.pool k = some σ) (hkeeps : ∀ u ≠ t, Slot.Keeps u slot slot')
    (hok : PcOk (s.setSlot σ slot') t pc) : ((s.setSlot σ slot').goto t pc).Inv := by
  refine h.setSlot hslot (by simp [hpc]) hslot' hkeeps (fun u w hu => ?_) hok
  rw [hguard] at hu
  refine .inr ⟨?_, w, hu⟩
  rintro rfl
  cases hpc.symm.trans (h.inside σ slot u w hslot hu)

/-- **A step keeps the pool.** -/
theorem Inv.step [DecidableEq Path] {e : Event Thread Path} {s' : State Thread Path} (h : s.Inv)
    (he : Step s e s') : s'.Inv := by
  cases he with
  | openWith hpc => exact h.goto (by simp [hpc]) (fun _ _ hu => hu) trivial
  | @clone t σ i slot self hpc hslot hself hdropper =>
    have hlt : σ < s.slots.length := (List.getElem?_eq_some_iff.mp hslot).1
    exact h.lend hslot hpc rfl ((h.slots σ slot hslot).borrow t hdropper) (fun u _ => .borrow t)
      ⟨_, List.getElem?_set_self hlt, hself, slot.mem_borrow_self t i⟩
  | @drop t σ i slot self hpc hslot hself hdropper hborrowers =>
    have hlt : σ < s.slots.length := (List.getElem?_eq_some_iff.mp hslot).1
    exact h.lend hslot hpc rfl ((h.slots σ slot hslot).giveAway t hdropper hborrowers)
      (fun u _ => .giveAway t hdropper)
      ⟨_, List.getElem?_set_self hlt, hself, Function.update_self _ _ _⟩
  | canonicalized hpc => exact h.goto (by simp [hpc]) (fun _ _ hu => hu) trivial
  | notCanonicalized hpc => exact h.goto (by simp [hpc]) (fun _ _ hu => hu) trivial
  | made hpc => exact h.goto (by simp [hpc]) (fun _ _ hu => hu) trivial
  | notMade hpc => exact h.goto (by simp [hpc]) (fun _ _ hu => hu) trivial
  | lockPool hpc hfree =>
    -- the guard of the pool is free, so no thread relied on it
    refine h.goto (by simp [hpc]) (fun u _ hu => ?_) rfl
    cases hfree.symm.trans hu
  | @found t ok key σ hpc hσ =>
    have hthread := h.threads t
    rw [hpc] at hthread
    exact h.goto (by simp [hpc]) (fun _ _ hu => hu) ⟨hthread, hσ⟩
  | @notFound t ok key hpc hnone =>
    have hthread := h.threads t
    rw [hpc] at hthread
    exact h.goto (by simp [hpc]) (fun _ _ hu => hu) ⟨hthread, hnone⟩
  | insert hpc => exact h.newSlot hpc
  | @unlockPool t ok key σ hpc =>
    have hthread := h.threads t
    rw [hpc] at hthread
    -- the guard that is let go was this thread's
    refine h.goto (by simp [hpc]) (fun u hu hguard => ?_) hthread.2
    exact absurd (Option.some.inj (hguard.symm.trans hthread.1)) hu
  | lockSlot hpc hslot hfree => exact h.lockSlot hpc hslot hfree
  | work hpc hslot hg => exact h.work hpc hslot hg

theorem inv_of_reachable [DecidableEq Path] (h : (system Thread Path).Reachable s) : s.Inv :=
  h.invariant inv_init fun _ _ _ hs he => hs.step (step_cases he)

/-! ### What a step does to a slot -/

/-- What an event makes of a slot. -/
inductive SlotStep [DecidableEq Path] (s : State Thread Path) (σ : ℕ) (slot : Slot Thread Path) :
    Event Thread Path → Slot Thread Path → Prop
  | same {e : Event Thread Path} : SlotStep s σ slot e slot
  | borrow (t : Thread) (i : ℕ) : SlotStep s σ slot (.clone t σ i) (slot.borrow t i)
  | giveAway (t : Thread) (i : ℕ) : SlotStep s σ slot (.drop t σ i) (slot.giveAway t i)
  | lock {t : Thread} {ok : Bool} {call : Call Path} (hpc : s.pc t = .lockSlot σ call)
      (hg : slot.guard = none) : SlotStep s σ slot (.advance t ok) (slot.goto t (.begin call))
  | work {t : Thread} {ok : Bool} {w : Work Path} (hpc : s.pc t = .inside σ)
      (hg : slot.guard = some (t, w)) : SlotStep s σ slot (.advance t ok) (slot.work t ok w)

section SlotStep

variable [DecidableEq Path] {e : Event Thread Path} {s' : State Thread Path} {σ : ℕ}
  {slot : Slot Thread Path}

/-- The slot that is set, and any other as it was. -/
theorem exists_set {τ : ℕ} {old new : Slot Thread Path} (hold : s.slots[τ]? = some old)
    (hslot : s.slots[σ]? = some slot) (hnew : τ = σ → SlotStep s σ old e new) :
    ∃ slot', (s.slots.set τ new)[σ]? = some slot' ∧ SlotStep s σ slot e slot' := by
  by_cases hτ : τ = σ
  · subst hτ
    cases hold.symm.trans hslot
    have hlt : τ < s.slots.length := (List.getElem?_eq_some_iff.mp hslot).1
    exact ⟨new, List.getElem?_set_self hlt, hnew rfl⟩
  · exact ⟨slot, (List.getElem?_set_ne hτ).trans hslot, .same⟩

/-- **A slot changes by what its threads do, and by nothing else.** -/
theorem Step.slotStep (he : Step s e s') (hslot : s.slots[σ]? = some slot) :
    ∃ slot', s'.slots[σ]? = some slot' ∧ SlotStep s σ slot e slot' := by
  cases he with
  | @clone t τ i old self hpc hold hself hdropper =>
    refine exists_set hold hslot ?_
    rintro rfl
    exact .borrow t i
  | @drop t τ i old self hpc hold hself hdropper hborrowers =>
    refine exists_set hold hslot ?_
    rintro rfl
    exact .giveAway t i
  | insert hpc =>
    -- a new slot is put behind those that are there
    exact ⟨slot, getElem?_concat_eq_some.mpr (.inl hslot), .same⟩
  | lockSlot hpc hold hfree =>
    refine exists_set hold hslot ?_
    rintro rfl
    exact .lock hpc hfree
  | work hpc hold hg =>
    refine exists_set hold hslot ?_
    rintro rfl
    exact .work hpc hg
  | _ => exact ⟨slot, hslot, .same⟩

end SlotStep

/-! ### A failed open -/

section FailedOpen

variable [DecidableEq Path] {e : Event Thread Path} {s' : State Thread Path}

/-- The thread holds the guard of the slot. -/
def HeldBy (t : Thread) (σ : ℕ) (s : State Thread Path) : Prop :=
  ∃ (slot : Slot Thread Path) (w : Work Path), s.slots[σ]? = some slot ∧ slot.guard = some (t, w)

/-- An open that took the guard and fails leaves the slot as it was. -/
def FailedOpenRestores (s : State Thread Path) : Prop :=
  ∀ (t : Thread) (σ : ℕ) (key : Path) (slot : Slot Thread Path) (es : List (Event Thread Path))
    (s' : State Thread Path) (slot' : Slot Thread Path),
    s.slots[σ]? = some slot → slot.guard = some (t, .begin (.openWith key)) →
    (system Thread Path).AllStates (HeldBy t σ) s es → (system Thread Path).run s es = some s' →
    s'.slots[σ]? = some slot' → slot'.guard = some (t, .failed) →
      ∀ (ok : Bool) (s'' : State Thread Path), s'.step (.advance t ok) = some s'' →
        s''.pc t = .idle ∧ ∃ slot'' : Slot Thread Path, s''.slots[σ]? = some slot'' ∧
          slot''.guard = none ∧ slot''.state = slot.state

/-- Until it gives the guard back, an open has changed nothing or is about to succeed. -/
def Undecided (t : Thread) (σ : ℕ) (state : Option ℕ × ℤ × ℕ) (s : State Thread Path) : Prop :=
  ∃ (slot : Slot Thread Path) (w : Work Path), s.slots[σ]? = some slot ∧
    slot.guard = some (t, w) ∧ (w.Returning ∨ w.Opening ∧ slot.state = state)

theorem Undecided.step {t : Thread} {σ : ℕ} {state : Option ℕ × ℤ × ℕ}
    (h : Undecided t σ state s) (he : Step s e s') (hheld : HeldBy t σ s') :
    Undecided t σ state s' := by
  obtain ⟨slot, w, hslot, hg, hw⟩ := h
  obtain ⟨slot', hslot', hstep⟩ := he.slotStep hslot
  obtain ⟨slot₁, w', hslot₁, hg'⟩ := hheld
  cases hslot'.symm.trans hslot₁
  cases hstep with
  | same => exact ⟨slot, w, hslot', hg, hw⟩
  | borrow u i => exact ⟨_, w, hslot', hg, hw⟩
  | giveAway u i => exact ⟨_, w, hslot', hg, hw⟩
  | lock hpc hnone => cases hg.symm.trans hnone
  | work hpc hsame =>
    cases hg.symm.trans hsame
    refine ⟨_, w', hslot', hg', ?_⟩
    rcases hw with hw | ⟨hw, hstate⟩
    · -- the next step of a thread that returns gives the guard back
      cases (Slot.returning_work hw).symm.trans hg'
    · exact (Slot.opening_work hw hg').imp id fun ⟨hopening, heq⟩ => ⟨hopening, heq.trans hstate⟩

theorem Undecided.run {t : Thread} {σ : ℕ} {state : Option ℕ × ℤ × ℕ}
    {es : List (Event Thread Path)} (h : Undecided t σ state s)
    (hheld : (system Thread Path).AllStates (HeldBy t σ) s es)
    (hrun : (system Thread Path).run s es = some s') : Undecided t σ state s' := by
  induction es generalizing s with
  | nil =>
    cases hrun
    exact h
  | cons e es ih =>
    rw [System.run] at hrun
    split at hrun
    · next s₁ he =>
      have hrest := hheld.2 s₁ he
      exact ih (h.step (step_cases he) (System.allStates_head hrest)) hrest hrun
    · cases hrun

theorem failedOpenRestores (hs : (system Thread Path).Reachable s) : s.FailedOpenRestores := by
  intro t σ key slot es s' slot' hslot hg hheld hrun hslot' hg' ok s'' he
  have hstart : Undecided t σ slot.state s := ⟨slot, _, hslot, hg, .inr ⟨trivial, rfl⟩⟩
  obtain ⟨slot₁, w, hslot₁, hg₁, hw⟩ := hstart.run hheld hrun
  cases hslot'.symm.trans hslot₁
  cases hg'.symm.trans hg₁
  have hstate : slot'.state = slot.state := by
    rcases hw with hw | ⟨-, hstate⟩
    · exact hw.elim
    · exact hstate
  have hpc := (inv_of_reachable (hs.run hrun)).inside σ slot' t _ hslot' hg'
  simp only [State.step, State.advance, hpc, State.workInside, hslot', hg', Option.bind_eq_bind,
    Option.bind_some, if_pos] at he
  cases he
  have hlt : σ < s'.slots.length := (List.getElem?_eq_some_iff.mp hslot').1
  exact ⟨Function.update_self _ _ _, slot'.unlock, List.getElem?_set_self hlt, rfl, hstate⟩

end FailedOpen

end State

end Pool

end Mdb
