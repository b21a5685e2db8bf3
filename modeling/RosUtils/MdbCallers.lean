/-
What the callers of the pool hold.

An `Env` lives from the moment `Env::open_with` or `Env::clone` returns it until the moment
its drop returns.  That is what the callers see: which calls they made and what these
returned.  `Callers` is what they note down of a run, and nothing in the pool reads it.

`State.Sees` says how the notes and the slots go together: outside of its critical section a
slot counts exactly the `Env`s the callers hold.  `env_pool_safe` is what they can rely on.
-/
import RosUtils.MdbPool

open Transition

namespace Mdb

namespace Pool

/-! ### The notes -/

/-- What the callers have seen. -/
structure Callers (Thread Path : Type) where
  /-- The `Env`s that were returned and whose drop has not returned, each with its slot and its
  number there. -/
  envs : List (ℕ × ℕ × Env Path)
  /-- The `Env` whose drop a thread has called and that has not returned. -/
  drops : Thread → Option (ℕ × ℕ)

def Event.thread {Thread Path : Type} : Event Thread Path → Thread
  | .openWith t | .clone t _ _ | .drop t _ _ | .canonicalized t _ | .advance t _ => t

/-- The `Env` that the step of a thread returns, if it is the last one of `open_with` or
`clone` and these succeed. -/
def State.returns {Thread Path : Type} (s : State Thread Path) :
    Event Thread Path → Option (ℕ × ℕ × Env Path)
  | .advance t _ =>
    match s.pc t with
    | .inside σ => do
      let slot ← s.slots[σ]?
      match slot.guard with
      | some (_, .returning new _) => some (σ, slot.made, new)
      | _ => none
    | _ => none
  | _ => none

namespace Callers

variable {Thread Path : Type} [DecidableEq Thread]

/-- Nothing has been called. -/
def start : Callers Thread Path where
  envs := []
  drops _ := none

/-- A drop is called. -/
def call (c : Callers Thread Path) : Event Thread Path → Callers Thread Path
  | .drop t σ i => { c with drops := Function.update c.drops t (some (σ, i)) }
  | _ => c

/-- An `Env` is received. -/
def receive (c : Callers Thread Path) : Option (ℕ × ℕ × Env Path) → Callers Thread Path
  | some new => { c with envs := new :: c.envs }
  | none => c

/-- The call of a thread is over; if it was a drop, the `Env` is gone. -/
def finish (c : Callers Thread Path) (t : Thread) : Callers Thread Path :=
  match c.drops t with
  | some (σ, i) =>
    { envs := c.envs.filter fun x => ¬ (x.1 = σ ∧ x.2.1 = i)
      drops := Function.update c.drops t none }
  | none => c

/-- A thread that is idle after its step has returned. -/
def see (c : Callers Thread Path) (s : State Thread Path) (e : Event Thread Path)
    (s' : State Thread Path) : Callers Thread Path :=
  match s'.pc e.thread with
  | .idle => ((c.call e).receive (s.returns e)).finish e.thread
  | _ => c.call e

/-- The `Env`s of a path that live. -/
def of [DecidableEq Path] (c : Callers Thread Path) (k : Path) : List (ℕ × ℕ × Env Path) :=
  c.envs.filter fun x => x.2.2.key = k

/-- The `Env`s that live in a slot. -/
def inSlot (c : Callers Thread Path) (σ : ℕ) : List (ℕ × Env Path) :=
  (c.envs.filter fun x => x.1 = σ).map Prod.snd

end Callers

/-- The pool, and what its callers see of it. -/
def watched (Thread Path : Type) [DecidableEq Thread] [DecidableEq Path] :
    System (State Thread Path × Callers Thread Path) (Event Thread Path) :=
  (system Thread Path).watched Callers.start Callers.see

/-! ### A slot and the `Env`s that live in it -/

/-- The `Env` that is being dropped and is counted no more. -/
def Work.leaving {Path : Type} : Work Path → Option (ℕ × Env Path)
  | .counted i self | .sync i self | .close i self | .clear i self | .leave i self =>
    some (i, self)
  | _ => none

/-- The `Env` that is being dropped. -/
def Work.dropped {Path : Type} : Work Path → Option ℕ
  | .begin (.drop i _) => some i
  | w => w.leaving.map Prod.fst

/-- The `Env`s that live after a step of the holder of the guard. -/
def Work.leaves {Path : Type} (made : ℕ) (envs : List (ℕ × Env Path)) :
    Work Path → List (ℕ × Env Path)
  | .returning new _ => (made, new) :: envs
  | .leave i _ => envs.filter fun x => x.1 ≠ i
  | _ => envs

namespace Slot

variable {Thread Path : Type} [DecidableEq Path] {P : Path → Prop} {slot slot' : Slot Thread Path}
  {t : Thread} {w : Work Path} {envs : List (ℕ × Env Path)}

def leaving (slot : Slot Thread Path) : Option (ℕ × Env Path) :=
  slot.guard.bind fun g => g.2.leaving

/-- The slot counts the `Env`s that live in it, but for one that is being dropped. -/
structure Sees (slot : Slot Thread Path) (envs : List (ℕ × Env Path)) : Prop where
  shares : slot.shares = envs.filter fun x => slot.leaving ≠ some x
  leaving : ∀ x, slot.leaving = some x → x ∈ envs
  nodup : (envs.map Prod.fst).Nodup
  made : ∀ x ∈ envs, x.1 < slot.made

theorem sees_new : (new : Slot Thread Path).Sees [] where
  shares := rfl
  leaving := nofun
  nodup := List.nodup_nil
  made := nofun

theorem Sees.of_eq (h : slot.Sees envs) (hshares : slot'.shares = slot.shares)
    (hleaving : slot'.leaving = slot.leaving) (hmade : slot'.made = slot.made) :
    slot'.Sees envs := by
  refine ⟨?_, ?_, h.nodup, ?_⟩
  · rw [hshares, hleaving]
    exact h.shares
  · rw [hleaving]
    exact h.leaving
  · rw [hmade]
    exact h.made

/-- With nobody in a drop, the slot counts all of them. -/
theorem Sees.shares_eq (h : slot.Sees envs) (hleaving : slot.leaving = none) :
    slot.shares = envs := by
  rw [h.shares, hleaving]
  exact List.filter_eq_self.mpr fun x _ => rfl

omit [DecidableEq Path] in
theorem leaving_of_free (hfree : slot.guard = none) : slot.leaving = none := by
  rw [Slot.leaving, hfree]
  rfl

omit [DecidableEq Path] in
theorem leaving_eq (hg : slot.guard = some (t, w)) : slot.leaving = w.leaving := by
  rw [Slot.leaving, hg]
  rfl

/-- With nothing counted, only the one that is being dropped lives. -/
theorem Sees.eq_singleton (h : slot.Sees envs) {x : ℕ × Env Path} (hx : slot.leaving = some x)
    (hnone : slot.shares = []) : envs = [x] := by
  have hall : ∀ y ∈ envs, y = x := by
    intro y hy
    have hfilter := h.shares.symm.trans hnone
    have hne := List.filter_eq_nil_iff.mp hfilter y hy
    rw [hx, decide_eq_true_iff, not_not] at hne
    exact (Option.some.inj hne).symm
  have hrep := List.eq_replicate_of_mem hall
  have hnodup := List.Nodup.of_map _ h.nodup
  rw [hrep, List.nodup_replicate] at hnodup
  have hpos : 0 < envs.length := List.length_pos_of_mem (h.leaving x hx)
  rw [hrep, show envs.length = 1 by omega]
  rfl

theorem Sees.eq_of_fst_eq (h : slot.Sees envs) {x y : ℕ × Env Path} (hx : x ∈ envs) (hy : y ∈ envs)
    (heq : x.1 = y.1) : x = y :=
  List.inj_on_of_nodup_map h.nodup hx hy heq

variable [DecidableEq Thread]

/-- The share is given back, and the drop goes on. -/
theorem Sees.drop (h : slot.Sees envs) (hok : slot.Ok P) {i : ℕ} {self : Env Path}
    (hg : slot.guard = some (t, .begin (.drop i self))) {ok : Bool} :
    (slot.work t ok (.begin (.drop i self))).Sees envs := by
  obtain ⟨hmem, -⟩ := hok.work t _ hg
  have hshares : slot.shares = envs := h.shares_eq (leaving_eq hg)
  refine ⟨?_, ?_, h.nodup, h.made⟩
  · show slot.shares.erase (i, self) = envs.filter fun x => some (i, self) ≠ some x
    rw [hshares, (List.Nodup.of_map _ h.nodup).erase_eq_filter]
    refine List.filter_congr fun x _ => ?_
    rw [Bool.eq_iff_iff, bne_iff_ne, decide_eq_true_iff]
    exact ⟨fun hne heq => hne (Option.some.inj heq).symm,
      fun hne heq => hne (congrArg some heq.symm)⟩
  · intro x hx
    cases hx
    exact hshares ▸ hmem

/-- The `Env` is returned. -/
theorem Sees.returning (h : slot.Sees envs) {new : Env Path} {origin : Option ℕ}
    (hg : slot.guard = some (t, .returning new origin)) {ok : Bool} :
    (slot.work t ok (.returning new origin)).Sees ((slot.made, new) :: envs) := by
  have hshares : slot.shares = envs := h.shares_eq (leaving_eq hg)
  refine ⟨?_, nofun, ?_, ?_⟩
  · show (slot.made, new) :: slot.shares = _
    rw [hshares]
    exact (List.filter_eq_self.mpr fun x _ => rfl).symm
  · -- its number is new
    refine List.nodup_cons.mpr ⟨fun hmem => ?_, h.nodup⟩
    obtain ⟨x, hx, heq⟩ := List.mem_map.mp hmem
    exact absurd heq (h.made x hx).ne
  · intro x hx
    rcases List.mem_cons.mp hx with rfl | hx
    · exact Nat.lt_succ_self _
    · exact Nat.lt_succ_of_lt (h.made x hx)

/-- The drop returns. -/
theorem Sees.leave (h : slot.Sees envs) {i : ℕ} {self : Env Path}
    (hg : slot.guard = some (t, .leave i self)) {ok : Bool} :
    (slot.work t ok (.leave i self)).Sees (envs.filter fun x => x.1 ≠ i) := by
  have hleaving : slot.leaving = some (i, self) := leaving_eq hg
  have hmem := h.leaving _ hleaving
  refine ⟨?_, nofun, ?_, fun x hx => h.made x (List.mem_filter.mp hx).1⟩
  · show slot.shares = (envs.filter fun x => x.1 ≠ i).filter _
    rw [h.shares, hleaving, List.filter_filter]
    refine List.filter_congr fun x hx => ?_
    have hiff : some (i, self) = some x ↔ x.1 = i := by
      constructor
      · intro heq
        cases heq
        rfl
      · intro heq
        rw [h.eq_of_fst_eq hx hmem heq]
    simp only [ne_eq, hiff]
    exact (Bool.true_and _).symm
  · exact h.nodup.sublist ((List.filter_sublist).map _)

/-- **A step of the holder and the `Env`s that live after it.** -/
theorem Sees.work (h : slot.Sees envs) (hok : slot.Ok P) (hg : slot.guard = some (t, w))
    (ok : Bool) : (slot.work t ok w).Sees (w.leaves slot.made envs) := by
  have hleaving := leaving_eq hg
  cases w with
  | begin call =>
    cases call with
    | openWith key =>
      rw [Slot.work]
      split
      · exact h.of_eq rfl hleaving.symm rfl
      · split <;> exact h.of_eq rfl hleaving.symm rfl
    | clone i self => exact h.of_eq rfl hleaving.symm rfl
    | drop i self => exact h.drop hok hg
  | create key =>
    rw [Slot.work]
    split <;> exact h.of_eq rfl hleaving.symm rfl
  | configure key n stage =>
    rw [Slot.work]
    split
    · split <;> exact h.of_eq rfl hleaving.symm rfl
    · exact h.of_eq rfl hleaving.symm rfl
  | returning new origin => exact h.returning hg
  | counted i self =>
    rw [Slot.work]
    split <;> exact h.of_eq rfl hleaving.symm rfl
  | leave i self => exact h.leave hg
  | _ => exact h.of_eq rfl hleaving.symm rfl

/-- The `Env` that the thread is dropping with the guard of the slot. -/
def dropOf (slot : Slot Thread Path) (t : Thread) : Option ℕ := do
  let (holder, w) ← slot.guard
  if holder = t then w.dropped else none

omit [DecidableEq Path] in
theorem dropOf_eq (hg : slot.guard = some (t, w)) : slot.dropOf t = w.dropped := by
  simp [dropOf, hg]

/-- The `Env` a thread drops is no matter of the others. -/
theorem dropOf_work {u : Thread} (hg : slot.guard = some (t, w)) (ok : Bool) (hu : u ≠ t) :
    (slot.work t ok w).dropOf u = slot.dropOf u := by
  have hold : slot.dropOf u = none := by simp [dropOf, hg, hu.symm]
  rw [hold]
  rcases slot.guard_work t ok w with hnone | ⟨w', hsome⟩
  · simp [dropOf, hnone]
  · simp [dropOf, hsome, hu.symm]

/-- Where the guard is dropped. -/
theorem guard_work_eq_none (ok : Bool) (hg : (slot.work t ok w).guard = none) :
    w = .failed ∨ (∃ new origin, w = .returning new origin) ∨ ∃ i self, w = .leave i self := by
  cases w with
  | begin call =>
    cases call with
    | openWith key =>
      rw [Slot.work] at hg
      split at hg
      · cases hg
      · split at hg <;> cases hg
    | _ => cases hg
  | create key =>
    rw [Slot.work] at hg
    split at hg <;> cases hg
  | configure key n stage =>
    rw [Slot.work] at hg
    split at hg
    · split at hg <;> cases hg
    · cases hg
  | counted i self =>
    rw [Slot.work] at hg
    split at hg <;> cases hg
  | failed => exact .inl rfl
  | returning new origin => exact .inr (.inl ⟨new, origin, rfl⟩)
  | leave i self => exact .inr (.inr ⟨i, self, rfl⟩)
  | _ => cases hg

/-- While the guard is held, the same `Env`s live. -/
theorem leaves_of_guard {w' : Work Path} {ok : Bool}
    (hg : (slot.work t ok w).guard = some (t, w')) : w.leaves slot.made envs = envs := by
  cases w with
  | returning new origin => cases hg
  | leave i self => cases hg
  | _ => rfl

/-- A thread that goes on is still in the same drop. -/
theorem dropped_work {w' : Work Path} (ok : Bool) (hg : (slot.work t ok w).guard = some (t, w')) :
    w'.dropped = w.dropped := by
  cases w with
  | begin call =>
    cases call with
    | openWith key =>
      rw [Slot.work] at hg
      split at hg
      · cases hg
        rfl
      · split at hg <;> cases hg <;> rfl
    | clone i self =>
      cases hg
      rfl
    | drop i self =>
      cases hg
      rfl
  | create key =>
    rw [Slot.work] at hg
    split at hg <;> cases hg <;> rfl
  | configure key n stage =>
    rw [Slot.work] at hg
    split at hg
    · split at hg <;> cases hg <;> rfl
    · cases hg
      rfl
  | counted i self =>
    rw [Slot.work] at hg
    split at hg <;> cases hg <;> rfl
  | _ =>
    cases hg <;> rfl

end Slot

/-! ### The slots and the notes -/

namespace State

variable {Thread Path : Type} [DecidableEq Thread] [DecidableEq Path] {s s' : State Thread Path}
  {c : Callers Thread Path} {e : Event Thread Path} {t u : Thread} {σ : ℕ}
  {slot slot' : Slot Thread Path}

/-- The `Env` that a thread is dropping. -/
def dropOf (s : State Thread Path) (t : Thread) : Option (ℕ × ℕ) :=
  match s.pc t with
  | .lockSlot σ (.drop i _) => some (σ, i)
  | .inside σ => (s.slots[σ]?.bind fun slot => slot.dropOf t).map fun i => (σ, i)
  | _ => none

/-- The notes agree with the slots, the map and the threads. -/
structure Sees (s : State Thread Path) (c : Callers Thread Path) : Prop where
  slots : ∀ (σ : ℕ) (slot : Slot Thread Path), s.slots[σ]? = some slot → slot.Sees (c.inSlot σ)
  key : ∀ x ∈ c.envs, s.pool x.2.2.key = some x.1
  drops : ∀ t, c.drops t = s.dropOf t

theorem sees_init : (init : State Thread Path).Sees Callers.start where
  slots := by simp [init]
  key := by simp [Callers.start]
  drops _ := rfl

omit [DecidableEq Path] in
theorem dropOf_goto {pc : Pc Path} (hu : u ≠ t) : (s.goto t pc).dropOf u = s.dropOf u := by
  simp only [dropOf, State.goto, Function.update_of_ne hu]

omit [DecidableEq Path] in
theorem dropOf_setSlot (hslot : s.slots[σ]? = some slot) (h : slot'.dropOf u = slot.dropOf u) :
    (s.setSlot σ slot').dropOf u = s.dropOf u := by
  have hlt : σ < s.slots.length := (List.getElem?_eq_some_iff.mp hslot).1
  have hsame : ∀ τ : ℕ, ((s.slots.set σ slot')[τ]?.bind fun x => Slot.dropOf x u) =
      s.slots[τ]?.bind fun x => Slot.dropOf x u := by
    intro τ
    by_cases hτ : σ = τ
    · subst hτ
      rw [List.getElem?_set_self hlt, hslot]
      exact h
    · rw [List.getElem?_set_ne hτ]
  simp only [dropOf, State.setSlot, hsame]

omit [DecidableEq Path] in
theorem dropOf_newSlot {pool : Path → Option ℕ} :
    dropOf { s with slots := s.slots ++ [Slot.new], pool := pool } u = s.dropOf u := by
  have hsame : ∀ τ : ℕ, ((s.slots ++ [Slot.new])[τ]?.bind fun x => Slot.dropOf x u) =
      s.slots[τ]?.bind fun x => Slot.dropOf x u := by
    intro τ
    rcases Nat.lt_trichotomy τ s.slots.length with hlt | rfl | hlt
    · rw [List.getElem?_append_left hlt]
    · simp [Slot.dropOf, Slot.new]
    · rw [List.getElem?_eq_none (by simpa using hlt), List.getElem?_eq_none hlt.le]
  simp only [dropOf, hsame]

/-- A thread that has nothing to do with a drop changes where it is. -/
theorem Sees.goto (h : s.Sees c) {guard : Option Thread} {pc : Pc Path}
    (hpc : dropOf ({ s with poolGuard := guard }.goto t pc) t = s.dropOf t) :
    ({ s with poolGuard := guard }.goto t pc).Sees c where
  slots := h.slots
  key := h.key
  drops u := by
    by_cases hu : u = t
    · subst hu
      rw [hpc]
      exact h.drops u
    · rw [dropOf_goto hu]
      exact h.drops u

end State

namespace Callers

variable {Thread Path : Type} [DecidableEq Thread] {s s' : State Thread Path}
  {c : Callers Thread Path} {e : Event Thread Path} {σ τ : ℕ}

theorem see_of_busy (h : s'.pc e.thread ≠ .idle) : c.see s e s' = c.call e := by
  rw [see]
  split
  · next hidle => exact absurd hidle h
  · rfl

theorem see_of_idle (h : s'.pc e.thread = .idle) :
    c.see s e s' = ((c.call e).receive (s.returns e)).finish e.thread := by
  rw [see, h]

/-- A call other than a drop that returns no `Env`, or goes on, leaves the notes as they are. -/
theorem see_eq_self (hcall : c.call e = c) (hreturns : s.returns e = none)
    (hdrops : c.drops e.thread = none) : c.see s e s' = c := by
  rw [see, hcall, hreturns]
  split
  · rw [receive, finish, hdrops]
  · rfl

theorem finish_of_none {t : Thread} (h : c.drops t = none) : c.finish t = c := by
  rw [finish, h]

omit [DecidableEq Thread] in
theorem inSlot_receive_self {i : ℕ} {new : Env Path} :
    (c.receive (some (σ, i, new))).inSlot σ = (i, new) :: c.inSlot σ := by
  simp [receive, inSlot]

omit [DecidableEq Thread] in
theorem inSlot_receive_of_ne {i : ℕ} {new : Env Path} (hτ : τ ≠ σ) :
    (c.receive (some (σ, i, new))).inSlot τ = c.inSlot τ := by
  simp [receive, inSlot, hτ.symm]

theorem inSlot_finish_self {t : Thread} {i : ℕ} (h : c.drops t = some (σ, i)) :
    (c.finish t).inSlot σ = (c.inSlot σ).filter fun x => x.1 ≠ i := by
  rw [finish, h]
  simp only [inSlot, List.filter_filter, List.filter_map]
  congr 1
  refine List.filter_congr fun x _ => ?_
  by_cases hx : x.1 = σ <;> simp [hx]

theorem inSlot_finish_of_ne {t : Thread} {i : ℕ} (h : c.drops t = some (σ, i)) (hτ : τ ≠ σ) :
    (c.finish t).inSlot τ = c.inSlot τ := by
  rw [finish, h]
  simp only [inSlot, List.filter_filter]
  congr 1
  refine List.filter_congr fun x _ => ?_
  by_cases hx : x.1 = τ <;> simp [hx, hτ]

theorem mem_of_mem_finish {t : Thread} {x : ℕ × ℕ × Env Path} (hx : x ∈ (c.finish t).envs) :
    x ∈ c.envs := by
  rw [finish] at hx
  split at hx
  · exact (List.mem_filter.mp hx).1
  · exact hx

theorem drops_finish_self {t : Thread} : (c.finish t).drops t = none := by
  rw [finish]
  split
  · exact Function.update_self _ _ _
  · next h => exact h

theorem drops_finish_of_ne {t u : Thread} (hu : u ≠ t) : (c.finish t).drops u = c.drops u := by
  rw [finish]
  split
  · exact Function.update_of_ne hu _ _
  · rfl

end Callers

namespace State

variable {Thread Path : Type} [DecidableEq Thread] [DecidableEq Path] {s s' : State Thread Path}
  {c : Callers Thread Path} {e : Event Thread Path} {t u : Thread} {σ : ℕ}
  {slot slot' : Slot Thread Path}

/-- A step under a slot, and what the callers make of it. -/
theorem Sees.setSlot (h : s.Sees c) {c' : Callers Thread Path} {pc : Pc Path}
    (hslot : s.slots[σ]? = some slot) (hsees : slot'.Sees (c'.inSlot σ))
    (hother : ∀ τ ≠ σ, c'.inSlot τ = c.inSlot τ)
    (hkey : ∀ x ∈ c'.envs, s.pool x.2.2.key = some x.1)
    (hsame : ∀ u ≠ t, c'.drops u = c.drops u ∧ slot'.dropOf u = slot.dropOf u)
    (hdrops : c'.drops t = dropOf ((s.setSlot σ slot').goto t pc) t) :
    ((s.setSlot σ slot').goto t pc).Sees c' where
  slots τ x hx := by
    have hlt : σ < s.slots.length := (List.getElem?_eq_some_iff.mp hslot).1
    have hx : (s.slots.set σ slot')[τ]? = some x := hx
    by_cases hτ : σ = τ
    · subst hτ
      rw [List.getElem?_set_self hlt] at hx
      cases hx
      exact hsees
    · rw [List.getElem?_set_ne hτ] at hx
      rw [hother τ (Ne.symm hτ)]
      exact h.slots τ x hx
  key := hkey
  drops u := by
    by_cases hu : u = t
    · subst hu
      exact hdrops
    · obtain ⟨hc, hslot'⟩ := hsame u hu
      rw [dropOf_goto hu, dropOf_setSlot hslot hslot', hc]
      exact h.drops u

/-- A path that has no slot gets one, in which no `Env` lives. -/
theorem Sees.newSlot (hinv : s.Inv) (h : s.Sees c) {key : Path} (hpc : s.pc t = .insert key) :
    ({ s with
      slots := s.slots ++ [Slot.new]
      pool := Function.update s.pool key (some s.slots.length) }.goto t
        (.unlockPool key s.slots.length)).Sees c where
  slots σ slot hσ := by
    rcases getElem?_concat_eq_some.mp hσ with hσ | ⟨rfl, rfl⟩
    · exact h.slots σ slot hσ
    · -- nothing lives in a slot that is not there
      have hnone : c.inSlot s.slots.length = [] := by
        refine List.map_eq_nil_iff.mpr (List.filter_eq_nil_iff.mpr fun x hx hσ => ?_)
        have hlt := hinv.bound _ _ (h.key x hx)
        exact absurd (of_decide_eq_true hσ) hlt.ne
      rw [hnone]
      exact Slot.sees_new
  key x hx := by
    have hold := h.key x hx
    have hthread := hinv.threads t
    rw [hpc] at hthread
    refine (Function.update_of_ne ?_ _ _).trans hold
    rintro rfl
    cases hthread.2.symm.trans hold
  drops u := by
    by_cases hu : u = t
    · subst hu
      rw [h.drops]
      simp [dropOf, State.goto, hpc]
    · rw [dropOf_goto hu, dropOf_newSlot]
      exact h.drops u

/-- The step does not return. -/
theorem Sees.goOn (hinv : s.Inv) (h : s.Sees c) {ok : Bool} {w w' : Work Path}
    (hpc : s.pc t = .inside σ) (hslot : s.slots[σ]? = some slot)
    (hg : slot.guard = some (t, w)) (hg' : (slot.work t ok w).guard = some (t, w')) :
    ((s.setSlot σ (slot.work t ok w)).goto t (.inside σ)).Sees c := by
  have hlt : σ < s.slots.length := (List.getElem?_eq_some_iff.mp hslot).1
  have hsees := (h.slots σ slot hslot).work (hinv.slots σ slot hslot) hg ok
  rw [Slot.leaves_of_guard hg'] at hsees
  refine h.setSlot hslot hsees (fun _ _ => rfl) h.key
    (fun u hu => ⟨rfl, Slot.dropOf_work hg ok hu⟩) ?_
  rw [h.drops]
  simp [dropOf, State.goto, State.setSlot, hpc, hslot, List.getElem?_set_self hlt,
    Slot.dropOf_eq hg, Slot.dropOf_eq hg', Slot.dropped_work ok hg']

/-- The step returns. -/
theorem Sees.return (hinv : s.Inv) (h : s.Sees c) {ok : Bool} {w : Work Path}
    (hpc : s.pc t = .inside σ) (hslot : s.slots[σ]? = some slot)
    (hg : slot.guard = some (t, w)) (hg' : (slot.work t ok w).guard = none) :
    ((s.setSlot σ (slot.work t ok w)).goto t .idle).Sees
      ((c.receive (s.returns (.advance t ok))).finish t) := by
  have hsees := (h.slots σ slot hslot).work (hinv.slots σ slot hslot) hg ok
  have hwork := (hinv.slots σ slot hslot).work t w hg
  have hothers : ∀ u ≠ t, (slot.work t ok w).dropOf u = slot.dropOf u := fun u hu =>
    Slot.dropOf_work hg ok hu
  have hdrops : c.drops t = w.dropped.map fun i => (σ, i) := by
    rw [h.drops]
    simp [dropOf, hpc, hslot, Slot.dropOf_eq hg]
  have hidle : dropOf ((s.setSlot σ (slot.work t ok w)).goto t .idle) t = none := by
    simp [dropOf, State.goto]
  rcases Slot.guard_work_eq_none ok hg' with rfl | ⟨new, origin, rfl⟩ | ⟨i, self, rfl⟩
  · have hreturns : s.returns (.advance t ok) = none := by simp [State.returns, hpc, hslot, hg]
    rw [hreturns, Callers.receive, Callers.finish_of_none hdrops]
    exact h.setSlot hslot hsees (fun _ _ => rfl) h.key (fun u hu => ⟨rfl, hothers u hu⟩)
      (hdrops.trans hidle.symm)
  · have hreturns : s.returns (.advance t ok) = some (σ, slot.made, new) := by
      simp [State.returns, hpc, hslot, hg]
    have hnone : (c.receive (some (σ, slot.made, new))).drops t = none := hdrops
    rw [hreturns, Callers.finish_of_none hnone]
    refine h.setSlot hslot ?_ (fun τ hτ => Callers.inSlot_receive_of_ne hτ) ?_
      (fun u hu => ⟨rfl, hothers u hu⟩) (hdrops.trans hidle.symm)
    · rw [Callers.inSlot_receive_self]
      exact hsees
    · intro x hx
      rcases List.mem_cons.mp hx with rfl | hx
      · exact hwork.1
      · exact h.key x hx
  · have hreturns : s.returns (.advance t ok) = none := by simp [State.returns, hpc, hslot, hg]
    rw [hreturns, Callers.receive]
    have hsome : c.drops t = some (σ, i) := hdrops
    refine h.setSlot hslot ?_ (fun τ hτ => Callers.inSlot_finish_of_ne hsome hτ) ?_
      (fun u hu => ⟨Callers.drops_finish_of_ne hu, hothers u hu⟩) ?_
    · rw [Callers.inSlot_finish_self hsome]
      exact hsees
    · exact fun x hx => h.key x (Callers.mem_of_mem_finish hx)
    · rw [hidle, Callers.drops_finish_self]

/-- **What the callers note agrees with what the pool does.** -/
theorem Sees.step (hinv : s.Inv) (h : s.Sees c) (he : Step s e s') : s'.Sees (c.see s e s') := by
  cases he with
  | @clone t σ i slot self hpc hslot hself hdropper =>
    rw [Callers.see_of_busy (by simp [Event.thread, State.goto])]
    refine h.setSlot hslot ((h.slots σ slot hslot).of_eq rfl rfl rfl) (fun _ _ => rfl) h.key
      (fun _ _ => ⟨rfl, rfl⟩) ?_
    show c.drops t = _
    rw [h.drops]
    simp [dropOf, State.goto, hpc]
  | @drop t σ i slot self hpc hslot hself hdropper hborrowers =>
    rw [Callers.see_of_busy (by simp [Event.thread, State.goto])]
    refine h.setSlot hslot ((h.slots σ slot hslot).of_eq rfl rfl rfl) (fun _ _ => rfl) h.key
      (fun u hu => ⟨Function.update_of_ne hu _ _, rfl⟩) ?_
    simp [dropOf, State.goto, Callers.call]
  | insert hpc =>
    rw [Callers.see_of_busy (by simp [Event.thread, State.goto])]
    exact h.newSlot hinv hpc
  | @lockSlot t ok σ call slot hpc hslot hfree =>
    have hlt : σ < s.slots.length := (List.getElem?_eq_some_iff.mp hslot).1
    rw [Callers.see_of_busy (by simp [Event.thread, State.goto])]
    have hleaving := Slot.leaving_of_free hfree
    refine h.setSlot hslot ((h.slots σ slot hslot).of_eq rfl hleaving.symm rfl) (fun _ _ => rfl)
      h.key (fun u hu => ⟨rfl, ?_⟩) ?_
    · simp [Slot.dropOf, hfree, Slot.goto, hu.symm]
    · show c.drops t = _
      rw [h.drops]
      cases call <;>
        simp [dropOf, State.goto, State.setSlot, hpc, List.getElem?_set_self hlt, Slot.dropOf,
          Slot.goto, Work.dropped, Work.leaving]
  | @work t ok σ slot w hpc hslot hg =>
    rcases slot.guard_work t ok w with hnone | ⟨w', hsome⟩
    · rw [hnone, Callers.see_of_idle (by simp [Event.thread, State.goto])]
      exact h.return hinv hpc hslot hg hnone
    · rw [hsome, Callers.see_of_busy (by simp [Event.thread, State.goto])]
      exact h.goOn hinv hpc hslot hg hsome
  | openWith hpc | canonicalized hpc | notCanonicalized hpc | made hpc | notMade hpc
  | lockPool hpc hfree | found hpc hσ | notFound hpc hnone | unlockPool hpc =>
    -- in no drop, before and after
    rw [Callers.see_eq_self rfl (by simp [State.returns, hpc])
      (by simp [h.drops, dropOf, Event.thread, hpc])]
    exact h.goto (by simp [dropOf, State.goto, hpc])

/-- The `Env`s of a path are those that live in its slot. -/
theorem Sees.of_eq (hinv : s.Inv) (h : s.Sees c) {k : Path} (hk : s.pool k = some σ) :
    c.of k = c.envs.filter fun x => x.1 = σ := by
  refine List.filter_congr fun x hx => decide_eq_decide.mpr ?_
  have hx := h.key x hx
  constructor
  · rintro rfl
    exact Option.some.inj (hx.symm.trans hk)
  · rintro rfl
    exact hinv.inj _ _ _ hx hk

theorem Sees.length_of (hinv : s.Inv) (h : s.Sees c) {k : Path} (hk : s.pool k = some σ) :
    (c.of k).length = (c.inSlot σ).length := by
  rw [h.of_eq hinv hk, Callers.inSlot, List.length_map]

/-! ### The pool is safe -/

/-- What holds at every moment. -/
structure Safe (s : State Thread Path) (c : Callers Thread Path) : Prop where
  /-- At most one environment of a path is not closed. -/
  one : ∀ {σ σ' n n' : ℕ} {h h' : Handle Thread Path}, s.HasHandle σ n h → s.HasHandle σ' n' h' →
    h.path = h'.path → h.closes = 0 → h'.closes = 0 → σ = σ' ∧ n = n'
  /-- Outside its critical section, a slot has an environment while its count is above zero,
  and the count is that of the `Env`s of the path that were returned and not dropped. -/
  settled : ∀ {k : Path} {σ : ℕ} {slot : Slot Thread Path}, s.pool k = some σ →
    s.slots[σ]? = some slot → slot.guard = none →
      (slot.env ≠ none ↔ 0 < slot.refcnt) ∧ slot.refcnt = (c.of k).length
  nonneg : ∀ {σ : ℕ} {slot : Slot Thread Path}, s.slots[σ]? = some slot → 0 ≤ slot.refcnt
  /-- An `Env` whose drop is not at work has the open environment of its slot, and the lock of
  that open. -/
  live : ∀ {k : Path} {σ i : ℕ} {e : Env Path}, (σ, i, e) ∈ c.of k →
    (∀ t, c.drops t = some (σ, i) → ¬ HeldBy t σ s) →
      ∃ (slot : Slot Thread Path) (h : Handle Thread Path), s.pool k = some σ ∧
        s.slots[σ]? = some slot ∧ slot.env = some e.env ∧ slot.dbiLock = e.dbiLock ∧
          slot.handles[e.env]? = some h ∧ h.path = k ∧ h.opened = true ∧ h.closes = 0 ∧
            h.dbiLock = some e.dbiLock
  /-- An environment is closed at most once, and it is closed when its slot is at rest and no
  `Env` of its path lives. -/
  closes : ∀ {σ n : ℕ} {slot : Slot Thread Path} {h : Handle Thread Path},
    s.slots[σ]? = some slot → slot.handles[n]? = some h →
      h.closes ≤ 1 ∧ (slot.guard = none → c.of h.path = [] → h.closes = 1)

/-- The event is a step of an operation on the path. -/
def OnPath (s : State Thread Path) (k : Path) : Event Thread Path → Prop
  | .openWith _ | .canonicalized _ _ => False
  | .clone _ σ _ | .drop _ σ _ => s.pool k = some σ
  | .advance t _ =>
    match s.pc t with
    | .idle | .making | .canonicalizing => False
    | .lockPool key | .lookup key | .insert key | .unlockPool key _ => key = k
    | .lockSlot σ _ | .inside σ => s.pool k = some σ

/-- What holds of every step. -/
structure SafeStep (s : State Thread Path) (c : Callers Thread Path) (e : Event Thread Path)
    (s' : State Thread Path) : Prop where
  /-- An environment is closed by the failed open that made it, which has not recorded it, or
  by the drop of the last `Env` of the path. -/
  closer : ∀ {σ n : ℕ} {h h' : Handle Thread Path}, s.HasHandle σ n h → s'.HasHandle σ n h' →
    h'.closes ≠ h.closes → ∃ (t : Thread) (ok : Bool) (slot : Slot Thread Path),
      e = .advance t ok ∧ s.slots[σ]? = some slot ∧
        (slot.guard = some (t, .abandon n) ∧ h.opener = t ∧ h.dbiLock = none ∧ slot.env = none ∨
          ∃ (i : ℕ) (self : Env Path), slot.guard = some (t, .close i self) ∧
            c.drops t = some (σ, i) ∧ self.env = n ∧ slot.env = some n ∧ slot.refcnt = 0 ∧
              c.of h.path = [(σ, i, self)])
  /-- A step on one path leaves the slots of all other paths unchanged. -/
  isolated : ∀ {k : Path}, ¬ s.OnPath k e → s'.pool k = s.pool k ∧
    ∀ σ, s.pool k = some σ → s'.slots[σ]? = s.slots[σ]?

omit [DecidableEq Thread] [DecidableEq Path] in
theorem mem_inSlot {x : ℕ × ℕ × Env Path} (hx : x ∈ c.envs) : x.2 ∈ c.inSlot x.1 :=
  List.mem_map.mpr ⟨x, List.mem_filter.mpr ⟨hx, decide_eq_true rfl⟩, rfl⟩

theorem Sees.drops_of_leaving (hinv : s.Inv) (h : s.Sees c) {i : ℕ} {self : Env Path}
    {w : Work Path} (hslot : s.slots[σ]? = some slot) (hg : slot.guard = some (t, w))
    (hw : w.leaving = some (i, self)) : c.drops t = some (σ, i) := by
  have hdropped : w.dropped = some i := by
    cases w <;> cases hw <;> rfl
  rw [h.drops]
  simp [dropOf, hinv.inside σ slot t w hslot hg, hslot, Slot.dropOf_eq hg, hdropped]

/-- An `Env` that lives is counted, or its drop has the guard of the slot. -/
theorem Sees.counted_or (hinv : s.Inv) (h : s.Sees c) {i : ℕ} {e : Env Path}
    (hx : (σ, i, e) ∈ c.envs) (hslot : s.slots[σ]? = some slot) :
    (i, e) ∈ slot.shares ∨ ∃ t, c.drops t = some (σ, i) ∧ HeldBy t σ s := by
  have hsees := h.slots σ slot hslot
  have hmem : (i, e) ∈ c.inSlot σ := mem_inSlot hx
  by_cases hleaving : slot.leaving = some (i, e)
  · refine .inr ?_
    obtain ⟨⟨t, w⟩, hg, hw⟩ := Option.bind_eq_some_iff.mp hleaving
    exact ⟨t, h.drops_of_leaving hinv hslot hg hw, slot, w, hslot, hg⟩
  · rw [hsees.shares]
    exact .inl (List.mem_filter.mpr ⟨hmem, decide_eq_true hleaving⟩)

theorem Sees.safe (hinv : s.Inv) (h : s.Sees c) : s.Safe c where
  one {σ σ' n n' x x'} hx hx' hpath hopen hopen' := by
    obtain ⟨slot, hslot, hpool, hcur⟩ := hinv.current_of_open hx hopen
    obtain ⟨slot', hslot', hpool', hcur'⟩ := hinv.current_of_open hx' hopen'
    rw [hpath, hpool'] at hpool
    cases hpool
    cases hslot.symm.trans hslot'
    exact ⟨rfl, Option.some.inj (hcur.symm.trans hcur')⟩
  settled {k σ slot} hk hslot hfree := by
    obtain ⟨hcount, hsettled, -⟩ := hinv.count_of_free hslot hfree
    rw [h.length_of hinv hk, ← (h.slots σ slot hslot).shares_eq (Slot.leaving_of_free hfree), ne_eq,
      hsettled]
    refine ⟨?_, hcount⟩
    omega
  nonneg {σ slot} hslot := by
    have hcount := (hinv.slots σ slot hslot).count
    have hextra : 0 ≤ slot.extra := slot.extra_nonneg
    omega
  live {k σ i e} he hidle := by
    obtain ⟨he, hkey⟩ := List.mem_filter.mp he
    have hk : s.pool k = some σ := of_decide_eq_true hkey ▸ h.key _ he
    obtain ⟨slot, hslot⟩ : ∃ slot, s.slots[σ]? = some slot :=
      ⟨_, List.getElem?_eq_getElem (hinv.bound k σ hk)⟩
    have hok := hinv.slots σ slot hslot
    have hmem : (i, e) ∈ slot.shares := by
      rcases h.counted_or hinv he hslot with hmem | ⟨t, hdrops, hheld⟩
      · exact hmem
      · exact absurd hheld (hidle t hdrops)
    obtain ⟨-, henv, hlock⟩ := hok.shares (i, e) hmem
    have hcur := hok.current_of_share hmem
    obtain ⟨x, hx, hopen⟩ := hok.handles.current e.env hcur
    obtain ⟨hopened, hdbi⟩ := hok.recorded e.env henv hcur x hx
    have hpath : x.path = k := hinv.inj _ _ σ (hok.handles.paths e.env x hx) hk
    refine ⟨slot, x, hk, hslot, henv, hlock, hx, hpath, hopened, hopen, ?_⟩
    rw [hdbi, hlock]
  closes {σ n slot x} hslot hx := by
    have hok := hinv.slots σ slot hslot
    refine ⟨(hok.handles.closed n x hx).1, fun hfree hnone => ?_⟩
    have hle := (hok.handles.closed n x hx).1
    have hne : x.closes ≠ 0 := by
      intro hopen
      obtain ⟨hcount, hsettled, hcur⟩ := hinv.count_of_free hslot hfree
      have hcurrent := (hok.handles.closed n x hx).2 hopen
      have hlen := h.length_of hinv (hok.handles.paths n x hx)
      rw [← (h.slots σ slot hslot).shares_eq (Slot.leaving_of_free hfree), hnone] at hlen
      rw [← hlen] at hcount
      rw [hcur, hsettled.mpr hcount] at hcurrent
      cases hcurrent
    omega

/-! ### Every step is safe -/

/-- The map keeps its entries, and gets one for the path that was looked up. -/
theorem pool_step (he : Step s e s') {k : Path} (hk : ¬ s.OnPath k e) : s'.pool k = s.pool k := by
  cases he with
  | insert hpc =>
    simp only [OnPath, hpc] at hk
    exact Function.update_of_ne (Ne.symm hk) _ _
  | _ => rfl

/-- An event that is not on the path leaves the slot of the path alone. -/
theorem SlotStep.eq_of_not_onPath {k : Path} (hk : s.pool k = some σ)
    (h : SlotStep s σ slot e slot') (hno : ¬ s.OnPath k e) : slot' = slot := by
  cases h with
  | same => rfl
  | borrow t i => exact absurd hk hno
  | giveAway t i => exact absurd hk hno
  | lock hpc hg =>
    refine absurd ?_ hno
    simp only [OnPath, hpc]
    exact hk
  | work hpc hg =>
    refine absurd ?_ hno
    simp only [OnPath, hpc]
    exact hk

/-- Where a drop has counted down to zero, its own `Env` is the only one of the path. -/
theorem Sees.last (hinv : s.Inv) (h : s.Sees c) {k : Path} {i : ℕ} {self : Env Path}
    {w : Work Path} (hk : s.pool k = some σ) (hslot : s.slots[σ]? = some slot)
    (hg : slot.guard = some (t, w)) (hw : w.leaving = some (i, self)) (hzero : slot.refcnt = 0) :
    c.drops t = some (σ, i) ∧ c.of k = [(σ, i, self)] := by
  have hsees := h.slots σ slot hslot
  have hnone : slot.shares = [] := by
    have hcount := (hinv.slots σ slot hslot).count_eq hg
    have hextra : w.extra = 0 := by cases w <;> cases hw <;> rfl
    exact List.length_eq_zero_iff.mp (by omega)
  have hlast := hsees.eq_singleton ((Slot.leaving_eq hg).trans hw) hnone
  rw [h.of_eq hinv hk]
  obtain ⟨x, hx, hself⟩ := List.map_eq_singleton_iff.mp hlast
  have hmem : x ∈ c.envs.filter fun x => x.1 = σ := hx ▸ List.mem_singleton_self x
  have hσ : x.1 = σ := of_decide_eq_true (List.mem_filter.mp hmem).2
  refine ⟨h.drops_of_leaving hinv hslot hg hw, ?_⟩
  rw [hx, ← hσ, ← hself]

theorem Sees.safeStep (hinv : s.Inv) (h : s.Sees c) (he : Step s e s') : SafeStep s c e s' where
  closer {σ n x x'} hx hx' hne := by
    obtain ⟨slot, hslot, hn⟩ := hx
    obtain ⟨slot', hslot', hn'⟩ := hx'
    obtain ⟨slot₁, hslot₁, hstep⟩ := he.slotStep hslot
    cases hslot'.symm.trans hslot₁
    cases hstep with
    | same =>
      cases hn.symm.trans hn'
      exact absurd rfl hne
    | borrow t i =>
      cases hn.symm.trans hn'
      exact absurd rfl hne
    | giveAway t i =>
      cases hn.symm.trans hn'
      exact absurd rfl hne
    | lock hpc hg =>
      cases hn.symm.trans hn'
      exact absurd rfl hne
    | @work t ok w hpc hg =>
      have hok := hinv.slots σ slot hslot
      have hwork := hok.work t w hg
      refine ⟨t, ok, slot, rfl, hslot, ?_⟩
      rcases Slot.closes_work hn hn' hne with rfl | ⟨i, self, rfl, rfl⟩
      · obtain ⟨henv, y, hy, hopener, hlock⟩ := hwork
        cases hn.symm.trans hy
        exact .inl ⟨hg, hopener, hlock, henv⟩
      · obtain ⟨henv, hzero⟩ := hwork
        obtain ⟨hdrops, hlast⟩ := h.last hinv (hok.handles.paths _ x hn) hslot hg rfl hzero
        exact .inr ⟨i, self, hg, hdrops, rfl, henv, hzero, hlast⟩
  isolated {k} hno := by
    refine ⟨pool_step he hno, fun σ hk => ?_⟩
    obtain ⟨slot, hslot⟩ : ∃ slot, s.slots[σ]? = some slot :=
      ⟨_, List.getElem?_eq_getElem (hinv.bound k σ hk)⟩
    obtain ⟨slot', hslot', hstep⟩ := he.slotStep hslot
    rw [hslot', hslot, hstep.eq_of_not_onPath hk hno]

end State

/-- **The pool of environments.**  Whatever the threads have done and the callers have seen, the
invariants of `Safe` hold, every step is a `SafeStep`, and an open that fails leaves its slot as
it was. -/
theorem env_pool_safe {Thread Path : Type} [DecidableEq Thread] [DecidableEq Path]
    {s : State Thread Path} {c : Callers Thread Path}
    (hs : (watched Thread Path).Reachable (s, c)) :
    s.Safe c ∧ (∀ e s', s.step e = some s' → State.SafeStep s c e s') ∧
      s.FailedOpenRestores := by
  obtain ⟨hreach, hsees⟩ := hs.watched_invariant State.sees_init
    fun s c e s' hs h he => h.step (State.inv_of_reachable hs) (State.step_cases he)
  have hinv := State.inv_of_reachable hreach
  exact ⟨hsees.safe hinv, fun e s' he => hsees.safeStep hinv (State.step_cases he),
    State.failedOpenRestores hreach⟩

/-- A thread calls `open_with`, up to the lock of the map, and goes on for a number of steps. -/
def opens (t : Bool) (n : ℕ) : List (Event Bool Unit) :=
  .openWith t :: .advance t true :: .canonicalized t (some ()) :: List.replicate n (.advance t true)

def drops (t : Bool) (i n : ℕ) : List (Event Bool Unit) :=
  .drop t 0 i :: List.replicate n (.advance t true)

/-- Two threads share the environment of a path; both drop it, and it is closed; one of them
opens it again, and gets a new one. -/
theorem env_pool_safe_reopened :
    ∃ (s₁ s₂ s₃ : State Bool Unit) (c₁ c₂ c₃ : Callers Bool Unit),
      (watched Bool Unit).run (State.init, Callers.start) (opens false 13 ++ opens true 6) =
          some (s₁, c₁) ∧
        (watched Bool Unit).run (s₁, c₁) (drops false 0 4 ++ drops true 1 7) = some (s₂, c₂) ∧
        (watched Bool Unit).run (s₂, c₂) (opens true 12) = some (s₃, c₃) ∧
        c₁.of () = [(0, 1, ⟨(), 0, 1⟩), (0, 0, ⟨(), 0, 1⟩)] ∧ c₂.of () = [] ∧
        c₃.of () = [(0, 2, ⟨(), 1, 2⟩)] ∧ s₁.Safe c₁ ∧ s₂.Safe c₂ ∧ s₃.Safe c₃ := by
  obtain ⟨s₁, s₂, s₃, c₁, c₂, c₃, h₁, h₂, h₃, hc₁, hc₂, hc₃⟩ :
      ∃ (s₁ s₂ s₃ : State Bool Unit) (c₁ c₂ c₃ : Callers Bool Unit),
        (watched Bool Unit).run (State.init, Callers.start) (opens false 13 ++ opens true 6) =
            some (s₁, c₁) ∧
          (watched Bool Unit).run (s₁, c₁) (drops false 0 4 ++ drops true 1 7) = some (s₂, c₂) ∧
          (watched Bool Unit).run (s₂, c₂) (opens true 12) = some (s₃, c₃) ∧
          c₁.of () = [(0, 1, ⟨(), 0, 1⟩), (0, 0, ⟨(), 0, 1⟩)] ∧ c₂.of () = [] ∧
          c₃.of () = [(0, 2, ⟨(), 1, 2⟩)] :=
    ⟨_, _, _, _, _, _, rfl, rfl, rfl, rfl, rfl, rfl⟩
  have hs₁ := System.Reachable.init.run h₁
  have hs₂ := hs₁.run h₂
  exact ⟨s₁, s₂, s₃, c₁, c₂, c₃, h₁, h₂, h₃, hc₁, hc₂, hc₃, (env_pool_safe hs₁).1,
    (env_pool_safe hs₂).1, (env_pool_safe (hs₂.run h₃)).1⟩

end Pool

end Mdb
