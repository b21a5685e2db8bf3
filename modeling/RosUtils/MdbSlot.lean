/-
One slot of the pool of LMDB environments.

The slot of a canonical path has a lock, under which an environment is opened, shared,
counted and closed by `Env::open_with`, `Env::clone` and `Env::drop`.  `Slot.work` is the
next step of the thread that holds the lock.  A slot comes with what was made under it:
the environments, and the `Env`s that it counts.

`Slot.Ok.step` is the invariant of a slot: it counts its `Env`s, they all have the
environment in use and its lock, and every other environment is closed, once.
-/
import Mathlib.Data.Finset.Card
import Mathlib.Logic.Function.Basic
import Mathlib.Tactic.Push

namespace Mdb

namespace Pool

/-! ### A slot -/

/-- `Env`, in the slot it shares.  Its handle and its lock are numbers. -/
structure Env (Path : Type) where
  key : Path
  env : ℕ
  dbiLock : ℕ
  deriving DecidableEq

/-- An `MDB_env`: the path it was made for and by whom, whether `mdb_env_open` has
succeeded, the lock that was made when it was recorded in the slot, and how often
`mdb_env_close` was called. -/
structure Handle (Thread Path : Type) where
  path : Path
  opener : Thread
  opened : Bool
  dbiLock : Option ℕ
  closes : ℕ

/-- What a slot is locked for: `Env::open_with`, or `Env::clone` or `Env::drop` of the `Env`
with this number. -/
inductive Call (Path : Type) where
  | openWith (key : Path)
  | clone (i : ℕ) (self : Env Path)
  | drop (i : ℕ) (self : Env Path)

/-- The calls that configure and open a new environment. -/
inductive Stage where
  | maxdbs
  | mapsize
  | maxreaders
  | envOpen

def Stage.next : Stage → Option Stage
  | .maxdbs => some .mapsize
  | .mapsize => some .maxreaders
  | .maxreaders => some .envOpen
  | .envOpen => none

/-- Where a thread that holds the guard of a slot is. -/
inductive Work (Path : Type) where
  /-- The guard has been taken. -/
  | begin (call : Call Path)
  /-- `open_with`: about to call `mdb_env_create`. -/
  | create (key : Path)
  /-- `open_with`: in the calls that configure and open the new environment. -/
  | configure (key : Path) (env : ℕ) (stage : Stage)
  /-- `open_with`: one of these failed, the new environment is to be closed. -/
  | abandon (env : ℕ)
  /-- `open_with`: about to return an error. -/
  | failed
  /-- `open_with`: the new environment is open, and to be recorded. -/
  | publish (key : Path) (env : ℕ)
  /-- `open_with` or `clone`: counted, and about to return an `Env`. -/
  | returning (new : Env Path) (origin : Option ℕ)
  /-- `drop`: counted down. -/
  | counted (i : ℕ) (self : Env Path)
  /-- `drop`: about to call `mdb_env_sync`. -/
  | sync (i : ℕ) (self : Env Path)
  /-- `drop`: about to call `mdb_env_close`. -/
  | close (i : ℕ) (self : Env Path)
  /-- `drop`: the slot is to be emptied. -/
  | clear (i : ℕ) (self : Env Path)
  /-- `drop`: about to return. -/
  | leave (i : ℕ) (self : Env Path)

/-- `PathSlot`: the state its lock protects, who holds the lock, and what there is of
environments and `Env`s that were made under it. -/
structure Slot (Thread Path : Type) where
  /-- `SlotState::env` -/
  env : Option ℕ
  /-- `SlotState::refcnt` -/
  refcnt : ℤ
  /-- `SlotState::dbi_lock` -/
  dbiLock : ℕ
  guard : Option (Thread × Work Path)
  /-- The environments made so far. -/
  handles : List (Handle Thread Path)
  /-- The number of locks made so far. -/
  locks : ℕ
  /-- The `Env`s that are counted, by their numbers. -/
  shares : List (ℕ × Env Path)
  /-- The number of `Env`s made so far. -/
  made : ℕ
  /-- The threads that are cloning an `Env`, and so borrow it. -/
  borrowers : ℕ → Finset Thread
  /-- The thread that is dropping an `Env`, and so owns it. -/
  dropper : ℕ → Option Thread

namespace Slot

variable {Thread Path : Type} [DecidableEq Thread] [DecidableEq Path]

/-- The slot that `path_slot` makes. -/
def new : Slot Thread Path where
  env := none
  refcnt := 0
  dbiLock := 0
  guard := none
  handles := []
  locks := 1
  shares := []
  made := 0
  borrowers _ := ∅
  dropper _ := none

/-- The holder goes on. -/
def goto (slot : Slot Thread Path) (t : Thread) (w : Work Path) : Slot Thread Path :=
  { slot with guard := some (t, w) }

/-- The guard is dropped. -/
def unlock (slot : Slot Thread Path) : Slot Thread Path := { slot with guard := none }

def modifyHandle (slot : Slot Thread Path) (env : ℕ)
    (f : Handle Thread Path → Handle Thread Path) : Slot Thread Path :=
  { slot with handles := slot.handles.modify env f }

/-- `mdb_env_close`. -/
def closeHandle (slot : Slot Thread Path) (env : ℕ) : Slot Thread Path :=
  slot.modifyHandle env fun h => { h with closes := h.closes + 1 }

/-- A thread borrows an `Env`, to clone it. -/
def borrow (slot : Slot Thread Path) (t : Thread) (i : ℕ) : Slot Thread Path :=
  { slot with borrowers := Function.update slot.borrowers i (insert t (slot.borrowers i)) }

/-- A thread takes an `Env`, to drop it. -/
def giveAway (slot : Slot Thread Path) (t : Thread) (i : ℕ) : Slot Thread Path :=
  { slot with dropper := Function.update slot.dropper i (some t) }

/-- The next step of the thread that holds the guard.  Where the step is a call that can fail,
`ok` is whether it succeeds. -/
def work (slot : Slot Thread Path) (t : Thread) (ok : Bool) : Work Path → Slot Thread Path
  | .begin (.openWith key) =>
    match slot.env with
    | some env =>
      { slot with refcnt := slot.refcnt + 1 }.goto t (.returning ⟨key, env, slot.dbiLock⟩ none)
    | none =>
      -- `CString::new`
      if ok then slot.goto t (.create key) else slot.goto t .failed
  | .create key =>
    if ok then
      let new : Handle Thread Path := ⟨key, t, false, none, 0⟩
      { slot with handles := slot.handles ++ [new] }.goto t
        (.configure key slot.handles.length .maxdbs)
    else slot.goto t .failed
  | .configure key env stage =>
    if ok then
      match stage.next with
      | some stage => slot.goto t (.configure key env stage)
      | none =>
        (slot.modifyHandle env fun h => { h with opened := true }).goto t (.publish key env)
    else slot.goto t (.abandon env)
  | .abandon env => (slot.closeHandle env).goto t .failed
  | .failed => slot.unlock
  | .publish key env =>
    { slot.modifyHandle env fun h => { h with dbiLock := some slot.locks } with
      env := some env
      refcnt := 1
      dbiLock := slot.locks
      locks := slot.locks + 1 }.goto t (.returning ⟨key, env, slot.locks⟩ none)
  | .returning new origin =>
    { slot with
      shares := (slot.made, new) :: slot.shares
      made := slot.made + 1
      borrowers := fun i =>
        if origin = some i then (slot.borrowers i).erase t else slot.borrowers i }.unlock
  | .begin (.clone i self) =>
    { slot with refcnt := slot.refcnt + 1 }.goto t (.returning self (some i))
  | .begin (.drop i self) =>
    { slot with
      refcnt := slot.refcnt - 1
      shares := slot.shares.erase (i, self)
      dropper := Function.update slot.dropper i none }.goto t (.counted i self)
  | .counted i self =>
    if slot.refcnt ≠ 0 then slot.goto t (.leave i self) else slot.goto t (.sync i self)
  | .sync i self => slot.goto t (.close i self)
  | .close i self => (slot.closeHandle self.env).goto t (.clear i self)
  | .clear i self => { slot with env := none }.goto t (.leave i self)
  | .leave _ _ => slot.unlock

end Slot

/-! ### What a slot keeps -/

/-- Whether a share is counted that no `Env` has yet. -/
def Work.extra {Path : Type} : Work Path → ℤ
  | .returning _ _ => 1
  | _ => 0

/-- Whether the count and the environment may be out of step. -/
def Work.Unsettled {Path : Type} : Work Path → Prop
  | .returning _ _ | .counted _ _ | .sync _ _ | .close _ _ | .clear _ _ => True
  | _ => False

/-- The environment that is in the hands of the holder and not in the slot, or that is
still in the slot but closed. -/
def Work.current {Path : Type} (env : Option ℕ) : Work Path → Option ℕ
  | .configure _ n _ | .abandon n | .publish _ n => some n
  | .clear _ _ => none
  | _ => env

section Lists

variable {α : Type} {l : List α} {n m : ℕ} {f : α → α} {a x : α}

theorem getElem?_concat_eq_some :
    (l ++ [a])[n]? = some x ↔ l[n]? = some x ∨ n = l.length ∧ a = x := by
  rcases Nat.lt_trichotomy n l.length with hlt | rfl | hlt
  · rw [List.getElem?_append_left hlt]
    simp [hlt.ne]
  · simp
  · rw [List.getElem?_append_right hlt.le, List.getElem?_eq_none hlt.le,
      List.getElem?_eq_none (by simp; omega)]
    simp [hlt.ne']

theorem getElem?_modify_eq_some :
    (l.modify n f)[m]? = some x ↔ ∃ y, l[m]? = some y ∧ x = if n = m then f y else y := by
  rw [List.getElem?_modify, Option.map_eq_map, Option.map_eq_some_iff]
  simp only [eq_comm]

end Lists

/-- The environments made under a slot are for paths that lead to it, and all of them are
closed, once, but for the current one. -/
structure HandlesOk {Thread Path : Type} (P : Path → Prop) (handles : List (Handle Thread Path))
    (cur : Option ℕ) : Prop where
  paths : ∀ (n : ℕ) (h : Handle Thread Path), handles[n]? = some h → P h.path
  current : ∀ n, cur = some n → ∃ h : Handle Thread Path, handles[n]? = some h ∧ h.closes = 0
  closed : ∀ (n : ℕ) (h : Handle Thread Path), handles[n]? = some h →
    h.closes ≤ 1 ∧ (h.closes = 0 → cur = some n)

section Handles

variable {Thread Path : Type} {P : Path → Prop} {handles : List (Handle Thread Path)}
  {cur : Option ℕ} {n m : ℕ} {f : Handle Thread Path → Handle Thread Path}
  {new x : Handle Thread Path}

/-- A new environment is made where no other is open. -/
theorem HandlesOk.append (h : HandlesOk P handles none) (hpath : P new.path)
    (hnew : new.closes = 0) : HandlesOk P (handles ++ [new]) (some handles.length) where
  paths n x hx := by
    rcases getElem?_concat_eq_some.mp hx with hx | ⟨-, rfl⟩
    · exact h.paths n x hx
    · exact hpath
  current n hn := by
    cases hn
    exact ⟨new, getElem?_concat_eq_some.mpr (.inr ⟨rfl, rfl⟩), hnew⟩
  closed n x hx := by
    rcases getElem?_concat_eq_some.mp hx with hx | ⟨rfl, rfl⟩
    · -- whatever was made before is closed
      refine ⟨(h.closed n x hx).1, fun hzero => ?_⟩
      cases (h.closed n x hx).2 hzero
    · exact ⟨by rw [hnew]; exact Nat.zero_le 1, fun _ => rfl⟩

theorem HandlesOk.modify (h : HandlesOk P handles cur)
    (hf : ∀ x, (f x).path = x.path ∧ (f x).closes = x.closes) :
    HandlesOk P (handles.modify n f) cur := by
  have hkeep : ∀ m y, (if n = m then f y else y).path = y.path ∧
      (if n = m then f y else y).closes = y.closes := by
    intro m y
    split
    · exact hf y
    · exact ⟨rfl, rfl⟩
  refine ⟨fun m x hx => ?_, fun m hm => ?_, fun m x hx => ?_⟩
  · obtain ⟨y, hy, rfl⟩ := getElem?_modify_eq_some.mp hx
    rw [(hkeep m y).1]
    exact h.paths m y hy
  · obtain ⟨y, hy, hzero⟩ := h.current m hm
    exact ⟨_, getElem?_modify_eq_some.mpr ⟨y, hy, rfl⟩, (hkeep m y).2.trans hzero⟩
  · obtain ⟨y, hy, rfl⟩ := getElem?_modify_eq_some.mp hx
    rw [(hkeep m y).2]
    exact h.closed m y hy

/-- The current environment is closed. -/
theorem HandlesOk.close (h : HandlesOk P handles (some n)) :
    HandlesOk P (handles.modify n fun x => { x with closes := x.closes + 1 }) none := by
  refine ⟨fun m x hx => ?_, nofun, fun m x hx => ?_⟩
  · obtain ⟨y, hy, rfl⟩ := getElem?_modify_eq_some.mp hx
    have hpath := h.paths m y hy
    split
    · exact hpath
    · exact hpath
  · obtain ⟨y, hy, rfl⟩ := getElem?_modify_eq_some.mp hx
    by_cases hnm : n = m
    · subst hnm
      obtain ⟨z, hz, hzero⟩ := h.current n rfl
      cases hz.symm.trans hy
      rw [if_pos rfl]
      exact ⟨hzero ▸ le_refl _, fun hne => absurd hne (Nat.succ_ne_zero _)⟩
    · rw [if_neg hnm]
      refine ⟨(h.closed m y hy).1, fun hzero => ?_⟩
      exact absurd (Option.some.inj ((h.closed m y hy).2 hzero)) hnm

end Handles

namespace Slot

variable {Thread Path : Type} {P : Path → Prop} {slot : Slot Thread Path}
  {t : Thread} {w w' : Work Path}

def extra (slot : Slot Thread Path) : ℤ :=
  match slot.guard with
  | some (_, w) => w.extra
  | none => 0

def Settled (slot : Slot Thread Path) : Prop :=
  match slot.guard with
  | some (_, w) => ¬ w.Unsettled
  | none => True

/-- The environment of the slot that is not closed. -/
def current (slot : Slot Thread Path) : Option ℕ :=
  match slot.guard with
  | some (_, w) => w.current slot.env
  | none => slot.env

/-- The environment is one the thread has made and not recorded yet. -/
def Fresh (slot : Slot Thread Path) (t : Thread) (n : ℕ) : Prop :=
  ∃ h : Handle Thread Path, slot.handles[n]? = some h ∧ h.opener = t ∧ h.dbiLock = none

/-- What the holder of the guard relies on. -/
def WorkOk (P : Path → Prop) (slot : Slot Thread Path) (t : Thread) : Work Path → Prop
  | .begin (.openWith key) => P key
  | .begin (.clone i self) => (i, self) ∈ slot.shares ∧ t ∈ slot.borrowers i
  | .begin (.drop i self) => (i, self) ∈ slot.shares ∧ slot.dropper i = some t
  | .create key => P key ∧ slot.env = none
  | .configure key n _ => P key ∧ slot.env = none ∧ slot.Fresh t n
  | .abandon n => slot.env = none ∧ slot.Fresh t n
  | .failed => True
  | .publish key n =>
    P key ∧ slot.env = none ∧ slot.Fresh t n ∧
      ∀ h : Handle Thread Path, slot.handles[n]? = some h → h.opened = true
  | .returning new _ =>
    P new.key ∧ slot.env = some new.env ∧ slot.dbiLock = new.dbiLock
  | .counted _ self => slot.env = some self.env
  | .sync _ self | .close _ self => slot.env = some self.env ∧ slot.refcnt = 0
  | .clear _ _ => slot.refcnt = 0
  | .leave _ _ => True

/-- The count is that of the shares, each of which has the environment of the slot and its
lock; the environments made are closed but for the current one, and that one is
open when it is in the slot. -/
structure Ok (P : Path → Prop) (slot : Slot Thread Path) : Prop where
  count : slot.refcnt = slot.shares.length + slot.extra
  settled : slot.Settled → (slot.env = none ↔ slot.refcnt = 0)
  shares : ∀ x ∈ slot.shares, P x.2.key ∧ slot.env = some x.2.env ∧ slot.dbiLock = x.2.dbiLock
  borrowed : ∀ i t, t ∈ slot.borrowers i → slot.dropper i = none
  work : ∀ t w, slot.guard = some (t, w) → slot.WorkOk P t w
  handles : HandlesOk P slot.handles slot.current
  recorded : ∀ n, slot.env = some n → slot.current = some n →
    ∀ h : Handle Thread Path, slot.handles[n]? = some h →
      h.opened = true ∧ h.dbiLock = some slot.dbiLock

theorem ok_new : (new : Slot Thread Path).Ok P where
  count := rfl
  settled _ := by simp [new]
  shares := by simp [new]
  borrowed := by simp [new]
  work := by simp [new]
  handles := ⟨by simp [new], by simp [new, Slot.current], by simp [new]⟩
  recorded := by simp [new]

theorem Ok.mono {Q : Path → Prop} (h : slot.Ok P) (hPQ : ∀ k, P k → Q k) : slot.Ok Q where
  count := h.count
  settled := h.settled
  shares x hx := ⟨hPQ _ (h.shares x hx).1, (h.shares x hx).2⟩
  borrowed := h.borrowed
  work t w hw := by
    have hok := h.work t w hw
    cases w with
    | begin call =>
      cases call with
      | openWith key => exact hPQ _ hok
      | clone i self => exact hok
      | drop i self => exact hok
    | create key => exact ⟨hPQ _ hok.1, hok.2⟩
    | configure key n stage => exact ⟨hPQ _ hok.1, hok.2⟩
    | publish key n => exact ⟨hPQ _ hok.1, hok.2⟩
    | returning e origin => exact ⟨hPQ _ hok.1, hok.2⟩
    | _ => exact hok
  handles := ⟨fun n x hx => hPQ _ (h.handles.paths n x hx), h.handles.current, h.handles.closed⟩
  recorded := h.recorded

theorem Ok.current_eq (hg : slot.guard = some (t, w)) : slot.current = w.current slot.env := by
  rw [Slot.current, hg]

theorem Ok.count_eq (h : slot.Ok P) (hg : slot.guard = some (t, w)) :
    slot.refcnt = slot.shares.length + w.extra := by
  have hcount := h.count
  rwa [Slot.extra, hg] at hcount

theorem Ok.settled_eq (h : slot.Ok P) (hg : slot.guard = some (t, w)) (hw : ¬ w.Unsettled) :
    slot.env = none ↔ slot.refcnt = 0 := by
  refine h.settled ?_
  rw [Settled, hg]
  exact hw

/-- A step that only takes the holder on. -/
theorem Ok.goto (h : slot.Ok P) (hg : slot.guard = some (t, w)) (hextra : w'.extra = w.extra)
    (hcurrent : w'.current slot.env = w.current slot.env)
    (hsettled : ¬ w'.Unsettled → (slot.env = none ↔ slot.refcnt = 0))
    (hwork : (slot.goto t w').WorkOk P t w') : (slot.goto t w').Ok P := by
  have hcur : (slot.goto t w').current = slot.current :=
    hcurrent.trans (Ok.current_eq hg).symm
  refine ⟨?_, hsettled, h.shares, h.borrowed, ?_, ?_, ?_⟩
  · show slot.refcnt = slot.shares.length + w'.extra
    rw [hextra, h.count_eq hg]
  · intro t' u hu
    cases hu
    exact hwork
  · rw [hcur]
    exact h.handles
  · rw [hcur]
    exact h.recorded

/-- The guard is dropped where the slot is settled. -/
theorem Ok.unlock (h : slot.Ok P) (hg : slot.guard = some (t, w)) (hextra : w.extra = 0)
    (hcurrent : w.current slot.env = slot.env) (hsettled : ¬ w.Unsettled) :
    slot.unlock.Ok P := by
  have hcur : slot.unlock.current = slot.current :=
    hcurrent.symm.trans (Ok.current_eq hg).symm
  refine ⟨?_, fun _ => h.settled_eq hg hsettled, h.shares, h.borrowed, nofun, ?_, ?_⟩
  · show slot.refcnt = slot.shares.length + 0
    rw [h.count_eq hg, hextra]
  · rw [hcur]
    exact h.handles
  · rw [hcur]
    exact h.recorded

/-- A thread that has waited for the guard takes it. -/
theorem Ok.lock (h : slot.Ok P) (hg : slot.guard = none) {call : Call Path}
    (hwork : slot.WorkOk P t (.begin call)) : (slot.goto t (.begin call)).Ok P := by
  have hcur : (slot.goto t (.begin call)).current = slot.current := by
    rw [Slot.current, Slot.current, hg]
    rfl
  refine ⟨?_, fun _ => h.settled ?_, h.shares, h.borrowed, ?_, ?_, ?_⟩
  · have hcount := h.count
    rwa [Slot.extra, hg] at hcount
  · rw [Settled, hg]
    trivial
  · intro t' u hu
    cases hu
    cases call <;> exact hwork
  · rw [hcur]
    exact h.handles
  · rw [hcur]
    exact h.recorded

/-- A share is counted for an `Env` that is about to be returned. -/
theorem Ok.share (h : slot.Ok P) (hg : slot.guard = some (t, w)) (hextra : w.extra = 0)
    (hcurrent : w.current slot.env = slot.env) {new : Env Path} {origin : Option ℕ}
    (hkey : P new.key) (henv : slot.env = some new.env) (hlock : slot.dbiLock = new.dbiLock) :
    ({ slot with refcnt := slot.refcnt + 1 }.goto t (.returning new origin)).Ok P := by
  have hcur : slot.env = slot.current := hcurrent.symm.trans (Ok.current_eq hg).symm
  refine ⟨?_, fun hs => (hs trivial).elim, h.shares, h.borrowed, ?_, ?_, ?_⟩
  · show slot.refcnt + 1 = slot.shares.length + 1
    rw [h.count_eq hg, hextra, Int.add_zero]
  · intro t' u hu
    cases hu
    exact ⟨hkey, henv, hlock⟩
  · show HandlesOk P slot.handles slot.env
    rw [hcur]
    exact h.handles
  · intro n hn _
    exact h.recorded n hn (hcur ▸ hn)

/-- A new environment is made, where there is none. -/
theorem Ok.create [DecidableEq Thread] [DecidableEq Path] (h : slot.Ok P) {key : Path}
    (hg : slot.guard = some (t, .create key)) :
    (slot.work t true (.create key)).Ok P := by
  obtain ⟨hkey, henv⟩ := h.work t _ hg
  have hcur : slot.current = none := (Ok.current_eq hg).trans henv
  have hhandles := h.handles
  rw [hcur] at hhandles
  refine ⟨h.count_eq hg, fun _ => h.settled_eq hg id, h.shares, h.borrowed, ?_,
    hhandles.append hkey rfl, ?_⟩
  · intro t' u hu
    cases hu
    exact ⟨hkey, henv, _, getElem?_concat_eq_some.mpr (.inr ⟨rfl, rfl⟩), rfl, rfl⟩
  · intro n hn
    cases henv.symm.trans hn

/-- The new environment has been opened. -/
theorem Ok.opened (h : slot.Ok P) {key : Path} {n : ℕ} {stage : Stage}
    (hg : slot.guard = some (t, .configure key n stage)) :
    ((slot.modifyHandle n fun x => { x with opened := true }).goto t (.publish key n)).Ok P := by
  obtain ⟨hkey, henv, x, hx, hopener, hlock⟩ := h.work t _ hg
  have hhandles := h.handles
  rw [Ok.current_eq hg] at hhandles
  refine ⟨h.count_eq hg, fun _ => h.settled_eq hg id, h.shares, h.borrowed, ?_,
    hhandles.modify fun _ => ⟨rfl, rfl⟩, ?_⟩
  · intro t' u hu
    cases hu
    refine ⟨hkey, henv, ⟨_, getElem?_modify_eq_some.mpr ⟨x, hx, rfl⟩, ?_⟩, fun y hy => ?_⟩
    · rw [if_pos rfl]
      exact ⟨hopener, hlock⟩
    · obtain ⟨z, -, rfl⟩ := getElem?_modify_eq_some.mp hy
      rw [if_pos rfl]
  · intro m hm
    cases henv.symm.trans hm

/-- The new environment is recorded in the slot. -/
theorem Ok.publish [DecidableEq Thread] [DecidableEq Path] (h : slot.Ok P) {key : Path} {n : ℕ}
    (hg : slot.guard = some (t, .publish key n)) {ok : Bool} :
    (slot.work t ok (.publish key n)).Ok P := by
  obtain ⟨hkey, henv, -, hopened⟩ := h.work t _ hg
  have hhandles := h.handles
  rw [Ok.current_eq hg] at hhandles
  have hnone : slot.shares = [] := by
    refine List.eq_nil_iff_forall_not_mem.mpr fun x hx => ?_
    cases henv.symm.trans (h.shares x hx).2.1
  refine ⟨?_, fun hs => (hs trivial).elim, ?_, h.borrowed, ?_,
    hhandles.modify fun _ => ⟨rfl, rfl⟩, ?_⟩
  · show (1 : ℤ) = slot.shares.length + 1
    rw [hnone]
    rfl
  · show ∀ x ∈ slot.shares, _
    rw [hnone]
    nofun
  · intro t' u hu
    cases hu
    exact ⟨hkey, rfl, rfl⟩
  · intro m hm _ x hx
    cases hm
    obtain ⟨y, hy, rfl⟩ := getElem?_modify_eq_some.mp hx
    rw [if_pos rfl]
    exact ⟨hopened y hy, rfl⟩

/-- The current environment is closed, by a failed open or by the last drop. -/
theorem Ok.close (h : slot.Ok P) (hg : slot.guard = some (t, w)) {n : ℕ}
    (hextra : w'.extra = w.extra) (hcurrent : w.current slot.env = some n)
    (hcurrent' : w'.current slot.env = none)
    (hsettled : ¬ w'.Unsettled → (slot.env = none ↔ slot.refcnt = 0))
    (hwork : ((slot.closeHandle n).goto t w').WorkOk P t w') :
    ((slot.closeHandle n).goto t w').Ok P := by
  have hcur : ((slot.closeHandle n).goto t w').current = none := hcurrent'
  have hhandles := h.handles
  rw [Ok.current_eq hg, hcurrent] at hhandles
  refine ⟨?_, hsettled, h.shares, h.borrowed, ?_, ?_, ?_⟩
  · show slot.refcnt = slot.shares.length + w'.extra
    rw [hextra, h.count_eq hg]
  · intro t' u hu
    cases hu
    exact hwork
  · rw [hcur]
    exact hhandles.close
  · intro m _ hm
    cases hcur.symm.trans hm

/-- The `Env` is returned, with the share that was counted for it. -/
theorem Ok.returning [DecidableEq Thread] [DecidableEq Path] (h : slot.Ok P) {new : Env Path}
    {origin : Option ℕ} (hg : slot.guard = some (t, .returning new origin)) {ok : Bool} :
    (slot.work t ok (.returning new origin)).Ok P := by
  obtain ⟨hkey, henv, hlock⟩ := h.work t _ hg
  have hcount := h.count_eq hg
  have hcur : slot.current = slot.env := Ok.current_eq hg
  refine ⟨?_, fun _ => ?_, ?_, ?_, nofun, ?_, ?_⟩
  -- the share that was counted ahead is now one of an `Env`
  · show slot.refcnt = ((slot.made, new) :: slot.shares).length + 0
    rw [hcount, List.length_cons]
    push_cast
    rfl
  · show slot.env = none ↔ slot.refcnt = 0
    rw [hcount, henv]
    have hpos : (slot.shares.length : ℤ) + Work.extra (.returning new origin) ≠ 0 := by
      show (slot.shares.length : ℤ) + 1 ≠ 0
      omega
    simp [hpos]
  · intro x hx
    rcases List.mem_cons.mp hx with rfl | hx
    · exact ⟨hkey, henv, hlock⟩
    · exact h.shares x hx
  · intro i u hu
    refine h.borrowed i u ?_
    have hu : u ∈ if origin = some i then (slot.borrowers i).erase t else slot.borrowers i := hu
    split at hu
    · exact Finset.mem_of_mem_erase hu
    · exact hu
  · show HandlesOk P slot.handles slot.env
    rw [← hcur]
    exact h.handles
  · intro n hn _
    exact h.recorded n hn (hcur.trans hn)

/-- An `Env` gives its share back. -/
theorem Ok.drop [DecidableEq Thread] [DecidableEq Path] (h : slot.Ok P) {i : ℕ}
    {self : Env Path} (hg : slot.guard = some (t, .begin (.drop i self))) {ok : Bool} :
    (slot.work t ok (.begin (.drop i self))).Ok P := by
  obtain ⟨hmem, -⟩ := h.work t _ hg
  have hcount := h.count_eq hg
  have hcur : slot.current = slot.env := Ok.current_eq hg
  refine ⟨?_, fun hs => (hs trivial).elim, ?_, ?_, ?_, ?_, ?_⟩
  · show slot.refcnt - 1 = (slot.shares.erase (i, self)).length + 0
    have hpos : 0 < slot.shares.length := List.length_pos_of_mem hmem
    rw [hcount, List.length_erase_of_mem hmem]
    show (slot.shares.length : ℤ) + 0 - 1 = ((slot.shares.length - 1 : ℕ) : ℤ) + 0
    omega
  · intro x hx
    exact h.shares x (List.mem_of_mem_erase hx)
  · intro j u hu
    show Function.update slot.dropper i none j = none
    have hnone := h.borrowed j u hu
    by_cases hj : j = i
    · rw [hj, Function.update_self]
    · rw [Function.update_of_ne hj, hnone]
  -- its own share kept the environment open so far
  · intro t' u hu
    cases hu
    exact (h.shares _ hmem).2.1
  · show HandlesOk P slot.handles slot.env
    rw [← hcur]
    exact h.handles
  · intro n hn _
    exact h.recorded n hn (hcur.trans hn)

/-- The slot is emptied. -/
theorem Ok.clear [DecidableEq Thread] [DecidableEq Path] (h : slot.Ok P) {i : ℕ}
    {self : Env Path} (hg : slot.guard = some (t, .clear i self)) {ok : Bool} :
    (slot.work t ok (.clear i self)).Ok P := by
  have hzero : slot.refcnt = 0 := h.work t _ hg
  have hcount := h.count_eq hg
  have hnone : slot.shares = [] := by
    refine List.length_eq_zero_iff.mp ?_
    have hlen : (slot.shares.length : ℤ) + 0 = 0 := hcount.symm.trans hzero
    omega
  have hhandles := h.handles
  rw [Ok.current_eq hg] at hhandles
  refine ⟨hcount, fun _ => iff_of_true rfl hzero, ?_, h.borrowed, ?_, hhandles, nofun⟩
  · show ∀ x ∈ slot.shares, _
    rw [hnone]
    nofun
  · intro t' u hu
    cases hu
    trivial

theorem extra_nonneg (slot : Slot Thread Path) : 0 ≤ slot.extra := by
  rw [Slot.extra]
  split
  · next w _ => cases w <;> simp [Work.extra]
  · exact le_refl 0

/-- While an `Env` is counted, the environment in the slot is open. -/
theorem Ok.current_of_share (h : slot.Ok P) {i : ℕ} {e : Env Path} (he : (i, e) ∈ slot.shares) :
    slot.current = some e.env := by
  have henv := (h.shares _ he).2.1
  have hpos : 0 < slot.shares.length := List.length_pos_of_mem he
  cases hg : slot.guard with
  | none => rw [Slot.current, hg, henv]
  | some g =>
    obtain ⟨t, w⟩ := g
    have hwork := h.work t w hg
    have hcount := h.count_eq hg
    rw [Ok.current_eq hg]
    cases w with
    | configure key n stage => cases henv.symm.trans hwork.2.1
    | abandon n => cases henv.symm.trans hwork.1
    | publish key n => cases henv.symm.trans hwork.2.1
    | clear j other =>
      have hzero : slot.refcnt = 0 := hwork
      have hextra : (Work.clear j other).extra = 0 := rfl
      omega
    | _ => exact henv

/-- **A step of the holder keeps the slot.** -/
theorem Ok.step [DecidableEq Thread] [DecidableEq Path] (h : slot.Ok P)
    (hg : slot.guard = some (t, w)) (ok : Bool) : (slot.work t ok w).Ok P := by
  have hwork := h.work t w hg
  cases w with
  | begin call =>
    cases call with
    | openWith key =>
      rw [Slot.work]
      split
      · next n henv => exact h.share hg rfl rfl hwork henv rfl
      · next henv =>
        split
        · exact h.goto hg rfl rfl (fun _ => h.settled_eq hg id) ⟨hwork, henv⟩
        · exact h.goto hg rfl rfl (fun _ => h.settled_eq hg id) trivial
    | clone i self =>
      obtain ⟨hkey, henv, hlock⟩ := h.shares _ hwork.1
      exact h.share hg rfl rfl hkey henv hlock
    | drop i self => exact h.drop hg
  | create key =>
    cases ok with
    | true => exact h.create hg
    | false => exact h.goto hg rfl rfl (fun _ => h.settled_eq hg id) trivial
  | configure key n stage =>
    rw [Slot.work]
    split
    · split
      · exact h.goto hg rfl rfl (fun _ => h.settled_eq hg id) hwork
      · exact h.opened hg
    · exact h.goto hg rfl rfl (fun _ => h.settled_eq hg id) hwork.2
  | abandon n => exact h.close hg rfl rfl hwork.1 (fun _ => h.settled_eq hg id) trivial
  | failed => exact h.unlock hg rfl rfl id
  | publish key n => exact h.publish hg
  | returning new origin => exact h.returning hg
  | counted i self =>
    rw [Slot.work]
    split
    · next hne =>
      -- other shares are left, and the environment stays open
      have henv : slot.env = some self.env := hwork
      refine h.goto hg rfl rfl (fun _ => ?_) trivial
      simp [henv, hne]
    · next hzero => exact h.goto hg rfl rfl (fun hs => (hs trivial).elim) ⟨hwork, not_not.mp hzero⟩
  | sync i self => exact h.goto hg rfl rfl (fun hs => (hs trivial).elim) hwork
  | close i self => exact h.close hg rfl hwork.1 rfl (fun hs => (hs trivial).elim) hwork.2
  | clear i self => exact h.clear hg
  | leave i self => exact h.unlock hg rfl rfl id

end Slot

/-! ### What a step leaves to other threads -/

namespace Slot

variable {Thread Path : Type} {P : Path → Prop} {slot slot' : Slot Thread Path} {t u : Thread}
  {w : Work Path}

/-- The `Env`s a thread is cloning or dropping stay its own. -/
structure Keeps (u : Thread) (slot slot' : Slot Thread Path) : Prop where
  clone : ∀ i self, (i, self) ∈ slot.shares → u ∈ slot.borrowers i →
    (i, self) ∈ slot'.shares ∧ u ∈ slot'.borrowers i
  drop : ∀ i self, (i, self) ∈ slot.shares → slot.dropper i = some u →
    (i, self) ∈ slot'.shares ∧ slot'.dropper i = some u

theorem Keeps.of_eq (hshares : slot'.shares = slot.shares)
    (hborrowers : slot'.borrowers = slot.borrowers)
    (hdropper : slot'.dropper = slot.dropper) : Keeps u slot slot' := by
  refine ⟨fun i self hmem hu => ?_, fun i self hmem hu => ?_⟩
  · rw [hshares, hborrowers]
    exact ⟨hmem, hu⟩
  · rw [hshares, hdropper]
    exact ⟨hmem, hu⟩

theorem mem_of_lookup {i : ℕ} {self : Env Path} {shares : List (ℕ × Env Path)}
    (h : shares.lookup i = some self) : (i, self) ∈ shares := by
  obtain ⟨front, back, rfl, -⟩ := List.lookup_eq_some_iff.mp h
  simp

theorem mem_borrow [DecidableEq Thread] {i j : ℕ} (hu : u ∈ slot.borrowers j) :
    u ∈ (slot.borrow t i).borrowers j := by
  show u ∈ Function.update slot.borrowers i (insert t (slot.borrowers i)) j
  by_cases hj : j = i
  · subst hj
    rw [Function.update_self]
    exact Finset.mem_insert_of_mem hu
  · rw [Function.update_of_ne hj]
    exact hu

theorem mem_borrow_self [DecidableEq Thread] (slot : Slot Thread Path) (t : Thread) (i : ℕ) :
    t ∈ (slot.borrow t i).borrowers i := by
  show t ∈ Function.update slot.borrowers i (insert t (slot.borrowers i)) i
  rw [Function.update_self]
  exact Finset.mem_insert_self _ _

theorem Ok.borrow [DecidableEq Thread] (h : slot.Ok P) (t : Thread) {i : ℕ}
    (hdropper : slot.dropper i = none) : (slot.borrow t i).Ok P where
  count := h.count
  settled := h.settled
  shares := h.shares
  borrowed j u hu := by
    by_cases hj : j = i
    · rw [hj]
      exact hdropper
    · have hmem : u ∈ Function.update slot.borrowers i (insert t (slot.borrowers i)) j := hu
      rw [Function.update_of_ne hj] at hmem
      exact h.borrowed j u hmem
  work u w hu := by
    have hok := h.work u w hu
    cases w with
    | begin call =>
      cases call with
      | clone j self => exact ⟨hok.1, mem_borrow hok.2⟩
      | _ => exact hok
    | _ => exact hok
  handles := h.handles
  recorded := h.recorded

theorem Keeps.borrow [DecidableEq Thread] (t : Thread) {i : ℕ} : Keeps u slot (slot.borrow t i) where
  clone _ _ hmem hu := ⟨hmem, mem_borrow hu⟩
  drop _ _ hmem hu := ⟨hmem, hu⟩

theorem dropper_giveAway {i j : ℕ} (hfree : slot.dropper i = none)
    (hu : slot.dropper j = some u) : (slot.giveAway t i).dropper j = some u := by
  show Function.update slot.dropper i (some t) j = some u
  rw [Function.update_of_ne, hu]
  rintro rfl
  cases hfree.symm.trans hu

theorem Ok.giveAway (h : slot.Ok P) (t : Thread) {i : ℕ} (hdropper : slot.dropper i = none)
    (hfree : slot.borrowers i = ∅) : (slot.giveAway t i).Ok P where
  count := h.count
  settled := h.settled
  shares := h.shares
  borrowed j u hu := by
    have hj : j ≠ i := by
      rintro rfl
      exact absurd hu (hfree ▸ Finset.notMem_empty u)
    exact (Function.update_of_ne hj _ _).trans (h.borrowed j u hu)
  work u w hu := by
    have hok := h.work u w hu
    cases w with
    | begin call =>
      cases call with
      | drop j self => exact ⟨hok.1, dropper_giveAway hdropper hok.2⟩
      | _ => exact hok
    | _ => exact hok
  handles := h.handles
  recorded := h.recorded

theorem Keeps.giveAway (t : Thread) {i : ℕ} (hfree : slot.dropper i = none) :
    Keeps u slot (slot.giveAway t i) where
  clone _ _ hmem hu := ⟨hmem, hu⟩
  drop _ _ hmem hu := ⟨hmem, dropper_giveAway hfree hu⟩

/-- The holder of the guard takes nothing from another thread. -/
theorem Ok.keeps [DecidableEq Thread] [DecidableEq Path] (h : slot.Ok P)
    (hg : slot.guard = some (t, w)) (ok : Bool) (hu : u ≠ t) :
    Keeps u slot (slot.work t ok w) := by
  have hwork := h.work t w hg
  cases w with
  | begin call =>
    cases call with
    | openWith key =>
      rw [Slot.work]
      split
      · exact .of_eq rfl rfl rfl
      · split <;> exact .of_eq rfl rfl rfl
    | clone i self => exact .of_eq rfl rfl rfl
    | drop i self =>
      obtain ⟨-, hdropper⟩ := hwork
      refine ⟨fun j other hmem hj => ⟨?_, hj⟩, fun j other hmem hj => ?_⟩
      · -- what is borrowed is not dropped
        refine (List.mem_erase_of_ne fun heq => ?_).mpr hmem
        cases heq
        cases hdropper.symm.trans (h.borrowed i u hj)
      · have hne : j ≠ i := by
          rintro rfl
          exact hu (Option.some.inj (hj.symm.trans hdropper))
        refine ⟨(List.mem_erase_of_ne fun heq => hne (congrArg Prod.fst heq)).mpr hmem, ?_⟩
        show Function.update slot.dropper i none j = some u
        rw [Function.update_of_ne hne, hj]
  | create key =>
    rw [Slot.work]
    split <;> exact .of_eq rfl rfl rfl
  | configure key n stage =>
    rw [Slot.work]
    split
    · split <;> exact .of_eq rfl rfl rfl
    · exact .of_eq rfl rfl rfl
  | returning new origin =>
    refine ⟨fun i self hmem hi => ⟨List.mem_cons_of_mem _ hmem, ?_⟩,
      fun i self hmem hi => ⟨List.mem_cons_of_mem _ hmem, hi⟩⟩
    show u ∈ if origin = some i then (slot.borrowers i).erase t else slot.borrowers i
    split
    · exact Finset.mem_erase.mpr ⟨hu, hi⟩
    · exact hi
  | counted i self =>
    rw [Slot.work]
    split <;> exact .of_eq rfl rfl rfl
  | _ => exact .of_eq rfl rfl rfl

/-- The guard stays with its holder, or is dropped. -/
theorem guard_work [DecidableEq Thread] [DecidableEq Path] (slot : Slot Thread Path) (t : Thread)
    (ok : Bool) (w : Work Path) :
    (slot.work t ok w).guard = none ∨ ∃ w', (slot.work t ok w).guard = some (t, w') := by
  cases w with
  | begin call =>
    cases call with
    | openWith key =>
      rw [Slot.work]
      split
      · exact .inr ⟨_, rfl⟩
      · split <;> exact .inr ⟨_, rfl⟩
    | _ => exact .inr ⟨_, rfl⟩
  | create key =>
    rw [Slot.work]
    split <;> exact .inr ⟨_, rfl⟩
  | configure key n stage =>
    rw [Slot.work]
    split
    · split <;> exact .inr ⟨_, rfl⟩
    · exact .inr ⟨_, rfl⟩
  | counted i self =>
    rw [Slot.work]
    split <;> exact .inr ⟨_, rfl⟩
  | failed => exact .inl rfl
  | returning new origin => exact .inl rfl
  | leave i self => exact .inl rfl
  | _ => exact .inr ⟨_, rfl⟩

end Slot

/-! ### Who closes an environment, and what a failed open leaves -/

namespace Slot

variable {Thread Path : Type} [DecidableEq Thread] [DecidableEq Path] {slot : Slot Thread Path}
  {t : Thread} {w : Work Path}

/-- An environment is closed by an open that failed, or by the last drop. -/
theorem closes_work {ok : Bool} {n : ℕ} {h h' : Handle Thread Path}
    (hn : slot.handles[n]? = some h) (hn' : (slot.work t ok w).handles[n]? = some h')
    (hne : h'.closes ≠ h.closes) : w = .abandon n ∨ ∃ i self, w = .close i self ∧ self.env = n := by
  -- a step that leaves the environments alone closes none
  have hsame : (slot.work t ok w).handles ≠ slot.handles := by
    intro heq
    rw [heq, hn] at hn'
    cases hn'
    exact hne rfl
  have hmodify : ∀ {m : ℕ} {f : Handle Thread Path → Handle Thread Path},
      (slot.work t ok w).handles = slot.handles.modify m f →
        m = n ∧ (f h).closes ≠ h.closes := by
    intro m f heq
    rw [heq] at hn'
    obtain ⟨y, hy, rfl⟩ := getElem?_modify_eq_some.mp hn'
    cases hn.symm.trans hy
    by_cases hm : m = n
    · rw [if_pos hm] at hne
      exact ⟨hm, hne⟩
    · rw [if_neg hm] at hne
      exact absurd rfl hne
  cases w with
  | begin call =>
    refine absurd ?_ hsame
    cases call with
    | openWith key =>
      rw [Slot.work]
      split
      · rfl
      · split <;> rfl
    | _ => rfl
  | create key =>
    cases ok with
    | true =>
      rcases getElem?_concat_eq_some.mp hn' with hold | ⟨hlen, -⟩
      · cases hn.symm.trans hold
        exact absurd rfl hne
      · rw [hlen, List.getElem?_eq_none (le_refl _)] at hn
        cases hn
    | false => exact absurd rfl hsame
  | configure key m stage =>
    cases ok with
    | true =>
      cases stage with
      | envOpen => exact absurd rfl (hmodify rfl).2
      | _ => exact absurd rfl hsame
    | false => exact absurd rfl hsame
  | abandon m => exact .inl (congrArg Work.abandon (hmodify rfl).1)
  | publish key m => exact absurd rfl (hmodify rfl).2
  | counted i self =>
    refine absurd ?_ hsame
    rw [Slot.work]
    split <;> rfl
  | close i self => exact .inr ⟨i, self, rfl, (hmodify rfl).1⟩
  | _ => exact absurd rfl hsame

/-- `SlotState`. -/
def state (slot : Slot Thread Path) : Option ℕ × ℤ × ℕ := (slot.env, slot.refcnt, slot.dbiLock)

end Slot

/-- In `open_with`, with nothing recorded yet. -/
def Work.Opening {Path : Type} : Work Path → Prop
  | .begin (.openWith _) | .create _ | .configure _ _ _ | .abandon _ | .failed
  | .publish _ _ => True
  | _ => False

/-- Counted, and about to return. -/
def Work.Returning {Path : Type} : Work Path → Prop
  | .returning _ _ => True
  | _ => False

namespace Slot

variable {Thread Path : Type} [DecidableEq Thread] [DecidableEq Path] {slot : Slot Thread Path}
  {t : Thread} {w w' : Work Path}

/-- As long as it holds the guard, an open has not changed the slot or is about to succeed. -/
theorem opening_work {ok : Bool} (hw : w.Opening)
    (hg : (slot.work t ok w).guard = some (t, w')) :
    w'.Returning ∨ w'.Opening ∧ (slot.work t ok w).state = slot.state := by
  cases w with
  | begin call =>
    cases call with
    | openWith key =>
      rw [Slot.work] at hg ⊢
      split at hg
      · cases hg
        exact .inl trivial
      · split at hg
        · next hok =>
          cases hg
          rw [if_pos hok]
          exact .inr ⟨trivial, rfl⟩
        · next hok =>
          cases hg
          rw [if_neg hok]
          exact .inr ⟨trivial, rfl⟩
    | clone i self => exact hw.elim
    | drop i self => exact hw.elim
  | create key =>
    cases ok with
    | true =>
      cases hg
      exact .inr ⟨trivial, rfl⟩
    | false =>
      cases hg
      exact .inr ⟨trivial, rfl⟩
  | configure key n stage =>
    cases ok with
    | true =>
      cases stage <;> cases hg <;> exact .inr ⟨trivial, rfl⟩
    | false =>
      cases hg
      exact .inr ⟨trivial, rfl⟩
  | abandon n =>
    cases hg
    exact .inr ⟨trivial, rfl⟩
  | failed => cases hg
  | publish key n =>
    cases hg
    exact .inl trivial
  | returning new origin => exact hw.elim
  | counted n => exact hw.elim
  | sync n => exact hw.elim
  | close n => exact hw.elim
  | clear => exact hw.elim
  | leave => exact hw.elim

theorem returning_work {ok : Bool} (hw : w.Returning) : (slot.work t ok w).guard = none := by
  cases w with
  | returning new origin => rfl
  | _ => exact hw.elim

end Slot

end Pool

end Mdb
