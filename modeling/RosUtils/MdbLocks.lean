/-
The two locks of an LMDB environment.

A thread may have one transaction on an environment.  `TxnGuard::begin` claims the
thread's slot and refuses with `EDEADLK` when it is taken; a write transaction then takes
the environment's writer lock.  `Db::open_dbi` serializes the opening of databases by a
lock of its own, and takes it before it begins its transactions, so before the slot is
looked at.

Threads are modelled one at a time (`Thread.step`): what a thread does depends on its own
state and on whether each lock is free, its own or another's.  `system` interleaves any
number of them.

Refusing comes too late in `open_dbi`: a thread inside a transaction can be made to wait
for a thread that waits for it (`open_inside_write_deadlocks`).  It is refused at once,
and no threads wait for each other, exactly along the runs in which a thread inside a
transaction opens a database only while the lock is free and by a name without a NUL:
`refused_iff_careful`.
-/
import Mathlib.Logic.Relation
import RosUtils.Transition

open Transition

namespace Mdb

/-! ### One thread -/

/-- Whether a transaction may write. -/
inductive Mode where
  | read
  | write
  deriving DecidableEq, Repr

/-- The data operations of `Db`. -/
inductive DataOp where
  | get
  | getInto
  | withValue
  | containsKey
  | put
  | putIfAbsent
  | del
  | clear
  | len
  | isEmpty
  | stat
  | scan
  | scanFrom
  | scanPrefix
  | iter
  | iterFrom
  | iterPrefix
  deriving DecidableEq, Repr

/-- The mode an operation begins its transaction in. -/
def DataOp.mode : DataOp → Mode
  | .put | .putIfAbsent | .del | .clear => .write
  | _ => .read

/-- Whether caller code runs while the transaction is open: in the closure, or between
the steps of an iterator. -/
def DataOp.holds : DataOp → Bool
  | .withValue | .scan | .scanFrom | .scanPrefix | .iter | .iterFrom | .iterPrefix => true
  | _ => false

/-- A call on the environment, or on a database of it. -/
inductive Call where
  /-- `Env::read` -/
  | envRead
  /-- `Env::write` -/
  | envWrite
  | data (op : DataOp)
  /-- `Db::open_dbi`; no name is the main database. -/
  | openDbi (name : Option (List UInt8)) (create : Bool)
  deriving DecidableEq, Repr

/-- `Db::main` -/
def Call.main : Call := .openDbi none false

/-- `Db::open` -/
def Call.open (name : List UInt8) : Call := .openDbi (some name) false

/-- `Db::create` -/
def Call.create (name : List UInt8) : Call := .openDbi (some name) true

/-- What a call returns. -/
inductive Outcome where
  | ok
  | edeadlk
  | einval
  | notFound
  | failed
  deriving DecidableEq, Repr

/-- What a transaction is begun for. -/
inductive Goal where
  /-- To stay open while caller code runs. -/
  | hold
  /-- To be finished within the operation. -/
  | op
  /-- To look a database up, the first half of `open_dbi`. -/
  | lookup (create : Bool)
  /-- To create a database, the second half. -/
  | create
  deriving DecidableEq, Repr

/-- Where a thread is. -/
inductive Pc where
  /-- In the caller's code. -/
  | caller
  /-- In `lock_dbi`, which another thread has locked. -/
  | waitDbi (create : Bool)
  /-- In `open_dbi`, the lock taken. -/
  | locked (create : Bool)
  /-- In `open_dbi`, the database not found. -/
  | missing
  /-- In `mdb_txn_begin`, the slot claimed. -/
  | beginning (m : Mode) (g : Goal)
  /-- In the transaction of the call. -/
  | running (m : Mode) (g : Goal)
  deriving DecidableEq, Repr

/-- A thread: where it is, whether its `ACTIVE` list has the environment, the transaction it
keeps open while caller code runs, and what its last call since then returned. -/
structure Thread where
  pc : Pc
  active : Bool
  held : Option Mode
  result : Option Outcome
  deriving DecidableEq, Repr

/-- A lock as one thread sees it. -/
inductive View where
  | free
  | mine
  | taken
  deriving DecidableEq, Repr

/-- What can happen to a thread. -/
inductive Action where
  | call (c : Call)
  /-- `lock_dbi` returns. -/
  | acquire
  /-- `dbi_open` begins its transaction. -/
  | enter
  /-- `mdb_txn_begin` returns a transaction. -/
  | begun
  /-- `mdb_txn_begin` fails. -/
  | beginFails
  /-- The transaction of the call is committed or aborted. -/
  | ends (o : Outcome)
  /-- The closure returns, or the iterator is dropped. -/
  | finish
  deriving DecidableEq, Repr

namespace Thread

/-- The name cannot be a C string. -/
def hasNul (name : Option (List UInt8)) : Bool :=
  match name with
  | none => false
  | some bytes => bytes.contains 0

/-- `TxnGuard::begin` up to `mdb_txn_begin`: `claim` the slot or refuse. -/
def begin (t : Thread) (m : Mode) (g : Goal) : Thread :=
  if t.active then { t with pc := .caller, result := some .edeadlk }
  else { t with pc := .beginning m g, active := true }

/-- A call from the caller's code. -/
def call (t : Thread) (dbi writer : View) : Call → Thread × View × View
  | .envRead => (t.begin .read .hold, dbi, writer)
  | .envWrite => (t.begin .write .hold, dbi, writer)
  | .data op => (t.begin op.mode (if op.holds then .hold else .op), dbi, writer)
  | .openDbi name create =>
    if hasNul name then ({ t with result := some .einval }, dbi, writer)
    else
      match dbi with
      | .free => ({ t with pc := .locked create }, .mine, writer)
      | _ => ({ t with pc := .waitDbi create }, dbi, writer)

/-- Back to the caller, out of `open_dbi`: its guard gives the lock back. -/
def leave (t : Thread) (writer : View) (o : Outcome) : Thread × View × View :=
  ({ t with pc := .caller, result := some o }, .free, writer)

/-- `mdb_txn_begin` has returned a transaction. -/
def opened (t : Thread) (m : Mode) : Goal → Thread
  | .hold => { t with pc := .caller, held := some m, result := none }
  | g => { t with pc := .running m g }

/-- The call is over, with its slot released. -/
def close (t : Thread) (dbi writer : View) (o : Outcome) : Goal → Thread × View × View
  | .hold | .op => ({ t with pc := .caller, result := some o }, dbi, writer)
  | .lookup create =>
    if o = .notFound ∧ create then ({ t with pc := .missing }, dbi, writer)
    else t.leave writer o
  | .create => t.leave writer o

/-- The writer lock after a transaction of the mode has ended. -/
def unlockWriter (writer : View) : Mode → View
  | .read => writer
  | .write => .free

/-- What a thread does, given how it sees the two locks. -/
def step (t : Thread) (dbi writer : View) : Action → Option (Thread × View × View)
  | .call c => if t.pc = .caller then some (t.call dbi writer c) else none
  | .acquire =>
    match t.pc, dbi with
    | .waitDbi create, .free => some ({ t with pc := .locked create }, .mine, writer)
    | _, _ => none
  | .enter =>
    match t.pc with
    | .locked create =>
      if t.active then some (t.leave writer .edeadlk)
      else some (t.begin .read (.lookup create), dbi, writer)
    | .missing =>
      if t.active then some (t.leave writer .edeadlk)
      else some (t.begin .write .create, dbi, writer)
    | _ => none
  | .begun =>
    match t.pc with
    | .beginning .read g => some (t.opened .read g, dbi, writer)
    | .beginning .write g =>
      -- the writer lock is waited for
      if writer = .free then some (t.opened .write g, dbi, .mine) else none
    | _ => none
  | .beginFails =>
    match t.pc with
    | .beginning _ .hold | .beginning _ .op =>
      some ({ t with pc := .caller, active := false, result := some .failed }, dbi, writer)
    | .beginning _ _ => some ({ t with active := false }.leave writer .failed)
    | _ => none
  | .ends o =>
    match t.pc with
    | .running m g => some ({ t with active := false }.close dbi (unlockWriter writer m) o g)
    | _ => none
  | .finish =>
    match t.pc, t.held with
    | .caller, some m =>
      some ({ t with active := false, held := none }, dbi, unlockWriter writer m)
    | _, _ => none

end Thread

/-! ### What a thread keeps -/

/-- In `open_dbi` with its lock. -/
def Pc.hasDbi : Pc → Prop
  | .locked _ | .missing => True
  | .beginning _ (.lookup _) | .beginning _ .create => True
  | .running _ (.lookup _) | .running _ .create => True
  | _ => False

/-- In a transaction of the call, or about to have one. -/
def Pc.inTxn : Pc → Prop
  | .beginning _ _ | .running _ _ => True
  | _ => False

/-- In a transaction of the call with the writer lock. -/
def Pc.writes : Pc → Prop
  | .running .write _ => True
  | _ => False

/-- In the caller's code, or about to be refused. -/
def Pc.refusing : Pc → Prop
  | .caller | .locked _ => True
  | _ => False

namespace Thread

/-- The slot is claimed for a transaction, a lock is held only in the places that take it,
and while a transaction is kept open every call is refused at once. -/
structure Ok (t : Thread) (dbi writer : View) : Prop where
  active : t.active = true ↔ t.held ≠ none ∨ t.pc.inTxn
  dbi : dbi = .mine ↔ t.pc.hasDbi
  writer : writer = .mine ↔ t.held = some .write ∨ t.pc.writes
  refusing : t.held ≠ none → t.pc.refusing
  refused : t.held ≠ none → t.result = none ∨ t.result = some .edeadlk

/-- A thread inside a transaction opens a database only while the lock is free, and by a
name that can be one. -/
def Careful (t : Thread) (dbi : View) (a : Action) : Prop :=
  ∀ name create, a = .call (.openDbi name create) → t.held ≠ none →
    dbi = .free ∧ hasNul name = false

/-- The thread keeps its invariant, and a lock another thread has stays with it. -/
structure Keeps (dbi writer : View) (r : Thread × View × View) : Prop where
  ok : r.1.Ok r.2.1 r.2.2
  dbi : dbi = .taken ↔ r.2.1 = .taken
  writer : writer = .taken ↔ r.2.2 = .taken

section Step

variable {t : Thread} {dbi writer : View} {m : Mode} {g : Goal} {o : Outcome}

theorem Ok.held_eq_none (h : t.Ok dbi writer) (hact : t.active = false) : t.held = none := by
  by_contra hheld
  rw [h.active.mpr (.inl hheld)] at hact
  cases hact

/-- Nothing is kept open while the thread is anywhere but in the caller's code or about to
be refused. -/
theorem Ok.held_of_pc (h : t.Ok dbi writer) (hpc : ¬ t.pc.refusing) : t.held = none := by
  by_contra hheld
  exact hpc (h.refusing hheld)

/-- Without a transaction kept open, it is enough that the locks are where they belong. -/
theorem Ok.of_held_none (hheld : t.held = none) (hactive : t.active = true ↔ t.pc.inTxn)
    (hdbi : dbi = .mine ↔ t.pc.hasDbi) (hwriter : writer = .mine ↔ t.pc.writes) :
    t.Ok dbi writer where
  active := by simp [hheld, hactive]
  dbi := hdbi
  writer := by simp [hheld, hwriter]
  refusing hn := absurd hheld hn
  refused hn := absurd hheld hn

/-- A call that begins a transaction. -/
theorem Ok.begin (h : t.Ok dbi writer) (hpc : t.pc = .caller) (hg : g = .hold ∨ g = .op) :
    Keeps dbi writer (t.begin m g, dbi, writer) := by
  refine ⟨?_, Iff.rfl, Iff.rfl⟩
  have hdbi : ¬ dbi = .mine := by simpa [hpc, Pc.hasDbi] using h.dbi
  rw [Thread.begin]
  split
  · refine ⟨?_, ?_, ?_, fun _ => trivial, fun _ => .inr rfl⟩
    · simpa [hpc, Pc.inTxn] using h.active
    · simpa [Pc.hasDbi] using hdbi
    · simpa [hpc, Pc.writes] using h.writer
  · next hact =>
    have hheld := h.held_eq_none (by simpa using hact)
    have hwriter : ¬ writer = .mine := by simpa [hpc, hheld, Pc.writes] using h.writer
    refine Ok.of_held_none hheld (by simp [Pc.inTxn]) ?_ (by simpa [Pc.writes] using hwriter)
    rcases hg with rfl | rfl <;> simpa [Pc.hasDbi] using hdbi

theorem Ok.call (h : t.Ok dbi writer) (hpc : t.pc = .caller) (c : Call)
    (hcareful : t.Careful dbi (.call c)) : Keeps dbi writer (t.call dbi writer c) := by
  cases c with
  | envRead | envWrite => exact h.begin hpc (.inl rfl)
  | data op =>
    refine h.begin hpc ?_
    cases op.holds <;> simp
  | openDbi name create =>
    have hcare := hcareful name create rfl
    have hactive : t.active = true ↔ t.held ≠ none := by simpa [hpc, Pc.inTxn] using h.active
    have hdbi : ¬ dbi = .mine := by simpa [hpc, Pc.hasDbi] using h.dbi
    have hwriter : writer = .mine ↔ t.held = some .write := by
      simpa [hpc, Pc.writes] using h.writer
    -- a thread that is not refused at once keeps nothing open
    have hkeeps (t' : Thread) (hheld : t.held = none) (ht' : t'.held = t.held)
        (hact : t'.active = t.active) (hpc' : ¬ t'.pc.inTxn ∧ ¬ t'.pc.hasDbi ∧ ¬ t'.pc.writes) :
        Keeps dbi writer (t', dbi, writer) := by
      refine ⟨Ok.of_held_none (ht'.trans hheld) ?_ ?_ ?_, Iff.rfl, Iff.rfl⟩
      · simp [hact, hactive, hheld, hpc']
      · simp [hdbi, hpc']
      · simp [hwriter, hheld, hpc']
    by_cases hnul : hasNul name = true
    · have hheld : t.held = none := by
        by_contra hn
        rw [(hcare hn).2] at hnul
        cases hnul
      simp only [Thread.call, hnul, if_true]
      exact hkeeps _ hheld rfl rfl (by simp [hpc, Pc.inTxn, Pc.hasDbi, Pc.writes])
    · cases dbi with
      | free =>
        simp only [Thread.call, hnul, Bool.false_eq_true, if_false]
        refine ⟨⟨?_, by simp [Pc.hasDbi], ?_, fun _ => trivial, h.refused⟩, by simp, Iff.rfl⟩
        · simpa [Pc.inTxn] using hactive
        · simpa [Pc.writes] using hwriter
      | mine => exact absurd rfl hdbi
      | taken =>
        have hheld : t.held = none := by
          by_contra hn
          cases (hcare hn).1
        simp only [Thread.call, hnul, Bool.false_eq_true, if_false]
        exact hkeeps _ hheld rfl rfl (by simp [Pc.inTxn, Pc.hasDbi, Pc.writes])

/-- `lock_dbi` returns. -/
theorem Ok.acquire {create : Bool} (h : t.Ok .free writer) (hpc : t.pc = .waitDbi create) :
    Keeps .free writer ({ t with pc := .locked create }, .mine, writer) := by
  have hheld := h.held_of_pc (by simp [hpc, Pc.refusing])
  refine ⟨Ok.of_held_none hheld ?_ (by simp [Pc.hasDbi]) ?_, by simp, Iff.rfl⟩
  · simpa [hpc, hheld, Pc.inTxn] using h.active
  · simpa [hpc, hheld, Pc.writes] using h.writer

/-- `open_dbi` returns, having had its lock; the slot is claimed only for a transaction kept
open. -/
theorem Ok.leave (hactive : t.active = true ↔ t.held ≠ none) (hdbi : dbi = .mine)
    (hwriter : writer = .mine ↔ t.held = some .write) {w : View}
    (hfair : w = .taken ↔ writer = .taken) (ho : t.held ≠ none → o = .edeadlk) :
    Keeps dbi w (t.leave writer o) where
  ok := {
    active := by simpa [Thread.leave, Pc.inTxn] using hactive
    dbi := by simp [Thread.leave, Pc.hasDbi]
    writer := by simpa [Thread.leave, Pc.writes] using hwriter
    refusing := fun _ => trivial
    refused := fun hn => .inr (by rw [← ho hn]; rfl) }
  dbi := by simp [hdbi, Thread.leave]
  writer := hfair

/-- `dbi_open` begins its transaction, or is refused. -/
theorem Ok.enter (h : t.Ok dbi writer) (hdbi : t.pc.hasDbi) (htxn : ¬ t.pc.inTxn)
    (hg : g = .create ∨ ∃ create, g = .lookup create) :
    Keeps dbi writer
      (if t.active then t.leave writer .edeadlk else (t.begin m g, dbi, writer)) := by
  have hwrites : ¬ t.pc.writes := by
    intro hw
    cases hpc : t.pc <;> simp_all [Pc.writes, Pc.inTxn]
  have hactive : t.active = true ↔ t.held ≠ none := by simpa [htxn] using h.active
  have hwriter : writer = .mine ↔ t.held = some .write := by simpa [hwrites] using h.writer
  split
  · exact Ok.leave hactive (h.dbi.mpr hdbi) hwriter Iff.rfl fun _ => rfl
  · next hact =>
    have hheld := h.held_eq_none (by simpa using hact)
    refine ⟨?_, Iff.rfl, Iff.rfl⟩
    rw [Thread.begin, if_neg hact]
    refine Ok.of_held_none hheld (by simp [Pc.inTxn]) ?_ ?_
    · have hmine := h.dbi.mpr hdbi
      rcases hg with rfl | ⟨create, rfl⟩ <;> simpa [Pc.hasDbi] using hmine
    · simpa [hheld, Pc.writes] using hwriter

/-- `mdb_txn_begin` returns a transaction; for writing, with the writer lock. -/
theorem Ok.opened (h : t.Ok dbi writer) (hpc : t.pc = .beginning m g) {w : View}
    (hw : w = .mine ↔ m = .write) (hfair : writer = .taken ↔ w = .taken) :
    Keeps dbi writer (t.opened m g, dbi, w) := by
  have hheld := h.held_of_pc (by simp [hpc, Pc.refusing])
  have hactive : t.active = true := h.active.mpr (.inr (by simp [hpc, Pc.inTxn]))
  have hdbi : dbi = .mine ↔ (Pc.beginning m g).hasDbi := hpc ▸ h.dbi
  refine ⟨?_, Iff.rfl, hfair⟩
  cases g with
  | hold =>
    refine ⟨by simp [Thread.opened, hactive], ?_, ?_, fun _ => trivial, fun _ => .inl rfl⟩
    · simpa [Thread.opened, Pc.hasDbi] using hdbi
    · simpa [Thread.opened, Pc.writes] using hw
  | op | create | lookup =>
    refine Ok.of_held_none hheld (by simp [Thread.opened, hactive, Pc.inTxn]) ?_ ?_
    · simpa [Thread.opened, Pc.hasDbi] using hdbi
    · cases m <;> simpa [Thread.opened, Pc.writes] using hw

/-- The end of a transaction gives the writer lock back if it had it. -/
theorem unlockWriter_spec (hmine : writer = .mine ↔ m = .write) :
    unlockWriter writer m ≠ .mine ∧ (writer = .taken ↔ unlockWriter writer m = .taken) := by
  cases m with
  | read => exact ⟨by simpa [unlockWriter] using hmine, Iff.rfl⟩
  | write => simp [unlockWriter, hmine.mpr rfl]

/-- The call is over, and its slot is released. -/
theorem Ok.close (hheld : t.held = none) (hact : t.active = false)
    (hdbi : dbi = .mine ↔ (Pc.running m g).hasDbi) {w : View} (hw : w ≠ .mine)
    (hfair : writer = .taken ↔ w = .taken) : Keeps dbi writer (t.close dbi w o g) := by
  have hleave (hmine : dbi = .mine) : Keeps dbi writer (t.leave w o) :=
    Ok.leave (by simp [hact, hheld]) hmine (by simp [hw, hheld]) hfair
      fun hn => absurd hheld hn
  cases g with
  | hold | op =>
    refine ⟨Ok.of_held_none hheld ?_ ?_ ?_, Iff.rfl, hfair⟩
    · simp [Thread.close, hact, Pc.inTxn]
    · simpa [Thread.close, Pc.hasDbi] using hdbi
    · simpa [Thread.close, Pc.writes] using hw
  | create => exact hleave (by simpa [Pc.hasDbi] using hdbi)
  | lookup create =>
    have hmine : dbi = .mine := by simpa [Pc.hasDbi] using hdbi
    rw [Thread.close]
    split
    · refine ⟨Ok.of_held_none hheld ?_ ?_ ?_, Iff.rfl, hfair⟩
      · simp [hact, Pc.inTxn]
      · simpa [Pc.hasDbi] using hmine
      · simpa [Pc.writes] using hw
    · exact hleave hmine

/-- The transaction of the call is committed or aborted. -/
theorem Ok.ends (h : t.Ok dbi writer) (hpc : t.pc = .running m g) (o : Outcome) :
    Keeps dbi writer ({ t with active := false }.close dbi (unlockWriter writer m) o g) := by
  have hheld := h.held_of_pc (by simp [hpc, Pc.refusing])
  have hmine : writer = .mine ↔ m = .write := by
    have := h.writer
    cases m <;> simpa [hpc, hheld, Pc.writes] using this
  obtain ⟨hw, hfair⟩ := unlockWriter_spec hmine
  exact Ok.close (t := { t with active := false }) hheld rfl (by rw [h.dbi, hpc]) hw hfair

/-- `mdb_txn_begin` fails. -/
theorem Ok.beginFails (h : t.Ok dbi writer) (hpc : t.pc = .beginning m g) (o : Outcome) :
    Keeps dbi writer ({ t with active := false }.close dbi writer o g) := by
  have hheld := h.held_of_pc (by simp [hpc, Pc.refusing])
  have hw : writer ≠ .mine := by simpa [hpc, hheld, Pc.writes] using h.writer
  refine Ok.close (t := { t with active := false }) (m := m) hheld rfl ?_ hw Iff.rfl
  rw [h.dbi, hpc]
  cases g <;> rfl

/-- The closure returns, or the iterator is dropped. -/
theorem Ok.finish (h : t.Ok dbi writer) (hpc : t.pc = .caller) (hm : t.held = some m) :
    Keeps dbi writer ({ t with active := false, held := none }, dbi, unlockWriter writer m) := by
  have hmine : writer = .mine ↔ m = .write := by
    simpa [hpc, hm, Pc.writes] using h.writer
  obtain ⟨hw, hfair⟩ := unlockWriter_spec hmine
  refine ⟨Ok.of_held_none rfl (by simp [hpc, Pc.inTxn]) h.dbi ?_, Iff.rfl, hfair⟩
  simpa [hpc, Pc.writes] using hw

/-- **A careful step keeps the invariant of the thread**, and moves no lock of another. -/
theorem Ok.step {a : Action} {r : Thread × View × View} (h : t.Ok dbi writer)
    (hcareful : t.Careful dbi a) (hs : t.step dbi writer a = some r) : Keeps dbi writer r := by
  cases a with
  | call c =>
    rw [Thread.step] at hs
    split at hs
    · next hpc =>
      cases hs
      exact h.call hpc c hcareful
    · cases hs
  | acquire =>
    simp only [Thread.step] at hs
    split at hs
    · next create hpc =>
      cases hs
      exact h.acquire hpc
    · cases hs
  | enter =>
    rw [Thread.step] at hs
    split at hs
    · next create hpc =>
      -- `TxnGuard::begin` refuses a thread whose slot is taken
      have hr : r = if t.active then t.leave writer .edeadlk
          else (t.begin .read (.lookup create), dbi, writer) := by
        split at hs <;> cases hs <;> simp_all
      rw [hr]
      exact h.enter (by simp [hpc, Pc.hasDbi]) (by simp [hpc, Pc.inTxn]) (.inr ⟨create, rfl⟩)
    · next hpc =>
      have hr : r = if t.active then t.leave writer .edeadlk
          else (t.begin .write .create, dbi, writer) := by
        split at hs <;> cases hs <;> simp_all
      rw [hr]
      exact h.enter (by simp [hpc, Pc.hasDbi]) (by simp [hpc, Pc.inTxn]) (.inl rfl)
    · cases hs
  | begun =>
    rw [Thread.step] at hs
    split at hs
    · next g hpc =>
      cases hs
      -- a read-only transaction takes no lock
      have hheld := h.held_of_pc (by simp [hpc, Pc.refusing])
      have hw : writer ≠ .mine := by simpa [hpc, hheld, Pc.writes] using h.writer
      exact h.opened hpc (by simp [hw]) Iff.rfl
    · next g hpc =>
      split at hs
      · next hfree =>
        -- a write transaction starts when the writer lock is free
        cases hs
        exact h.opened hpc (by simp) (by simp [hfree])
      · cases hs
    · cases hs
  | beginFails =>
    rw [Thread.step] at hs
    split at hs
    · next m hpc =>
      cases hs
      exact h.beginFails hpc .failed
    · next m hpc =>
      cases hs
      exact h.beginFails hpc .failed
    · next m g hhold hop hpc =>
      cases hs
      cases g with
      | hold => exact absurd rfl hhold
      | op => exact absurd rfl hop
      | create => exact h.beginFails hpc .failed
      | lookup create => exact h.beginFails hpc .failed
    · cases hs
  | ends o =>
    rw [Thread.step] at hs
    split at hs
    · next m g hpc =>
      cases hs
      exact h.ends hpc o
    · cases hs
  | finish =>
    rw [Thread.step] at hs
    split at hs
    · next m hpc hm =>
      cases hs
      exact h.finish hpc hm
    · cases hs

end Step

end Thread

/-! ### Threads that share an environment -/

variable {ι : Type} [DecidableEq ι]

/-- The threads, and which of them has each lock. -/
structure State (ι : Type) where
  threads : ι → Thread
  dbi : Option ι
  writer : Option ι

/-- A lock as the thread `i` sees it. -/
def view (lock : Option ι) (i : ι) : View :=
  match lock with
  | none => .free
  | some j => if j = i then .mine else .taken

/-- A lock once the thread `i` has left it so. -/
def put (lock : Option ι) (i : ι) : View → Option ι
  | .free => none
  | .mine => some i
  | .taken => lock

/-- Any number of threads, in any interleaving, on one environment. -/
def system (ι : Type) [DecidableEq ι] : System (State ι) (ι × Action) where
  init := ⟨fun _ => ⟨.caller, false, none, none⟩, none, none⟩
  step s e :=
    match (s.threads e.1).step (view s.dbi e.1) (view s.writer e.1) e.2 with
    | some (t, dbi, writer) =>
      some ⟨Function.update s.threads e.1 t, put s.dbi e.1 dbi, put s.writer e.1 writer⟩
    | none => none

/-- The thread `i` waits for a lock that the thread `j` has. -/
def State.WaitsFor (s : State ι) (i j : ι) : Prop :=
  (∃ create, (s.threads i).pc = .waitDbi create ∧ s.dbi = some j) ∨
    ∃ g, (s.threads i).pc = .beginning .write g ∧ s.writer = some j

/-- What the documentation promises: while a thread keeps a transaction open, its calls wait
for neither lock, can return at once and return `EDEADLK`; and no threads wait for each
other. -/
structure State.Refuses (s : State ι) : Prop where
  unblocked : ∀ i, (s.threads i).held ≠ none → (∀ create, (s.threads i).pc ≠ .waitDbi create) ∧
    ∀ g, (s.threads i).pc ≠ .beginning .write g
  answered : ∀ i, (s.threads i).held ≠ none → (s.threads i).pc ≠ .caller →
    ∃ s', (system ι).step s (i, .enter) = some s' ∧ (s'.threads i).pc = .caller ∧
      (s'.threads i).result = some .edeadlk
  refused : ∀ i, (s.threads i).held ≠ none →
    (s.threads i).result = none ∨ (s.threads i).result = some .edeadlk
  acyclic : ∀ i, ¬ Relation.TransGen s.WaitsFor i i

/-- A thread inside a transaction opens a database only while the lock is free, and by a
name without a NUL. -/
def State.Careful (s : State ι) (e : ι × Action) : Prop :=
  ∀ name create, e.2 = .call (.openDbi name create) → (s.threads e.1).held ≠ none →
    s.dbi = none ∧ Thread.hasNul name = false

/-- Every thread keeps its invariant. -/
def State.Ok (s : State ι) : Prop :=
  ∀ i, (s.threads i).Ok (view s.dbi i) (view s.writer i)

section Locks

variable {lock : Option ι} {i j : ι} {v : View}

theorem view_eq_mine : view lock i = .mine ↔ lock = some i := by
  cases lock with
  | none => simp [view]
  | some j =>
    by_cases h : j = i
    · simp [view, h]
    · simp [view, h]

theorem view_eq_free : view lock i = .free ↔ lock = none := by
  cases lock with
  | none => simp [view]
  | some j =>
    by_cases h : j = i
    · simp [view, h]
    · simp [view, h]

/-- A thread sees the lock as it left it. -/
theorem view_put_self (h : view lock i = .taken ↔ v = .taken) : view (put lock i v) i = v := by
  cases v with
  | free => rfl
  | mine => simp [put, view]
  | taken => exact h.mpr rfl

/-- To another thread, what was its own or a third one's still is. -/
theorem view_put_other (hij : j ≠ i) (h : view lock i = .taken ↔ v = .taken) :
    (view (put lock i v) j = .mine ↔ view lock j = .mine) := by
  rw [view_eq_mine, view_eq_mine]
  cases v with
  | free =>
    have hnot : ¬ view lock i = .taken := fun ht => by cases h.mp ht
    constructor
    · intro hput
      cases hput
    · rintro rfl
      exact absurd (by simp [view, hij]) hnot
  | mine =>
    have hnot : ¬ view lock i = .taken := fun ht => by cases h.mp ht
    constructor
    · intro hput
      exact absurd (Option.some.inj hput).symm hij
    · rintro rfl
      exact absurd (by simp [view, hij]) hnot
  | taken => exact Iff.rfl

end Locks

/-- The invariant of a thread only asks which locks are its own. -/
theorem Thread.Ok.congr {t : Thread} {dbi dbi' writer writer' : View} (h : t.Ok dbi writer)
    (hdbi : dbi' = .mine ↔ dbi = .mine) (hwriter : writer' = .mine ↔ writer = .mine) :
    t.Ok dbi' writer' :=
  ⟨h.active, hdbi.trans h.dbi, hwriter.trans h.writer, h.refusing, h.refused⟩

theorem State.ok_init : ((system ι).init).Ok := by
  intro i
  refine Thread.Ok.of_held_none rfl ?_ ?_ ?_
  · simp [system, Pc.inTxn]
  · simp [system, view, Pc.hasDbi]
  · simp [system, view, Pc.writes]

/-- What one step of the system does. -/
theorem system_step {s s' : State ι} {e : ι × Action} (h : (system ι).step s e = some s') :
    ∃ t dbi writer, (s.threads e.1).step (view s.dbi e.1) (view s.writer e.1) e.2
        = some (t, dbi, writer) ∧
      s' = ⟨Function.update s.threads e.1 t, put s.dbi e.1 dbi, put s.writer e.1 writer⟩ := by
  simp only [system] at h
  split at h
  · next t dbi writer hstep => exact ⟨t, dbi, writer, hstep, (Option.some.inj h).symm⟩
  · cases h

/-- **A careful step keeps the invariant of every thread.** -/
theorem State.Ok.step {s s' : State ι} {e : ι × Action} (h : s.Ok) (hcareful : s.Careful e)
    (hs : (system ι).step s e = some s') : s'.Ok := by
  obtain ⟨i, a⟩ := e
  obtain ⟨t, dbi, writer, hstep, rfl⟩ := system_step hs
  have hthread : (s.threads i).Careful (view s.dbi i) a := by
    intro name create ha hheld
    obtain ⟨hfree, hnul⟩ := hcareful name create ha hheld
    exact ⟨view_eq_free.mpr hfree, hnul⟩
  obtain ⟨hok, hdbi, hwriter⟩ := (h i).step hthread hstep
  intro j
  by_cases hij : j = i
  · subst hij
    simp only [Function.update_self, view_put_self hdbi, view_put_self hwriter]
    exact hok
  · simp only [Function.update_of_ne hij]
    exact (h j).congr (view_put_other hij hdbi) (view_put_other hij hwriter)

/-! ### Refused, not blocked -/

section Refuses

variable {s s' : State ι} {i j : ι}

/-- How many locks a thread may be away from running: the lock for opening is waited for
without any lock, the writer lock perhaps with that one. -/
def Pc.rank : Pc → ℕ
  | .waitDbi _ => 2
  | .beginning .write _ => 1
  | _ => 0

/-- What a thread waits for is held by one that is nearer to running. -/
theorem State.Ok.rank_lt (h : s.Ok) (hw : s.WaitsFor i j) :
    (s.threads j).pc.rank < (s.threads i).pc.rank := by
  rcases hw with ⟨create, hpc, hdbi⟩ | ⟨g, hpc, hwriter⟩
  · have hj := (h j).dbi.mp (view_eq_mine.mpr hdbi)
    rw [hpc]
    cases hpcj : (s.threads j).pc with
    | waitDbi create => simp [hpcj, Pc.hasDbi] at hj
    | beginning m g => cases m <;> simp [Pc.rank]
    | _ => simp [Pc.rank]
  · have hj := (h j).writer.mp (view_eq_mine.mpr hwriter)
    have hrank : (s.threads j).pc.rank = 0 := by
      rcases hj with hheld | hwrites
      · have hrefusing := (h j).refusing (by simp [hheld])
        cases hpcj : (s.threads j).pc <;> simp_all [Pc.refusing, Pc.rank]
      · cases hpcj : (s.threads j).pc <;> simp_all [Pc.writes, Pc.rank]
    rw [hpc, hrank]
    exact Nat.one_pos

theorem State.Ok.acyclic (h : s.Ok) (i : ι) : ¬ Relation.TransGen s.WaitsFor i i := by
  have hlt : ∀ j, Relation.TransGen s.WaitsFor i j →
      (s.threads j).pc.rank < (s.threads i).pc.rank := by
    intro j hij
    induction hij with
    | single hw => exact h.rank_lt hw
    | tail _ hw ih => exact (h.rank_lt hw).trans ih
  exact fun hcycle => absurd (hlt i hcycle) (lt_irrefl _)

theorem State.Ok.refuses (h : s.Ok) : s.Refuses where
  unblocked i hheld := by
    have hpc := (h i).refusing hheld
    constructor
    · intro create heq
      rw [heq] at hpc
      exact hpc
    · intro g heq
      rw [heq] at hpc
      exact hpc
  answered i hheld hcaller := by
    have hrefusing := (h i).refusing hheld
    have hactive := (h i).active.mpr (.inl hheld)
    -- inside a call, the thread can only stand behind the lock of the handles
    cases hpc : (s.threads i).pc with
    | locked create =>
      have hstep : (s.threads i).step (view s.dbi i) (view s.writer i) .enter
          = some ((s.threads i).leave (view s.writer i) .edeadlk) := by
        simp only [Thread.step, hpc, hactive, if_true]
      simp only [system, hstep]
      refine ⟨_, rfl, ?_, ?_⟩ <;> simp [Thread.leave]
    | caller => exact absurd hpc hcaller
    | _ => simp [hpc, Pc.refusing] at hrefusing
  refused i := (h i).refused
  acyclic := h.acyclic

/-- A careless step breaks the promise at once. -/
theorem not_refuses_of_careless {e : ι × Action} (hcareful : ¬ s.Careful e)
    (hs : (system ι).step s e = some s') : ¬ s'.Refuses := by
  intro hr
  obtain ⟨i, a⟩ := e
  refine hcareful fun name create ha hheld => ?_
  obtain rfl : a = .call (.openDbi name create) := ha
  obtain ⟨t, dbi, writer, hstep, rfl⟩ := system_step hs
  rw [Thread.step] at hstep
  split at hstep
  · have hcall := Option.some.inj hstep
    by_cases hnul : Thread.hasNul name = true
    · -- `EINVAL` is returned instead
      simp only [Thread.call, hnul, if_true, Prod.mk.injEq] at hcall
      obtain ⟨rfl, -, -⟩ := hcall
      have hresult := hr.refused i (by simpa using hheld)
      simp at hresult
    · refine ⟨?_, by simpa using hnul⟩
      -- the lock is taken, so the thread waits for it inside its transaction
      by_contra htaken
      have hview : view s.dbi i ≠ .free := fun hf => htaken (view_eq_free.mp hf)
      have hwait : t.pc = .waitDbi create ∧ t.held = (s.threads i).held := by
        simp only [Thread.call, hnul, Bool.false_eq_true, if_false] at hcall
        obtain ⟨rfl, -⟩ := Prod.mk.inj hcall
        exact ⟨rfl, rfl⟩
      refine (hr.unblocked i ?_).1 create ?_
      · simpa [hwait.2] using hheld
      · simpa using hwait.1
  · cases hstep

end Refuses

/-- **Calls inside a transaction are refused, never blocked, exactly along the careful
runs.** -/
theorem refused_iff_careful (ι : Type) [DecidableEq ι] (es : List (ι × Action)) :
    (system ι).AllStates State.Refuses (system ι).init es ↔
      (system ι).AllSteps State.Careful (system ι).init es :=
  System.allStates_iff_allSteps (fun _ h => h.refuses) (fun _ _ _ h hg hs => h.step hg hs)
    (fun _ _ _ _ hb hs => not_refuses_of_careless hb hs) State.ok_init es

/-- One thread is inside `Env::write`; the other one creates a database, has found that it
does not exist and begins to write; then the first one opens a database. -/
def openInsideWrite : List (Bool × Action) :=
  [(true, .call .envWrite), (true, .begun),
    (false, .call (.create [0x61])), (false, .enter), (false, .begun), (false, .ends .notFound),
    (false, .enter), (true, .call (.open [0x61]))]

/-- The two threads then wait for each other. -/
theorem open_inside_write_deadlocks :
    ∃ s : State Bool, (system Bool).Reachable s ∧ s.WaitsFor true false ∧ s.WaitsFor false true ∧
      ¬ s.Refuses := by
  have hrun : ∃ s, (system Bool).run (system Bool).init openInsideWrite = some s ∧
      s.WaitsFor true false ∧ s.WaitsFor false true :=
    ⟨_, rfl, .inl ⟨false, rfl, rfl⟩, .inr ⟨.create, rfl, rfl⟩⟩
  obtain ⟨s, hs, hforth, hback⟩ := hrun
  refine ⟨s, System.Reachable.init.run hs, hforth, hback, fun hr => ?_⟩
  exact hr.acyclic true ((Relation.TransGen.single hforth).tail hback)

end Mdb
