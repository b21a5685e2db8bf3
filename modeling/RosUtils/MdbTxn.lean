/-
The transaction slots of one thread (`truenas_mdb/src/txn.rs`).

A thread may hold one transaction per environment.  The thread keeps the environments
it holds one on in a list, `ACTIVE`; a `TxnGuard` claims its environment's entry when it
begins and gives it back when it is dropped.  The list is a plain vector that removals
reorder, the guards live in the program, and the transactions live in the library: the
development shows that the three agree along every run (`Inv`), that a second
transaction is refused exactly when there is a first, and that each transaction is
finished exactly once.  `Env::read` and `Env::write` are then two programs over the
guards.
-/
import RosUtils.SwapRemove
import RosUtils.Transition

namespace Mdb.Txn

open Transition SwapRemove

/-! ### What the library answers -/

/-- `MdbCode`: the codes the library has of its own. -/
inductive MdbCode where
  | keyExist | notFound | pageNotFound | corrupted | panic | versionMismatch | invalid
  | mapFull | dbsFull | readersFull | tlsFull | txnFull | cursorFull | pageFull | mapResized
  | incompatible | badRslot | badTxn | badValsize | badDbi
  deriving DecidableEq, Repr

/-- The number of each code, in `ffi.rs`. -/
def MdbCode.table : List (ℤ × MdbCode) :=
  [(-30799, .keyExist), (-30798, .notFound), (-30797, .pageNotFound), (-30796, .corrupted),
   (-30795, .panic), (-30794, .versionMismatch), (-30793, .invalid), (-30792, .mapFull),
   (-30791, .dbsFull), (-30790, .readersFull), (-30789, .tlsFull), (-30788, .txnFull),
   (-30787, .cursorFull), (-30786, .pageFull), (-30785, .mapResized), (-30784, .incompatible),
   (-30783, .badRslot), (-30782, .badTxn), (-30781, .badValsize), (-30780, .badDbi)]

/-- `MdbCode::from_raw`. -/
def MdbCode.fromRaw (rc : ℤ) : Option MdbCode := MdbCode.table.lookup rc

/-- `Error`: a code of the library, or a system `errno`. -/
inductive Error where
  | mdb (code : MdbCode)
  | os (errno : ℤ)
  deriving DecidableEq, Repr

/-- `Error::from_raw`. -/
def Error.fromRaw (rc : ℤ) : Error :=
  match MdbCode.fromRaw rc with
  | some code => .mdb code
  | none => .os rc

/-- `check`: a return code as a result. -/
def check (rc : ℤ) : Except Error Unit := if rc = 0 then .ok () else .error (.fromRaw rc)

/-- `Error::Os(libc::EDEADLK)`. -/
def edeadlk : Error := .os 35

/-- `MDB_RDONLY`. -/
def mdbRdonly : ℕ := 0x20000

/-- What the library has been asked to do: how often it was asked to begin a transaction,
how many it began, the flags each was begun with, and how often each was committed and
aborted.  A handle is the number of the transaction. -/
structure Lib where
  calls : ℕ
  begun : ℕ
  flags : ℕ → ℕ
  commits : ℕ → ℕ
  aborts : ℕ → ℕ

namespace Lib

/-- `mdb_txn_begin`: with `MDB_SUCCESS` there is one more transaction, otherwise none. -/
def txnBegin (l : Lib) (flags : ℕ) (rc : ℤ) : ℕ × Lib :=
  (l.begun,
    if rc = 0 then
      { l with
        calls := l.calls + 1
        begun := l.begun + 1
        flags := Function.update l.flags l.begun flags }
    else { l with calls := l.calls + 1 })

/-- `mdb_txn_commit`, which frees the handle whatever it returns. -/
def txnCommit (l : Lib) (i : ℕ) : Lib :=
  { l with commits := Function.update l.commits i (l.commits i + 1) }

/-- `mdb_txn_abort`. -/
def txnAbort (l : Lib) (i : ℕ) : Lib :=
  { l with aborts := Function.update l.aborts i (l.aborts i + 1) }

/-- How often a transaction was finished. -/
def finished (l : Lib) (i : ℕ) : ℕ := l.commits i + l.aborts i

theorem finished_txnCommit (l : Lib) (i : ℕ) :
    (l.txnCommit i).finished = Function.update l.finished i (l.finished i + 1) := by
  funext j
  by_cases hj : j = i
  · subst hj
    simp only [finished, txnCommit, Function.update_self]
    omega
  · simp only [finished, txnCommit, Function.update_of_ne hj]

theorem finished_txnAbort (l : Lib) (i : ℕ) :
    (l.txnAbort i).finished = Function.update l.finished i (l.finished i + 1) := by
  funext j
  by_cases hj : j = i
  · subst hj
    simp only [finished, txnAbort, Function.update_self]
    omega
  · simp only [finished, txnAbort, Function.update_of_ne hj]

theorem finished_txnBegin (l : Lib) (flags : ℕ) (rc : ℤ) :
    (l.txnBegin flags rc).2.finished = l.finished := by
  rw [txnBegin]
  split <;> rfl

end Lib

/-! ### The slots and the guards -/

variable {Env : Type} [DecidableEq Env]

/-- `claim`: take the environment's slot, or fail if it is taken. -/
def claim (active : List Env) (env : Env) : Except Error (List Env) :=
  if env ∈ active then .error edeadlk else .ok (active ++ [env])

/-- `release`: give the environment's slot back. -/
def release (active : List Env) (env : Env) : List Env :=
  match rposition active env with
  | some i => swapRemove active i
  | none => active

/-- `TxnGuard`. -/
structure TxnGuard (Env : Type) where
  txn : ℕ
  env : Env
  committed : Bool
  deriving DecidableEq, Repr

/-- What a guard works on: the thread's `ACTIVE` list, and the library. -/
structure Thread (Env : Type) where
  active : List Env
  lib : Lib

namespace Thread

/-- `TxnGuard::begin`, where `rc` is what the library returns if it is called. -/
def begin (t : Thread Env) (env : Env) (readOnly : Bool) (rc : ℤ) :
    Except Error (TxnGuard Env) × Thread Env :=
  match claim t.active env with
  | .error e => (.error e, t)
  | .ok active =>
    let flags := if readOnly then mdbRdonly else 0
    let (txn, lib) := t.lib.txnBegin flags rc
    match check rc with
    -- no guard exists to drop, so the slot is handed back here
    | .error e => (.error e, { active := release active env, lib })
    | .ok () => (.ok { txn, env, committed := false }, { active, lib })

/-- `Drop for TxnGuard`. -/
def drop (t : Thread Env) (g : TxnGuard Env) : Thread Env :=
  { active := release t.active g.env
    lib := if g.committed then t.lib else t.lib.txnAbort g.txn }

/-- `TxnGuard::commit`, which ends in the drop of the guard it consumed. -/
def commit (t : Thread Env) (g : TxnGuard Env) (rc : ℤ) : Except Error Unit × Thread Env :=
  let g := { g with committed := true }
  let lib := t.lib.txnCommit g.txn
  (check rc, Thread.drop { t with lib } g)

end Thread

/-- A thread and the guards its program holds, each under the number of its transaction. -/
structure State (Env : Type) where
  thread : Thread Env
  guards : ℕ → Option (TxnGuard Env)

namespace State

/-- The program has a live guard of the environment. -/
def Live (s : State Env) (env : Env) : Prop := ∃ i g, s.guards i = some g ∧ g.env = env

/-- The program begins a transaction and keeps the guard. -/
def begin (s : State Env) (env : Env) (readOnly : Bool) (rc : ℤ) :
    Except Error (TxnGuard Env) × State Env :=
  match s.thread.begin env readOnly rc with
  | (.ok g, t) => (.ok g, { thread := t, guards := Function.update s.guards g.txn (some g) })
  | (.error e, t) => (.error e, { s with thread := t })

/-- The program drops a guard. -/
def drop (s : State Env) (g : TxnGuard Env) : State Env :=
  { thread := s.thread.drop g, guards := Function.update s.guards g.txn none }

/-- The program commits, and so consumes, a guard. -/
def commit (s : State Env) (g : TxnGuard Env) (rc : ℤ) : Except Error Unit × State Env :=
  match s.thread.commit g rc with
  | (r, t) => (r, { thread := t, guards := Function.update s.guards g.txn none })

end State

/-- What a program on the thread does with transactions, and what the library returns. -/
inductive Event (Env : Type) where
  | begin (env : Env) (readOnly : Bool) (rc : ℤ)
  | commit (i : ℕ) (rc : ℤ)
  | drop (i : ℕ)

/-- The event consumes the guard of transaction `i`. -/
def Event.Consumes (i : ℕ) : Event Env → Prop
  | .begin _ _ _ => False
  | .commit j _ => j = i
  | .drop j => j = i

/-- A transaction can be begun at any time, a guard consumed while it lives. -/
def State.step (s : State Env) : Event Env → Option (State Env)
  | .begin env readOnly rc => some (s.begin env readOnly rc).2
  | .commit i rc => (s.guards i).map fun g => (s.commit g rc).2
  | .drop i => (s.guards i).map s.drop

/-- The runs of one thread, from its start. -/
def system (Env : Type) [DecidableEq Env] : System (State Env) (Event Env) where
  init :=
    { thread :=
        { active := []
          lib :=
            { calls := 0, begun := 0, flags := fun _ => 0
              commits := fun _ => 0, aborts := fun _ => 0 } }
      guards := fun _ => none }
  step := State.step

/-! ### Claiming and releasing a slot -/

theorem check_of_ne {rc : ℤ} (h : rc ≠ 0) : check rc = .error (.fromRaw rc) := if_neg h

theorem claim_of_mem {active : List Env} {env : Env} (h : env ∈ active) :
    claim active env = .error edeadlk := if_pos h

theorem claim_of_not_mem {active : List Env} {env : Env} (h : env ∉ active) :
    claim active env = .ok (active ++ [env]) := if_neg h

/-- A slot that was just claimed is given back without a trace. -/
theorem release_claimed (active : List Env) (env : Env) :
    release (active ++ [env]) env = active := by
  rw [release, rposition_concat]
  exact swapRemove_length active env

theorem nodup_release {active : List Env} (h : active.Nodup) (env : Env) :
    (release active env).Nodup := by
  rw [release]
  split
  · next i hi => exact nodup_swapRemove h (getElem?_of_rposition hi)
  · exact h

theorem mem_release {active : List Env} (h : active.Nodup) {env e : Env} :
    e ∈ release active env ↔ e ∈ active ∧ e ≠ env := by
  rw [release]
  split
  · next i hi => exact mem_swapRemove h (getElem?_of_rposition hi)
  · next hnone =>
    have hnot : env ∉ active := rposition_eq_none.mp hnone
    exact ⟨fun he => ⟨he, fun heq => hnot (heq ▸ he)⟩, fun he => he.1⟩

/-! ### What one call does -/

namespace State

variable {s : State Env} {env : Env} {readOnly : Bool} {rc : ℤ}

/-- A claimed environment is refused, and nothing happens. -/
theorem begin_of_mem (h : env ∈ s.thread.active) :
    s.begin env readOnly rc = (.error edeadlk, s) := by
  rw [begin, Thread.begin, claim_of_mem h]

/-- Where the library fails, the thread is as it was but for the call. -/
theorem begin_of_fails (h : env ∉ s.thread.active) (hrc : rc ≠ 0) :
    s.begin env readOnly rc = (.error (.fromRaw rc),
      { s with
        thread :=
          { s.thread with
            lib := { s.thread.lib with calls := s.thread.lib.calls + 1 } } }) := by
  rw [begin, Thread.begin, claim_of_not_mem h]
  simp only [check_of_ne hrc, Lib.txnBegin, if_neg hrc, release_claimed]

/-- The guard of the next transaction. -/
def next (s : State Env) (env : Env) : TxnGuard Env :=
  { txn := s.thread.lib.begun, env, committed := false }

/-- Where it does not, there is one more transaction, its guard and its slot. -/
theorem begin_of_succeeds (h : env ∉ s.thread.active) :
    s.begin env readOnly 0 = (.ok (s.next env),
      { thread :=
          { active := s.thread.active ++ [env]
            lib := (s.thread.lib.txnBegin (if readOnly then mdbRdonly else 0) 0).2 }
        guards := Function.update s.guards s.thread.lib.begun (some (s.next env)) }) := by
  rw [begin, Thread.begin, claim_of_not_mem h]
  rfl

end State

/-! ### The invariant -/

/-- The list, the guards and the library agree. -/
structure Inv (s : State Env) : Prop where
  nodup : s.thread.active.Nodup
  mem_active : ∀ env, env ∈ s.thread.active ↔ s.Live env
  /-- a live guard is of the transaction it is kept under, which it has not finished -/
  guard : ∀ i g, s.guards i = some g → g.txn = i ∧ g.committed = false ∧ i < s.thread.lib.begun
  /-- no two live guards are of one environment -/
  unique : ∀ i j g h, s.guards i = some g → s.guards j = some h → g.env = h.env → i = j
  /-- a transaction is not finished before it is begun, nor while its guard lives -/
  fresh : ∀ i, s.thread.lib.begun ≤ i → s.thread.lib.finished i = 0
  pending : ∀ i g, s.guards i = some g → s.thread.lib.finished i = 0
  /-- once its guard is gone it was finished, once -/
  finished : ∀ i, i < s.thread.lib.begun → s.guards i = none → s.thread.lib.finished i = 1

theorem Inv.init : Inv (system Env).init where
  nodup := List.nodup_nil
  mem_active := by
    intro env
    constructor
    · intro h
      cases h
    · rintro ⟨i, g, hg, -⟩
      cases hg
  guard := by
    intro i g hg
    cases hg
  unique := by
    intro i j g h hg
    cases hg
  fresh := fun _ _ => rfl
  pending := fun _ _ _ => rfl
  finished := by
    intro i hi
    exact absurd hi (Nat.not_lt_zero i)

/-- The guards once one more is kept. -/
theorem guards_kept {Guard : Type} {guards : ℕ → Option Guard} {i j : ℕ} {g h : Guard} :
    Function.update guards i (some g) j = some h ↔ j = i ∧ g = h ∨ j ≠ i ∧ guards j = some h := by
  by_cases hj : j = i
  · subst hj
    simp
  · simp [hj]

/-- The guards once one is gone. -/
theorem guards_gone {Guard : Type} {guards : ℕ → Option Guard} {i j : ℕ} {h : Guard} :
    Function.update guards i none j = some h ↔ j ≠ i ∧ guards j = some h := by
  by_cases hj : j = i
  · subst hj
    simp
  · simp [hj]

namespace Inv

variable {s : State Env} (hs : Inv s)
include hs

omit [DecidableEq Env] in
/-- A call of the library that begins nothing changes nothing. -/
theorem calls (n : ℕ) :
    Inv { s with thread := { s.thread with lib := { s.thread.lib with calls := n } } } where
  nodup := hs.nodup
  mem_active := hs.mem_active
  guard := hs.guard
  unique := hs.unique
  fresh := hs.fresh
  pending := hs.pending
  finished := hs.finished

omit [DecidableEq Env] in
/-- A new transaction takes a slot that was free. -/
theorem begun {env : Env} (hfree : env ∉ s.thread.active) (flags : ℕ) :
    Inv { thread :=
            { active := s.thread.active ++ [env]
              lib := (s.thread.lib.txnBegin flags 0).2 }
          guards := Function.update s.guards s.thread.lib.begun (some (s.next env)) } where
  nodup := by
    rw [List.nodup_append_comm]
    exact List.nodup_cons.mpr ⟨hfree, hs.nodup⟩
  mem_active := by
    intro e
    rw [List.mem_append, List.mem_singleton, hs.mem_active]
    constructor
    · rintro (⟨i, g, hg, rfl⟩ | rfl)
      · -- the new guard has a number that no guard had before
        have hi : i ≠ s.thread.lib.begun := ne_of_lt (hs.guard i g hg).2.2
        exact ⟨i, g, guards_kept.mpr (.inr ⟨hi, hg⟩), rfl⟩
      · exact ⟨_, _, guards_kept.mpr (.inl ⟨rfl, rfl⟩), rfl⟩
    · rintro ⟨i, g, hg, rfl⟩
      obtain ⟨rfl, rfl⟩ | ⟨-, hold⟩ := guards_kept.mp hg
      · exact .inr rfl
      · exact .inl ⟨i, g, hold, rfl⟩
  guard := by
    intro i g hg
    obtain ⟨rfl, rfl⟩ | ⟨-, hold⟩ := guards_kept.mp hg
    · exact ⟨rfl, rfl, Nat.lt_succ_self _⟩
    · obtain ⟨htxn, hcommitted, hlt⟩ := hs.guard i g hold
      exact ⟨htxn, hcommitted, Nat.lt_succ_of_lt hlt⟩
  unique := by
    -- an old guard of the new guard's environment would hold the slot
    have hother : ∀ i g, s.guards i = some g → g.env ≠ env := by
      intro i g hg henv
      exact hfree ((hs.mem_active env).mpr ⟨i, g, hg, henv⟩)
    intro i j g h hg hh henv
    obtain ⟨rfl, rfl⟩ | ⟨-, hg⟩ := guards_kept.mp hg
    · obtain ⟨rfl, rfl⟩ | ⟨-, hh⟩ := guards_kept.mp hh
      · rfl
      · exact absurd henv.symm (hother j h hh)
    · obtain ⟨rfl, rfl⟩ | ⟨-, hh⟩ := guards_kept.mp hh
      · exact absurd henv (hother i g hg)
      · exact hs.unique i j g h hg hh henv
  fresh := by
    intro i hi
    rw [Lib.finished_txnBegin]
    exact hs.fresh i (Nat.le_of_succ_le hi)
  pending := by
    intro i g hg
    rw [Lib.finished_txnBegin]
    obtain ⟨rfl, rfl⟩ | ⟨-, hold⟩ := guards_kept.mp hg
    · exact hs.fresh _ le_rfl
    · exact hs.pending i g hold
  finished := by
    intro i hi hnone
    -- the new transaction has a guard, so it is not asked to be finished
    have hne : i ≠ s.thread.lib.begun := by
      rintro rfl
      cases hnone.symm.trans (Function.update_self _ _ _)
    have hlt : i < s.thread.lib.begun := lt_of_le_of_ne (Nat.le_of_lt_succ hi) hne
    rw [Lib.finished_txnBegin]
    exact hs.finished i hlt ((Function.update_of_ne hne _ _).symm.trans hnone)

/-- A guard that goes gives its slot back and leaves its transaction finished. -/
theorem consumed {i : ℕ} {g : TxnGuard Env} (hg : s.guards i = some g) {lib : Lib}
    (hbegun : lib.begun = s.thread.lib.begun)
    (hlib : lib.finished =
      Function.update s.thread.lib.finished i (s.thread.lib.finished i + 1)) :
    Inv { thread := { active := release s.thread.active g.env, lib }
          guards := Function.update s.guards i none } where
  nodup := nodup_release hs.nodup _
  mem_active := by
    intro e
    rw [mem_release hs.nodup, hs.mem_active]
    constructor
    · rintro ⟨⟨j, h, hh, rfl⟩, hne⟩
      -- a guard of another environment is another guard
      have hj : j ≠ i := by
        rintro rfl
        rw [hg] at hh
        cases hh
        exact hne rfl
      exact ⟨j, h, guards_gone.mpr ⟨hj, hh⟩, rfl⟩
    · rintro ⟨j, h, hh, rfl⟩
      obtain ⟨hj, hh⟩ := guards_gone.mp hh
      exact ⟨⟨j, h, hh, rfl⟩, fun henv => hj (hs.unique j i h g hh hg henv)⟩
  guard := by
    intro j h hh
    rw [hbegun]
    exact hs.guard j h (guards_gone.mp hh).2
  unique := by
    intro j k h h' hh hh' henv
    exact hs.unique j k h h' (guards_gone.mp hh).2 (guards_gone.mp hh').2 henv
  fresh := by
    intro j hj
    rw [hbegun] at hj
    have hne : j ≠ i := ne_of_gt (lt_of_lt_of_le (hs.guard i g hg).2.2 hj)
    rw [hlib, Function.update_of_ne hne]
    exact hs.fresh j hj
  pending := by
    intro j h hh
    obtain ⟨hne, hh⟩ := guards_gone.mp hh
    rw [hlib, Function.update_of_ne hne]
    exact hs.pending j h hh
  finished := by
    intro j hj hnone
    rw [hbegun] at hj
    rw [hlib]
    by_cases hji : j = i
    · -- until now it was pending, and so was finished no time
      subst hji
      rw [Function.update_self, hs.pending j g hg]
    · rw [Function.update_of_ne hji]
      exact hs.finished j hj ((Function.update_of_ne hji _ _).symm.trans hnone)

theorem begin_inv (env : Env) (readOnly : Bool) (rc : ℤ) : Inv (s.begin env readOnly rc).2 := by
  by_cases hmem : env ∈ s.thread.active
  · rw [State.begin_of_mem hmem]
    exact hs
  by_cases hrc : rc = 0
  · subst hrc
    rw [State.begin_of_succeeds hmem]
    exact hs.begun hmem _
  · rw [State.begin_of_fails hmem hrc]
    exact hs.calls _

theorem commit_inv {i : ℕ} {g : TxnGuard Env} (hg : s.guards i = some g) (rc : ℤ) :
    Inv (s.commit g rc).2 := by
  obtain ⟨rfl, -, -⟩ := hs.guard i g hg
  exact hs.consumed hg rfl (Lib.finished_txnCommit _ _)

/-- A live guard that is dropped aborts its transaction. -/
theorem drop_eq {i : ℕ} {g : TxnGuard Env} (hg : s.guards i = some g) :
    s.drop g =
      { thread :=
          { active := release s.thread.active g.env, lib := s.thread.lib.txnAbort i }
        guards := Function.update s.guards i none } := by
  obtain ⟨rfl, hcommitted, -⟩ := hs.guard i g hg
  rw [State.drop, Thread.drop, hcommitted]
  rfl

theorem drop_inv {i : ℕ} {g : TxnGuard Env} (hg : s.guards i = some g) : Inv (s.drop g) := by
  rw [hs.drop_eq hg]
  exact hs.consumed hg rfl (Lib.finished_txnAbort _ _)

/-- **Every step keeps the invariant.** -/
theorem step {e : Event Env} {s' : State Env} (h : s.step e = some s') : Inv s' := by
  cases e with
  | begin env readOnly rc =>
    cases h
    exact hs.begin_inv env readOnly rc
  | commit i rc =>
    obtain ⟨g, hg, rfl⟩ := Option.map_eq_some_iff.mp h
    exact hs.commit_inv hg rc
  | drop i =>
    obtain ⟨g, hg, rfl⟩ := Option.map_eq_some_iff.mp h
    exact hs.drop_inv hg

end Inv

theorem inv_of_reachable {s : State Env} (h : (system Env).Reachable s) : Inv s :=
  System.Reachable.invariant Inv.init (fun _ _ _ hs he => hs.step he) h

/-! ### What holds along every run -/

/-- The slot refuses a transaction: the library is not asked. -/
def State.Refused (s : State Env) (env : Env) (readOnly : Bool) (rc : ℤ) : Prop :=
  (s.begin env readOnly rc).1 = .error edeadlk ∧
    (s.begin env readOnly rc).2.thread.lib.calls = s.thread.lib.calls

/-- A claimed slot refuses a transaction, and no other does. -/
theorem State.refused_iff (s : State Env) (env : Env) (readOnly : Bool) (rc : ℤ) :
    s.Refused env readOnly rc ↔ env ∈ s.thread.active := by
  by_cases hmem : env ∈ s.thread.active
  · refine iff_of_true ?_ hmem
    rw [State.Refused, State.begin_of_mem hmem]
    exact ⟨rfl, rfl⟩
  · -- the library is called, so its count goes up
    refine iff_of_false ?_ hmem
    rintro ⟨-, hcalls⟩
    by_cases hrc : rc = 0
    · subst hrc
      rw [State.begin_of_succeeds hmem] at hcalls
      exact absurd hcalls (Nat.succ_ne_self _)
    · rw [State.begin_of_fails hmem hrc] at hcalls
      exact absurd hcalls (Nat.succ_ne_self _)

/-- Where it does not, the answer is the library's. -/
theorem State.answer_of_not_mem {s : State Env} {env : Env} (hmem : env ∉ s.thread.active)
    (readOnly : Bool) (rc : ℤ) :
    (s.begin env readOnly rc).1 = (check rc).map fun _ => s.next env := by
  by_cases hrc : rc = 0
  · subst hrc
    rw [State.begin_of_succeeds hmem]
    rfl
  · rw [State.begin_of_fails hmem hrc, check_of_ne hrc]
    rfl

/-- The slots say which environments have a live guard, a transaction is refused exactly
where there is one, and every transaction without a guard is finished exactly once. -/
structure SlotsExact (s : State Env) : Prop where
  nodup : s.thread.active.Nodup
  mem_active : ∀ env, env ∈ s.thread.active ↔ s.Live env
  refused : ∀ env readOnly rc, s.Refused env readOnly rc ↔ s.Live env
  answered : ∀ env readOnly rc, ¬ s.Live env →
    (s.begin env readOnly rc).1 = (check rc).map fun _ => s.next env
  pending : ∀ i g, s.guards i = some g →
    s.thread.lib.commits i = 0 ∧ s.thread.lib.aborts i = 0
  finished : ∀ i, i < s.thread.lib.begun → s.guards i = none →
    s.thread.lib.commits i = 1 ∧ s.thread.lib.aborts i = 0 ∨
      s.thread.lib.commits i = 0 ∧ s.thread.lib.aborts i = 1

namespace Inv

variable {s : State Env} (hs : Inv s)
include hs

omit [DecidableEq Env] in
theorem unfinished {i : ℕ} {g : TxnGuard Env} (hg : s.guards i = some g) :
    s.thread.lib.commits i = 0 ∧ s.thread.lib.aborts i = 0 :=
  Nat.add_eq_zero_iff.mp (hs.pending i g hg)

theorem slotsExact : SlotsExact s where
  nodup := hs.nodup
  mem_active := hs.mem_active
  refused := by
    intro env readOnly rc
    rw [s.refused_iff, hs.mem_active]
  answered := by
    intro env readOnly rc hlive
    rw [← hs.mem_active] at hlive
    exact State.answer_of_not_mem hlive readOnly rc
  pending := fun _ _ => hs.unfinished
  finished := by
    intro i hlt hnone
    have hone : s.thread.lib.commits i + s.thread.lib.aborts i = 1 := hs.finished i hlt hnone
    omega

end Inv

/-! ### `Env::read` and `Env::write` -/

/-- How a closure ends. -/
inductive Outcome (R : Type) where
  | ok (value : R)
  | err (e : Error)
  | panicked

/-- The closure returned `Ok`. -/
def Outcome.Returned {R : Type} (o : Outcome R) : Prop := ∃ value, o = .ok value

/-- A closure given a transaction: it may begin and finish others, on any environment, but
not finish the one it only borrows. -/
structure Closure (Env R : Type) [DecidableEq Env] where
  run : TxnGuard Env → State Env → Outcome R × State Env
  within : ∀ g s, ∃ es, (∀ e ∈ es, ¬ e.Consumes g.txn) ∧
    (system Env).run s es = some (run g s).2

variable {R : Type}

/-- `Env::read`: the transaction is dropped however the closure ends. -/
def State.read (s : State Env) (env : Env) (rc : ℤ) (f : Closure Env R) : Outcome R × State Env :=
  match s.begin env true rc with
  | (.error e, s) => (.err e, s)
  | (.ok g, s) =>
    match f.run g s with
    | (r, s) => (r, s.drop g)

/-- `Env::write`, where `rc` and `done` are what the library returns from the begin and
from the commit. -/
def State.write (s : State Env) (env : Env) (rc : ℤ) (f : Closure Env R) (done : ℤ) :
    Outcome R × State Env :=
  match s.begin env false rc with
  | (.error e, s) => (.err e, s)
  | (.ok g, s) =>
    match f.run g s with
    | (.ok value, s) =>
      match s.commit g done with
      | (.ok (), s) => (.ok value, s)
      | (.error e, s) => (.err e, s)
    | (.err e, s) => (.err e, s.drop g)
    | (.panicked, s) => (.panicked, s.drop g)

/-- A guard that no event consumes is live at the end. -/
theorem guard_kept {i : ℕ} {g : TxnGuard Env} {es : List (Event Env)}
    (hes : ∀ e ∈ es, ¬ e.Consumes i) {s s' : State Env} (hs : Inv s) (hg : s.guards i = some g)
    (h : (system Env).run s es = some s') : Inv s' ∧ s'.guards i = some g := by
  refine System.run_invariant (fun s => Inv s ∧ s.guards i = some g) ?_ ⟨hs, hg⟩ h
  rintro s e s' he ⟨hs, hg⟩ hstep
  refine ⟨hs.step hstep, ?_⟩
  -- a begin adds a guard at most, and the others take one that is not this one
  cases e with
  | begin env readOnly rc =>
    cases hstep
    by_cases hmem : env ∈ s.thread.active
    · rw [State.begin_of_mem hmem]
      exact hg
    by_cases hrc : rc = 0
    · subst hrc
      rw [State.begin_of_succeeds hmem]
      exact guards_kept.mpr (.inr ⟨ne_of_lt (hs.guard i g hg).2.2, hg⟩)
    · rw [State.begin_of_fails hmem hrc]
      exact hg
  | commit j rc =>
    obtain ⟨h, hh, rfl⟩ := Option.map_eq_some_iff.mp hstep
    obtain ⟨rfl, -, -⟩ := hs.guard j h hh
    exact guards_gone.mpr ⟨fun hij => hes _ he hij.symm, hg⟩
  | drop j =>
    obtain ⟨h, hh, rfl⟩ := Option.map_eq_some_iff.mp hstep
    obtain ⟨rfl, -, -⟩ := hs.guard j h hh
    exact guards_gone.mpr ⟨fun hij => hes _ he hij.symm, hg⟩

section Closures

variable {s s₁ : State Env} {env : Env} {readOnly : Bool} {rc : ℤ} {g : TxnGuard Env}

/-- The guard a begin gave is the one the program keeps. -/
theorem guard_of_begin (hs : Inv s) (h : s.begin env readOnly rc = (.ok g, s₁)) :
    Inv s₁ ∧ s₁.guards g.txn = some g ∧
      s₁.thread.lib.flags g.txn = if readOnly then mdbRdonly else 0 := by
  have hinv := hs.begin_inv env readOnly rc
  rw [h] at hinv
  refine ⟨hinv, ?_⟩
  by_cases hmem : env ∈ s.thread.active
  · rw [State.begin_of_mem hmem] at h
    cases h
  by_cases hrc : rc = 0
  · subst hrc
    rw [State.begin_of_succeeds hmem] at h
    cases h
    exact ⟨Function.update_self _ _ _, Function.update_self _ _ _⟩
  · rw [State.begin_of_fails hmem hrc] at h
    cases h

/-- A closure leaves the guard it borrowed as it was. -/
theorem guard_of_closure (f : Closure Env R) (hs : Inv s) (hg : s.guards g.txn = some g) :
    Inv (f.run g s).2 ∧ (f.run g s).2.guards g.txn = some g := by
  obtain ⟨es, hes, hrun⟩ := f.within g s
  exact guard_kept hes hs hg hrun

/-- After a commit the transaction was committed once, and not aborted. -/
theorem commit_exact (hs : Inv s) (hg : s.guards g.txn = some g) (done : ℤ) :
    (s.commit g done).2.guards g.txn = none ∧ (s.commit g done).2.thread.lib.commits g.txn = 1 ∧
      (s.commit g done).2.thread.lib.aborts g.txn = 0 := by
  obtain ⟨hcommits, haborts⟩ := hs.unfinished hg
  refine ⟨Function.update_self _ _ _, ?_, haborts⟩
  exact (Function.update_self _ _ _).trans (by rw [hcommits])

/-- After a drop it was aborted once, and not committed. -/
theorem drop_exact (hs : Inv s) (hg : s.guards g.txn = some g) :
    (s.drop g).guards g.txn = none ∧ (s.drop g).thread.lib.commits g.txn = 0 ∧
      (s.drop g).thread.lib.aborts g.txn = 1 := by
  obtain ⟨hcommits, haborts⟩ := hs.unfinished hg
  rw [hs.drop_eq hg]
  refine ⟨Function.update_self _ _ _, hcommits, ?_⟩
  exact (Function.update_self _ _ _).trans (by rw [haborts])

theorem reachable_step {e : Event Env} (hs : (system Env).Reachable s) (h : s.step e = some s₁) :
    (system Env).Reachable s₁ :=
  System.Reachable.step (e := e) hs h

theorem reachable_commit (hs : (system Env).Reachable s) (hg : s.guards g.txn = some g) (done : ℤ) :
    (system Env).Reachable (s.commit g done).2 := by
  refine reachable_step (e := .commit g.txn done) hs ?_
  rw [State.step, hg]
  rfl

theorem reachable_drop (hs : (system Env).Reachable s) (hg : s.guards g.txn = some g) :
    (system Env).Reachable (s.drop g) := by
  refine reachable_step (e := .drop g.txn) hs ?_
  rw [State.step, hg]
  rfl

theorem reachable_begin {r : Except Error (TxnGuard Env)} (hs : (system Env).Reachable s)
    (h : s.begin env readOnly rc = (r, s₁)) : (system Env).Reachable s₁ := by
  refine reachable_step (e := .begin env readOnly rc) hs ?_
  rw [State.step, h]

/-- The closure of a transaction that was begun leaves a state of the run, and the guard. -/
theorem reachable_closure (f : Closure Env R) (hs : (system Env).Reachable s)
    (h : s.begin env readOnly rc = (.ok g, s₁)) :
    (system Env).Reachable (f.run g s₁).2 ∧ (f.run g s₁).2.guards g.txn = some g := by
  obtain ⟨hs₁, hg, -⟩ := guard_of_begin (inv_of_reachable hs) h
  obtain ⟨es, -, hrun⟩ := f.within g s₁
  exact ⟨(reachable_begin hs h).run hrun, (guard_of_closure f hs₁ hg).2⟩

end Closures

/-- What `Env::write` does: it commits its transaction exactly when the closure returned
`Ok`, aborts it exactly when it did not, and makes no closure call without one. -/
structure WriteExact (s : State Env) (env : Env) (rc : ℤ) (f : Closure Env R) (done : ℤ) :
    Prop where
  /-- the state it leaves is one of a run of the thread -/
  reachable : (system Env).Reachable (s.write env rc f done).2
  refused : ∀ e s₁, s.begin env false rc = (.error e, s₁) →
    s.write env rc f done = (.err e, s₁)
  gone : ∀ g s₁, s.begin env false rc = (.ok g, s₁) →
    (s.write env rc f done).2.guards g.txn = none
  commits : ∀ g s₁, s.begin env false rc = (.ok g, s₁) →
    ((s.write env rc f done).2.thread.lib.commits g.txn = 1 ↔ (f.run g s₁).1.Returned)
  aborts : ∀ g s₁, s.begin env false rc = (.ok g, s₁) →
    ((s.write env rc f done).2.thread.lib.aborts g.txn = 1 ↔ ¬ (f.run g s₁).1.Returned)
  returns : ∀ g s₁, s.begin env false rc = (.ok g, s₁) → ∀ value,
    ((s.write env rc f done).1 = .ok value ↔ (f.run g s₁).1 = .ok value ∧ done = 0)

section Write

variable {s s₁ s₂ : State Env} {env : Env} {rc : ℤ} {f : Closure Env R} {done : ℤ}
  {g : TxnGuard Env}

theorem write_of_refused {e : Error} (h : s.begin env false rc = (.error e, s₁)) :
    s.write env rc f done = (.err e, s₁) := by
  rw [State.write, h]

theorem write_of_ok {value : R} (h : s.begin env false rc = (.ok g, s₁))
    (hf : f.run g s₁ = (.ok value, s₂)) :
    s.write env rc f done =
      (if done = 0 then .ok value else .err (.fromRaw done), (s₂.commit g done).2) := by
  rw [State.write, h]
  simp only [hf]
  by_cases hdone : done = 0
  · subst hdone
    rfl
  · have hcommit : s₂.commit g done = (.error (.fromRaw done), (s₂.commit g done).2) :=
      Prod.ext (check_of_ne hdone) rfl
    rw [if_neg hdone, hcommit]

/-- However else the closure ends, its transaction is dropped. -/
theorem write_of_not_ok {o : Outcome R} (h : s.begin env false rc = (.ok g, s₁))
    (hf : f.run g s₁ = (o, s₂)) (ho : ¬ o.Returned) :
    s.write env rc f done = (o, s₂.drop g) := by
  rw [State.write, h]
  simp only [hf]
  cases o with
  | ok value => exact absurd ⟨value, rfl⟩ ho
  | err e => rfl
  | panicked => rfl

end Write

/-- A transaction that was begun is committed if the closure returned, aborted if not. -/
theorem write_begun {s s₁ : State Env} {env : Env} {rc : ℤ} {g : TxnGuard Env}
    (hs : (system Env).Reachable s) (hb : s.begin env false rc = (.ok g, s₁)) (f : Closure Env R)
    (done : ℤ) :
    (system Env).Reachable (s.write env rc f done).2 ∧
      (s.write env rc f done).2.guards g.txn = none ∧
      ((s.write env rc f done).2.thread.lib.commits g.txn = 1 ↔ (f.run g s₁).1.Returned) ∧
      ((s.write env rc f done).2.thread.lib.aborts g.txn = 1 ↔ ¬ (f.run g s₁).1.Returned) ∧
      ∀ value, ((s.write env rc f done).1 = .ok value ↔
        (f.run g s₁).1 = .ok value ∧ done = 0) := by
  obtain ⟨hreach, hg⟩ := reachable_closure f hs hb
  have hinv := inv_of_reachable hreach
  by_cases hret : (f.run g s₁).1.Returned
  · -- a value: the guard is committed, and the commit decides what is returned
    have hret' := hret
    obtain ⟨v, hv⟩ := hret'
    obtain ⟨hgone, hcommits, haborts⟩ := commit_exact hinv hg done
    rw [write_of_ok hb (Prod.ext hv rfl)]
    refine ⟨reachable_commit hreach hg done, hgone, iff_of_true hcommits hret, ?_, ?_⟩
    · rw [haborts]
      exact iff_of_false zero_ne_one (not_not.mpr hret)
    · intro value
      rw [hv]
      by_cases hdone : done = 0
      · rw [if_pos hdone]
        exact (and_iff_left hdone).symm
      · rw [if_neg hdone]
        refine iff_of_false (fun h => ?_) (fun h => hdone h.2)
        cases h
  · -- an error or a panic: the guard is dropped on the way out
    obtain ⟨hgone, hcommits, haborts⟩ := drop_exact hinv hg
    rw [write_of_not_ok hb (Prod.ext rfl rfl) hret]
    refine ⟨reachable_drop hreach hg, hgone, ?_, iff_of_true haborts hret, ?_⟩
    · rw [hcommits]
      exact iff_of_false zero_ne_one hret
    · intro value
      exact iff_of_false (fun h => hret ⟨value, h⟩) (fun h => hret ⟨value, h.1⟩)

theorem write_exact {s : State Env} (hs : (system Env).Reachable s) (env : Env) (rc : ℤ)
    (f : Closure Env R) (done : ℤ) : WriteExact s env rc f done where
  reachable := by
    cases hb : s.begin env false rc with
    | mk r s₁ =>
    cases r with
    | error e =>
      rw [write_of_refused hb]
      exact reachable_begin hs hb
    | ok g => exact (write_begun hs hb f done).1
  refused := fun _ _ hb => write_of_refused hb
  gone := fun _ _ hb => (write_begun hs hb f done).2.1
  commits := fun _ _ hb => (write_begun hs hb f done).2.2.1
  aborts := fun _ _ hb => (write_begun hs hb f done).2.2.2.1
  returns := fun _ _ hb => (write_begun hs hb f done).2.2.2.2

/-- `Env::read` aborts its transaction, which it began read-only, however the closure ends. -/
theorem read_begun {s s₁ : State Env} {env : Env} {rc : ℤ} {g : TxnGuard Env}
    (hs : (system Env).Reachable s) (hb : s.begin env true rc = (.ok g, s₁)) (f : Closure Env R) :
    (system Env).Reachable (s.read env rc f).2 ∧ s₁.thread.lib.flags g.txn = mdbRdonly ∧
      (s.read env rc f).2.guards g.txn = none ∧
      (s.read env rc f).2.thread.lib.commits g.txn = 0 ∧
      (s.read env rc f).2.thread.lib.aborts g.txn = 1 ∧
      (s.read env rc f).1 = (f.run g s₁).1 := by
  obtain ⟨hreach, hg⟩ := reachable_closure f hs hb
  have hflags := (guard_of_begin (inv_of_reachable hs) hb).2.2
  obtain ⟨hgone, hcommits, haborts⟩ := drop_exact (inv_of_reachable hreach) hg
  have hread : s.read env rc f = ((f.run g s₁).1, (f.run g s₁).2.drop g) := by
    rw [State.read, hb]
  rw [hread]
  exact ⟨reachable_drop hreach hg, hflags, hgone, hcommits, haborts, rfl⟩

/-- What `Env::read` does: it aborts its transaction, which it began read-only, however the
closure ends, and returns what the closure did. -/
structure ReadExact (s : State Env) (env : Env) (rc : ℤ) (f : Closure Env R) : Prop where
  /-- the state it leaves is one of a run of the thread -/
  reachable : (system Env).Reachable (s.read env rc f).2
  refused : ∀ e s₁, s.begin env true rc = (.error e, s₁) → s.read env rc f = (.err e, s₁)
  readOnly : ∀ g s₁, s.begin env true rc = (.ok g, s₁) → s₁.thread.lib.flags g.txn = mdbRdonly
  gone : ∀ g s₁, s.begin env true rc = (.ok g, s₁) → (s.read env rc f).2.guards g.txn = none
  aborts : ∀ g s₁, s.begin env true rc = (.ok g, s₁) →
    (s.read env rc f).2.thread.lib.commits g.txn = 0 ∧
      (s.read env rc f).2.thread.lib.aborts g.txn = 1
  returns : ∀ g s₁, s.begin env true rc = (.ok g, s₁) →
    (s.read env rc f).1 = (f.run g s₁).1

theorem read_of_refused {s s₁ : State Env} {env : Env} {rc : ℤ} {e : Error}
    (h : s.begin env true rc = (.error e, s₁)) (f : Closure Env R) :
    s.read env rc f = (.err e, s₁) := by
  rw [State.read, h]

theorem read_exact {s : State Env} (hs : (system Env).Reachable s) (env : Env) (rc : ℤ)
    (f : Closure Env R) : ReadExact s env rc f where
  reachable := by
    cases hb : s.begin env true rc with
    | mk r s₁ =>
    cases r with
    | error e =>
      rw [read_of_refused hb]
      exact reachable_begin hs hb
    | ok g => exact (read_begun hs hb f).1
  refused := fun _ _ hb => read_of_refused hb f
  readOnly := fun _ _ hb => (read_begun hs hb f).2.1
  gone := fun _ _ hb => (read_begun hs hb f).2.2.1
  aborts := fun _ _ hb => ⟨(read_begun hs hb f).2.2.2.1, (read_begun hs hb f).2.2.2.2.1⟩
  returns := fun _ _ hb => (read_begun hs hb f).2.2.2.2.2

/-- **Along every run of begins, commits and drops the slots are exact, `Env::write` commits
exactly when its closure returned `Ok`, and `Env::read` never does.** -/
theorem transactions_exact {s : State Env} (hs : (system Env).Reachable s) :
    SlotsExact s ∧
      (∀ (R : Type) (env : Env) (rc : ℤ) (f : Closure Env R) (done : ℤ),
        WriteExact s env rc f done) ∧
      ∀ (R : Type) (env : Env) (rc : ℤ) (f : Closure Env R), ReadExact s env rc f :=
  ⟨(inv_of_reachable hs).slotsExact, fun _ => write_exact hs, fun _ => read_exact hs⟩

/-- Two environments; a second transaction on the first and a third that the library
fails; the first is committed although the library reports an error. -/
def twoEnvs : List (Event ℕ) :=
  [.begin 7 false 0, .begin 8 true 0, .begin 7 true 0, .begin 9 false 12, .commit 0 28]

/-- A closure that begins a transaction on another environment, and keeps it. -/
def beginsNine : Closure ℕ ℕ where
  run _ s := (.ok 5, (s.begin 9 true 0).2)
  within _ _ := ⟨[.begin 9 true 0], List.forall_mem_singleton.mpr id, rfl⟩

/-- A write and a read on the first environment, which is free again. -/
theorem transactions_exact_twoEnvs :
    ∃ s, (system ℕ).run (system ℕ).init twoEnvs = some s ∧ s.thread.active = [8] ∧
      s.thread.lib.begun = 2 ∧ SlotsExact s ∧
      (s.write 7 0 beginsNine 0).2.thread.lib.commits 2 = 1 ∧
      (s.write 7 0 beginsNine 0).1 = .ok 5 ∧
      (s.read 7 0 beginsNine).2.thread.lib.aborts 2 = 1 := by
  have hrun : (system ℕ).run (system ℕ).init twoEnvs = some _ := rfl
  obtain ⟨hslots, hwrite, hread⟩ := transactions_exact (System.Reachable.init.run hrun)
  have hwrite := hwrite ℕ 7 0 beginsNine 0
  refine ⟨_, rfl, rfl, rfl, hslots, (hwrite.commits _ _ rfl).mpr ⟨5, rfl⟩,
    (hwrite.returns _ _ rfl 5).mpr ⟨rfl, rfl⟩, ?_⟩
  exact ((hread ℕ 7 0 beginsNine).aborts _ _ rfl).2

end Mdb.Txn
