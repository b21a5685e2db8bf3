/-
Enumeration slots of the NSS modules.

`setpwent`, `getpwent_r` and `endpwent` share a cursor, so an enumeration claims the cursor
first: `EnumSlot::acquire`.  The claim is noted in a table of the thread (`LIVE`), and where
the module has one cursor for the whole process the lock of the service (`iter_lock`) is
taken as well.  Dropping the slot takes the claim out of the table and then gives the lock
back.

* `Local` — what a thread has: its table, its slots, and where it is;
* `State` — the threads, and who has the lock of each service;
* `Local.Ok` and `State.Inv` — what ties the table and the locks to the live slots;
* `enum_slots` — slots exclude each other, `Busy` is returned for the thread's own live slots
  only, and a drop takes back exactly what its acquisition noted.
-/
import RosUtils.Transition

open Transition

namespace Nss

/-! ### Services -/

/-- What the cursor of a module belongs to. -/
inductive EntScope where
  | process
  | thread
  deriving DecidableEq

/-- Which database an enumeration walks. -/
inductive Database where
  | passwd
  | group
  deriving DecidableEq

section Slots

variable {Service : Type} [DecidableEq Service]

/-- An entry of the table of live enumerations. -/
abbrev Claim (Service : Type) := Service × Database

/-- `Error::Busy`, and the success of `acquire`. -/
inductive Outcome (Service : Type) where
  | busy (module : Service)
  | acquired
  deriving DecidableEq

variable (scope : Service → EntScope)

/-- The claim `new` would share a cursor with `old`. -/
def conflict (new old : Claim Service) : Bool :=
  old.1 == new.1 && (scope new.1 == .process || old.2 == new.2)

/-- A claim on a service's enumeration cursor.  The guard is there for a process-scoped
service. -/
structure EnumSlot where
  svc : Service
  db : Database
  guard : Bool
  guarded : guard = true ↔ scope svc = .process

/-- Where a thread is. -/
inductive Pc where
  | idle
  /-- In `acquire`, waiting for the lock of the service. -/
  | locking (svc : Service) (db : Database) (process : scope svc = .process)
  /-- In `set*ent`, with the slot. -/
  | starting (slot : EnumSlot scope)
  /-- In the drop of the slot, the claim gone and the guard still there. -/
  | releasing (slot : EnumSlot scope)

/-- What a thread has to itself. -/
structure Local where
  /-- The table `LIVE`; there is none once the thread has torn it down. -/
  live : Option (List (Claim Service))
  slots : List (EnumSlot scope)
  pc : Pc scope
  /-- What the last `acquire` returned. -/
  outcome : Option (Outcome Service)

/-- What a thread can do. -/
inductive Call (Service : Type) where
  /-- `EnumSlot::acquire` is called. -/
  | acquire (svc : Service) (db : Database)
  /-- `iter_lock.lock()` returns. -/
  | lock
  /-- `set*ent` returns. -/
  | setent (ok : Bool)
  /-- One of the slots is dropped. -/
  | drop (n : ℕ)
  /-- The guard of a slot is dropped. -/
  | release
  /-- The thread-local table is destroyed. -/
  | teardown

variable {scope}

def EnumSlot.claim (slot : EnumSlot scope) : Claim Service := (slot.svc, slot.db)

namespace Local

/-- `EnumSlot::acquire` up to the lock.  On a thread without a table `LIVE.with` panics. -/
def acquire (l : Local scope) (svc : Service) (db : Database) : Option (Local scope) :=
  match l.live with
  | none => none
  | some live =>
    if live.any (conflict scope (svc, db)) then
      some { l with outcome := some (.busy svc) }
    else
      let l := { l with live := some (live ++ [(svc, db)]) }
      match h : scope svc with
      | .process => some { l with pc := .locking svc db h, outcome := none }
      | .thread =>
        some { l with pc := .starting ⟨svc, db, false, by simp [h]⟩, outcome := some .acquired }

/-- The rest of `EnumSlot::acquire`, the lock taken. -/
def locked (l : Local scope) (svc : Service) (db : Database) (h : scope svc = .process) :
    Local scope :=
  { l with pc := .starting ⟨svc, db, true, by simp [h]⟩, outcome := some .acquired }

/-- `EnumSlot::drop`: the claim is taken out of the table, if there still is one. -/
def dropSlot (l : Local scope) (slot : EnumSlot scope) : Local scope :=
  { l with
    live := l.live.map (·.filter fun c => !(c.1 == slot.svc && c.2 == slot.db))
    pc := .releasing slot }

/-- What a thread does to its own data. -/
def step (l : Local scope) : Call Service → Option (Local scope)
  | .acquire svc db =>
    match l.pc with
    | .idle => l.acquire svc db
    | _ => none
  | .lock =>
    match l.pc with
    | .locking svc db h => some (l.locked svc db h)
    | _ => none
  | .setent ok =>
    match l.pc with
    | .starting slot =>
      -- on failure the slot drops and the claim is released
      if ok then some { l with slots := l.slots ++ [slot], pc := .idle }
      else some (l.dropSlot slot)
    | _ => none
  | .drop n =>
    match l.pc, l.slots[n]? with
    | .idle, some slot => some ({ l with slots := l.slots.eraseIdx n }.dropSlot slot)
    | _, _ => none
  | .release =>
    match l.pc with
    | .releasing _ => some { l with pc := .idle }
    | _ => none
  | .teardown => some { l with live := none }

end Local

variable (scope) in
/-- The threads, and who has the `iter_lock` of each service. -/
structure State (Thread : Type) where
  threads : Thread → Local scope
  iterLock : Service → Option Thread

/-- A thread does something. -/
structure Event (Thread Service : Type) where
  thread : Thread
  call : Call Service

namespace State

variable {Thread : Type} [DecidableEq Thread]

/-- What a call does to the locks; `lock` returns only when the lock is free. -/
def relock (s : State scope Thread) (t : Thread) : Call Service → Option (Service → Option Thread)
  | .lock =>
    match (s.threads t).pc with
    | .locking svc _ _ =>
      if s.iterLock svc = none then some (Function.update s.iterLock svc (some t)) else none
    | _ => some s.iterLock
  | .release =>
    match (s.threads t).pc with
    | .releasing slot =>
      some (if slot.guard then Function.update s.iterLock slot.svc none else s.iterLock)
    | _ => some s.iterLock
  | _ => some s.iterLock

def step (s : State scope Thread) (e : Event Thread Service) : Option (State scope Thread) := do
  let l ← (s.threads e.thread).step e.call
  let locks ← s.relock e.thread e.call
  some ⟨Function.update s.threads e.thread l, locks⟩

end State

variable (scope) in
/-- Threads without slots, and all locks free. -/
def system (Thread : Type) [DecidableEq Thread] :
    System (State scope Thread) (Event Thread Service) where
  init := ⟨fun _ => ⟨some [], [], .idle, none⟩, fun _ => none⟩
  step := State.step

end Slots

section Slots

variable {Service : Type} [DecidableEq Service] {scope : Service → EntScope}

/-! ### What a thread can do -/

namespace Local

/-- The ways a thread moves on. -/
inductive Step (l : Local scope) : Call Service → Local scope → Prop
  | busy {live : List (Claim Service)} {svc : Service} {db : Database}
      (hpc : l.pc = .idle) (hlive : l.live = some live)
      (hc : ∃ c ∈ live, conflict scope (svc, db) c = true) :
      Step l (.acquire svc db) { l with outcome := some (.busy svc) }
  | wait {live : List (Claim Service)} {svc : Service} {db : Database}
      (hpc : l.pc = .idle) (hlive : l.live = some live)
      (hc : ∀ c ∈ live, conflict scope (svc, db) c = false) (h : scope svc = .process) :
      Step l (.acquire svc db)
        { l with live := some (live ++ [(svc, db)]), pc := .locking svc db h, outcome := none }
  | grant {live : List (Claim Service)} (slot : EnumSlot scope)
      (hpc : l.pc = .idle) (hlive : l.live = some live)
      (hc : ∀ c ∈ live, conflict scope slot.claim c = false) (h : scope slot.svc = .thread) :
      Step l (.acquire slot.svc slot.db)
        { l with
          live := some (live ++ [slot.claim])
          pc := .starting slot
          outcome := some .acquired }
  | lock {svc : Service} {db : Database} {h : scope svc = .process}
      (hpc : l.pc = .locking svc db h) : Step l .lock (l.locked svc db h)
  | opened {slot : EnumSlot scope} (hpc : l.pc = .starting slot) :
      Step l (.setent true) { l with slots := l.slots ++ [slot], pc := .idle }
  | failed {slot : EnumSlot scope} (hpc : l.pc = .starting slot) :
      Step l (.setent false) (l.dropSlot slot)
  | drop {n : ℕ} {slot : EnumSlot scope} (hpc : l.pc = .idle)
      (hn : l.slots[n]? = some slot) :
      Step l (.drop n) ({ l with slots := l.slots.eraseIdx n }.dropSlot slot)
  | release {slot : EnumSlot scope} (hpc : l.pc = .releasing slot) :
      Step l .release { l with pc := .idle }
  | teardown : Step l .teardown { l with live := none }

theorem step_acquire {l l' : Local scope} {svc : Service} {db : Database} (hpc : l.pc = .idle)
    (h : l.acquire svc db = some l') : Step l (.acquire svc db) l' := by
  unfold acquire at h
  split at h
  · cases h
  · next live hlive =>
    split at h
    · next hc =>
      cases h
      exact .busy hpc hlive (List.any_eq_true.mp hc)
    · next hc =>
      have hfree : ∀ c ∈ live, conflict scope (svc, db) c = false := by
        simpa using hc
      split at h
      · next hp =>
        cases h
        exact .wait hpc hlive hfree hp
      · next ht =>
        cases h
        exact .grant ⟨svc, db, false, by simp [ht]⟩ hpc hlive hfree ht

theorem step_spec {l l' : Local scope} {c : Call Service} (h : l.step c = some l') :
    Step l c l' := by
  cases c with
  | acquire svc db =>
    simp only [step] at h
    split at h
    · next hpc => exact step_acquire hpc h
    · cases h
  | lock =>
    simp only [step] at h
    split at h
    · next hpc =>
      cases h
      exact .lock hpc
    · cases h
  | setent ok =>
    simp only [step] at h
    split at h
    · next hpc =>
      cases ok with
      | true =>
        cases h
        exact .opened hpc
      | false =>
        cases h
        exact .failed hpc
    · cases h
  | drop n =>
    simp only [step] at h
    split at h
    · next hpc hn =>
      cases h
      exact .drop hpc hn
    · cases h
  | release =>
    simp only [step] at h
    split at h
    · next hpc =>
      cases h
      exact .release hpc
    · cases h
  | teardown =>
    cases h
    exact .teardown

end Local

/-! ### The table and the live slots -/

/-- The claim that a thread has in its table for the slot it is making. -/
def Pc.noted : Pc scope → Option (Claim Service)
  | .locking svc db _ => some (svc, db)
  | .starting slot => some slot.claim
  | .idle | .releasing _ => none

/-- The slot that a thread is making or dropping. -/
def Pc.slot : Pc scope → Option (EnumSlot scope)
  | .starting slot | .releasing slot => some slot
  | .idle | .locking _ _ _ => none

/-- The cursor that a thread is about to use, uses, or is about to give up. -/
def Pc.claim : Pc scope → Option (Claim Service)
  | .locking svc db _ => some (svc, db)
  | .starting slot | .releasing slot => some slot.claim
  | .idle => none

namespace Local

/-- The claims that a thread has in its table. -/
def noted (l : Local scope) : List (Claim Service) :=
  l.slots.map EnumSlot.claim ++ l.pc.noted.toList

/-- The slots of a thread, with the one it is making or dropping. -/
def held (l : Local scope) : List (EnumSlot scope) := l.slots ++ l.pc.slot.toList

/-- The cursors of a thread. -/
def claims (l : Local scope) : List (Claim Service) :=
  l.slots.map EnumSlot.claim ++ l.pc.claim.toList

/-- The thread keeps the lock of a process-scoped service. -/
def Holds (l : Local scope) (svc : Service) : Prop :=
  scope svc = .process ∧ ∃ slot ∈ l.held, slot.svc = svc

/-- The table lists the live slots, and no two cursors of the thread are the same one. -/
structure Ok (l : Local scope) : Prop where
  table : ∀ live, l.live = some live → live = l.noted
  apart : l.claims.Pairwise fun a b => conflict scope a b = false

end Local

theorem conflict_iff {new old : Claim Service} :
    conflict scope new old = true ↔
      old.1 = new.1 ∧ (scope new.1 = .process ∨ old.2 = new.2) := by
  simp only [conflict, Bool.and_eq_true, Bool.or_eq_true, beq_iff_eq]

theorem conflict_comm (a b : Claim Service) : conflict scope a b = conflict scope b a := by
  have hsymm : ∀ {a b : Claim Service}, conflict scope a b = true → conflict scope b a = true := by
    intro a b h
    obtain ⟨hsvc, hdb⟩ := conflict_iff.mp h
    exact conflict_iff.mpr ⟨hsvc.symm, hdb.imp (fun hp => hsvc ▸ hp) Eq.symm⟩
  exact Bool.eq_iff_iff.mpr ⟨hsymm, hsymm⟩

theorem conflict_self (a : Claim Service) : conflict scope a a = true :=
  conflict_iff.mpr ⟨rfl, .inr rfl⟩

theorem ne_of_conflict_eq_false {a b : Claim Service} (h : conflict scope a b = false) :
    a ≠ b := by
  rintro rfl
  rw [conflict_self] at h
  cases h

theorem nodup_of_apart {l : List (Claim Service)}
    (h : l.Pairwise fun a b => conflict scope a b = false) : l.Nodup :=
  h.imp ne_of_conflict_eq_false

/-- What `retain` leaves of a table without duplicates. -/
theorem retain_eq_erase {live : List (Claim Service)} (h : live.Nodup) (slot : EnumSlot scope) :
    (live.filter fun c => !(c.1 == slot.svc && c.2 == slot.db)) = live.erase slot.claim := by
  rw [h.erase_eq_filter]
  rfl

theorem perm_eraseIdx {α : Type} {l : List α} {n : ℕ} {a : α} (hn : l[n]? = some a) :
    (l.eraseIdx n ++ [a]).Perm l := by
  obtain ⟨hlt, rfl⟩ := List.getElem?_eq_some_iff.mp hn
  exact (List.perm_append_singleton _ _).trans (List.getElem_cons_eraseIdx_perm hlt)

theorem erase_claim {slots : List (EnumSlot scope)} {n : ℕ} {slot : EnumSlot scope}
    (h : (slots.map EnumSlot.claim).Nodup) (hn : slots[n]? = some slot) :
    (slots.map EnumSlot.claim).erase slot.claim = (slots.eraseIdx n).map EnumSlot.claim := by
  obtain ⟨hlt, rfl⟩ := List.getElem?_eq_some_iff.mp hn
  have hlt' : n < (slots.map EnumSlot.claim).length := by simpa using hlt
  have he := h.erase_getElem n hlt'
  rw [List.getElem_map] at he
  rw [he, List.eraseIdx_map]

namespace Local

omit [DecidableEq Service] in
theorem noted_of_idle {l : Local scope} (hpc : l.pc = .idle) :
    l.noted = l.slots.map EnumSlot.claim := by
  rw [noted, hpc]
  exact List.append_nil _

omit [DecidableEq Service] in
theorem claims_of_idle {l : Local scope} (hpc : l.pc = .idle) :
    l.claims = l.slots.map EnumSlot.claim := by
  rw [claims, hpc]
  exact List.append_nil _

theorem Ok.nodup {l : Local scope} (hl : l.Ok) : l.claims.Nodup := nodup_of_apart hl.apart

/-- A new cursor that is checked against the table is apart from the others. -/
theorem Ok.append {l : Local scope} (hl : l.Ok) (hpc : l.pc = .idle) {live : List (Claim Service)}
    (hlive : l.live = some live) {c : Claim Service}
    (hc : ∀ a ∈ live, conflict scope c a = false) :
    live = l.slots.map EnumSlot.claim ∧
      (l.slots.map EnumSlot.claim ++ [c]).Pairwise fun a b => conflict scope a b = false := by
  have hnoted : live = l.slots.map EnumSlot.claim :=
    (hl.table live hlive).trans (noted_of_idle hpc)
  have hslots := claims_of_idle hpc ▸ hl.apart
  refine ⟨hnoted, List.pairwise_append.mpr ⟨hslots, List.pairwise_singleton _ _, ?_⟩⟩
  intro a ha b hb
  rw [List.mem_singleton.mp hb, conflict_comm]
  exact hc a (hnoted ▸ ha)

theorem Ok.step {l l' : Local scope} {c : Call Service} (hl : l.Ok) (h : Step l c l') :
    l'.Ok := by
  cases h with
  | busy hpc hlive hc => exact ⟨hl.table, hl.apart⟩
  | wait hpc hlive hc hp =>
    obtain ⟨rfl, hapart⟩ := hl.append hpc hlive hc
    refine ⟨?_, hapart⟩
    rintro _ ⟨⟩
    rfl
  | grant slot hpc hlive hc ht =>
    obtain ⟨rfl, hapart⟩ := hl.append hpc hlive hc
    refine ⟨?_, hapart⟩
    rintro _ ⟨⟩
    rfl
  | lock hpc =>
    obtain ⟨htable, hapart⟩ := hl
    rw [noted, hpc] at htable
    rw [claims, hpc] at hapart
    exact ⟨htable, hapart⟩
  | @opened slot hpc =>
    have hsame : (l.slots ++ [slot]).map EnumSlot.claim =
        l.slots.map EnumSlot.claim ++ [slot.claim] := List.map_append
    obtain ⟨htable, hapart⟩ := hl
    rw [noted, hpc] at htable
    rw [claims, hpc] at hapart
    constructor
    · intro live hlive
      rw [noted_of_idle rfl]
      exact (htable live hlive).trans hsame.symm
    · rw [claims_of_idle rfl]
      exact hsame ▸ hapart
  | @failed slot hpc =>
    have hnodup := hl.nodup
    obtain ⟨htable, hapart⟩ := hl
    rw [noted, hpc] at htable
    rw [claims, hpc] at hapart hnodup
    refine ⟨?_, hapart⟩
    intro live' hlive'
    obtain ⟨live, hlive, rfl⟩ := Option.map_eq_some_iff.mp hlive'
    obtain rfl := htable live hlive
    -- the claim of the slot is the last one, and no other is equal to it
    have hlast : slot.claim ∉ l.slots.map EnumSlot.claim := fun hmem =>
      List.disjoint_of_nodup_append hnodup hmem (List.mem_singleton_self _)
    refine (retain_eq_erase hnodup slot).trans ?_
    show (l.slots.map EnumSlot.claim ++ [slot.claim]).erase slot.claim =
      l.slots.map EnumSlot.claim ++ []
    rw [List.erase_append_right _ hlast, List.erase_cons_head]
  | @drop n slot hpc hn =>
    have hnodup := claims_of_idle hpc ▸ hl.nodup
    have hapart := claims_of_idle hpc ▸ hl.apart
    constructor
    · intro live' hlive'
      obtain ⟨live, hlive, rfl⟩ := Option.map_eq_some_iff.mp hlive'
      obtain rfl := (hl.table live hlive).trans (noted_of_idle hpc)
      refine (retain_eq_erase hnodup slot).trans ((erase_claim hnodup hn).trans ?_)
      exact (List.append_nil _).symm
    · -- the cursors are the same as before, the dropped one moved to the end
      have hperm := (perm_eraseIdx hn).map EnumSlot.claim
      rw [List.map_append] at hperm
      refine (hperm.pairwise_iff ?_).mpr hapart
      intro a b hab
      rwa [conflict_comm]
  | release hpc =>
    obtain ⟨htable, hapart⟩ := hl
    rw [noted, hpc] at htable
    refine ⟨htable, ?_⟩
    rw [claims_of_idle rfl]
    exact hapart.sublist (List.sublist_append_left _ _)
  | teardown => exact ⟨fun _ => nofun, hl.apart⟩

/-! ### Locks -/

/-- A call that leaves the locks alone leaves the thread with the locks it has. -/
theorem Step.holds_iff {l l' : Local scope} {c : Call Service} (h : Step l c l')
    (hlock : c ≠ .lock) (hrelease : c ≠ .release) (svc : Service) :
    l'.Holds svc ↔ l.Holds svc := by
  cases h with
  | busy hpc hlive hc => exact Iff.rfl
  | wait hpc hlive hc hp => simp only [Holds, held, hpc, Pc.slot]
  | grant slot hpc hlive hc ht =>
    simp only [Holds, held, hpc, Pc.slot]
    -- a slot that is granted at once is of a thread-wide service, which has no lock
    refine and_congr_right fun hp => ?_
    constructor
    · rintro ⟨slot', hmem, rfl⟩
      obtain hmem | hmem := List.mem_append.mp hmem
      · exact ⟨slot', List.mem_append_left _ hmem, rfl⟩
      · obtain rfl := List.mem_singleton.mp hmem
        rw [hp] at ht
        cases ht
    · rintro ⟨slot', hmem, rfl⟩
      exact ⟨slot', List.mem_append_left _ (by simpa using hmem), rfl⟩
  | lock hpc => exact absurd rfl hlock
  | opened hpc => simp [Holds, held, hpc, Pc.slot]
  | failed hpc => simp [Holds, held, hpc, Pc.slot, dropSlot]
  | @drop n slot hpc hn =>
    have hmem : ∀ slot', slot' ∈ l.slots.eraseIdx n ++ [slot] ↔ slot' ∈ l.slots :=
      fun slot' => (perm_eraseIdx hn).mem_iff
    simp only [Holds, held, hpc, Pc.slot, dropSlot, Option.toList, hmem, List.append_nil]
  | release hpc => exact absurd rfl hrelease
  | teardown => exact Iff.rfl

/-- Giving the lock back, the thread keeps the locks of its other slots. -/
theorem Ok.holds_release {l : Local scope} (hl : l.Ok) {slot : EnumSlot scope}
    (hpc : l.pc = .releasing slot) (svc : Service) :
    { l with pc := .idle }.Holds svc ↔ l.Holds svc ∧ (slot.guard = true → svc ≠ slot.svc) := by
  obtain ⟨-, hapart⟩ := hl
  rw [claims, hpc] at hapart
  obtain ⟨-, -, hne⟩ := List.pairwise_append.mp hapart
  constructor
  · rintro ⟨hp, slot', hmem, rfl⟩
    have hmem : slot' ∈ l.slots := by simpa [held, Pc.slot] using hmem
    refine ⟨⟨hp, slot', List.mem_append_left _ hmem, rfl⟩, ?_⟩
    -- a second slot of the service would have been a conflict
    intro _ hsvc
    have hfree := hne slot'.claim (List.mem_map_of_mem hmem) slot.claim (List.mem_singleton_self _)
    have hconf : conflict scope slot'.claim slot.claim = true :=
      conflict_iff.mpr ⟨hsvc.symm, .inl hp⟩
    rw [hconf] at hfree
    cases hfree
  · rintro ⟨⟨hp, slot', hmem, rfl⟩, hother⟩
    rw [held, hpc] at hmem
    obtain hmem | hmem := List.mem_append.mp hmem
    · exact ⟨hp, slot', List.mem_append_left _ hmem, rfl⟩
    · obtain rfl := List.mem_singleton.mp hmem
      exact absurd rfl (hother (slot'.guarded.mpr hp))

/-! ### Consequences for a thread -/

/-- Slots of a thread that conflict are one slot. -/
theorem Ok.index_eq {l : Local scope} (hl : l.Ok) {n n' : ℕ} {a b : EnumSlot scope}
    (ha : l.held[n]? = some a) (hb : l.held[n']? = some b)
    (h : conflict scope a.claim b.claim = true) : n = n' := by
  have hsub : (l.held.map EnumSlot.claim).Sublist l.claims := by
    rw [held, claims, List.map_append]
    refine List.Sublist.append (List.Sublist.refl _) ?_
    cases l.pc with
    | idle => exact List.Sublist.refl _
    | locking svc db hp => exact List.nil_sublist _
    | starting slot => exact List.Sublist.refl _
    | releasing slot => exact List.Sublist.refl _
  have hapart := List.pairwise_map.mp (hl.apart.sublist hsub)
  rw [List.pairwise_iff_getElem] at hapart
  obtain ⟨hn, rfl⟩ := List.getElem?_eq_some_iff.mp ha
  obtain ⟨hn', rfl⟩ := List.getElem?_eq_some_iff.mp hb
  rcases Nat.lt_trichotomy n n' with hlt | heq | hgt
  · rw [hapart n n' hn hn' hlt] at h
    cases h
  · exact heq
  · rw [conflict_comm, hapart n' n hn' hn hgt] at h
    cases h

theorem exists_step_acquire {l : Local scope} (hpc : l.pc = .idle) (hlive : l.live ≠ none)
    (svc : Service) (db : Database) : ∃ l', l.step (.acquire svc db) = some l' := by
  obtain ⟨live, hlive⟩ := Option.ne_none_iff_exists'.mp hlive
  simp only [step, hpc, acquire, hlive]
  split
  · exact ⟨_, rfl⟩
  · split
    · exact ⟨_, rfl⟩
    · exact ⟨_, rfl⟩

theorem Ok.busy_iff {l l' : Local scope} (hl : l.Ok) {svc : Service} {db : Database}
    (h : Step l (.acquire svc db) l') :
    l'.outcome = some (.busy svc) ↔
      ∃ slot ∈ l.slots, slot.svc = svc ∧ (scope svc = .process ∨ slot.db = db) := by
  -- between two calls the table lists exactly the live slots
  have hconf : ∀ live, l.pc = .idle → l.live = some live →
      ((∃ c ∈ live, conflict scope (svc, db) c = true) ↔
        ∃ slot ∈ l.slots, slot.svc = svc ∧ (scope svc = .process ∨ slot.db = db)) := by
    intro live hpc hlive
    rw [hl.table live hlive, noted_of_idle hpc]
    simp only [conflict_iff, List.mem_map, exists_exists_and_eq_and]
    rfl
  cases h with
  | busy hpc hlive hc => exact ⟨fun _ => (hconf _ hpc hlive).mp hc, fun _ => rfl⟩
  | wait hpc hlive hc hp =>
    refine ⟨nofun, fun hslot => ?_⟩
    obtain ⟨c, hmem, htrue⟩ := (hconf _ hpc hlive).mpr hslot
    rw [hc c hmem] at htrue
    cases htrue
  | grant slot hpc hlive hc ht =>
    refine ⟨nofun, fun hslot => ?_⟩
    obtain ⟨c, hmem, htrue⟩ := (hconf _ hpc hlive).mpr hslot
    rw [EnumSlot.claim] at hc
    rw [hc c hmem] at htrue
    cases htrue

theorem Step.outcome_lock {l l' : Local scope} (h : Step l .lock l') :
    l'.outcome = some .acquired := by
  cases h with
  | lock hpc => rfl

/-- What an acquisition without conflict leads to. -/
theorem Ok.acquired {l l' : Local scope} (hl : l.Ok) {svc : Service} {db : Database}
    (hfree : ∀ c ∈ l.noted, conflict scope (svc, db) c = false)
    (h : Step l (.acquire svc db) l') :
    (scope svc = .thread → l'.outcome = some .acquired) ∧
      ∀ hp : scope svc = .process, l'.outcome = none ∧ l'.pc = .locking svc db hp := by
  cases h with
  | busy _ hlive hc =>
    obtain ⟨c, hmem, hconf⟩ := hc
    rw [hl.table _ hlive] at hmem
    rw [hfree c hmem] at hconf
    cases hconf
  | wait _ _ _ hp =>
    refine ⟨fun ht => ?_, fun _ => ⟨rfl, rfl⟩⟩
    rw [hp] at ht
    cases ht
  | grant slot _ _ _ ht =>
    refine ⟨fun _ => rfl, fun hp => ?_⟩
    rw [hp] at ht
    cases ht

/-- Only an acquisition adds to the table. -/
theorem Step.noted_subset {l l' : Local scope} {c : Call Service} (h : Step l c l')
    (hc : ∀ svc db, c ≠ .acquire svc db) : l'.noted ⊆ l.noted := by
  cases h with
  | busy hpc hlive _ => exact absurd rfl (hc _ _)
  | wait hpc hlive _ hp => exact absurd rfl (hc _ _)
  | grant slot hpc hlive _ ht => exact absurd rfl (hc _ _)
  | lock hpc =>
    rw [noted, noted, hpc]
    exact List.Subset.refl _
  | opened hpc =>
    rw [noted_of_idle rfl, noted, hpc, List.map_append]
    exact List.Subset.refl _
  | failed hpc =>
    rw [noted, noted]
    exact List.append_subset.mpr ⟨List.subset_append_left _ _, List.nil_subset _⟩
  | drop hpc hn =>
    rw [noted_of_idle hpc, noted]
    refine List.append_subset.mpr ⟨?_, List.nil_subset _⟩
    exact List.map_subset _ (List.eraseIdx_subset)
  | release hpc =>
    rw [noted_of_idle rfl, noted]
    exact List.subset_append_left _ _
  | teardown => exact List.Subset.refl _

/-- The calls that drop a slot: its drop, and a `set*ent` that fails right after the
acquisition. -/
inductive Drops (l : Local scope) : Call Service → EnumSlot scope → Prop
  | drop {n : ℕ} {slot : EnumSlot scope} (hn : l.slots[n]? = some slot) : Drops l (.drop n) slot
  | failed {slot : EnumSlot scope} (hpc : l.pc = .starting slot) : Drops l (.setent false) slot

/-- The claim of a dropped slot is in the table, and the guard is given back next. -/
theorem Ok.drops {l l' : Local scope} (hl : l.Ok) {c : Call Service} {slot : EnumSlot scope}
    (hdrop : Drops l c slot) (h : Step l c l') :
    slot.claim ∈ l.noted ∧ l'.pc = .releasing slot ∧
      l'.live = l.live.map (·.erase slot.claim) := by
  -- the claims are distinct, so that `retain` takes out one of them
  have herase : l.live.map (·.filter fun c => !(c.1 == slot.svc && c.2 == slot.db)) =
      l.live.map (·.erase slot.claim) := by
    refine Option.map_congr fun live hlive => ?_
    have hsub : l.noted.Sublist l.claims := by
      refine List.Sublist.append (List.Sublist.refl _) ?_
      cases l.pc with
      | releasing slot => exact List.nil_sublist _
      | _ => exact List.Sublist.refl _
    exact retain_eq_erase (hl.table live hlive ▸ hl.nodup.sublist hsub) slot
  cases hdrop with
  | drop hn =>
    cases h with
    | drop _ hn' =>
      obtain rfl := Option.some.inj (hn.symm.trans hn')
      refine ⟨List.mem_append_left _ (List.mem_map_of_mem (List.mem_of_getElem? hn)), rfl, ?_⟩
      exact herase
  | failed hpc =>
    cases h with
    | failed hpc' =>
      obtain rfl : slot = _ := by simpa using hpc.symm.trans hpc'
      refine ⟨?_, rfl, herase⟩
      rw [noted, hpc]
      exact List.mem_append_right _ (List.mem_singleton_self _)

/-- The rest of the table is apart from a slot that is being dropped. -/
theorem Ok.free_of_releasing {l : Local scope} (hl : l.Ok) {slot : EnumSlot scope}
    (hpc : l.pc = .releasing slot) : ∀ c ∈ l.noted, conflict scope slot.claim c = false := by
  intro c hc
  obtain ⟨-, hapart⟩ := hl
  rw [noted, hpc] at hc
  rw [claims, hpc] at hapart
  have hc : c ∈ l.slots.map EnumSlot.claim := by simpa [Pc.noted] using hc
  rw [conflict_comm]
  exact (List.pairwise_append.mp hapart).2.2 c hc _ (List.mem_singleton_self _)

end Local

namespace State

variable {Thread : Type}

/-- Every thread's table is right, and a lock is with the thread that has a slot of the
service. -/
structure Inv (s : State scope Thread) : Prop where
  ok : ∀ t, (s.threads t).Ok
  owner : ∀ svc t, s.iterLock svc = some t ↔ (s.threads t).Holds svc

theorem relock_of_ne (s : State scope Thread) (t : Thread) {c : Call Service}
    (hlock : c ≠ .lock) (hrelease : c ≠ .release) : s.relock t c = some s.iterLock := by
  cases c with
  | lock => exact absurd rfl hlock
  | release => exact absurd rfl hrelease
  | _ => rfl

/-- A thread that takes a lock takes it from nobody. -/
theorem Inv.owner_lock {s : State scope Thread} (hs : s.Inv) {t : Thread} {svc₀ : Service}
    {db : Database} {hp : scope svc₀ = .process} (hpc : (s.threads t).pc = .locking svc₀ db hp)
    {locks : Service → Option Thread} (hlocks : s.relock t .lock = some locks) (svc : Service) :
    (locks svc = some t ↔ ((s.threads t).locked svc₀ db hp).Holds svc) ∧
      ∀ t', t' ≠ t → (locks svc = some t' ↔ s.iterLock svc = some t') := by
  simp only [relock, hpc] at hlocks
  split at hlocks
  · next hfree =>
    cases hlocks
    -- the thread has the locks it had, and the one it takes
    have hiff : ((s.threads t).locked svc₀ db hp).Holds svc ↔
        svc = svc₀ ∨ (s.threads t).Holds svc := by
      simp only [Local.Holds, Local.held, Local.locked, hpc, Pc.slot, Option.toList,
        List.mem_append, List.mem_singleton, List.append_nil]
      constructor
      · rintro ⟨hp', slot, hmem | rfl, rfl⟩
        · exact .inr ⟨hp', slot, hmem, rfl⟩
        · exact .inl rfl
      · rintro (rfl | ⟨hp', slot, hmem, rfl⟩)
        · exact ⟨hp, _, .inr rfl, rfl⟩
        · exact ⟨hp', slot, .inl hmem, rfl⟩
    rw [hiff]
    by_cases hsvc : svc = svc₀
    · subst hsvc
      rw [Function.update_self, hfree]
      exact ⟨by simp, fun t' ht' => by simp [Ne.symm ht']⟩
    · rw [Function.update_of_ne hsvc, hs.owner]
      exact ⟨by simp [hsvc], fun t' _ => Iff.rfl⟩
  · cases hlocks

/-- A thread that gives a lock back gives back its own. -/
theorem Inv.owner_release {s : State scope Thread} (hs : s.Inv) {t : Thread}
    {slot : EnumSlot scope} (hpc : (s.threads t).pc = .releasing slot)
    {locks : Service → Option Thread} (hlocks : s.relock t .release = some locks)
    (svc : Service) :
    (locks svc = some t ↔ { s.threads t with pc := .idle }.Holds svc) ∧
      ∀ t', t' ≠ t → (locks svc = some t' ↔ s.iterLock svc = some t') := by
  simp only [relock, hpc, Option.some.injEq] at hlocks
  subst hlocks
  rw [(hs.ok t).holds_release hpc]
  by_cases hg : slot.guard = true ∧ svc = slot.svc
  · obtain ⟨hg, rfl⟩ := hg
    -- the guard of the slot is what the lock is held by
    have hmine : s.iterLock slot.svc = some t := by
      refine (hs.owner _ _).mpr ⟨slot.guarded.mp hg, slot, ?_, rfl⟩
      rw [Local.held, hpc]
      exact List.mem_append_right _ (List.mem_singleton_self _)
    rw [if_pos hg, Function.update_self, hmine]
    exact ⟨by simp [hg], fun t' ht' => by simp [Ne.symm ht']⟩
  · have hsame : (if slot.guard = true then Function.update s.iterLock slot.svc none
        else s.iterLock) svc = s.iterLock svc := by
      split
      · next hguard => exact Function.update_of_ne (fun hsvc => hg ⟨hguard, hsvc⟩) _ _
      · rfl
    rw [hsame, hs.owner]
    refine ⟨(and_iff_left ?_).symm, fun t' _ => Iff.rfl⟩
    exact fun hguard hsvc => hg ⟨hguard, hsvc⟩

/-- What a thread does leaves it with the locks that are then its own, and takes none away
from another thread. -/
theorem Inv.owner_step {s : State scope Thread} (hs : s.Inv) {t : Thread} {c : Call Service}
    {l : Local scope} (hl : Local.Step (s.threads t) c l) {locks : Service → Option Thread}
    (hlocks : s.relock t c = some locks) (svc : Service) :
    (locks svc = some t ↔ l.Holds svc) ∧
      ∀ t', t' ≠ t → (locks svc = some t' ↔ s.iterLock svc = some t') := by
  by_cases hlock : c = .lock
  · subst hlock
    cases hl with
    | lock hpc => exact hs.owner_lock hpc hlocks svc
  by_cases hrelease : c = .release
  · subst hrelease
    cases hl with
    | release hpc => exact hs.owner_release hpc hlocks svc
  rw [relock_of_ne s t hlock hrelease] at hlocks
  cases hlocks
  exact ⟨(hs.owner svc t).trans (hl.holds_iff hlock hrelease svc).symm, fun t' _ => Iff.rfl⟩

/-! ### Exclusion -/

/-- Two slots with one cursor are one slot.  A slot counts from the moment it has its claim
and its guard until it has given up both. -/
structure Exclusive (s : State scope Thread) : Prop where
  process : ∀ (t t' : Thread) (n n' : ℕ) (a b : EnumSlot scope),
    (s.threads t).held[n]? = some a → (s.threads t').held[n']? = some b →
    a.svc = b.svc → scope a.svc = .process → t = t' ∧ n = n'
  thread : ∀ (t : Thread) (n n' : ℕ) (a b : EnumSlot scope),
    (s.threads t).held[n]? = some a → (s.threads t).held[n']? = some b →
    a.svc = b.svc → a.db = b.db → n = n'

theorem Inv.exclusive {s : State scope Thread} (hs : s.Inv) : s.Exclusive := by
  constructor
  · intro t t' n n' a b ha hb hsvc hp
    -- both threads have the lock of the service
    have hlock : s.iterLock a.svc = some t :=
      (hs.owner _ _).mpr ⟨hp, a, List.mem_of_getElem? ha, rfl⟩
    have hlock' : s.iterLock a.svc = some t' :=
      (hs.owner _ _).mpr ⟨hp, b, List.mem_of_getElem? hb, hsvc.symm⟩
    obtain rfl := Option.some.inj (hlock.symm.trans hlock')
    exact ⟨rfl, (hs.ok t).index_eq ha hb (conflict_iff.mpr ⟨hsvc.symm, .inl hp⟩)⟩
  · intro t n n' a b ha hb hsvc hdb
    exact (hs.ok t).index_eq ha hb (conflict_iff.mpr ⟨hsvc.symm, .inr hdb.symm⟩)

/-! ### Runs -/

variable [DecidableEq Thread]

theorem step_eq_some {s s' : State scope Thread} {t : Thread} {c : Call Service}
    (h : s.step ⟨t, c⟩ = some s') :
    Local.Step (s.threads t) c (s'.threads t) ∧ s.relock t c = some s'.iterLock ∧
      ∀ t', t' ≠ t → s'.threads t' = s.threads t' := by
  simp only [step, Option.bind_eq_bind, Option.bind_eq_some_iff, Option.some.injEq] at h
  obtain ⟨l, hl, locks, hlocks, rfl⟩ := h
  refine ⟨?_, hlocks, fun t' ht' => Function.update_of_ne ht' _ _⟩
  simpa using Local.step_spec hl

theorem exists_step_of_local {s : State scope Thread} {t : Thread} {c : Call Service}
    {l : Local scope} (h : (s.threads t).step c = some l) {locks : Service → Option Thread}
    (hlocks : s.relock t c = some locks) :
    ∃ s', s.step ⟨t, c⟩ = some s' ∧ s'.threads t = l ∧ s'.iterLock = locks := by
  refine ⟨⟨Function.update s.threads t l, locks⟩, ?_, Function.update_self _ _ _, rfl⟩
  simp only [step, h, hlocks, Option.bind_eq_bind, Option.bind_some]

theorem Inv.step {s s' : State scope Thread} {e : Event Thread Service} (hs : s.Inv)
    (h : s.step e = some s') : s'.Inv := by
  obtain ⟨t, c⟩ := e
  obtain ⟨hl, hlocks, hothers⟩ := step_eq_some h
  have howner := fun svc => hs.owner_step hl hlocks svc
  constructor
  · intro t'
    by_cases ht : t' = t
    · subst ht
      exact (hs.ok t').step hl
    · rw [hothers t' ht]
      exact hs.ok t'
  · intro svc t'
    by_cases ht : t' = t
    · subst ht
      exact (howner svc).1
    · rw [(howner svc).2 t' ht, hothers t' ht, hs.owner]

theorem inv_of_reachable {s : State scope Thread} (h : (system scope Thread).Reachable s) :
    s.Inv := by
  refine h.invariant ?_ fun s e s' hs he => hs.step he
  refine ⟨fun t => ⟨?_, List.Pairwise.nil⟩, fun svc t => ⟨nofun, ?_⟩⟩
  · rintro _ ⟨⟩
    rfl
  · rintro ⟨-, slot, hmem, -⟩
    cases hmem

/-! ### Acquisitions -/

/-- `acquire` returns `Busy` exactly for a conflict with a live slot of the same thread, and a
thread that waits for a lock does not have it. -/
structure BusyExact (s : State scope Thread) : Prop where
  busy : ∀ t svc db, (s.threads t).pc = .idle → (s.threads t).live ≠ none →
    ∃ s', s.step ⟨t, .acquire svc db⟩ = some s' ∧
      ((s'.threads t).outcome = some (.busy svc) ↔
        ∃ slot ∈ (s.threads t).slots, slot.svc = svc ∧ (scope svc = .process ∨ slot.db = db))
  lock : ∀ t s', s.step ⟨t, .lock⟩ = some s' → (s'.threads t).outcome = some .acquired
  noSelfWait : ∀ t svc db h, (s.threads t).pc = .locking svc db h → s.iterLock svc ≠ some t

/-- An acquisition is not refused: a slot of a thread-scoped service is there at once, one of
a process-scoped service as soon as the lock of the service is free. -/
def Grants (s : State scope Thread) (t : Thread) (svc : Service) (db : Database) : Prop :=
  ∃ s', s.step ⟨t, .acquire svc db⟩ = some s' ∧ s'.iterLock = s.iterLock ∧
    (scope svc = .thread → (s'.threads t).outcome = some .acquired) ∧
    (scope svc = .process → (s'.threads t).outcome = none ∧
      ∀ u : State scope Thread, u.threads t = s'.threads t → u.iterLock svc = none →
        ∃ u', u.step ⟨t, .lock⟩ = some u' ∧ (u'.threads t).outcome = some .acquired)

/-- The slot is dropped between the two states: its claim goes, alone, and its cursor can be
acquired again by the thread, right after the drop and also later on. -/
structure Dropped (s s' : State scope Thread) (t : Thread) (slot : EnumSlot scope) : Prop where
  claim : ∀ live, (s.threads t).live = some live → ∃ before after,
    live = before ++ slot.claim :: after ∧ (s'.threads t).live = some (before ++ after)
  others : ∀ t', t' ≠ t → s'.threads t' = s.threads t'
  atOnce : (s.threads t).live ≠ none → ∃ s₁, s'.step ⟨t, .release⟩ = some s₁ ∧
    (scope slot.svc = .process → s₁.iterLock slot.svc = none) ∧ s₁.Grants t slot.svc slot.db
  later : ∀ es u, (∀ svc db, ⟨t, .acquire svc db⟩ ∉ es) →
    (system scope Thread).run s' es = some u → (u.threads t).pc = .idle →
    (u.threads t).live ≠ none → u.Grants t slot.svc slot.db

theorem Inv.busyExact {s : State scope Thread} (hs : s.Inv) : s.BusyExact := by
  constructor
  · intro t svc db hpc hlive
    obtain ⟨l, hl⟩ := Local.exists_step_acquire hpc hlive svc db
    obtain ⟨s', hs', rfl, -⟩ := exists_step_of_local hl rfl
    exact ⟨s', hs', (hs.ok t).busy_iff (Local.step_spec hl)⟩
  · intro t s' h
    exact (step_eq_some h).1.outcome_lock
  · intro t svc db h hpc hmine
    obtain ⟨-, slot, hmem, rfl⟩ := (hs.owner _ _).mp hmine
    -- the slot would have been a conflict when the thread noted its new claim
    have hapart := (hs.ok t).apart
    rw [Local.held, hpc] at hmem
    rw [Local.claims, hpc] at hapart
    have hmem : slot ∈ (s.threads t).slots := by simpa [Pc.slot] using hmem
    obtain ⟨-, -, hne⟩ := List.pairwise_append.mp hapart
    have hfree := hne slot.claim (List.mem_map_of_mem hmem) _ (List.mem_singleton_self _)
    have hconf : conflict scope slot.claim (slot.svc, db) = true :=
      conflict_iff.mpr ⟨rfl, .inl h⟩
    rw [hconf] at hfree
    cases hfree

/-! ### Drops -/

theorem Inv.grants {s : State scope Thread} (hs : s.Inv) {t : Thread} {svc : Service}
    {db : Database} (hpc : (s.threads t).pc = .idle) (hlive : (s.threads t).live ≠ none)
    (hfree : ∀ c ∈ (s.threads t).noted, conflict scope (svc, db) c = false) :
    s.Grants t svc db := by
  obtain ⟨l, hl⟩ := Local.exists_step_acquire hpc hlive svc db
  obtain ⟨s', hs', rfl, hlocks⟩ := exists_step_of_local hl rfl
  obtain ⟨hthread, hprocess⟩ := (hs.ok t).acquired hfree (Local.step_spec hl)
  refine ⟨s', hs', hlocks, hthread, fun hp => ?_⟩
  obtain ⟨hnone, hlocking⟩ := hprocess hp
  refine ⟨hnone, fun u hu hunlocked => ?_⟩
  rw [← hu] at hlocking
  have hl' : (u.threads t).step .lock = some ((u.threads t).locked svc db hp) := by
    simp only [Local.step, hlocking]
  have hlocks' : u.relock t .lock = some (Function.update u.iterLock svc (some t)) := by
    simp only [relock, hlocking, hunlocked, if_true]
  obtain ⟨u', hu', -, -⟩ := exists_step_of_local hl' hlocks'
  exact ⟨u', hu', (step_eq_some hu').1.outcome_lock⟩

/-- A cursor that the thread's table has no claim on stays so until the thread acquires. -/
theorem free_of_run {s u : State scope Thread} {t : Thread} {c : Claim Service}
    (hfree : ∀ a ∈ (s.threads t).noted, conflict scope c a = false)
    {es : List (Event Thread Service)} (hes : ∀ svc db, ⟨t, .acquire svc db⟩ ∉ es)
    (h : (system scope Thread).run s es = some u) :
    ∀ a ∈ (u.threads t).noted, conflict scope c a = false := by
  refine System.run_invariant
    (fun u : State scope Thread => ∀ a ∈ (u.threads t).noted, conflict scope c a = false)
    ?_ hfree h
  rintro s ⟨t', call⟩ s' hmem hfree he
  obtain ⟨hl, -, hothers⟩ := step_eq_some he
  by_cases ht : t = t'
  · subst ht
    have hcall : ∀ svc db, call ≠ .acquire svc db := by
      rintro svc db rfl
      exact hes svc db hmem
    exact fun a ha => hfree a (hl.noted_subset hcall ha)
  · rw [hothers t ht]
    exact hfree

theorem Inv.dropped {s s' : State scope Thread} (hs : s.Inv) {t : Thread} {c : Call Service}
    {slot : EnumSlot scope} (hdrop : (s.threads t).Drops c slot)
    (h : s.step ⟨t, c⟩ = some s') : s.Dropped s' t slot := by
  have hs' := hs.step h
  obtain ⟨hl, -, hothers⟩ := step_eq_some h
  obtain ⟨hmem, hpc, hlive⟩ := (hs.ok t).drops hdrop hl
  have hfree := (hs'.ok t).free_of_releasing hpc
  -- until the thread acquires again, its table only shrinks
  have hlater : ∀ es u, (∀ svc db, ⟨t, .acquire svc db⟩ ∉ es) →
      (system scope Thread).run s' es = some u → (u.threads t).pc = .idle →
      (u.threads t).live ≠ none → u.Grants t slot.svc slot.db := by
    intro es u hes hrun hidle htable
    have hu : u.Inv := System.run_invariant Inv (fun _ _ _ _ hs he => hs.step he) hs' hrun
    exact hu.grants hidle htable (free_of_run hfree hes hrun)
  refine ⟨?_, hothers, ?_, hlater⟩
  · intro live hsome
    rw [← (hs.ok t).table live hsome] at hmem
    obtain ⟨before, after, -, hsplit, herase⟩ := List.exists_erase_eq hmem
    refine ⟨before, after, hsplit, ?_⟩
    rw [hlive, hsome, Option.map_some, herase]
  · intro htable
    obtain ⟨s₁, hs₁, hl₁, hlocks⟩ := exists_step_of_local (s := s') (t := t) (c := .release)
      (by simp only [Local.step, hpc]; rfl) (by simp only [relock, hpc]; rfl)
    refine ⟨s₁, hs₁, fun hp => ?_, ?_⟩
    · rw [hlocks, if_pos (slot.guarded.mpr hp), Function.update_self]
    · refine hlater [⟨t, .release⟩] s₁ (by simp) ?_ (by rw [hl₁]) ?_
      · simp only [System.run, system, hs₁]
      · rw [hl₁]
        simpa [hlive] using htable

/-- **Enumeration slots.**  Whatever the threads do, slots exclude each other; `acquire` returns
`Busy` exactly when the calling thread has a live slot in its way; and a drop takes the claim
of its slot out of the table, and no other, so that the cursor can be acquired again. -/
theorem enum_slots {s : State scope Thread} (h : (system scope Thread).Reachable s) :
    s.Exclusive ∧ s.BusyExact ∧
      ∀ t c slot s', (s.threads t).Drops c slot → s.step ⟨t, c⟩ = some s' →
        s.Dropped s' t slot := by
  have hs := inv_of_reachable h
  exact ⟨hs.exclusive, hs.busyExact, fun t c slot s' hdrop hstep => hs.dropped hdrop hstep⟩

end State

/-- One thread enumerates a process-scoped service, and another waits for it. -/
def contend : List (Event Bool EntScope) :=
  [⟨false, .acquire .process .passwd⟩, ⟨false, .lock⟩, ⟨false, .setent true⟩,
    ⟨true, .acquire .process .group⟩]

theorem enum_slots_contend :
    ∃ s, (system id Bool).run (system id Bool).init contend = some s ∧
      s.iterLock .process = some false ∧ s.Exclusive ∧ s.BusyExact ∧
      ∀ s', s.step ⟨false, .drop 0⟩ = some s' →
        s.Dropped s' false ⟨.process, .passwd, true, by decide⟩ := by
  have hrun : (system id Bool).run (system id Bool).init contend = some _ := rfl
  obtain ⟨hexclusive, hbusy, hdropped⟩ := State.enum_slots (System.Reachable.init.run hrun)
  exact ⟨_, hrun, rfl, hexclusive, hbusy, fun s' => hdropped false (.drop 0) _ s' (.drop rfl)⟩

end Slots

end Nss
