/-
Enumerations of an NSS module by many threads at once.

What a module keeps between `set*ent`, `get*ent_r` and `end*ent` is its own affair, and its
functions do not say which enumeration a call is for.  So the module is a parameter here, with a
state that every call may change, and `Serves` is what is relied on: where the cursor is the
thread's, a call leaves the cursors of other threads and of the other database alone; where there
is one for the process, nothing is said about a call that comes in between.  What keeps
enumerations apart there are the slots of `NssEnumSlot`.

Here the threads' slots and the modules are one system.  A thread acquires a slot, calls
`set*ent`, and then `get*ent_r` as often as it likes, with the buffer of its iterator, which
grows when the module asks for more room; at the end of the data, after a fault or when it is
dropped the iterator calls `end*ent` and drops the slot.  Any answer but an entry and a fault is
taken for the end of the data, whether or not it is `NOTFOUND`.

`enumerations_exact`: whatever the threads do, what an enumeration has handed out is the
beginning of its database, and all of it when the module ended it with `NOTFOUND`.
-/
import RosUtils.NssCall
import RosUtils.NssEnumSlot

open Transition

namespace Nss.Enumerate

/-! ### The modules -/

section Modules

variable {Thread E σ κ : Type}

/-- The functions of a module, over a state of its own.  The module is free in what it does: each
call is given what it decides on. -/
structure Module (Thread E σ κ : Type) where
  setent : Thread → Database → κ → σ → Answer × σ
  /-- with the length of the buffer; the entry is as the call left it -/
  getent : Thread → Database → ℕ → κ → σ → Answer × E × σ
  endent : Thread → Database → κ → σ → Answer × σ

/-- What one call for the thread and the database makes of the state. -/
inductive Module.Calls (m : Module Thread E σ κ) (t : Thread) (db : Database) (s : σ) : σ → Prop
  | setent (k : κ) : Calls m t db s (m.setent t db k s).2
  | getent (len : ℕ) (k : κ) : Calls m t db s (m.getent t db len k s).2.2
  | endent (k : κ) : Calls m t db s (m.endent t db k s).2

/-- What is relied on.  `At t db n` says of a state that the cursor for the thread and the
database is behind the first `n` entries. -/
structure Serves (m : Module Thread E σ κ) (scope : EntScope) (data : Database → List E)
    (At : Thread → Database → ℕ → σ → Prop) : Prop where
  /-- `set*ent` puts the cursor at the start. -/
  setent : ∀ {t db k s}, (m.setent t db k s).1.status = statusSuccess →
    At t db 0 (m.setent t db k s).2
  /-- An entry that is returned is the one behind the cursor, which moves on. -/
  entry : ∀ {t db n len k s}, At t db n s → (m.getent t db len k s).1 = ⟨statusSuccess, 0⟩ →
    (data db)[n]? = some (m.getent t db len k s).2.1 ∧ At t db (n + 1) (m.getent t db len k s).2.2
  /-- A request for a larger buffer leaves the cursor where it is. -/
  retry : ∀ {t db n len k s}, At t db n s → (m.getent t db len k s).1.Retry →
    At t db n (m.getent t db len k s).2.2
  /-- `NOTFOUND` is answered behind the last entry only.  Every other answer is possible at any
  time. -/
  notFound : ∀ {t db n len k s}, At t db n s →
    (m.getent t db len k s).1 = ⟨statusNotfound, 0⟩ → (data db)[n]? = none
  /-- A cursor that is the thread's is not moved by calls of other threads and for the other
  database. -/
  apart : ∀ {t db t' db' n s s'}, scope = .thread → (t', db') ≠ (t, db) → m.Calls t db s s' →
    At t' db' n s → At t' db' n s'

end Modules

/-- The function of a module that an enumeration steps with. -/
def getentOp : Database → String
  | .passwd => "getpwent_r"
  | .group => "getgrent_r"

section Model

variable {Service : Type} [DecidableEq Service] (scope : Service → EntScope)
  {Thread E σ κ : Type}

/-! ### The system -/

/-- What an iterator has: the entries it has handed out, and the length of its buffer. -/
structure Walk (E : Type) where
  items : List E
  buf : ℕ

/-- How an enumeration ended: with an answer that is taken for the end of the data, with a
fault, or early. -/
inductive End where
  | ended (a : Answer)
  | faulted (e : Error)
  | dropped
  deriving DecidableEq

/-- An enumeration that is over. -/
structure Finished (Thread Service E : Type) where
  thread : Thread
  claim : Claim Service
  items : List E
  how : End

/-- The slots, the modules, the iterators of the live slots, and the enumerations that are
over. -/
structure World (Thread E σ : Type) where
  slots : State scope Thread
  mods : Service → σ
  walks : Thread × Claim Service → Walk E
  finished : List (Finished Thread Service E)

/-- A thread does something with its slots other than to call a module; or it calls `set*ent`
for the slot it is making; or `get*ent_r` for its `n`th iterator, and `end*ent` if that closes
it; or it drops the iterator. -/
inductive Event (Thread Service κ : Type) where
  | slot (t : Thread) (c : Call Service)
  | setent (t : Thread) (k : κ)
  | getent (t : Thread) (n : ℕ) (k k' : κ)
  | drop (t : Thread) (n : ℕ) (k : κ)

variable {scope} [DecidableEq Thread]

namespace World

/-- The module has been called for an enumeration, whose iterator is as it is then. -/
def touch (w : World scope Thread E σ) (t : Thread) (slot : EnumSlot scope) (s : σ)
    (walk : Walk E) : World scope Thread E σ :=
  { w with
    mods := Function.update w.mods slot.svc s
    walks := Function.update w.walks (t, slot.claim) walk }

variable (m : Service → Module Thread E σ κ)

/-- `EntIter::close`: `end*ent`, and then the slot is dropped. -/
def close (w : World scope Thread E σ) (t : Thread) (n : ℕ) (slot : EnumSlot scope) (how : End)
    (k : κ) : Option (World scope Thread E σ) :=
  let walk := w.walks (t, slot.claim)
  let r := (m slot.svc).endent t slot.db k (w.mods slot.svc)
  (w.slots.step ⟨t, .drop n⟩).map fun slots =>
    { w.touch t slot r.2 walk with
      slots
      finished := w.finished ++ [⟨t, slot.claim, walk.items, how⟩] }

/-- `set*ent`, and `EntIter::new` if it succeeds. -/
def setentStep (w : World scope Thread E σ) (t : Thread) (slot : EnumSlot scope) (k : κ) :
    Option (World scope Thread E σ) :=
  let r := (m slot.svc).setent t slot.db k (w.mods slot.svc)
  (w.slots.step ⟨t, .setent (r.1.status = statusSuccess)⟩).map fun slots =>
    { w.touch t slot r.2 ⟨[], initialBuflen⟩ with slots }

/-- `EntIter::next`, one `get*ent_r` call of it. -/
def getentStep (name : Service → String) (w : World scope Thread E σ) (t : Thread) (n : ℕ)
    (slot : EnumSlot scope) (k k' : κ) : Option (World scope Thread E σ) :=
  let walk := w.walks (t, slot.claim)
  let r := (m slot.svc).getent t slot.db walk.buf k (w.mods slot.svc)
  -- `grow_and_call` calls again with a larger buffer
  if r.1.Retry ∧ walk.buf < maxBuflen then
    some (w.touch t slot r.2.2 { walk with buf := grown walk.buf })
  else
    match classifyEnt (name slot.svc) (getentOp slot.db) r.1 with
    | .error e => (w.touch t slot r.2.2 walk).close m t n slot (.faulted e) k'
    | .ok false => (w.touch t slot r.2.2 walk).close m t n slot (.ended r.1) k'
    | .ok true => some (w.touch t slot r.2.2 { walk with items := walk.items ++ [r.2.1] })

/-- A step of one thread. -/
def step (name : Service → String) (w : World scope Thread E σ) :
    Event Thread Service κ → Option (World scope Thread E σ)
  | .slot _ (.setent _) | .slot _ (.drop _) => none
  | .slot t c => (w.slots.step ⟨t, c⟩).map fun slots => { w with slots }
  | .setent t k =>
    match (w.slots.threads t).pc with
    | .starting slot => w.setentStep m t slot k
    | _ => none
  | .getent t n k k' =>
    match (w.slots.threads t).pc, (w.slots.threads t).slots[n]? with
    | .idle, some slot => w.getentStep m name t n slot k k'
    | _, _ => none
  | .drop t n k =>
    match (w.slots.threads t).slots[n]? with
    | some slot => w.close m t n slot .dropped k
    | none => none

end World

/-- The threads, without slots, over modules in some states. -/
def system (scope : Service → EntScope) (m : Service → Module Thread E σ κ)
    (name : Service → String) (mods : Service → σ) :
    System (World scope Thread E σ) (Event Thread Service κ) where
  init :=
    { slots := (Nss.system scope Thread).init
      mods
      walks := fun _ => ⟨[], initialBuflen⟩
      finished := [] }
  step := World.step m name

/-! ### Live slots -/

/-- The first enumeration is of another service, or has a cursor of its own. -/
def Apart (x y : Thread × EnumSlot scope) : Prop :=
  x.2.svc = y.2.svc → scope y.2.svc = .thread ∧ (x.1, x.2.db) ≠ (y.1, y.2.db)

omit [DecidableEq Thread] in
/-- Different live slots are apart. -/
theorem apart_of_held {s : State scope Thread} (hs : s.Inv) {t t' : Thread} {n n' : ℕ}
    {a b : EnumSlot scope} (ha : (s.threads t).held[n]? = some a)
    (hb : (s.threads t').held[n']? = some b) (hne : (t, n) ≠ (t', n')) :
    Apart (t, a) (t', b) := by
  intro hsvc
  have hsvc : a.svc = b.svc := hsvc
  have hthread : scope b.svc = .thread := by
    cases hscope : scope b.svc with
    | thread => rfl
    | process =>
      obtain ⟨rfl, rfl⟩ := hs.exclusive.process t t' n n' a b ha hb hsvc (hsvc ▸ hscope)
      exact absurd rfl hne
  refine ⟨hthread, fun heq => ?_⟩
  obtain ⟨rfl, hdb⟩ := Prod.mk.inj heq
  obtain rfl := hs.exclusive.thread t n n' a b ha hb hsvc hdb
  exact hne rfl

omit [DecidableEq Service] in
theorem held_of_slots {l : Local scope} {n : ℕ} {slot : EnumSlot scope}
    (h : l.slots[n]? = some slot) : l.held[n]? = some slot := by
  rw [Local.held, List.getElem?_append_left (List.getElem?_eq_some_iff.mp h).1]
  exact h

omit [DecidableEq Service] in
/-- The slot that is being made comes behind the others. -/
theorem held_of_starting {l : Local scope} {slot : EnumSlot scope} (h : l.pc = .starting slot) :
    l.held[l.slots.length]? = some slot := by
  rw [Local.held, h, List.getElem?_append_right le_rfl, Nat.sub_self]
  rfl

/-! What a step of a thread does to its live slots. -/

theorem slots_drop {l l' : Local scope} {n : ℕ} (h : Local.Step l (.drop n) l') :
    l'.slots = l.slots.eraseIdx n := by
  cases h
  rfl

theorem slots_opened {l l' : Local scope} {slot : EnumSlot scope} (hpc : l.pc = .starting slot)
    (h : Local.Step l (.setent true) l') : l'.slots = l.slots ++ [slot] := by
  cases h with
  | opened hpc' =>
    rw [hpc] at hpc'
    cases hpc'
    rfl

theorem slots_same {l l' : Local scope} {c : Call Service} (h : Local.Step l c l')
    (hdrop : ∀ n, c ≠ .drop n) (hopened : c ≠ .setent true) : l'.slots = l.slots := by
  cases h with
  | opened hpc => exact absurd rfl hopened
  | drop hpc hn => exact absurd rfl (hdrop _)
  | _ => rfl

/-! ### The invariant -/

variable (data : Service → Database → List E) (At : Service → Thread → Database → ℕ → σ → Prop)

/-- The cursor of a live enumeration is behind what it has handed out, which is the beginning
of its database. -/
structure Live (w : World scope Thread E σ) (t : Thread) (slot : EnumSlot scope) : Prop where
  cursor : At slot.svc t slot.db (w.walks (t, slot.claim)).items.length (w.mods slot.svc)
  items : (w.walks (t, slot.claim)).items <+: data slot.svc slot.db

/-- What an enumeration handed out: the beginning of its database, and all of it if it ended
with `NOTFOUND`. -/
structure Finished.Ok (f : Finished Thread Service E) : Prop where
  items : f.items <+: data f.claim.1 f.claim.2
  notFound : f.how = .ended ⟨statusNotfound, 0⟩ → f.items = data f.claim.1 f.claim.2

/-- All is well, but for the `n`th slot of the thread. -/
structure InvBut (w : World scope Thread E σ) (t : Thread) (n : ℕ) : Prop where
  slots : w.slots.Inv
  live : ∀ t' (n' : ℕ) slot', (w.slots.threads t').slots[n']? = some slot' → (t', n') ≠ (t, n) →
    Live data At w t' slot'
  finished : ∀ f ∈ w.finished, f.Ok data

structure Inv (w : World scope Thread E σ) : Prop where
  slots : w.slots.Inv
  live : ∀ t (n : ℕ) slot, (w.slots.threads t).slots[n]? = some slot → Live data At w t slot
  finished : ∀ f ∈ w.finished, f.Ok data

variable {data At}

omit [DecidableEq Thread] in
theorem Inv.but {w : World scope Thread E σ} (h : Inv data At w) (t : Thread) (n : ℕ) :
    InvBut data At w t n :=
  ⟨h.slots, fun t' n' slot' hn' _ => h.live t' n' slot' hn', h.finished⟩

/-- A step that opens and closes no enumeration. -/
theorem Inv.slots_step {w : World scope Thread E σ} (h : Inv data At w) {t : Thread}
    {c : Call Service} {slots : State scope Thread} (hstep : w.slots.step ⟨t, c⟩ = some slots)
    (hdrop : ∀ n, c ≠ .drop n) (hopened : c ≠ .setent true) : Inv data At { w with slots } := by
  obtain ⟨hlocal, -, hothers⟩ := State.step_eq_some hstep
  refine ⟨h.slots.step hstep, ?_, h.finished⟩
  intro t' n' slot' hn'
  have hsame : (slots.threads t').slots = (w.slots.threads t').slots := by
    by_cases ht : t' = t
    · subst ht
      exact slots_same hlocal hdrop hopened
    · rw [hothers t' ht]
  have hlive := h.live t' n' slot' (hsame ▸ hn')
  exact ⟨hlive.cursor, hlive.items⟩

variable {m : Service → Module Thread E σ κ}

/-- A call for another enumeration is not noticed. -/
theorem Live.touch (hm : ∀ svc, Serves (m svc) (scope svc) (data svc) (At svc))
    {w : World scope Thread E σ} {t t' : Thread} {slot slot' : EnumSlot scope}
    (h : Live data At w t' slot') (hapart : Apart (t', slot') (t, slot)) {s : σ}
    (hcall : (m slot.svc).Calls t slot.db (w.mods slot.svc) s) (walk : Walk E) :
    Live data At (w.touch t slot s walk) t' slot' := by
  have hkey : (t', slot'.claim) ≠ (t, slot.claim) := by
    intro heq
    obtain ⟨rfl, hclaim⟩ := Prod.mk.inj heq
    obtain ⟨hsvc, hdb⟩ := Prod.mk.inj hclaim
    exact (hapart hsvc).2 (Prod.ext rfl hdb)
  have hwalks : (w.touch t slot s walk).walks (t', slot'.claim) = w.walks (t', slot'.claim) :=
    Function.update_of_ne hkey _ _
  refine ⟨?_, hwalks.symm ▸ h.items⟩
  rw [hwalks]
  by_cases hsvc : slot'.svc = slot.svc
  · obtain ⟨hthread, hne⟩ := hapart hsvc
    have hcursor := h.cursor
    have hmods : (w.touch t slot s walk).mods slot.svc = s := Function.update_self _ _ _
    rw [hsvc] at hcursor ⊢
    rw [hmods]
    exact (hm slot.svc).apart hthread hne hcall hcursor
  · have hmods : (w.touch t slot s walk).mods slot'.svc = w.mods slot'.svc :=
      Function.update_of_ne hsvc _ _
    rw [hmods]
    exact h.cursor

namespace InvBut

variable {w w' : World scope Thread E σ} {t : Thread} {n : ℕ} {slot : EnumSlot scope}

omit [DecidableEq Thread] in
theorem inv (h : InvBut data At w t n)
    (hlive : ∀ slot, (w.slots.threads t).slots[n]? = some slot → Live data At w t slot) :
    Inv data At w := by
  refine ⟨h.slots, fun t' n' slot' hn' => ?_, h.finished⟩
  by_cases heq : (t', n') = (t, n)
  · obtain ⟨rfl, rfl⟩ := Prod.mk.inj heq
    exact hlive slot' hn'
  · exact h.live t' n' slot' hn' heq

/-- A call for the slot is not noticed by the others. -/
theorem touch (hm : ∀ svc, Serves (m svc) (scope svc) (data svc) (At svc))
    (h : InvBut data At w t n) (hn : (w.slots.threads t).held[n]? = some slot) {s : σ}
    (hcall : (m slot.svc).Calls t slot.db (w.mods slot.svc) s) (walk : Walk E) :
    InvBut data At (w.touch t slot s walk) t n where
  slots := h.slots
  live := fun t' n' slot' hn' hne =>
    (h.live t' n' slot' hn' hne).touch hm (apart_of_held h.slots (held_of_slots hn') hn hne)
      hcall walk
  finished := h.finished

/-- The slot is closed. -/
theorem close (hm : ∀ svc, Serves (m svc) (scope svc) (data svc) (At svc))
    (h : InvBut data At w t n) (hn : (w.slots.threads t).slots[n]? = some slot)
    {how : End} {k : κ}
    (hok : Finished.Ok data ⟨t, slot.claim, (w.walks (t, slot.claim)).items, how⟩)
    (hclose : w.close m t n slot how k = some w') : Inv data At w' := by
  obtain ⟨slots, hstep, rfl⟩ := Option.map_eq_some_iff.mp hclose
  obtain ⟨hlocal, -, hothers⟩ := State.step_eq_some hstep
  refine ⟨h.slots.step hstep, ?_, ?_⟩
  · intro t' n' slot' hn'
    -- the slot was there, and is not the one that was dropped
    have hbefore : ∃ i, (w.slots.threads t').slots[i]? = some slot' ∧ (t', i) ≠ (t, n) := by
      by_cases ht : t' = t
      · subst ht
        have hmem : slot' ∈ (w.slots.threads t').slots.eraseIdx n := by
          rw [← slots_drop hlocal]
          exact List.mem_of_getElem? hn'
        obtain ⟨i, hi, hslot⟩ := List.mem_eraseIdx_iff_getElem?.mp hmem
        exact ⟨i, hslot, fun heq => hi (congrArg Prod.snd heq)⟩
      · have hn' : (slots.threads t').slots[n']? = some slot' := hn'
        rw [hothers t' ht] at hn'
        exact ⟨n', hn', fun heq => ht (congrArg Prod.fst heq)⟩
    obtain ⟨i, hi, hne⟩ := hbefore
    have htouched := h.touch hm (held_of_slots hn) (.endent k) (w.walks (t, slot.claim))
    have hlive := htouched.live t' i slot' hi hne
    exact ⟨hlive.cursor, hlive.items⟩
  · intro f hf
    rcases List.mem_append.mp hf with hf | hf
    · exact h.finished f hf
    · rw [List.mem_singleton.mp hf]
      exact hok

/-- `set*ent` has succeeded, and the slot comes behind the others. -/
theorem opened (h : InvBut data At w t (w.slots.threads t).slots.length)
    (hpc : (w.slots.threads t).pc = .starting slot) (hlive : Live data At w t slot)
    {slots : State scope Thread} (hstep : w.slots.step ⟨t, .setent true⟩ = some slots) :
    Inv data At { w with slots } := by
  obtain ⟨hlocal, -, hothers⟩ := State.step_eq_some hstep
  refine ⟨h.slots.step hstep, ?_, h.finished⟩
  intro t' n' slot' hn'
  have hlive' : Live data At w t' slot' := by
    by_cases ht : t' = t
    · subst ht
      have hmem : slot' ∈ (w.slots.threads t').slots ++ [slot] := by
        rw [← slots_opened hpc hlocal]
        exact List.mem_of_getElem? hn'
      rcases List.mem_append.mp hmem with hold | hnew
      · obtain ⟨i, hi⟩ := List.getElem?_of_mem hold
        refine h.live t' i slot' hi fun heq => ?_
        have hlt := (List.getElem?_eq_some_iff.mp hi).1
        exact absurd (congrArg Prod.snd heq) hlt.ne
      · rw [List.mem_singleton.mp hnew]
        exact hlive
    · have hn' : (slots.threads t').slots[n']? = some slot' := hn'
      rw [hothers t' ht] at hn'
      exact h.live t' n' slot' hn' fun heq => ht (congrArg Prod.fst heq)
  exact ⟨hlive'.cursor, hlive'.items⟩

end InvBut

/-! ### One call of the module -/

/-- The enumeration that a call was made for, after it. -/
theorem Live.of_touch {w : World scope Thread E σ} {t : Thread} {slot : EnumSlot scope} {s : σ}
    {walk : Walk E} (hcursor : At slot.svc t slot.db walk.items.length s)
    (hitems : walk.items <+: data slot.svc slot.db) :
    Live data At (w.touch t slot s walk) t slot := by
  refine ⟨?_, ?_⟩
  · simp only [World.touch, Function.update_self]
    exact hcursor
  · simp only [World.touch, Function.update_self]
    exact hitems

/-- A beginning of a list and the entry behind it are a beginning. -/
theorem prefix_concat {l l' : List E} {e : E} (h : l' <+: l) (he : l[l'.length]? = some e) :
    l' ++ [e] <+: l := by
  obtain ⟨rest, rfl⟩ := h
  rw [List.getElem?_append_right le_rfl, Nat.sub_self] at he
  cases rest with
  | nil => cases he
  | cons e' rest =>
    cases he
    exact ⟨rest, by rw [List.append_assoc, List.singleton_append]⟩

namespace Inv

variable {w w' : World scope Thread E σ} {t : Thread} {n : ℕ} {slot : EnumSlot scope}

theorem setentStep (hm : ∀ svc, Serves (m svc) (scope svc) (data svc) (At svc))
    (h : Inv data At w) (hpc : (w.slots.threads t).pc = .starting slot) {k : κ}
    (hstep : w.setentStep m t slot k = some w') : Inv data At w' := by
  obtain ⟨slots, hslots, rfl⟩ := Option.map_eq_some_iff.mp hstep
  have htouched := (h.but t (w.slots.threads t).slots.length).touch hm (held_of_starting hpc)
    (.setent k) ⟨[], initialBuflen⟩
  by_cases hok : ((m slot.svc).setent t slot.db k (w.mods slot.svc)).1.status = statusSuccess
  · rw [decide_eq_true hok] at hslots
    have hlive : Live data At (w.touch t slot _ ⟨[], initialBuflen⟩) t slot :=
      Live.of_touch ((hm slot.svc).setent hok) List.nil_prefix
    exact htouched.opened hpc hlive hslots
  · rw [decide_eq_false hok] at hslots
    have hinv := htouched.inv fun slot' hn' =>
      absurd (List.getElem?_eq_some_iff.mp hn').1 (lt_irrefl _)
    exact hinv.slots_step hslots (fun _ => nofun) nofun

theorem getentStep (hm : ∀ svc, Serves (m svc) (scope svc) (data svc) (At svc))
    (name : Service → String) (h : Inv data At w)
    (hn : (w.slots.threads t).slots[n]? = some slot) {k k' : κ}
    (hstep : w.getentStep m name t n slot k k' = some w') : Inv data At w' := by
  obtain ⟨hcursor, hitems⟩ := h.live t n slot hn
  rw [World.getentStep] at hstep
  set walk := w.walks (t, slot.claim) with hwalk
  set r := (m slot.svc).getent t slot.db walk.buf k (w.mods slot.svc) with hr
  -- whatever the module did, the others have not noticed
  have htouched := fun walk' => (h.but t n).touch hm (held_of_slots hn) (.getent walk.buf k) walk'
  have hafter : (w.touch t slot r.2.2 walk).walks (t, slot.claim) = walk :=
    Function.update_self _ _ _
  -- and it goes on with the cursor behind what was handed out
  have hon : ∀ walk' : Walk E, At slot.svc t slot.db walk'.items.length r.2.2 →
      walk'.items <+: data slot.svc slot.db → Inv data At (w.touch t slot r.2.2 walk') := by
    intro walk' hcursor' hitems'
    refine (htouched walk').inv fun slot' hn' => ?_
    obtain rfl : slot = slot' := Option.some.inj (hn.symm.trans hn')
    exact Live.of_touch hcursor' hitems'
  -- or comes to its end
  have hends : ∀ how, Finished.Ok data ⟨t, slot.claim, walk.items, how⟩ →
      (w.touch t slot r.2.2 walk).close m t n slot how k' = some w' → Inv data At w' := by
    intro how hok hclose
    refine (htouched walk).close hm hn ?_ hclose
    rw [hafter]
    exact hok
  split at hstep
  · next hretry =>
    cases hstep
    exact hon _ ((hm slot.svc).retry hcursor hretry.1) hitems
  · by_cases hfault : r.1.errno ≠ 0 ∨ r.1.status = statusTryagain
    · rw [classifyEnt, if_pos hfault] at hstep
      exact hends _ ⟨hitems, by nofun⟩ hstep
    · obtain ⟨herrno, -⟩ := not_or.mp hfault
      have herrno : r.1.errno = 0 := not_not.mp herrno
      rw [classifyEnt, if_neg hfault] at hstep
      by_cases hsuccess : r.1.status = statusSuccess
      · rw [decide_eq_true hsuccess] at hstep
        cases hstep
        have hanswer : r.1 = ⟨statusSuccess, 0⟩ := by rw [← hsuccess, ← herrno]
        obtain ⟨hentry, hmoved⟩ := (hm slot.svc).entry hcursor hanswer
        refine hon _ ?_ (prefix_concat hitems hentry)
        rw [List.length_append]
        exact hmoved
      · rw [decide_eq_false hsuccess] at hstep
        refine hends _ ⟨hitems, fun hhow => ?_⟩ hstep
        -- the database has no entry behind what was handed out
        have hnone := (hm slot.svc).notFound hcursor (End.ended.inj hhow)
        exact hitems.eq_of_length_le (List.getElem?_eq_none_iff.mp hnone)

/-- **What one step keeps.** -/
theorem step (hm : ∀ svc, Serves (m svc) (scope svc) (data svc) (At svc))
    (name : Service → String) {ev : Event Thread Service κ} (h : Inv data At w)
    (hstep : w.step m name ev = some w') : Inv data At w' := by
  unfold World.step at hstep
  split at hstep
  · cases hstep
  · cases hstep
  · next hsetent hdrop =>
    obtain ⟨slots, hslots, rfl⟩ := Option.map_eq_some_iff.mp hstep
    exact h.slots_step hslots hdrop (hsetent true)
  · split at hstep
    · next hpc => exact h.setentStep hm hpc hstep
    · cases hstep
  · split at hstep
    · next hn => exact h.getentStep hm name hn hstep
    · cases hstep
  · split at hstep
    · next hn => exact (h.but _ _).close hm hn ⟨(h.live _ _ _ hn).items, by nofun⟩ hstep
    · cases hstep

end Inv

/-- What every enumeration has handed out. -/
structure Exact (data : Service → Database → List E) (w : World scope Thread E σ) : Prop where
  /-- one that is open has handed out the beginning of its database -/
  live : ∀ t slot, slot ∈ (w.slots.threads t).slots →
    (w.walks (t, slot.claim)).items <+: data slot.svc slot.db
  /-- so has one that is over, -/
  finished : ∀ f ∈ w.finished, f.items <+: data f.claim.1 f.claim.2
  /-- and all of it if the module ended it with `NOTFOUND` and no errno -/
  notFound : ∀ f ∈ w.finished, f.how = .ended ⟨statusNotfound, 0⟩ →
    f.items = data f.claim.1 f.claim.2

/-- **Enumerations by any number of threads do not disturb each other**, over modules that serve
databases which do not change. -/
theorem enumerations_exact (hm : ∀ svc, Serves (m svc) (scope svc) (data svc) (At svc))
    {name : Service → String} {mods : Service → σ} {w : World scope Thread E σ}
    (h : (system scope m name mods).Reachable w) : Exact data w := by
  have hinv : Inv data At w := by
    refine h.invariant ⟨?_, ?_, ?_⟩ fun _ _ _ hw hstep => hw.step hm name hstep
    · exact State.inv_of_reachable .init
    · intro t n slot hn
      cases hn
    · intro f hf
      cases hf
  refine ⟨fun t slot hslot => ?_, fun f hf => (hinv.finished f hf).items, fun f hf hhow => ?_⟩
  · obtain ⟨n, hn⟩ := List.getElem?_of_mem hslot
    exact (hinv.live t n slot hn).items
  · exact (hinv.finished f hf).notFound hhow

end Model

/-! ### A module -/

/-- A cursor of the process, or one of each thread and database. -/
def cursorOf (scope : EntScope) (t : Bool) (db : Database) : Option (Bool × Database) :=
  match scope with
  | .process => none
  | .thread => some (t, db)

/-- A module with such cursors over a list of numbers, of which each takes as many bytes as it
says.  It may decide that its source has gone away, without an errno. -/
def listModule (scope : EntScope) (data : List ℕ) :
    Module Bool ℕ (Option (Bool × Database) → Option (Database × ℕ)) Bool where
  setent t db _ s := (⟨statusSuccess, 0⟩, Function.update s (cursorOf scope t db) (some (db, 0)))
  getent t db len gone s :=
    match s (cursorOf scope t db) with
    | none => (⟨statusUnavail, 0⟩, 0, s)
    | some (_, n) =>
      if gone then (⟨statusUnavail, 0⟩, 0, s)
      else
        match data[n]? with
        | none => (⟨statusNotfound, 0⟩, 0, s)
        | some e =>
          if e ≤ len then
            (⟨statusSuccess, 0⟩, e, Function.update s (cursorOf scope t db) (some (db, n + 1)))
          else (⟨statusTryagain, erange⟩, 0, s)
  endent t db _ s := (⟨statusSuccess, 0⟩, Function.update s (cursorOf scope t db) none)

theorem listModule_serves (scope : EntScope) (data : List ℕ) :
    Serves (listModule scope data) scope (fun _ => data)
      (fun t db n s => s (cursorOf scope t db) = some (db, n)) where
  setent _ := Function.update_self _ _ _
  entry {t db n len k s} hat hanswer := by
    simp only [listModule, hat] at hanswer ⊢
    split at hanswer
    · cases hanswer
    split at hanswer
    · cases hanswer
    · next hgone _ e he =>
      split at hanswer
      · next hfits =>
        simp only [if_neg hgone, he, if_pos hfits]
        exact ⟨trivial, Function.update_self _ _ _⟩
      · cases hanswer
  retry {t db n len k s} hat hretry := by
    simp only [listModule, hat] at hretry ⊢
    split
    · exact hat
    split
    · exact hat
    · next hgone _ e he =>
      split
      · next hfits =>
        simp only [if_neg hgone, he, if_pos hfits] at hretry
        exact absurd hretry.1 (by decide)
      · exact hat
  notFound {t db n len k s} hat hanswer := by
    simp only [listModule, hat] at hanswer
    split at hanswer
    · cases hanswer
    split at hanswer
    · next hnone => exact hnone
    · split at hanswer <;> cases hanswer
  apart {t db t' db' n s s'} hthread hne hcall hat := by
    subst hthread
    have hkey : cursorOf .thread t' db' ≠ cursorOf .thread t db :=
      fun heq => hne (Option.some.inj heq)
    cases hcall with
    | setent k => exact (Function.update_of_ne hkey _ _).trans hat
    | endent k => exact (Function.update_of_ne hkey _ _).trans hat
    | getent len k =>
      simp only [listModule]
      split
      · exact hat
      split
      · exact hat
      split
      · exact hat
      split
      · exact (Function.update_of_ne hkey _ _).trans hat
      · exact hat

/-- Two threads over a module of each kind with two entries, of which the second does not fit
into the first buffer. -/
def twoThreads : System (World id Bool ℕ (Option (Bool × Database) → Option (Database × ℕ)))
    (Event Bool EntScope Bool) :=
  system id (fun scope => listModule scope [10, 2000]) (fun _ => "FILES") fun _ _ => none

/-- One thread walks the users of the first module while the other wants the groups, and has to
wait for its end; then its module goes away.  Both walk the users of the second module at
once. -/
def contend : List (Event Bool EntScope Bool) :=
  [.slot true (.acquire .process .passwd), .slot true .lock,
    .slot false (.acquire .process .group), .setent true false,
    .getent true 0 false false, .getent true 0 false false, .getent true 0 false false,
    .getent true 0 false false, .slot true .release,
    .slot false .lock, .setent false false, .getent false 0 false false,
    .getent false 0 true false, .slot false .release,
    .slot true (.acquire .thread .passwd), .setent true false,
    .getent true 0 false false,
    .slot false (.acquire .thread .passwd), .setent false false,
    .getent false 0 false false, .getent true 0 false false, .getent true 0 false false]

theorem enumerations_exact_contend : ∃ w, twoThreads.run twoThreads.init contend = some w ∧
    w.finished.map (fun f => (f.items, f.how)) =
      [([10, 2000], .ended ⟨statusNotfound, 0⟩), ([10], .ended ⟨statusUnavail, 0⟩)] ∧
    (w.walks (true, (.thread, .passwd))).items = [10, 2000] ∧
    (w.walks (false, (.thread, .passwd))).items = [10] ∧
    Exact (fun _ _ => [10, 2000]) w := by
  have hinit : twoThreads.Reachable twoThreads.init := .init
  exact ⟨_, rfl, rfl, rfl, rfl, enumerations_exact (fun scope => listModule_serves scope _)
    (hinit.run (rfl : twoThreads.run _ contend = some _))⟩

end Nss.Enumerate
