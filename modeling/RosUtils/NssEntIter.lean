/-
The life of an enumeration of an NSS module (`EntIter`, `truenas_nss/src/service.rs`).

An `EntIter` owns the slot of its enumeration.  It asks the module for one entry at a
time, in a buffer that it keeps, and is closed when the module has no more, when a call
faults, or when it is dropped.  Everything that reaches the module, and the release of
the slot, is noted in a log.

* `EntIter.next`, `EntIter.close` — the iterator, against any module;
* `next_open`, `next_closed`, `close_open` — all that one step can do;
* `Progress` — what the log and the items look like after any number of steps;
* `enumeration_lifeCycle`, `growth_exact` — a whole walk, and its buffer.
-/
import RosUtils.NssCall
import RosUtils.NssEnumSlot

namespace Nss

/-! ### The module and the log -/

/-- The functions of a module, over a state of its own.  `getent` is given the entry as the
last call left it, and the length of the buffer. -/
structure Module (σ C : Type) where
  getent : σ → C → ℕ → Answer × C × σ
  endent : σ → Answer × σ

/-- One `get*ent_r` call: the buffer it was given, what it reported, and the entry. -/
structure Got (C : Type) where
  len : ℕ
  answer : Answer
  entry : C

section Walk

variable {Service : Type} [DecidableEq Service] {scope : Service → EntScope} {σ C T : Type}

variable (scope C) in
/-- What an enumeration does to the world. -/
inductive Act where
  | getent (g : Got C)
  | endent (a : Answer)
  | release (slot : EnumSlot scope)

variable (scope σ C) in
/-- The module, the thread's table of live enumerations, and the log. -/
structure World where
  mod : σ
  live : Option (List (Claim Service))
  log : List (Act scope C)

/-- What the drop of a slot does to the table `LIVE`. -/
def unclaim (live : Option (List (Claim Service))) (slot : EnumSlot scope) :
    Option (List (Claim Service)) :=
  live.map (·.filter fun c => !(c.1 == slot.svc && c.2 == slot.db))

namespace World

/-- A `get*ent_r` call. -/
def getent (m : Module σ C) : Callback (C × World scope σ C) := fun s len =>
  let (a, entry, mod) := m.getent s.2.mod s.1 len
  (a, entry, { s.2 with mod, log := s.2.log ++ [.getent ⟨len, a, entry⟩] })

/-- An `end*ent` call. -/
def endent (m : Module σ C) (w : World scope σ C) : Answer × World scope σ C :=
  let (a, mod) := m.endent w.mod
  (a, { w with mod, log := w.log ++ [.endent a] })

/-- `Drop for EnumSlot`. -/
def release (w : World scope σ C) (slot : EnumSlot scope) : World scope σ C :=
  { w with live := unclaim w.live slot, log := w.log ++ [.release slot] }

end World

/-- `call_ent`, of the `set*ent` and `end*ent` calls. -/
def callEnt (module op : String) (r : Answer × World scope σ C) :
    Except Error Unit × World scope σ C :=
  if r.1.status = statusSuccess then (.ok (), r.2)
  else (.error (.call module op r.1.status r.1.errno), r.2)

omit [DecidableEq Service] in
theorem callEnt_world (module op : String) (r : Answer × World scope σ C) :
    (callEnt module op r).2 = r.2 := by
  rw [callEnt]
  split <;> rfl

/-! ### The iterator -/

/-- What is the same for all enumerations of a service. -/
structure Ent (Service σ C T : Type) where
  /-- `svc.module()` -/
  module : Service → String
  /-- `svc.source()` -/
  source : Service → Source
  mod : Module σ C
  getentOp : String
  endentOp : String
  extract : C → Source → Except Error T
  /-- the entry struct, all zero -/
  zeroed : C

variable (scope) in
/-- `EntIter`: the slot, while the enumeration is open, and the buffer. -/
structure EntIter where
  slot : Option (EnumSlot scope)
  buf : ℕ

namespace EntIter

/-- `EntIter::new`. -/
def new (slot : EnumSlot scope) : EntIter scope := ⟨some slot, initialBuflen⟩

variable (ent : Ent Service σ C T)

/-- `EntIter::close`: the cursor is reset while the slot still excludes other enumerations,
then the slot drops. -/
def close (it : EntIter scope) (w : World scope σ C) : EntIter scope × World scope σ C :=
  match it.slot with
  | some slot =>
    let r := callEnt (ent.module slot.svc) ent.endentOp (w.endent ent.mod)
    ({ it with slot := none }, r.2.release slot)
  | none => (it, w)

/-- `Iterator::next`. -/
def next (it : EntIter scope) (w : World scope σ C) :
    Option (Except Error T) × EntIter scope × World scope σ C :=
  match it.slot with
  | none => (none, it, w)
  | some slot =>
    let r := growAndCall (World.getent ent.mod) (ent.zeroed, w) it.buf
    let it := { it with buf := r.len }
    match classifyEnt (ent.module slot.svc) ent.getentOp r.answer with
    -- a fault leaves the cursor where it was: surface it once and close
    | .error e => (some (.error e), it.close ent r.state.2)
    | .ok false => (none, it.close ent r.state.2)
    | .ok true => (some (ent.extract r.state.1 (ent.source slot.svc)), it, r.state.2)

/-- So many `next` calls, and what they return. -/
def nexts (it : EntIter scope) (w : World scope σ C) :
    ℕ → List (Option (Except Error T)) × EntIter scope × World scope σ C
  | 0 => ([], it, w)
  | n + 1 =>
    let (os, it, w) := nexts it w n
    let (o, it, w) := it.next ent w
    (os ++ [o], it, w)

/-- `Drop for EntIter`. -/
def drop (it : EntIter scope) (w : World scope σ C) : World scope σ C := (it.close ent w).2

end EntIter

/-! ### What the calls report -/

namespace Got

/-- The answer is not one for which the call is made again with a larger buffer. -/
def Settled (g : Got C) : Prop := ¬ (g.answer.Retry ∧ g.len < maxBuflen)

instance (g : Got C) : Decidable g.Settled := inferInstanceAs (Decidable (¬ (_ ∧ _)))

/-- The call faulted. -/
def Fault (g : Got C) : Prop := g.answer.errno ≠ 0 ∨ g.answer.status = statusTryagain

instance (g : Got C) : Decidable g.Fault := inferInstanceAs (Decidable (_ ∨ _))

/-- The call reported an entry. -/
def Entry (g : Got C) : Prop := ¬ g.Fault ∧ g.answer.status = statusSuccess

instance (g : Got C) : Decidable g.Entry := inferInstanceAs (Decidable (_ ∧ _))

/-- The item for it: the converted entry, or the fault; none where the data is over. -/
def item (ent : Ent Service σ C T) (svc : Service) (g : Got C) :
    Option (Except Error T) :=
  if g.Fault then
    some (.error (.call (ent.module svc) ent.getentOp g.answer.status g.answer.errno))
  else if g.answer.status = statusSuccess then some (ent.extract g.entry (ent.source svc))
  else none

theorem classify_fault {g : Got C} (h : g.Fault) (module op : String) :
    classifyEnt module op g.answer = .error (.call module op g.answer.status g.answer.errno) :=
  if_pos h

theorem classify_not_fault {g : Got C} (h : ¬ g.Fault) (module op : String) :
    classifyEnt module op g.answer = .ok (g.answer.status = statusSuccess) := if_neg h

end Got

/-- The calls that were not made again. -/
def reports (gets : List (Got C)) : List (Got C) := gets.filter fun g => g.Settled

/-! ### One step -/

variable (ent : Ent Service σ C T)

/-- A call of the loop, as it stands in the log. -/
def Attempt.got (c : Attempt (C × World scope σ C)) : Got C := ⟨c.len, c.answer, c.state.1⟩

namespace EntIter

/-- What the loop of a `next` call leaves. -/
def asked (it : EntIter scope) (w : World scope σ C) : Grown (C × World scope σ C) :=
  growAndCall (World.getent ent.mod) (ent.zeroed, w) it.buf

/-- The calls it made. -/
def gets (it : EntIter scope) (w : World scope σ C) : List (Got C) :=
  (calls (World.getent ent.mod) (ent.zeroed, w) it.buf).map Attempt.got

/-- The one that was not made again. -/
def report (it : EntIter scope) (w : World scope σ C) : Got C :=
  ⟨(it.asked ent w).len, (it.asked ent w).answer, (it.asked ent w).state.1⟩

variable (it : EntIter scope) (w : World scope σ C)

omit [DecidableEq Service] in
theorem log_asked :
    (it.asked ent w).state.2.log = w.log ++ (it.gets ent w).map .getent := by
  have hlog := growAndCall_log (World.getent ent.mod) (fun s => s.2.log)
    (fun c => Act.getent c.got) (fun _ _ => rfl) (ent.zeroed, w) it.buf
  rw [asked, hlog, gets, List.map_map]
  rfl

omit [DecidableEq Service] in
theorem live_asked : (it.asked ent w).state.2.live = w.live :=
  growAndCall_keeps (World.getent ent.mod) (P := fun s => s.2.live = w.live)
    (fun _ _ h => h) (ent.zeroed, w) it.buf rfl

omit [DecidableEq Service] in
/-- Of the calls of one step all but the last were made again. -/
theorem reports_gets : reports (it.gets ent w) = [it.report ent w] := by
  obtain ⟨front, last, hcalls, hfront, hlast, hresult⟩ :=
    calls_eq (World.getent ent.mod) (ent.zeroed, w) it.buf
  have hreport : it.report ent w = last.got := by
    rw [report, asked, hresult]
    rfl
  have hgone : (front.map Attempt.got).filter (fun g => g.Settled) = [] := by
    refine List.filter_eq_nil_iff.mpr ?_
    intro g hg
    obtain ⟨c, hc, rfl⟩ := List.mem_map.mp hg
    rw [decide_eq_true_eq]
    exact not_not.mpr (hfront c hc)
  have hkept : [last.got].filter (fun g => g.Settled) = [last.got] :=
    List.filter_cons_of_pos (decide_eq_true hlast)
  rw [reports, gets, hcalls, List.map_append, List.filter_append, hgone, hreport]
  exact hkept

variable {it w}

/-- **A step of an open enumeration** yields the item for what was reported, and closes the
enumeration unless that was an entry. -/
theorem next_open {slot : EnumSlot scope} (h : it.slot = some slot) :
    it.next ent w = ((it.report ent w).item ent slot.svc,
      if (it.report ent w).Entry then ({ it with buf := (it.asked ent w).len },
        (it.asked ent w).state.2)
      else close ent { it with buf := (it.asked ent w).len } (it.asked ent w).state.2) := by
  have hasked : growAndCall (World.getent ent.mod) (ent.zeroed, w) it.buf = it.asked ent w := rfl
  have hanswer : (it.asked ent w).answer = (it.report ent w).answer := rfl
  rw [next, h]
  dsimp only
  rw [hasked, hanswer]
  -- the fault is looked at before the status, as `classify_ent` does
  by_cases hfault : (it.report ent w).Fault
  · have hentry : ¬ (it.report ent w).Entry := fun he => he.1 hfault
    rw [Got.classify_fault hfault, if_neg hentry, Got.item, if_pos hfault]
  · rw [Got.classify_not_fault hfault, Got.item, if_neg hfault]
    by_cases hstatus : (it.report ent w).answer.status = statusSuccess
    · rw [decide_eq_true hstatus, if_pos hstatus, if_pos ⟨hfault, hstatus⟩]
      rfl
    · have hentry : ¬ (it.report ent w).Entry := fun he => hstatus he.2
      rw [decide_eq_false hstatus, if_neg hstatus, if_neg hentry]

/-- A closed enumeration stays as it is. -/
theorem next_closed (h : it.slot = none) : it.next ent w = (none, it, w) := by
  rw [next, h]

theorem close_closed (h : it.slot = none) : it.close ent w = (it, w) := by
  rw [close, h]

/-- **Closing** calls `end*ent` and then releases the slot. -/
theorem close_open {slot : EnumSlot scope} (h : it.slot = some slot) :
    ∃ a mod, it.close ent w = ({ it with slot := none },
      { mod, live := unclaim w.live slot, log := w.log ++ [.endent a, .release slot] }) := by
  refine ⟨(ent.mod.endent w.mod).1, (ent.mod.endent w.mod).2, ?_⟩
  rw [close, h]
  dsimp only
  rw [callEnt_world, World.release, World.endent, List.append_assoc]
  rfl

end EntIter

/-! ### A whole walk -/

omit [DecidableEq Service] in
theorem reports_append (gets more : List (Got C)) :
    reports (gets ++ more) = reports gets ++ reports more := List.filter_append ..

/-- Where a walk is, and what it has yielded; `w₀` is where it began. -/
inductive Progress (slot : EnumSlot scope) (w₀ : World scope σ C) :
    List (Option (Except Error T)) → EntIter scope → World scope σ C → Prop
  /-- every report was an entry -/
  | open_ {it : EntIter scope} {w : World scope σ C} (gets : List (Got C))
      (hslot : it.slot = some slot) (hlog : w.log = w₀.log ++ gets.map .getent)
      (hlive : w.live = w₀.live) (hentries : ∀ g ∈ reports gets, g.Entry) :
      Progress slot w₀ ((reports gets).map (Got.item ent slot.svc)) it w
  /-- the last report was the end or a fault, and the enumeration was closed on it -/
  | closed {it : EntIter scope} {w : World scope σ C} (gets : List (Got C))
      (front : List (Got C)) (last : Got C) (a : Answer) (k : ℕ)
      (hslot : it.slot = none)
      (hlog : w.log = w₀.log ++ gets.map .getent ++ [.endent a, .release slot])
      (hlive : w.live = unclaim w₀.live slot)
      (hreports : reports gets = front ++ [last]) (hentries : ∀ g ∈ front, g.Entry)
      (hlast : ¬ last.Entry) :
      Progress slot w₀ ((reports gets).map (Got.item ent slot.svc) ++ List.replicate k none) it w

namespace Progress

variable {ent} {slot : EnumSlot scope} {w₀ : World scope σ C}
  {os : List (Option (Except Error T))} {it : EntIter scope} {w : World scope σ C}

/-- **One more `next` call.** -/
theorem next (h : Progress ent slot w₀ os it w) :
    Progress ent slot w₀ (os ++ [(it.next ent w).1]) (it.next ent w).2.1 (it.next ent w).2.2 := by
  cases h with
  | closed gets front last a k hslot hlog hlive hreports hentries hlast =>
    -- one more `None`, and nothing else
    rw [EntIter.next_closed ent hslot, List.append_assoc, ← List.replicate_succ']
    exact .closed gets front last a (k + 1) hslot hlog hlive hreports hentries hlast
  | open_ gets hslot hlog hlive hentries =>
    have hlog' : (it.asked ent w).state.2.log =
        w₀.log ++ (gets ++ it.gets ent w).map .getent := by
      rw [it.log_asked ent w, hlog, List.append_assoc, List.map_append]
    have hlive' : (it.asked ent w).state.2.live = w₀.live := (it.live_asked ent w).trans hlive
    have hreports : reports (gets ++ it.gets ent w) = reports gets ++ [it.report ent w] := by
      rw [reports_append, it.reports_gets ent w]
    have hitems : (reports gets).map (Got.item ent slot.svc) ++
        [(it.report ent w).item ent slot.svc] =
          (reports (gets ++ it.gets ent w)).map (Got.item ent slot.svc) := by
      rw [hreports, List.map_append, List.map_singleton]
    rw [EntIter.next_open ent hslot, hitems]
    by_cases hentry : (it.report ent w).Entry
    · -- one more entry, and the walk goes on
      rw [if_pos hentry]
      refine .open_ (gets ++ it.gets ent w) hslot hlog' hlive' ?_
      rw [hreports]
      exact List.forall_mem_append.mpr ⟨hentries, List.forall_mem_singleton.mpr hentry⟩
    · -- a fault, or the end: the enumeration is closed
      have hslot' : EntIter.slot { it with buf := (it.asked ent w).len } = some slot := hslot
      obtain ⟨a, mod, hclose⟩ := EntIter.close_open ent (w := (it.asked ent w).state.2) hslot'
      rw [if_neg hentry, hclose, hlog', hlive', ← List.append_nil (List.map _ _)]
      exact .closed (gets ++ it.gets ent w) (reports gets) (it.report ent w) a 0 rfl rfl rfl
        hreports hentries hentry

theorem nexts (slot : EnumSlot scope) (w : World scope σ C) (n : ℕ) :
    Progress ent slot w ((EntIter.new slot).nexts ent w n).1 ((EntIter.new slot).nexts ent w n).2.1
      ((EntIter.new slot).nexts ent w n).2.2 := by
  induction n with
  | zero => exact .open_ [] rfl (List.append_nil _).symm rfl (List.forall_mem_nil _)
  | succ n ih => exact ih.next

/-- **The drop closes what is still open.** -/
theorem drop (h : Progress ent slot w₀ os it w) :
    ∃ (gets : List (Got C)) (a : Answer) (k : ℕ),
      (it.drop ent w).log = w₀.log ++ gets.map .getent ++ [.endent a, .release slot] ∧
      (it.drop ent w).live = unclaim w₀.live slot ∧
      os = (reports gets).map (Got.item ent slot.svc) ++ List.replicate k none ∧
      (∀ g ∈ (reports gets).dropLast, g.Entry) ∧
      (k ≠ 0 → ∃ g, (reports gets).getLast? = some g ∧ ¬ g.Entry) := by
  cases h with
  | open_ gets hslot hlog hlive hentries =>
    obtain ⟨a, mod, hclose⟩ := EntIter.close_open ent (w := w) hslot
    refine ⟨gets, a, 0, ?_, ?_, (List.append_nil _).symm, ?_, fun h => absurd rfl h⟩
    · rw [EntIter.drop, hclose, hlog]
    · rw [EntIter.drop, hclose, hlive]
    · exact fun g hg => hentries g (List.mem_of_mem_dropLast hg)
  | closed gets front last a k hslot hlog hlive hreports hentries hlast =>
    refine ⟨gets, a, k, ?_, ?_, rfl, ?_, fun _ => ⟨last, ?_, hlast⟩⟩
    · rw [EntIter.drop, EntIter.close_closed ent hslot, hlog]
    · rw [EntIter.drop, EntIter.close_closed ent hslot, hlive]
    · rw [hreports, List.dropLast_concat]
      exact hentries
    · rw [hreports, List.getLast?_concat]

end Progress

/-- So many `next` calls, and the drop. -/
def EntIter.walk (slot : EnumSlot scope) (w : World scope σ C) (n : ℕ) :
    List (Option (Except Error T)) × World scope σ C :=
  let (os, it, w) := (EntIter.new slot).nexts ent w n
  (os, it.drop ent w)

theorem length_nexts (it : EntIter scope) (w : World scope σ C) (n : ℕ) :
    (it.nexts ent w n).1.length = n := by
  induction n with
  | zero => rfl
  | succ n ih => rw [EntIter.nexts, List.length_append, ih, List.length_singleton]

/-- The life of an enumeration, where `gets` are the `get*ent_r` calls that were made and
`reports gets` those that were not made again for want of room. -/
structure LifeCycle (slot : EnumSlot scope) (w : World scope σ C) (n : ℕ) (gets : List (Got C)) :
    Prop where
  /-- `end*ent` is called once, after every other call of the module, and then the slot is
  released, once -/
  log : ∃ a, (EntIter.walk ent slot w n).2.log =
    w.log ++ gets.map .getent ++ [.endent a, .release slot]
  live : (EntIter.walk ent slot w n).2.live = unclaim w.live slot
  /-- each `next` returns an item for what was reported to it, in order: the entry,
  converted or as the failure to convert it, or the fault; and nothing for ever after -/
  yields : ∃ k, (EntIter.walk ent slot w n).1 =
      (reports gets).map (Got.item ent slot.svc) ++ List.replicate k none ∧
    (k ≠ 0 → ∃ g, (reports gets).getLast? = some g ∧ ¬ g.Entry)
  length : (EntIter.walk ent slot w n).1.length = n
  /-- only the last report is not an entry: there is one fault at most, and it is last -/
  entries : ∀ g ∈ (reports gets).dropLast, g.Entry

/-- **Against every module, any number of `next` calls and a drop are one life cycle.** -/
theorem enumeration_lifeCycle (slot : EnumSlot scope) (w : World scope σ C) (n : ℕ) :
    ∃ gets, LifeCycle ent slot w n gets := by
  obtain ⟨gets, a, k, hlog, hlive, hyields, hentries, hlast⟩ :=
    (Progress.nexts slot w n).drop
  exact ⟨gets, ⟨a, hlog⟩, hlive, ⟨k, hyields, hlast⟩, length_nexts ent _ w n, hentries⟩

/-! ### The buffer of a walk -/

theorem buf_close (it : EntIter scope) (w : World scope σ C) : (it.close ent w).1.buf = it.buf := by
  cases hslot : it.slot with
  | none => rw [EntIter.close_closed ent hslot]
  | some slot =>
    obtain ⟨a, mod, hclose⟩ := EntIter.close_open ent (w := w) hslot
    rw [hclose]

/-- A step leaves a buffer that can be kept. -/
theorem kept_next {it : EntIter scope} (h : Kept it.buf) (w : World scope σ C) :
    Kept (it.next ent w).2.1.buf := by
  cases hslot : it.slot with
  | none =>
    rw [EntIter.next_closed ent hslot]
    exact h
  | some slot =>
    have hasked : Kept (it.asked ent w).len := h.growAndCall _ _
    rw [EntIter.next_open ent hslot]
    by_cases hentry : (it.report ent w).Entry
    · rw [if_pos hentry]
      exact hasked
    · rw [if_neg hentry, buf_close]
      exact hasked

theorem kept_nexts (slot : EnumSlot scope) (w : World scope σ C) (n : ℕ) :
    Kept ((EntIter.new slot).nexts ent w n).2.1.buf := by
  induction n with
  | zero => exact kept_initial
  | succ n ih => exact kept_next ent ih _

/-- What one `next` call adds to the log: the `get*ent_r` calls, and what closes. -/
structure NextBounded (it : EntIter scope) (w : World scope σ C) : Prop where
  buf : (it.next ent w).2.1.buf ≤ maxBuflen
  calls : ∃ (gets : List (Got C)) (rest : List (Act scope C)),
    (it.next ent w).2.2.log = w.log ++ gets.map .getent ++ rest ∧
    (∀ g, .getent g ∉ rest) ∧ gets.length ≤ 15 ∧ ∀ g ∈ gets, g.len ≤ maxBuflen

omit [DecidableEq Service] in
theorem EntIter.gets_kept {it : EntIter scope} (h : Kept it.buf) (w : World scope σ C) :
    (it.gets ent w).length ≤ 15 ∧ ∀ g ∈ it.gets ent w, g.len ≤ maxBuflen := by
  obtain ⟨k, hk, hbuf⟩ := h
  obtain ⟨hkept, hcount⟩ := calls_kept (World.getent ent.mod) (ent.zeroed, w) it.buf k hk hbuf
  rw [gets, List.length_map]
  refine ⟨by omega, ?_⟩
  intro g hg
  obtain ⟨c, hc, rfl⟩ := List.mem_map.mp hg
  exact (hkept c hc).le

theorem nextBounded {it : EntIter scope} (h : Kept it.buf) (w : World scope σ C) :
    NextBounded ent it w where
  buf := (kept_next ent h w).le
  calls := by
    cases hslot : it.slot with
    | none =>
      refine ⟨[], [], ?_, fun g => List.not_mem_nil, by simp, List.forall_mem_nil _⟩
      rw [EntIter.next_closed ent hslot, List.map_nil, List.append_nil, List.append_nil]
    | some slot =>
      obtain ⟨hcount, hlen⟩ := it.gets_kept ent h w
      rw [EntIter.next_open ent hslot]
      by_cases hentry : (it.report ent w).Entry
      · refine ⟨it.gets ent w, [], ?_, fun g => List.not_mem_nil, hcount, hlen⟩
        rw [if_pos hentry, List.append_nil]
        exact it.log_asked ent w
      · have hslot' : EntIter.slot { it with buf := (it.asked ent w).len } = some slot := hslot
        obtain ⟨a, mod, hclose⟩ := EntIter.close_open ent (w := (it.asked ent w).state.2) hslot'
        refine ⟨it.gets ent w, [.endent a, .release slot], ?_, ?_, hcount, hlen⟩
        · rw [if_neg hentry, hclose, it.log_asked ent w]
        · intro g hg
          cases hg with
          | tail _ hg =>
            cases hg with
            | tail _ hg => cases hg

end Walk

/-- **The growth of a buffer**: what one sequence of calls does from any length, its bounds
from a length of 1024, and the same bounds at every step of an enumeration that keeps its
buffer. -/
theorem growth_exact :
    (∀ (σ : Type) (call : Callback σ) (s : σ) (len : ℕ), GrowthExact call s len) ∧
    (∀ (σ : Type) (call : Callback σ) (s : σ),
      (record call s initialBuflen).length ≤ 15 ∧
        ∀ c ∈ record call s initialBuflen, c.1 ≤ maxBuflen) ∧
    (∀ (Service σ C T : Type) [DecidableEq Service] (scope : Service → EntScope)
      (ent : Ent Service σ C T) (slot : EnumSlot scope) (w : World scope σ C) (n : ℕ),
      NextBounded ent ((EntIter.new slot).nexts ent w n).2.1
        ((EntIter.new slot).nexts ent w n).2.2) := by
  refine ⟨fun σ => growthExact, ?_, ?_⟩
  · intro σ call s
    obtain ⟨hkept, hcount⟩ :=
      calls_kept call s initialBuflen 0 (Nat.zero_le _) (by rw [pow_zero, mul_one])
    rw [record_eq, List.length_map]
    refine ⟨hcount, ?_⟩
    intro c hc
    obtain ⟨c, hmem, rfl⟩ := List.mem_map.mp hc
    exact (hkept c hmem).le
  · intro Service σ C T _ scope ent slot w n
    exact nextBounded ent (kept_nexts ent slot w n) _

end Nss
