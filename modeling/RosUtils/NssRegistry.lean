/-
The registry of NSS modules (`truenas_nss/src/service.rs`).

A module is loaded when it is first asked for, by whichever thread asks, and lives for the
process.  `Source::service` looks into the registry, takes the load lock, looks again, and
loads; `Service::open` loads a module outside the registry, under the same lock.  Loading
is a sequence of calls of the dynamic loader, which leaves the reason of a failure in one
place, `dlerror`, for the next reader to take.

The threads take these steps in any order.  In every state they can reach (`Exact`):

* all calls of `Source::service` that succeeded for a module returned the one service
  that the registry keeps for it, which has the module's name, prefix, scope and source,
  and some function of it;
* no module was loaded for the registry twice;
* only the thread that has the load lock is inside the loader;
* the reason a call reports is the one of its own `dlopen`, not one that another call, or
  a symbol that was not there, has left.

And every step from there (`Keeps`) leaves what the registry has, and puts something into it
only for a call that returns it: a call that fails leaves the registry as it was.

`Service::open` is not held to this: every call of it makes a service, of the same module too.
-/
import RosUtils.NssCall
import RosUtils.NssEnumSlot
import RosUtils.Transition

open Transition

namespace Nss.Registry

/-! ### What is loaded -/

/-- The functions of a module. -/
inductive Sym where
  | getpwnamR | getpwuidR | setpwent | endpwent | getpwentR
  | getgrnamR | getgrgidR | setgrent | endgrent | getgrentR | initgroupsDyn
  deriving DecidableEq

/-- The functions, in the order they are resolved. -/
def Sym.all : List Sym :=
  [.getpwnamR, .getpwuidR, .setpwent, .endpwent, .getpwentR,
    .getgrnamR, .getgrgidR, .setgrent, .endgrent, .getgrentR, .initgroupsDyn]

/-- The operation suffix. -/
def Sym.suffix : Sym → String
  | .getpwnamR => "getpwnam_r"
  | .getpwuidR => "getpwuid_r"
  | .setpwent => "setpwent"
  | .endpwent => "endpwent"
  | .getpwentR => "getpwent_r"
  | .getgrnamR => "getgrnam_r"
  | .getgrgidR => "getgrgid_r"
  | .setgrent => "setgrent"
  | .endgrent => "endgrent"
  | .getgrentR => "getgrent_r"
  | .initgroupsDyn => "initgroups_dyn"

/-- `symbol_name`. -/
def symbolName (pfx suffix : String) : String := "_nss_" ++ pfx ++ "_" ++ suffix

/-- `Fns`: the address of each function the module exports. -/
abbrev Fns := Sym → Option ℕ

/-- `Fns::any`. -/
def Fns.any (fns : Fns) : Bool := Sym.all.any fun sym => (fns sym).isSome

/-- `Service`, but for its lock. -/
structure Service where
  name : String
  pfx : String
  source : Source
  scope : EntScope
  fns : Fns

/-- `Source::name`. -/
def sourceName : Source → String
  | .files => "FILES"
  | .sss => "SSS"
  | .winbind => "WINBIND"

/-- `Source::soname`. -/
def soname : Source → String
  | .files => "libnss_files.so.2"
  | .sss => "libnss_sss.so.2"
  | .winbind => "libnss_winbind.so.2"

/-- `Source::prefix`. -/
def sourcePrefix : Source → String
  | .files => "files"
  | .sss => "sss"
  | .winbind => "winbind"

/-- `Source::scope`. -/
def sourceScope : Source → EntScope
  | .files => .process
  | .sss | .winbind => .thread

/-- A call of `Source::service` or of `Service::open`. -/
inductive Request where
  | service (source : Source)
  | open (path pfx : String) (scope : EntScope) (source : Source)

/-- `LoadSpec`. -/
structure LoadSpec where
  path : String
  pfx : String
  name : String
  scope : EntScope
  source : Source

/-- What a call loads. -/
def Request.spec : Request → LoadSpec
  | .service src => ⟨soname src, sourcePrefix src, sourceName src, sourceScope src, src⟩
  | .open path pfx scope source => ⟨path, pfx, pfx, scope, source⟩

/-- The module of the registry that a call asks for. -/
def Request.modules : Request → List Source
  | .service src => [src]
  | .open _ _ _ _ => []

/-- What `CString::new` refuses. -/
def hasNul (s : String) : Bool := s.toList.contains '\x00'

/-- The text of a `dlopen` that failed without one. -/
def noReason : String := "dlopen failed without a dlerror message"

/-! ### The threads -/

/-- Where a thread is. -/
inductive Pc where
  | idle
  /-- In `Source::service`, before the first look at the registry. -/
  | peek (src : Source)
  /-- In `Service::open`, before `intern`. -/
  | interning (path pfx : String) (scope : EntScope) (source : Source)
  /-- In `lock_load`. -/
  | locking (req : Request)
  /-- The second look, under the lock. -/
  | recheck (src : Source)
  /-- Before `dlopen`. -/
  | opening (req : Request)
  /-- `dlopen` has failed, and has left this text, if any. -/
  | failed (req : Request) (text : Option String)
  /-- Before the next `dlsym`. -/
  | resolving (req : Request) (todo : List Sym) (fns : Fns)
  /-- `dlsym` has failed, and its reason is still there to be read. -/
  | draining (req : Request) (todo : List Sym) (fns : Fns)
  /-- The service is made, and is not in `LOADED` yet. -/
  | pushing (req : Request) (a : ℕ)
  /-- The service is in `LOADED`, and not in the registry yet. -/
  | setting (src : Source) (a : ℕ)
  /-- Before the lock is given back. -/
  | leaving (req : Request) (r : Except Error ℕ) (text : Option (Option String))

/-- A call that returned, with the text its own `dlopen` left, if that failed. -/
structure Done (Thread : Type) where
  thread : Thread
  req : Request
  result : Except Error ℕ
  text : Option (Option String)

/-- The registry, the services made so far and their addresses, the loader's last error, the
interned names, and the threads; and which modules a service was made of for the registry. -/
structure State (Thread : Type) where
  registry : Source → Option ℕ
  heap : ℕ → Option Service
  next : ℕ
  loaded : List ℕ
  made : List Source
  lock : Option Thread
  dlerror : Option String
  names : List String
  pc : Thread → Pc
  done : List (Done Thread)

/-- What a thread does, and what the loader answers. -/
inductive Act where
  | call (req : Request)
  | go
  | dlopen (r : Except (Option String) Unit)
  | dlsym (r : Except (Option String) ℕ)

/-- A thread does something. -/
structure Event (Thread : Type) where
  thread : Thread
  act : Act

/-- `intern`. -/
def intern (names : List String) (name : String) : List String :=
  if name ∈ names then names else names ++ [name]

namespace State

variable {Thread : Type} [DecidableEq Thread]

/-- The thread is somewhere else. -/
def goto (s : State Thread) (t : Thread) (p : Pc) : State Thread :=
  { s with pc := Function.update s.pc t p }

/-- The call returns. -/
def finish (s : State Thread) (t : Thread) (req : Request) (r : Except Error ℕ)
    (text : Option (Option String)) : State Thread :=
  { s with pc := Function.update s.pc t .idle, done := s.done ++ [⟨t, req, r, text⟩] }

/-- One step of one thread. -/
def step (s : State Thread) (e : Event Thread) : Option (State Thread) :=
  match s.pc e.thread, e.act with
  | .idle, .call (.service src) => some (s.goto e.thread (.peek src))
  | .idle, .call (.open path pfx scope source) =>
    if hasNul path then
      some (s.finish e.thread (.open path pfx scope source) (.error .nulByte) none)
    else some (s.goto e.thread (.interning path pfx scope source))
  | .peek src, .go =>
    match s.registry src with
    | some a => some (s.finish e.thread (.service src) (.ok a) none)
    | none => some (s.goto e.thread (.locking (.service src)))
  | .interning path pfx scope source, .go =>
    some ({ s with names := intern s.names pfx }.goto e.thread
      (.locking (.open path pfx scope source)))
  | .locking (.service src), .go =>
    if s.lock.isNone then some ({ s with lock := some e.thread }.goto e.thread (.recheck src))
    else none
  | .locking (.open path pfx scope source), .go =>
    if s.lock.isNone then
      some ({ s with lock := some e.thread }.goto e.thread
        (.opening (.open path pfx scope source)))
    else none
  | .recheck src, .go =>
    match s.registry src with
    | some a => some (s.goto e.thread (.leaving (.service src) (.ok a) none))
    | none =>
      if hasNul (soname src) then
        some (s.goto e.thread (.leaving (.service src) (.error .nulByte) none))
      else some (s.goto e.thread (.opening (.service src)))
  | .opening req, .dlopen (.ok ()) =>
    some (s.goto e.thread (.resolving req Sym.all fun _ => none))
  -- a failure without a text leaves what is there
  | .opening req, .dlopen (.error text) =>
    some ({ s with dlerror := text.or s.dlerror }.goto e.thread (.failed req text))
  | .failed req text, .go =>
    some ({ s with dlerror := none }.goto e.thread
      (.leaving req (.error (.load req.spec.name (s.dlerror.getD noReason))) (some text)))
  | .resolving req (sym :: todo) fns, .dlsym r =>
    if hasNul (symbolName req.spec.pfx sym.suffix) then none
    else
      match r with
      | .ok p => some (s.goto e.thread (.resolving req todo (Function.update fns sym (some p))))
      | .error text =>
        some ({ s with dlerror := text.or s.dlerror }.goto e.thread (.draining req todo fns))
  | .resolving req (sym :: _) _, .go =>
    if hasNul (symbolName req.spec.pfx sym.suffix) then
      some (s.goto e.thread (.leaving req (.error .nulByte) none))
    else none
  | .draining req todo fns, .go =>
    some ({ s with dlerror := none }.goto e.thread (.resolving req todo fns))
  | .resolving req [] fns, .go =>
    if fns.any then
      some ({ s with
          heap := Function.update s.heap s.next
            (some ⟨req.spec.name, req.spec.pfx, req.spec.source, req.spec.scope, fns⟩)
          next := s.next + 1
          made := s.made ++ req.modules }.goto e.thread (.pushing req s.next))
    else
      some (s.goto e.thread (.leaving req
        (.error (.symbol req.spec.name (symbolName req.spec.pfx Sym.getpwnamR.suffix))) none))
  | .pushing (.service src) a, .go =>
    some ({ s with loaded := s.loaded ++ [a] }.goto e.thread (.setting src a))
  | .pushing (.open path pfx scope source) a, .go =>
    some ({ s with loaded := s.loaded ++ [a] }.goto e.thread
      (.leaving (.open path pfx scope source) (.ok a) none))
  -- `OnceLock::set` does nothing where there is something
  | .setting src a, .go =>
    some ({ s with
        registry :=
          if (s.registry src).isNone then Function.update s.registry src (some a)
          else s.registry }.goto e.thread (.leaving (.service src) (.ok a) none))
  | .leaving req r text, .go => some ({ s with lock := none }.finish e.thread req r text)
  | _, _ => none

end State

/-- The threads of a process that has loaded nothing. -/
def system (Thread : Type) [DecidableEq Thread] : System (State Thread) (Event Thread) where
  init :=
    { registry := fun _ => none, heap := fun _ => none, next := 0, loaded := [], made := [],
      lock := none, dlerror := none, names := [], pc := fun _ => .idle, done := [] }
  step := State.step

/-! ### What holds under the lock -/

/-- The thread has the load lock. -/
def Pc.critical : Pc → Bool
  | .idle | .peek _ | .interning _ _ _ _ | .locking _ => false
  | _ => true

/-- The module that a service was made of which is not in the registry yet. -/
def Pc.making : Pc → Option Source
  | .pushing (.service src) _ | .setting src _ => some src
  | _ => none

theorem Pc.critical_of_making {p : Pc} {src : Source} (h : p.making = some src) :
    p.critical = true := by
  cases p with
  | pushing req a => rfl
  | setting src a => rfl
  | _ => cases h

variable {Thread : Type}

/-- At the address is a service that was loaded as asked for. -/
def HasService (s : State Thread) (a : ℕ) (spec : LoadSpec) : Prop :=
  ∃ v, s.heap a = some v ∧ v.name = spec.name ∧ v.pfx = spec.pfx ∧ v.source = spec.source ∧
    v.scope = spec.scope ∧ v.fns.any = true

/-- The registry has nothing for the call yet. -/
def Free (s : State Thread) (req : Request) : Prop :=
  ∀ src, req = .service src → s.registry src = none

/-- What a call returns: a service that is in `LOADED`, and in the registry if it was asked
for there; the reason of its own `dlopen`; that no function is there; or that a name it was
given has a NUL byte. -/
def ResultOk (s : State Thread) (req : Request) (r : Except Error ℕ)
    (text : Option (Option String)) : Prop :=
  match r with
  | .ok a => a ∈ s.loaded ∧ ∀ src, req = .service src → s.registry src = some a
  | .error e =>
    (∃ own, text = some own ∧ e = .load req.spec.name (own.getD noReason)) ∨
    e = .symbol req.spec.name (symbolName req.spec.pfx Sym.getpwnamR.suffix) ∨
    (e = .nulByte ∧ ∀ src, req ≠ .service src)

/-- What holds at each place under the lock.  But for the moment after a failure, the loader
has no error to report. -/
def CritOk (s : State Thread) : Pc → Prop
  | .recheck _ => s.dlerror = none
  | .opening req | .resolving req _ _ => s.dlerror = none ∧ Free s req
  | .failed req text => s.dlerror = text ∧ Free s req
  | .draining req _ _ => Free s req
  | .pushing req a =>
    s.dlerror = none ∧ Free s req ∧ a ∉ s.loaded ∧ a < s.next ∧ HasService s a req.spec
  | .setting src a =>
    s.dlerror = none ∧ s.registry src = none ∧ a ∈ s.loaded ∧
      HasService s a (Request.service src).spec
  | .leaving req r text => s.dlerror = none ∧ ResultOk s req r text
  | _ => True

/-- What every state of the threads keeps, whoever has the lock. -/
structure SharedOk (s : State Thread) : Prop where
  nodup : s.loaded.Nodup
  lt : ∀ a ∈ s.loaded, a < s.next
  registry : ∀ src a, s.registry src = some a →
    a ∈ s.loaded ∧ HasService s a (Request.service src).spec
  made : s.made.Nodup
  names : s.names.Nodup
  done : ∀ d ∈ s.done, ResultOk s d.req d.result d.text

/-- The invariant. -/
structure Inv (s : State Thread) : Prop where
  shared : SharedOk s
  lock : ∀ t, s.lock = some t ↔ (s.pc t).critical = true
  quiet : s.lock = none → s.dlerror = none
  crit : ∀ t, CritOk s (s.pc t)
  settled : ∀ src ∈ s.made, (s.registry src).isSome ∨ ∃ t, (s.pc t).making = some src

/-- Nothing that was loaded is lost. -/
structure Grows (s s' : State Thread) : Prop where
  registry : ∀ src a, s.registry src = some a → s'.registry src = some a
  loaded : ∀ a ∈ s.loaded, a ∈ s'.loaded
  heap : ∀ a < s.next, s'.heap a = s.heap a

variable {s s' : State Thread} {t : Thread}

theorem ResultOk.grows {req : Request} {r : Except Error ℕ} {text : Option (Option String)}
    (h : ResultOk s req r text) (hs : Grows s s') : ResultOk s' req r text := by
  cases r with
  | ok a => exact ⟨hs.loaded a h.1, fun src hsrc => hs.registry src a (h.2 src hsrc)⟩
  | error e => exact h

/-- A thread outside the lock is nowhere where something has to hold. -/
theorem critOk_of_not_critical {p : Pc} (h : p.critical = false) : CritOk s p := by
  cases p with
  | idle => trivial
  | peek src => trivial
  | interning path pfx scope source => trivial
  | locking req => trivial
  | _ => cases h

/-- Where the threads are, and what the loader has to report, is not shared. -/
theorem SharedOk.moved (h : SharedOk s) (lock : Option Thread) (dlerror : Option String)
    (pc : Thread → Pc) : SharedOk { s with lock, dlerror, pc } :=
  ⟨h.nodup, h.lt, h.registry, h.made, h.names, h.done⟩

/-- Of the modules that services were made of all are in the registry, but for the one that the
thread with the lock has just made. -/
theorem Inv.settled_at (h : Inv s) (hpc : s.pc t = p) (hp : p.critical = true) :
    ∀ src ∈ s.made, (s.registry src).isSome ∨ p.making = some src := by
  subst hpc
  intro src hsrc
  rcases h.settled src hsrc with hsome | ⟨t', ht'⟩
  · exact .inl hsome
  · have hmine := (h.lock t).mpr hp
    have htheirs := (h.lock t').mpr (Pc.critical_of_making ht')
    obtain rfl := Option.some.inj (hmine.symm.trans htheirs)
    exact .inr ht'

theorem Inv.crit_at (h : Inv s) (hpc : s.pc t = p) : CritOk s p := hpc ▸ h.crit t

section Steps

variable [DecidableEq Thread] {p p' : Pc}

/-- The thread that has the lock moves on under it. -/
theorem Inv.inside (h : Inv s) (ht : s.pc t = p) (hp : p.critical = true)
    (hp' : p'.critical = true) (hlock : s'.lock = s.lock)
    (hpc : s'.pc = Function.update s.pc t p') (hcrit : CritOk s' p')
    (hsettled : ∀ src ∈ s'.made, (s'.registry src).isSome ∨ p'.making = some src)
    (hshared : SharedOk s') : Inv s' := by
  have hmine : s.lock = some t := (h.lock t).mpr (ht ▸ hp)
  refine ⟨hshared, fun t' => ?_, fun hnone => ?_, fun t' => ?_, fun src hsrc => ?_⟩
  · rw [hlock, hpc]
    by_cases htt : t' = t
    · subst htt
      rw [Function.update_self]
      exact ⟨fun _ => hp', fun _ => hmine⟩
    · rw [Function.update_of_ne htt]
      exact h.lock t'
  · rw [hlock, hmine] at hnone
    cases hnone
  · rw [hpc]
    by_cases htt : t' = t
    · subst htt
      rwa [Function.update_self]
    · rw [Function.update_of_ne htt]
      -- the lock is with one thread only
      refine critOk_of_not_critical (Bool.eq_false_iff.mpr fun hc => htt ?_)
      exact Option.some.inj (((h.lock t').mpr hc).symm.trans hmine)
  · refine (hsettled src hsrc).imp_right fun hmaking => ⟨t, ?_⟩
    rwa [hpc, Function.update_self]

/-- A thread outside the lock moves on outside it. -/
theorem Inv.outside (h : Inv s) (ht : s.pc t = p) (hp : p.critical = false)
    (hp' : p'.critical = false) {names : List String} {done : List (Done Thread)}
    (hshared : SharedOk { s with pc := Function.update s.pc t p', names, done }) :
    Inv { s with pc := Function.update s.pc t p', names, done } := by
  refine ⟨hshared, fun t' => ?_, h.quiet, fun t' => ?_, fun src hsrc => ?_⟩
  · dsimp only
    rw [h.lock t']
    by_cases htt : t' = t
    · subst htt
      rw [Function.update_self, ht, hp, hp']
    · rw [Function.update_of_ne htt]
  · dsimp only
    by_cases htt : t' = t
    · subst htt
      rw [Function.update_self]
      exact critOk_of_not_critical hp'
    · rw [Function.update_of_ne htt]
      exact h.crit t'
  · refine (h.settled src hsrc).imp_right fun ⟨t', ht'⟩ => ⟨t', ?_⟩
    have htt : t' ≠ t := by
      rintro rfl
      rw [← ht, Pc.critical_of_making ht'] at hp
      cases hp
    dsimp only
    rwa [Function.update_of_ne htt]

/-- A thread takes the lock. -/
theorem Inv.enter (h : Inv s) (hlock : s.lock = none) (hp : p.critical = true)
    (hcrit : CritOk s p) : Inv { s with lock := some t, pc := Function.update s.pc t p } := by
  have hnobody : ∀ t', (s.pc t').critical = false := by
    intro t'
    refine Bool.eq_false_iff.mpr fun hc => ?_
    rw [(h.lock t').mpr hc] at hlock
    cases hlock
  refine ⟨h.shared.moved _ _ _, fun t' => ?_, nofun, fun t' => ?_, fun src hsrc => ?_⟩
  · dsimp only
    by_cases htt : t' = t
    · subst htt
      rw [Function.update_self]
      exact ⟨fun _ => hp, fun _ => rfl⟩
    · rw [Function.update_of_ne htt, hnobody t']
      exact ⟨fun heq => absurd (Option.some.inj heq).symm htt, nofun⟩
  · dsimp only
    by_cases htt : t' = t
    · subst htt
      rw [Function.update_self]
      exact hcrit
    · rw [Function.update_of_ne htt]
      exact critOk_of_not_critical (hnobody t')
  · refine (h.settled src hsrc).imp_right fun ⟨t', ht'⟩ => ?_
    exact absurd (Pc.critical_of_making ht') (Bool.eq_false_iff.mp (hnobody t'))

omit [DecidableEq Thread] in
/-- One more call has returned. -/
theorem SharedOk.finish (h : SharedOk s) {d : Done Thread} (hd : ResultOk s d.req d.result d.text)
    (lock : Option Thread) (pc : Thread → Pc) :
    SharedOk { s with lock, pc, done := s.done ++ [d] } := by
  refine ⟨h.nodup, h.lt, h.registry, h.made, h.names, fun d' hd' => ?_⟩
  rcases List.mem_append.mp hd' with hold | hnew
  · exact h.done d' hold
  · rw [List.mem_singleton.mp hnew]
    exact hd

/-- A call returns that never had the lock. -/
theorem Inv.answer (h : Inv s) (ht : s.pc t = p) (hp : p.critical = false) {req : Request}
    {r : Except Error ℕ} {text : Option (Option String)} (hr : ResultOk s req r text) :
    Inv (s.finish t req r text) :=
  h.outside ht hp rfl (h.shared.finish (d := ⟨t, req, r, text⟩) hr _ _)

/-- A thread gives the lock back, and its call returns. -/
theorem Inv.leave (h : Inv s) {req : Request} {r : Except Error ℕ} {text : Option (Option String)}
    (hpc : s.pc t = .leaving req r text) : Inv ({ s with lock := none }.finish t req r text) := by
  have hcrit := h.crit_at hpc
  have hmine : s.lock = some t := (h.lock t).mpr (by rw [hpc]; rfl)
  have hothers : ∀ t', t' ≠ t → (s.pc t').critical = false := by
    intro t' htt
    refine Bool.eq_false_iff.mpr fun hc => htt ?_
    exact Option.some.inj (((h.lock t').mpr hc).symm.trans hmine)
  refine ⟨h.shared.finish (d := ⟨t, req, r, text⟩) hcrit.2 none _, fun t' => ?_,
    fun _ => hcrit.1, fun t' => ?_, fun src hsrc => ?_⟩
  · simp only [State.finish]
    by_cases htt : t' = t
    · subst htt
      rw [Function.update_self]
      exact ⟨nofun, nofun⟩
    · rw [Function.update_of_ne htt, hothers t' htt]
      exact ⟨nofun, nofun⟩
  · simp only [State.finish]
    by_cases htt : t' = t
    · subst htt
      rw [Function.update_self]
      trivial
    · rw [Function.update_of_ne htt]
      exact critOk_of_not_critical (hothers t' htt)
  · refine (h.settled_at rfl ((h.lock t).mp hmine) _ hsrc).imp_right fun hmaking => ?_
    rw [hpc] at hmaking
    cases hmaking

/-- A step under the lock that leaves what was loaded as it is. -/
theorem Inv.move (h : Inv s) (ht : s.pc t = p) (hp : p.critical = true)
    (hmaking : p.making = none) (hp' : p'.critical = true) {dlerror : Option String}
    (hcrit : CritOk { s with dlerror } p') : Inv ({ s with dlerror }.goto t p') := by
  refine h.inside ht hp hp' rfl rfl hcrit (fun src hsrc => ?_) (h.shared.moved _ _ _)
  rcases h.settled_at ht hp src hsrc with hsome | hsome
  · exact .inl hsome
  · rw [hmaking] at hsome
    cases hsome

/-! No name of a module of the registry has a NUL byte. -/

theorem hasNul_soname (src : Source) : hasNul (soname src) = false := by
  cases src <;> decide

theorem hasNul_append (a b : String) : hasNul (a ++ b) = (hasNul a || hasNul b) := by
  simp [hasNul, String.toList_append]

theorem hasNul_symbolName (src : Source) (sym : Sym) :
    hasNul (symbolName (Request.service src).spec.pfx sym.suffix) = false := by
  have hpfx : hasNul (Request.service src).spec.pfx = false := by cases src <;> decide
  have hsuffix : hasNul sym.suffix = false := by cases sym <;> decide
  have hstart : hasNul "_nss_" = false := by decide
  have hsep : hasNul "_" = false := by decide
  rw [symbolName, hasNul_append, hasNul_append, hasNul_append, hpfx, hsuffix, hstart, hsep]
  rfl

theorem nodup_intern {names : List String} (h : names.Nodup) (name : String) :
    (intern names name).Nodup := by
  rw [intern]
  split
  · exact h
  · next hmem => exact List.nodup_append_comm.mp (List.nodup_cons.mpr ⟨hmem, h⟩)

/-- A service is made, at an address that nothing has. -/
theorem Inv.make (h : Inv s) {req : Request} {fns : Fns} (hpc : s.pc t = .resolving req [] fns)
    (hany : fns.any = true) :
    Inv ({ s with
      heap := Function.update s.heap s.next
        (some ⟨req.spec.name, req.spec.pfx, req.spec.source, req.spec.scope, fns⟩)
      next := s.next + 1
      made := s.made ++ req.modules }.goto t (.pushing req s.next)) := by
  have hcrit := h.crit_at hpc
  have hat := h.settled_at hpc rfl
  have hsettled : ∀ src ∈ s.made, (s.registry src).isSome := fun src hsrc =>
    (hat src hsrc).resolve_right nofun
  have hfresh : s.next ∉ s.loaded := fun hmem => lt_irrefl _ (h.shared.lt _ hmem)
  refine h.inside hpc rfl rfl rfl rfl
    ⟨hcrit.1, hcrit.2, hfresh, Nat.lt_succ_self _, _, Function.update_self _ _ _, rfl, rfl, rfl,
      rfl, hany⟩ ?_ ⟨h.shared.nodup, fun a ha => (h.shared.lt a ha).trans (Nat.lt_succ_self _), ?_,
      ?_, h.shared.names, h.shared.done⟩
  · intro src hsrc
    rcases List.mem_append.mp hsrc with hold | hnew
    · exact .inl (hsettled src hold)
    · obtain rfl : req = .service src := by
        cases req with
        | service src' => rw [List.mem_singleton.mp hnew]
        | «open» path pfx scope source => cases hnew
      exact .inr rfl
  · intro src a ha
    obtain ⟨hmem, v, hv, hrest⟩ := h.shared.registry src a ha
    refine ⟨hmem, v, ?_, hrest⟩
    exact (Function.update_of_ne (ne_of_lt (h.shared.lt a hmem)) _ _).trans hv
  -- the module is not in the registry, so none was made of it
  · cases req with
    | service src =>
      refine List.nodup_append_comm.mp (List.nodup_cons.mpr ⟨fun hmem => ?_, h.shared.made⟩)
      have hsome := hsettled src hmem
      rw [hcrit.2 src rfl] at hsome
      cases hsome
    | «open» path pfx scope source =>
      rw [Request.modules, List.append_nil]
      exact h.shared.made

omit [DecidableEq Thread] in
/-- A service is put into `LOADED`. -/
theorem SharedOk.push (h : SharedOk s) {a : ℕ} (hfresh : a ∉ s.loaded) (hlt : a < s.next)
    (pc : Thread → Pc) : SharedOk { s with loaded := s.loaded ++ [a], pc } where
  nodup := List.nodup_append_comm.mp (List.nodup_cons.mpr ⟨hfresh, h.nodup⟩)
  lt := by
    intro a' ha'
    rcases List.mem_append.mp ha' with hold | hnew
    · exact h.lt a' hold
    · rw [List.mem_singleton.mp hnew]
      exact hlt
  registry := fun src a' ha' =>
    ⟨List.mem_append_left _ (h.registry src a' ha').1, (h.registry src a' ha').2⟩
  made := h.made
  names := h.names
  done := fun d hd => (h.done d hd).grows
    ⟨fun _ _ ha' => ha', fun _ ha' => List.mem_append_left _ ha', fun _ _ => rfl⟩

omit [DecidableEq Thread] in
/-- A service is put into the registry. -/
theorem SharedOk.set (h : SharedOk s) {src : Source} {a : ℕ} (hnone : s.registry src = none)
    (hmem : a ∈ s.loaded) (hservice : HasService s a (Request.service src).spec)
    (pc : Thread → Pc) :
    SharedOk { s with registry := Function.update s.registry src (some a), pc } where
  nodup := h.nodup
  lt := h.lt
  registry := by
    intro src' a' ha'
    by_cases hsrc : src' = src
    · subst hsrc
      have hself := Function.update_self src' (some a) s.registry
      have ha' : a = a' := Option.some.inj (hself.symm.trans ha')
      subst ha'
      exact ⟨hmem, hservice⟩
    · exact h.registry src' a' ((Function.update_of_ne hsrc (some a) s.registry).symm.trans ha')
  made := h.made
  names := h.names
  done := by
    refine fun d hd => (h.done d hd).grows ⟨fun src' a' ha' => ?_, fun _ ha' => ha', fun _ _ => rfl⟩
    have hsrc : src' ≠ src := by
      rintro rfl
      rw [hnone] at ha'
      cases ha'
    exact (Function.update_of_ne hsrc _ _).trans ha'

/-- The service that was made is put into `LOADED`. -/
theorem Inv.push (h : Inv s) {req : Request} {a : ℕ} (hpc : s.pc t = .pushing req a)
    (hp' : p'.critical = true) (hmaking : p'.making = (Pc.pushing req a).making)
    (hcrit : CritOk { s with loaded := s.loaded ++ [a] } p') :
    Inv ({ s with loaded := s.loaded ++ [a] }.goto t p') := by
  obtain ⟨-, -, hfresh, hlt, -⟩ := h.crit_at hpc
  refine h.inside hpc rfl hp' rfl rfl hcrit (fun src hsrc => ?_) (h.shared.push hfresh hlt _)
  rw [hmaking]
  exact h.settled_at hpc rfl src hsrc

/-- It is put into the registry, for the module that it is of. -/
theorem Inv.set (h : Inv s) {src : Source} {a : ℕ} (hpc : s.pc t = .setting src a) :
    Inv ({ s with registry := Function.update s.registry src (some a) }.goto t
      (.leaving (.service src) (.ok a) none)) := by
  obtain ⟨hdl, hnone, hmem, hservice⟩ := h.crit_at hpc
  refine h.inside hpc rfl rfl rfl rfl ⟨hdl, hmem, fun src' hsrc => ?_⟩
    (fun src' hsrc' => .inl ?_) (h.shared.set hnone hmem hservice _)
  · cases hsrc
    exact Function.update_self _ _ _
  · show (Function.update s.registry src (some a) src').isSome = true
    by_cases hsrc : src' = src
    · rw [hsrc, Function.update_self]
      rfl
    · rw [Function.update_of_ne hsrc]
      exact (h.settled_at hpc rfl src' hsrc').resolve_right
        fun h => hsrc (Option.some.inj h).symm

/-- **What one step keeps.** -/
theorem Inv.step {e : Event Thread} (h : Inv s) (hstep : s.step e = some s') : Inv s' := by
  obtain ⟨t, act⟩ := e
  unfold State.step at hstep
  dsimp only at hstep
  split at hstep
  -- outside the lock
  · next src hpc =>
    cases hstep
    exact h.outside hpc rfl rfl (h.shared.moved _ _ _)
  · next path pfx scope source hpc =>
    split at hstep
    · cases hstep
      exact h.answer hpc rfl (.inr (.inr ⟨rfl, nofun⟩))
    · cases hstep
      exact h.outside hpc rfl rfl (h.shared.moved _ _ _)
  · next src hpc =>
    split at hstep
    · next a ha =>
      cases hstep
      refine h.answer hpc rfl ⟨(h.shared.registry src a ha).1, ?_⟩
      intro src' hsrc
      cases hsrc
      exact ha
    · cases hstep
      exact h.outside hpc rfl rfl (h.shared.moved _ _ _)
  · next path pfx scope source hpc =>
    cases hstep
    exact h.outside hpc rfl rfl ⟨h.shared.nodup, h.shared.lt, h.shared.registry,
      h.shared.made, nodup_intern h.shared.names pfx, h.shared.done⟩
  -- into the lock
  · next src hpc =>
    split at hstep
    · next hlock =>
      cases hstep
      have hnone : s.lock = none := Option.isNone_iff_eq_none.mp hlock
      exact h.enter hnone rfl (h.quiet hnone)
    · cases hstep
  · next path pfx scope source hpc =>
    split at hstep
    · next hlock =>
      cases hstep
      have hnone : s.lock = none := Option.isNone_iff_eq_none.mp hlock
      exact h.enter hnone rfl ⟨h.quiet hnone, nofun⟩
    · cases hstep
  -- under the lock
  · next src hpc =>
    have hquiet := h.crit_at hpc
    split at hstep
    · next a ha =>
      cases hstep
      refine h.move hpc rfl rfl rfl ⟨hquiet, (h.shared.registry src a ha).1, ?_⟩
      intro src' hsrc
      cases hsrc
      exact ha
    · next hnone =>
      rw [hasNul_soname] at hstep
      cases hstep
      refine h.move hpc rfl rfl rfl ⟨hquiet, ?_⟩
      intro src' hsrc
      cases hsrc
      exact hnone
  · next req hpc =>
    have hcrit := h.crit_at hpc
    cases hstep
    exact h.move hpc rfl rfl rfl hcrit
  · next req text hpc =>
    have hcrit := h.crit_at hpc
    cases hstep
    refine h.move hpc rfl rfl rfl ⟨?_, hcrit.2⟩
    rw [hcrit.1, Option.or_none]
  · next req text hpc =>
    have hcrit := h.crit_at hpc
    cases hstep
    refine h.move hpc rfl rfl rfl ⟨rfl, .inl ⟨text, rfl, ?_⟩⟩
    rw [hcrit.1]
  · next req sym todo fns r hpc =>
    have hcrit := h.crit_at hpc
    split at hstep
    · cases hstep
    split at hstep
    · cases hstep
      exact h.move hpc rfl rfl rfl hcrit
    · cases hstep
      exact h.move hpc rfl rfl rfl hcrit.2
  · next req sym todo fns hpc =>
    split at hstep
    · next hnul =>
      cases hstep
      refine h.move hpc rfl rfl rfl
        ⟨(h.crit_at hpc).1, .inr (.inr ⟨rfl, fun src hsrc => ?_⟩)⟩
      subst hsrc
      rw [hasNul_symbolName] at hnul
      cases hnul
    · cases hstep
  · next req todo fns hpc =>
    cases hstep
    exact h.move hpc rfl rfl rfl ⟨rfl, h.crit_at hpc⟩
  · next req fns hpc =>
    split at hstep
    · next hany =>
      cases hstep
      exact h.make hpc hany
    · cases hstep
      exact h.move hpc rfl rfl rfl ⟨(h.crit_at hpc).1, .inr (.inl rfl)⟩
  · next src a hpc =>
    obtain ⟨hdl, hfree, -, -, hservice⟩ := h.crit_at hpc
    cases hstep
    exact h.push hpc rfl rfl
      ⟨hdl, hfree src rfl, List.mem_append_right _ (List.mem_singleton_self a), hservice⟩
  · next path pfx scope source a hpc =>
    obtain ⟨hdl, -, -, -, -⟩ := h.crit_at hpc
    cases hstep
    exact h.push hpc rfl rfl
      ⟨hdl, List.mem_append_right _ (List.mem_singleton_self a), nofun⟩
  · next src a hpc =>
    rw [(h.crit_at hpc).2.1] at hstep
    cases hstep
    exact h.set hpc
  -- out of the lock
  · next req r text hpc =>
    cases hstep
    exact h.leave hpc
  · cases hstep

theorem inv_of_reachable (h : (system Thread).Reachable s) : Inv s := by
  refine h.invariant ⟨⟨List.nodup_nil, ?_, nofun, List.nodup_nil, List.nodup_nil, ?_⟩,
    fun t => ⟨nofun, nofun⟩, fun _ => rfl, fun t => trivial, nofun⟩ fun s e s' hs he => hs.step he
  · intro a ha
    cases ha
  · intro d hd
    cases hd

end Steps

/-! ### What holds of every run -/

/-- The thread is inside the loader: between its `dlopen` and its last `dlsym`, with the
`dlerror` calls that belong to them. -/
def Pc.loading : Pc → Bool
  | .opening _ | .failed _ _ | .resolving _ _ _ | .draining _ _ _ => true
  | _ => false

theorem Pc.critical_of_loading {p : Pc} (h : p.loading = true) : p.critical = true := by
  cases p with
  | opening req => rfl
  | failed req text => rfl
  | resolving req todo fns => rfl
  | draining req todo fns => rfl
  | _ => cases h

/-- What the registry is, and what the calls returned. -/
structure Exact (s : State Thread) : Prop where
  /-- the registry keeps services that were loaded as the module is to be -/
  kept : ∀ src a, s.registry src = some a → a ∈ s.loaded ∧
    ∃ v, s.heap a = some v ∧ v.name = sourceName src ∧ v.pfx = sourcePrefix src ∧
      v.source = src ∧ v.scope = sourceScope src ∧ v.fns.any = true
  /-- every service is in `LOADED` once -/
  loaded : s.loaded.Nodup
  /-- every success is the service of the registry -/
  one : ∀ d ∈ s.done, ∀ src a, d.req = .service src → d.result = .ok a → s.registry src = some a
  /-- no service was made for the registry twice of one module, -/
  once : s.made.Nodup
  /-- and a module that is in the registry is not opened again -/
  idle : ∀ t src, s.pc t = .opening (.service src) → s.registry src = none
  /-- only the thread that has the load lock is inside the loader -/
  alone : ∀ t, (s.pc t).loading = true → s.lock = some t
  /-- every failure is the call's own -/
  failed : ∀ d ∈ s.done, ∀ src e, d.req = .service src → d.result = .error e →
    (∃ own, d.text = some own ∧ e = .load (sourceName src) (own.getD noReason)) ∨
    e = .symbol (sourceName src) (symbolName (sourcePrefix src) "getpwnam_r")

/-- What a step of the thread does to the registry. -/
structure Keeps (s : State Thread) (t : Thread) (s' : State Thread) : Prop where
  /-- what is there stays -/
  kept : ∀ src a, s.registry src = some a → s'.registry src = some a
  /-- what is new is what the call of the thread is about to return -/
  new : ∀ src a, s.registry src = none → s'.registry src = some a →
    s'.pc t = .leaving (.service src) (.ok a) none

theorem Inv.exact (h : Inv s) : Exact s := by
  refine ⟨h.shared.registry, h.shared.nodup, ?_, h.shared.made, ?_, ?_, ?_⟩
  · intro d hd src a hreq hresult
    have hok := h.shared.done d hd
    rw [hresult] at hok
    exact hok.2 src hreq
  · intro t src hpc
    have hcrit := h.crit t
    rw [hpc] at hcrit
    exact hcrit.2 src rfl
  · exact fun t ht => (h.lock t).mpr (Pc.critical_of_loading ht)
  · intro d hd src e hreq hresult
    have hok := h.shared.done d hd
    rw [hreq, hresult] at hok
    rcases hok with hload | hsymbol | ⟨-, hnot⟩
    · exact .inl hload
    · exact .inr hsymbol
    · exact absurd rfl (hnot src)

/-- A step that does not touch the registry. -/
theorem Keeps.of_eq (h : s'.registry = s.registry) : Keeps s t s' := by
  refine ⟨fun src a ha => h ▸ ha, fun src a hnone hsome => ?_⟩
  rw [h, hnone] at hsome
  cases hsome

section Runs

variable [DecidableEq Thread]

/-- The registry changes in one step only, and there for the module that the call is for. -/
theorem step_registry {e : Event Thread} (hstep : s.step e = some s') :
    s'.registry = s.registry ∨ ∃ src a, s.pc e.thread = .setting src a ∧
      s' = { s with
        registry :=
          if (s.registry src).isNone then Function.update s.registry src (some a)
          else s.registry }.goto e.thread (.leaving (.service src) (.ok a) none) := by
  obtain ⟨t, act⟩ := e
  by_cases hset : ∃ src a, s.pc t = .setting src a
  · obtain ⟨src, a, hpc⟩ := hset
    simp only [State.step, hpc] at hstep
    cases act with
    | go =>
      cases hstep
      exact .inr ⟨src, a, hpc, rfl⟩
    | _ => cases hstep
  · left
    unfold State.step at hstep
    split at hstep
    all_goals first
      | exact absurd ⟨_, _, by assumption⟩ hset
      | (repeat' split at hstep) <;> cases hstep <;> rfl

theorem keeps_of_step {e : Event Thread} (hstep : s.step e = some s') : Keeps s e.thread s' := by
  rcases step_registry hstep with heq | ⟨src, a, -, rfl⟩
  · exact .of_eq heq
  · by_cases hnone : (s.registry src).isNone = true
    · rw [if_pos hnone]
      refine ⟨fun src' a' ha' => ?_, fun src' a' hbefore hafter => ?_⟩
      · have hsrc : src' ≠ src := by
          rintro rfl
          rw [ha'] at hnone
          cases hnone
        exact (Function.update_of_ne hsrc _ _).trans ha'
      · have hafter : Function.update s.registry src (some a) src' = some a' := hafter
        by_cases hsrc : src' = src
        · subst hsrc
          rw [Function.update_self] at hafter
          cases hafter
          exact Function.update_self _ _ _
        · rw [Function.update_of_ne hsrc, hbefore] at hafter
          cases hafter
    · rw [if_neg hnone]
      exact .of_eq rfl

end Runs

/-- **One service for each module of the registry**, loaded once and under the lock, each failure
reported with its own reason, and no failure with a trace in the registry. -/
theorem registry_exact [DecidableEq Thread] (h : (system Thread).Reachable s) :
    Exact s ∧ ∀ e s', s.step e = some s' → Keeps s e.thread s' :=
  ⟨(inv_of_reachable h).exact, fun _ _ => keeps_of_step⟩

/-- Two threads ask for one module.  The one that comes second to the lock finds it loaded;
then its call for another module fails. -/
def twoCalls : List (Event Bool) :=
  [⟨true, .call (.service .files)⟩, ⟨false, .call (.service .files)⟩, ⟨true, .go⟩, ⟨false, .go⟩,
    ⟨true, .go⟩, ⟨true, .go⟩, ⟨true, .dlopen (.ok ())⟩] ++
  Sym.all.map (fun _ => ⟨true, .dlsym (.ok 7)⟩) ++
  List.replicate 4 ⟨true, .go⟩ ++ List.replicate 3 ⟨false, .go⟩ ++
  [⟨false, .call (.service .sss)⟩, ⟨false, .go⟩, ⟨false, .go⟩, ⟨false, .go⟩,
    ⟨false, .dlopen (.error (some "not found"))⟩, ⟨false, .go⟩, ⟨false, .go⟩]

theorem registry_exact_twoCalls : ∃ s, (system Bool).run (system Bool).init twoCalls = some s ∧
    s.done.map (·.result) = [.ok 0, .ok 0, .error (.load "SSS" "not found")] ∧ Exact s := by
  have hinit : (system Bool).Reachable (system Bool).init := .init
  exact ⟨_, rfl, rfl,
    (registry_exact (hinit.run (rfl : (system Bool).run _ twoCalls = some _))).1⟩

end Nss.Registry
