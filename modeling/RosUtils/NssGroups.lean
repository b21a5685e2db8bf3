/-
The groups of a user, over all NSS modules (`truenas_nss/src/service.rs`, `grp.rs`).

Each module fills an array with the groups it knows, through its `initgroups_dyn`
function; `call_initgroups` copies out as much of it as the module says it filled.
`fan_out_groups` asks the modules in the lookup order, skips those that are unavailable,
and drops repeated groups from the union.

* `callInitgroups`, `callInitgroups_ok` — the list of one module;
* `dedupGids`, `dedupGids_firstSeen` — repeats are dropped, the first of each is kept;
* `fanOutGroups`, `fanOut_ok`, `fanOut_error` — the union, or the first failure;
* `groupList_union` — the two together.
-/
import RosUtils.NssCall
import RosUtils.FirstSeen

namespace Nss

/-! ### Statuses -/

/-- `NssStatus`. -/
inductive NssStatus where
  | tryAgain
  | unavail
  | notFound
  | success
  | return_
  deriving DecidableEq, Repr

/-- `NssStatus::from_raw`. -/
def NssStatus.fromRaw (rc : ℤ) : Option NssStatus :=
  if rc = statusTryagain then some .tryAgain
  else if rc = statusUnavail then some .unavail
  else if rc = statusNotfound then some .notFound
  else if rc = statusSuccess then some .success
  else if rc = 2 then some .return_
  else none

/-- `Error::status`. -/
def Error.status : Error → Option NssStatus
  | .call _ _ status _ => NssStatus.fromRaw status
  | _ => none

/-- `Error::is_unavail`: the condition the fan-out lookups skip. -/
def Error.isUnavail (e : Error) : Bool := e.status == some .unavail

/-! ### One module -/

/-- `gid_t`. -/
abbrev Gid := UInt32

/-- `INITGROUPS_INITIAL`. -/
def initgroupsInitial : ℕ := 32

/-- What an `initgroups_dyn` function is given.  The array has `size` entries, of which the
first was written. -/
structure InitArgs where
  name : List UInt8
  gid : Gid
  start : ℤ
  size : ℤ
  seed : Gid
  limit : ℤ
  errno : ℤ

/-- What it leaves behind.  The array, reallocated or not, holds the entries that `size`
says it holds. -/
structure InitReport where
  status : ℤ
  errno : ℤ
  start : ℤ
  size : ℤ
  groups : List Gid
  holds : size ≤ groups.length

/-- A module's `initgroups_dyn` function. -/
abbrev InitgroupsDyn := InitArgs → InitReport

/-- How much of the array was filled: `start` is clamped to `size`, because a module may
advance the one without growing the other. -/
def InitReport.filled (r : InitReport) : ℕ := (min (max r.start 0) (max r.size 0)).toNat

/-- The arguments of `call_initgroups`: the array is seeded with the gid, and has no limit. -/
def initArgs (name : List UInt8) (gid : Gid) : InitArgs :=
  { name, gid, start := 1, size := initgroupsInitial, seed := gid, limit := -1, errno := 0 }

/-- `call_initgroups`. -/
def callInitgroups (module : String) (f : InitgroupsDyn) (name : List UInt8) (gid : Gid) :
    Except Error (List Gid) :=
  let r := f (initArgs name gid)
  let copied := r.groups.take r.filled
  match classifyLookup module "initgroups_dyn" ⟨r.status, r.errno⟩ with
  -- not-found passes: the seed alone comes back
  | .ok _ => .ok copied
  | .error e => .error e

/-- The part of a `Service` that the group lists use. -/
structure Service where
  name : String
  /-- the infix of the symbols -/
  pfx : String
  initgroupsDyn : Option InitgroupsDyn

/-- `Service::missing`. -/
def Service.missing (svc : Service) (suffix : String) : Error :=
  .symbol svc.name ("_nss_" ++ svc.pfx ++ "_" ++ suffix)

/-- `Service::grouplist_raw`. -/
def Service.grouplistRaw (svc : Service) (name : List UInt8) (gid : Gid) :
    Except Error (List Gid) :=
  match svc.initgroupsDyn with
  | none => .error (svc.missing "initgroups_dyn")
  | some f =>
    -- `CString::new`
    if (0 : UInt8) ∈ name then .error .nulByte else callInitgroups svc.name f name gid

/-- A report that is returned: no errno, and success or not-found. -/
def InitReport.Passes (r : InitReport) : Prop :=
  r.errno = 0 ∧ (r.status = statusSuccess ∨ r.status = statusNotfound)

theorem classifyLookup_ok {module op : String} {a : Answer} :
    (∃ b, classifyLookup module op a = .ok b) ↔
      a.errno = 0 ∧ (a.status = statusSuccess ∨ a.status = statusNotfound) := by
  rw [classifyLookup]
  by_cases herrno : a.errno = 0
  · rw [if_neg (not_not.mpr herrno)]
    by_cases hnotfound : a.status = statusNotfound
    · rw [if_pos hnotfound]
      exact iff_of_true ⟨false, rfl⟩ ⟨herrno, .inr hnotfound⟩
    rw [if_neg hnotfound]
    by_cases hsuccess : a.status = statusSuccess
    · rw [if_pos hsuccess]
      exact iff_of_true ⟨true, rfl⟩ ⟨herrno, .inl hsuccess⟩
    · rw [if_neg hsuccess]
      refine iff_of_false ?_ (fun h => h.2.elim hsuccess hnotfound)
      rintro ⟨b, h⟩
      cases h
  · rw [if_pos herrno]
    refine iff_of_false ?_ (fun h => herrno h.1)
    rintro ⟨b, h⟩
    cases h

/-- **The list of one module** is what it filled of its array, and there is one only if it
passes. -/
theorem callInitgroups_ok {module : String} {f : InitgroupsDyn} {name : List UInt8} {gid : Gid}
    {l : List Gid} :
    callInitgroups module f name gid = .ok l ↔
      (f (initArgs name gid)).Passes ∧
        l = (f (initArgs name gid)).groups.take (f (initArgs name gid)).filled := by
  have hclass : (∃ b, classifyLookup module "initgroups_dyn"
      ⟨(f (initArgs name gid)).status, (f (initArgs name gid)).errno⟩ = .ok b) ↔
        (f (initArgs name gid)).Passes := classifyLookup_ok
  rw [callInitgroups]
  cases h : classifyLookup module "initgroups_dyn"
      ⟨(f (initArgs name gid)).status, (f (initArgs name gid)).errno⟩ with
  | ok b =>
    rw [h] at hclass
    have hpasses : (f (initArgs name gid)).Passes := hclass.mp ⟨b, rfl⟩
    simp only [Except.ok.injEq, hpasses, true_and, eq_comm]
  | error e =>
    rw [h] at hclass
    have hnot : ¬ (f (initArgs name gid)).Passes := by
      intro hpasses
      obtain ⟨b, hb⟩ := hclass.mpr hpasses
      cases hb
    simp only [reduceCtorEq, hnot, false_and]

/-- The array has that much. -/
theorem InitReport.length_filled (r : InitReport) : (r.groups.take r.filled).length = r.filled := by
  have hholds := r.holds
  rw [List.length_take, min_eq_left_iff, filled]
  omega

/-! ### The union -/

/-- The loop of `dedup_gids`, with what it has seen and what it keeps. -/
def dedupLoop (seen out : List Gid) : List Gid → List Gid
  | [] => out
  | gid :: gids =>
    if gid ∈ seen then dedupLoop seen out gids else dedupLoop (gid :: seen) (out ++ [gid]) gids

/-- `dedup_gids`. -/
def dedupGids (gids : List Gid) : List Gid := dedupLoop [] [] gids

/-- `Service::getgrouplist`. -/
def Service.getgrouplist (svc : Service) (name : List UInt8) (gid : Gid) :
    Except Error (List Gid) :=
  (svc.grouplistRaw name gid).map dedupGids

theorem dedupLoop_firstSeen {done seen out : List Gid} (gids : List Gid)
    (hseen : ∀ x, x ∈ seen ↔ x ∈ done) (h : FirstSeen done out) :
    FirstSeen (done ++ gids) (dedupLoop seen out gids) := by
  induction gids generalizing done seen out with
  | nil =>
    rw [List.append_nil]
    exact h
  | cons gid gids ih =>
    have hsplit : done ++ gid :: gids = done ++ [gid] ++ gids := by
      rw [List.append_assoc, List.singleton_append]
    rw [dedupLoop, hsplit]
    -- the set and the list of what is done have the same elements, before and after
    by_cases hmem : gid ∈ seen
    · rw [if_pos hmem]
      refine ih ?_ (h.old ((hseen gid).mp hmem))
      intro x
      rw [hseen, List.mem_append, List.mem_singleton]
      constructor
      · exact .inl
      · rintro (hx | rfl)
        · exact hx
        · exact (hseen x).mp hmem
    · rw [if_neg hmem]
      refine ih ?_ (h.new fun hdone => hmem ((hseen gid).mpr hdone))
      intro x
      rw [List.mem_cons, hseen, List.mem_append, List.mem_singleton, or_comm]

/-- **Repeats are dropped, the first of each is kept.** -/
theorem dedupGids_firstSeen (gids : List Gid) : FirstSeen gids (dedupGids gids) :=
  dedupLoop_firstSeen gids (fun _ => Iff.rfl) .nil

/-- `Source::LOOKUP_ORDER`. -/
def lookupOrder : List Source := [.files, .sss, .winbind]

theorem mem_lookupOrder (source : Source) : source ∈ lookupOrder := by
  cases source <;> decide

section Union

variable (lookup : Source → Except Error (List Gid))

/-- The loop of `fan_out_groups`. -/
def fanOutLoop : List Source → List Gid → Except Error (List Gid)
  | [], all => .ok (dedupGids all)
  | source :: sources, all =>
    match lookup source with
    | .ok gids => fanOutLoop sources (all ++ gids)
    | .error e => if e.isUnavail then fanOutLoop sources all else .error e

/-- `fan_out_groups`. -/
def fanOutGroups (gid : Gid) : Except Error (List Gid) := fanOutLoop lookup lookupOrder [gid]

/-- The module fails, and is not skipped. -/
def Fails (source : Source) (e : Error) : Prop :=
  lookup source = .error e ∧ e.isUnavail = false

/-- What a module adds to the union: nothing, unless it answered. -/
def added (source : Source) : List Gid :=
  match lookup source with
  | .ok gids => gids
  | .error _ => []

variable {lookup}

theorem mem_added {source : Source} {g : Gid} :
    g ∈ added lookup source ↔ ∃ gids, lookup source = .ok gids ∧ g ∈ gids := by
  rw [added]
  cases h : lookup source with
  | ok gids =>
    constructor
    · exact fun hg => ⟨gids, rfl, hg⟩
    · rintro ⟨gids', hok, hg⟩
      cases hok
      exact hg
  | error e =>
    refine iff_of_false List.not_mem_nil ?_
    rintro ⟨gids, hok, -⟩
    cases hok

/-- A module that does not fail adds what it adds. -/
theorem fanOutLoop_cons {source : Source} (h : ∀ e, ¬ Fails lookup source e)
    (sources : List Source) (all : List Gid) :
    fanOutLoop lookup (source :: sources) all =
      fanOutLoop lookup sources (all ++ added lookup source) := by
  rw [fanOutLoop, added]
  cases hl : lookup source with
  | ok gids => rfl
  | error e =>
    have hunavail : e.isUnavail = true := by
      by_contra hnot
      exact h e ⟨hl, Bool.eq_false_of_not_eq_true hnot⟩
    simp only [hunavail, if_true, List.append_nil]

theorem fanOutLoop_fails {source : Source} {e : Error} (h : Fails lookup source e)
    (sources : List Source) (all : List Gid) :
    fanOutLoop lookup (source :: sources) all = .error e := by
  rw [fanOutLoop, h.1]
  simp only [h.2, Bool.false_eq_true, if_false]

/-- The loop over modules none of which fails. -/
theorem fanOutLoop_append {sources : List Source}
    (h : ∀ source ∈ sources, ∀ e, ¬ Fails lookup source e) (rest : List Source)
    (all : List Gid) :
    fanOutLoop lookup (sources ++ rest) all =
      fanOutLoop lookup rest (all ++ sources.flatMap (added lookup)) := by
  induction sources generalizing all with
  | nil => rw [List.nil_append, List.flatMap_nil, List.append_nil]
  | cons source sources ih =>
    obtain ⟨hsource, hsources⟩ := List.forall_mem_cons.mp h
    rw [List.cons_append, fanOutLoop_cons hsource, ih hsources, List.flatMap_cons,
      List.append_assoc]

/-- Modules of which none fails, or the first that does. -/
theorem first_failure (lookup : Source → Except Error (List Gid)) (sources : List Source) :
    (∀ source ∈ sources, ∀ e, ¬ Fails lookup source e) ∨
      ∃ before source after e, sources = before ++ source :: after ∧
        (∀ s ∈ before, ∀ e, ¬ Fails lookup s e) ∧ Fails lookup source e := by
  induction sources with
  | nil => exact .inl (List.forall_mem_nil _)
  | cons source sources ih =>
    by_cases hfails : ∃ e, Fails lookup source e
    · obtain ⟨e, he⟩ := hfails
      exact .inr ⟨[], source, sources, e, rfl, List.forall_mem_nil _, he⟩
    · have hsource : ∀ e, ¬ Fails lookup source e := not_exists.mp hfails
      obtain hnone | ⟨before, s, after, e, rfl, hbefore, he⟩ := ih
      · exact .inl (List.forall_mem_cons.mpr ⟨hsource, hnone⟩)
      · exact .inr ⟨source :: before, s, after, e, rfl,
          List.forall_mem_cons.mpr ⟨hsource, hbefore⟩, he⟩

/-- **Where no module fails, the union of what they add**, repeats dropped. -/
theorem fanOut_ok (h : ∀ source ∈ lookupOrder, ∀ e, ¬ Fails lookup source e) (gid : Gid) :
    fanOutGroups lookup gid = .ok (dedupGids (gid :: lookupOrder.flatMap (added lookup))) := by
  have hloop := fanOutLoop_append h [] [gid]
  rw [List.append_nil, List.singleton_append] at hloop
  exact hloop

/-- **Where one does, the first failure.** -/
theorem fanOut_error {before after : List Source} {source : Source} {e : Error}
    (horder : lookupOrder = before ++ source :: after)
    (hbefore : ∀ s ∈ before, ∀ e, ¬ Fails lookup s e) (he : Fails lookup source e) (gid : Gid) :
    fanOutGroups lookup gid = .error e := by
  rw [fanOutGroups, horder, fanOutLoop_append hbefore, fanOutLoop_fails he]

end Union

/-! ### All modules together -/

/-- The lookup that `getgrouplist` hands to the fan-out; `service` loads a module. -/
def rawList (service : Source → Except Error Service) (name : List UInt8) (gid : Gid)
    (source : Source) : Except Error (List Gid) :=
  match service source with
  | .ok svc => svc.grouplistRaw name gid
  | .error e => .error e

/-- `getgrouplist`. -/
def getgrouplist (service : Source → Except Error Service) (name : List UInt8) (gid : Gid) :
    Except Error (List Gid) :=
  fanOutGroups (rawList service name gid) gid

theorem Service.grouplistRaw_ok {svc : Service} {name : List UInt8} {gid : Gid} {l : List Gid}
    (h : svc.grouplistRaw name gid = .ok l) :
    ∃ f, svc.initgroupsDyn = some f ∧ callInitgroups svc.name f name gid = .ok l := by
  rw [grouplistRaw] at h
  split at h
  · cases h
  · next f hf =>
    split at h
    · cases h
    · exact ⟨f, hf, h⟩

/-- A module that answers was loaded and has an `initgroups_dyn` function, which filled the
list. -/
theorem rawList_ok {service : Source → Except Error Service} {name : List UInt8} {gid : Gid}
    {source : Source} {l : List Gid} (h : rawList service name gid source = .ok l) :
    ∃ svc f, service source = .ok svc ∧ svc.initgroupsDyn = some f ∧
      callInitgroups svc.name f name gid = .ok l := by
  rw [rawList] at h
  split at h
  · next svc hsvc =>
    obtain ⟨f, hf, hcall⟩ := svc.grouplistRaw_ok h
    exact ⟨svc, f, hsvc, hf, hcall⟩
  · cases h

/-- The union of what the modules answer, for any answers. -/
structure UnionExact (lookup : Source → Except Error (List Gid)) (gid : Gid) : Prop where
  /-- there is a union exactly when every module answered or was unavailable -/
  ok_iff : (∃ l, fanOutGroups lookup gid = .ok l) ↔
    ∀ source, (∃ gids, lookup source = .ok gids) ∨
      ∃ e, lookup source = .error e ∧ e.isUnavail = true
  first : ∀ l, fanOutGroups lookup gid = .ok l → l.head? = some gid
  nodup : ∀ l, fanOutGroups lookup gid = .ok l → l.Nodup
  mem : ∀ l, fanOutGroups lookup gid = .ok l → ∀ g, g ∈ l ↔
    g = gid ∨ ∃ source gids, lookup source = .ok gids ∧ g ∈ gids
  /-- the order is that of the first appearance, in lookup order -/
  order : ∀ l, fanOutGroups lookup gid = .ok l →
    l.Pairwise fun g h => (gid :: lookupOrder.flatMap (added lookup)).idxOf g <
      (gid :: lookupOrder.flatMap (added lookup)).idxOf h
  /-- otherwise it is the first failure of another kind -/
  error_iff : ∀ e, fanOutGroups lookup gid = .error e ↔
    ∃ before source after, lookupOrder = before ++ source :: after ∧
      (∀ s ∈ before, (∃ gids, lookup s = .ok gids) ∨
        ∃ e, lookup s = .error e ∧ e.isUnavail = true) ∧
      lookup source = .error e ∧ e.isUnavail = false

section Exact

variable {lookup : Source → Except Error (List Gid)}

theorem not_fails_iff {source : Source} :
    (∀ e, ¬ Fails lookup source e) ↔ (∃ gids, lookup source = .ok gids) ∨
      ∃ e, lookup source = .error e ∧ e.isUnavail = true := by
  constructor
  · intro h
    cases hl : lookup source with
    | ok gids => exact .inl ⟨gids, rfl⟩
    | error e =>
      refine .inr ⟨e, rfl, ?_⟩
      by_contra hnot
      exact h e ⟨hl, Bool.eq_false_of_not_eq_true hnot⟩
  · rintro (⟨gids, hok⟩ | ⟨e, herr, hunavail⟩) e' ⟨hl, hnot⟩
    · cases hok.symm.trans hl
    · cases herr.symm.trans hl
      cases hunavail.symm.trans hnot

/-- A union is that of all modules. -/
theorem eq_of_fanOut_ok {gid : Gid} {l : List Gid} (h : fanOutGroups lookup gid = .ok l) :
    (∀ source ∈ lookupOrder, ∀ e, ¬ Fails lookup source e) ∧
      l = dedupGids (gid :: lookupOrder.flatMap (added lookup)) := by
  obtain hnone | ⟨before, source, after, e, horder, hbefore, he⟩ := first_failure lookup lookupOrder
  · rw [fanOut_ok hnone] at h
    cases h
    exact ⟨hnone, rfl⟩
  · rw [fanOut_error horder hbefore he] at h
    cases h

theorem firstSeen_of_fanOut_ok {gid : Gid} {l : List Gid} (h : fanOutGroups lookup gid = .ok l) :
    FirstSeen (gid :: lookupOrder.flatMap (added lookup)) l := by
  rw [(eq_of_fanOut_ok h).2]
  exact dedupGids_firstSeen _

theorem unionExact (gid : Gid) : UnionExact lookup gid where
  ok_iff := by
    constructor
    · rintro ⟨l, h⟩ source
      exact not_fails_iff.mp ((eq_of_fanOut_ok h).1 source (mem_lookupOrder source))
    · intro h
      exact ⟨_, fanOut_ok (fun source _ => not_fails_iff.mpr (h source)) gid⟩
  first := fun _ h => (firstSeen_of_fanOut_ok h).head?_eq
  nodup := fun _ h => (firstSeen_of_fanOut_ok h).nodup
  mem := by
    intro l h g
    rw [(firstSeen_of_fanOut_ok h).mem_iff, List.mem_cons, List.mem_flatMap]
    refine or_congr Iff.rfl ?_
    constructor
    · rintro ⟨source, -, hg⟩
      obtain ⟨gids, hok, hg⟩ := mem_added.mp hg
      exact ⟨source, gids, hok, hg⟩
    · rintro ⟨source, gids, hok, hg⟩
      exact ⟨source, mem_lookupOrder source, mem_added.mpr ⟨gids, hok, hg⟩⟩
  order := fun _ h => (firstSeen_of_fanOut_ok h).order
  error_iff := by
    intro e
    constructor
    · intro h
      -- the error that is returned is the first one in the order of the lookups
      obtain hnone | ⟨before, source, after, e', horder, hbefore, he⟩ :=
        first_failure lookup lookupOrder
      · rw [fanOut_ok hnone] at h
        cases h
      · rw [fanOut_error horder hbefore he] at h
        cases h
        exact ⟨before, source, after, horder,
          fun s hs => not_fails_iff.mp (hbefore s hs), he⟩
    · rintro ⟨before, source, after, horder, hbefore, he⟩
      exact fanOut_error horder (fun s hs => not_fails_iff.mpr (hbefore s hs)) he gid

end Exact

/-- What one module answers alone is its list without the repeats. -/
theorem Service.getgrouplist_ok {svc : Service} {name : List UInt8} {gid : Gid} {l : List Gid}
    (h : svc.getgrouplist name gid = .ok l) :
    ∃ raw, svc.grouplistRaw name gid = .ok raw ∧ FirstSeen raw l := by
  rw [getgrouplist] at h
  cases hraw : svc.grouplistRaw name gid with
  | error e =>
    rw [hraw] at h
    cases h
  | ok raw =>
    rw [hraw] at h
    cases h
    exact ⟨raw, rfl, dedupGids_firstSeen raw⟩

end Nss
