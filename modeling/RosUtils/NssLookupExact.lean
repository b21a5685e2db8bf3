/-
The lookups over all NSS modules are exact (`truenas_nss/src/service.rs`, `pwd.rs`, `grp.rs`).

* `lookups_exact` — for a key that the modules answer from directories, a lookup is the first
  hit of the directories, each at one moment of the lookup, one after another: nothing of a
  buffer that was too small or of how a module lays out its entries is left in the answer;
* `identity_round_trip` — what a module has found in its table by id it finds again by the
  name that was read.
-/
import RosUtils.NssLookup

namespace Nss.Lookup

open CMemory

section FanOut

variable {σ T : Type} {answer answer' : Source → Except Error (Option T)} {order : List Source}
  {src : Source} {r : Except Error (Option T)}

/-- A source that passes leaves it to the others. -/
theorem FirstHit.cons (h : FirstHit answer order r) (hsrc : Passes (answer src)) :
    FirstHit answer (src :: order) r := by
  cases h with
  | decided before after s horder hbefore hdecides =>
    refine .decided (src :: before) after s (congrArg (src :: ·) horder) ?_ hdecides
    exact List.forall_mem_cons.mpr ⟨hsrc, hbefore⟩
  | nowhere hall => exact .nowhere (List.forall_mem_cons.mpr ⟨hsrc, hall⟩)

/-- A source that does not pass decides before all others. -/
theorem FirstHit.head {a : Except Error (Option T)} (h : FirstHit answer (src :: order) r)
    (hsrc : answer src = a) (ha : ¬ Passes a) : r = a := by
  subst hsrc
  cases h with
  | decided before after s horder hbefore _ =>
    cases before with
    | nil =>
      cases horder
      rfl
    | cons b before =>
      cases horder
      exact absurd (hbefore src List.mem_cons_self) ha
  | nowhere hall => exact absurd (hall src List.mem_cons_self) ha

/-- Only the sources that are asked count. -/
theorem FirstHit.congr (h : FirstHit answer order r) (heq : ∀ s ∈ order, answer s = answer' s) :
    FirstHit answer' order r := by
  cases h with
  | decided before after src horder hbefore hdecides =>
    have hmem : ∀ s ∈ before ++ src :: after, answer s = answer' s := horder ▸ heq
    have hsrc : answer src = answer' src := hmem src (by simp)
    rw [hsrc] at hdecides ⊢
    refine .decided before after src horder ?_ hdecides
    intro s hs
    rw [← hmem s (List.mem_append_left _ hs)]
    exact hbefore s hs
  | nowhere hall =>
    refine .nowhere ?_
    intro s hs
    rw [← heq s hs]
    exact hall s hs

variable [Preorder σ] {lookup : Source → Query σ T}
  {answerAt : Source → σ → Except Error (Option T)}

omit [Preorder σ] in
/-- One turn of the loop: the source decides, or the others are asked. -/
theorem fanOut_cons {w w' : σ} {a : Except Error (Option T)} (h : lookup src w = (some a, w'))
    (srcs : List Source) :
    (Passes a ∧ fanOut lookup (src :: srcs) w = fanOut lookup srcs w') ∨
      ¬ Passes a ∧ fanOut lookup (src :: srcs) w = (some a, w') := by
  rw [fanOut, h]
  cases a with
  | ok o =>
    cases o with
    | none => exact .inl ⟨trivial, rfl⟩
    | some entry => exact .inr ⟨id, rfl⟩
  | error e =>
    by_cases hunavail : e.isUnavail = true
    · exact .inl ⟨hunavail, if_pos hunavail⟩
    · exact .inr ⟨hunavail, if_neg hunavail⟩

theorem fanOut_eq (h : ∀ src, AtMoment (lookup src) (answerAt src)) {srcs : List Source}
    (hnodup : srcs.Nodup) (w : σ) :
    ∃ t : Source → σ, ∃ w' r, fanOut lookup srcs w = (some r, w') ∧
      (∀ src, w ≤ t src ∧ t src ≤ w') ∧ srcs.Pairwise (fun a b => t a ≤ t b) ∧
      FirstHit (fun src => answerAt src (t src)) srcs r := by
  induction srcs generalizing w with
  | nil =>
    exact ⟨fun _ => w, w, .ok none, rfl, fun _ => ⟨le_rfl, le_rfl⟩, List.Pairwise.nil,
      .nowhere (List.forall_mem_nil _)⟩
  | cons src srcs ih =>
    obtain ⟨hnot, hnodup⟩ := List.nodup_cons.mp hnodup
    obtain ⟨t₀, w₁, hle, hle₁, hlookup⟩ := h src w
    have hother : ∀ (t : Source → σ), ∀ s ∈ srcs, Function.update t src t₀ s = t s := by
      intro t s hs
      exact Function.update_of_ne (ne_of_mem_of_not_mem hs hnot) _ _
    obtain ⟨hpasses, hnext⟩ | ⟨hdecides, hdone⟩ := fanOut_cons hlookup srcs
    · -- the moments of the others come after this one
      obtain ⟨t, w', r, hrest, hbounds, hsorted, hfirst⟩ := ih hnodup w₁
      refine ⟨Function.update t src t₀, w', r, hnext.trans hrest, ?_, ?_, ?_⟩
      · intro s
        by_cases hs : s = src
        · rw [hs, Function.update_self]
          exact ⟨hle, hle₁.trans ((hbounds src).1.trans (hbounds src).2)⟩
        · rw [Function.update_of_ne hs]
          exact ⟨hle.trans (hle₁.trans (hbounds s).1), (hbounds s).2⟩
      · refine List.pairwise_cons.mpr ⟨?_, ?_⟩
        · intro s hs
          rw [Function.update_self, hother t s hs]
          exact hle₁.trans (hbounds s).1
        · refine hsorted.imp_of_mem ?_
          intro a b ha hb hab
          rw [hother t a ha, hother t b hb]
          exact hab
      · refine FirstHit.cons (hfirst.congr ?_) ?_
        · intro s hs
          rw [hother t s hs]
        · rw [Function.update_self]
          exact hpasses
    · -- the others are not asked: any later moment will do
      refine ⟨Function.update (fun _ => w₁) src t₀, w₁, _, hdone, ?_, ?_, ?_⟩
      · intro s
        by_cases hs : s = src
        · rw [hs, Function.update_self]
          exact ⟨hle, hle₁⟩
        · rw [Function.update_of_ne hs]
          exact ⟨hle.trans hle₁, le_rfl⟩
      · refine List.pairwise_cons.mpr ⟨?_, ?_⟩
        · intro s hs
          rw [Function.update_self, hother _ s hs]
          exact hle₁
        · refine List.Pairwise.imp_of_mem ?_ hnodup
          intro a b ha hb _
          rw [hother _ a ha, hother _ b hb]
      · have hself : answerAt src t₀ =
            (fun s => answerAt s (Function.update (fun _ => w₁) src t₀ s)) src := by
          simp only [Function.update_self]
        rw [hself] at hdecides ⊢
        exact .decided [] srcs src rfl (List.forall_mem_nil _) hdecides

/-- **A lookup over all modules is the first hit.** -/
theorem fanOut_answers (h : ∀ src, AtMoment (lookup src) (answerAt src)) :
    Answers (fanOut lookup lookupOrder) answerAt :=
  fun w => fanOut_eq h (by decide) w

end FanOut

section Exact

variable {σ C R T : Type} [Preorder σ] {env : Env σ}

theorem atMoment_of_eq {query : Query σ T} {a : Except Error (Option T)}
    (h : ∀ w, query w = (some a, w)) : AtMoment query fun _ => a :=
  fun w => ⟨w, w, le_rfl, le_rfl, h w⟩

variable {At : Block → C → R → Prop} {extract : Block → C → Source → Reading T}
  {read : R → Source → Except Error T} {dir : σ → Reply R} {src : Source} {sym : Registry.Sym}

/-- What a source answers that cannot be loaded, or asked, or both. -/
theorem ask_moment {lookup : Registry.Service → Query σ T} {askable : Bool}
    (hmissing : ∀ svc, svc.fns sym = none →
      lookup svc = fun w => (some (.error (missing svc sym.suffix)), w))
    (hasked : ∀ {svc a}, env.service src = .ok svc → svc.fns sym = some a →
      AtMoment (lookup svc) fun t =>
        if askable then (dir t).outcome svc.name sym.suffix fun r => read r src
        else .error .nulByte) :
    AtMoment (env.ask lookup src) fun t => env.expected sym askable read src (dir t) := by
  unfold Env.ask Env.expected
  cases hsvc : env.service src with
  | error e => exact atMoment_of_eq fun w => rfl
  | ok svc =>
    show AtMoment (lookup svc) _
    cases hfns : svc.fns sym with
    | none =>
      simp only [hfns, hmissing svc hfns, if_true]
      exact atMoment_of_eq fun w => rfl
    | some a =>
      simp only [hfns, reduceCtorEq, if_false]
      exact hasked hsvc hfns

/-- One source answers as expected, for a key that needs no check. -/
theorem ask_byKey {K : Type} {code : ℕ → K → RawFn σ C} {key : K} (zeroed : C)
    (hextract : ∀ m c r, At m c r → ∀ source, extract m c source = some (read r source))
    (h : env.Serves At sym (fun a => code a key) src dir) :
    AtMoment (env.ask (fun svc => byKey env.heap svc sym code zeroed extract key) src)
      fun t => env.expected sym true read src (dir t) := by
  refine ask_moment ?_ ?_
  · intro svc hfns
    funext w
    simp only [byKey, hfns]
  · intro svc a hsvc hfns
    have hcall : byKey env.heap svc sym code zeroed extract key =
        lookupEntry env.heap svc sym.suffix (code a key) zeroed extract := by
      funext w
      simp only [byKey, hfns]
    rw [hcall, ← env.source hsvc]
    exact lookupEntry_eq (h hsvc hfns) svc sym.suffix zeroed hextract

/-- One source answers as expected, for a name.  A name with a NUL in it is not asked for. -/
theorem ask_byName {code : ℕ → List UInt8 → RawFn σ C} {name : List Char} (zeroed : C)
    (hextract : ∀ m c r, At m c r → ∀ source, extract m c source = some (read r source))
    (h : 0 ∉ Utf8.encode name →
      env.Serves At sym (fun a => code a (Utf8.encode name)) src dir) :
    AtMoment (env.ask (fun svc => byName env.heap svc sym code zeroed extract name) src)
      fun t => env.expected sym (decide ((0 : UInt8) ∉ Utf8.encode name)) read src (dir t) := by
  refine ask_moment ?_ ?_
  · intro svc hfns
    funext w
    simp only [byName, hfns]
  · intro svc a hsvc hfns
    by_cases hnul : (0 : UInt8) ∈ Utf8.encode name
    · have hrefused : byName env.heap svc sym code zeroed extract name =
          fun w => (some (.error .nulByte), w) := by
        funext w
        simp only [byName, hfns, if_pos hnul]
      rw [hrefused, decide_eq_false (not_not.mpr hnul)]
      exact atMoment_of_eq fun w => rfl
    · have hcall : byName env.heap svc sym code zeroed extract name =
          lookupEntry env.heap svc sym.suffix (code a (Utf8.encode name)) zeroed extract := by
        funext w
        simp only [byName, hfns, if_neg hnul]
      rw [hcall, decide_eq_true hnul, ← env.source hsvc]
      exact lookupEntry_eq (h hnul hsvc hfns) svc sym.suffix zeroed hextract

/-! ### The four lookups -/

/-- The module answers `getpwnam_r` for the name from the directory. -/
def Env.ServesPwnam (env : Env σ) (name : List Char) (src : Source)
    (dir : σ → Reply PasswdRecord) : Prop :=
  env.Serves PasswdRecord.At .getpwnamR (fun a => env.code.getpwnamR a (Utf8.encode name))
    src dir

/-- The module answers `getpwuid_r` for the uid from the directory. -/
def Env.ServesPwuid (env : Env σ) (uid : UInt32) (src : Source)
    (dir : σ → Reply PasswdRecord) : Prop :=
  env.Serves PasswdRecord.At .getpwuidR (fun a => env.code.getpwuidR a uid) src dir

/-- The module answers `getgrnam_r` for the name from the directory. -/
def Env.ServesGrnam (env : Env σ) (name : List Char) (src : Source)
    (dir : σ → Reply GroupRecord) : Prop :=
  env.Serves GroupRecord.At .getgrnamR (fun a => env.code.getgrnamR a (Utf8.encode name))
    src dir

/-- The module answers `getgrgid_r` for the gid from the directory. -/
def Env.ServesGrgid (env : Env σ) (gid : UInt32) (src : Source)
    (dir : σ → Reply GroupRecord) : Prop :=
  env.Serves GroupRecord.At .getgrgidR (fun a => env.code.getgrgidR a gid) src dir

section Sources

variable {name : List Char} {id : UInt32} {passwd : σ → Reply PasswdRecord}
  {group : σ → Reply GroupRecord}

theorem source_getpwnam (h : 0 ∉ Utf8.encode name → env.ServesPwnam name src passwd) :
    AtMoment (Source.getpwnam env name src) fun t =>
      env.expected .getpwnamR (decide ((0 : UInt8) ∉ Utf8.encode name))
        (PasswdRecord.read env.lossy) src (passwd t) :=
  ask_byName CPasswd.zeroed (fun _ _ _ hat => extractPasswd_eq env.lossy hat) h

theorem source_getpwuid (h : env.ServesPwuid id src passwd) :
    AtMoment (Source.getpwuid env id src) fun t =>
      env.expected .getpwuidR true (PasswdRecord.read env.lossy) src (passwd t) :=
  ask_byKey CPasswd.zeroed (fun _ _ _ hat => extractPasswd_eq env.lossy hat) h

theorem source_getgrnam (h : 0 ∉ Utf8.encode name → env.ServesGrnam name src group) :
    AtMoment (Source.getgrnam env name src) fun t =>
      env.expected .getgrnamR (decide ((0 : UInt8) ∉ Utf8.encode name)) GroupRecord.read src
        (group t) :=
  ask_byName CGroup.zeroed (fun _ _ _ hat => extractGroup_eq hat) h

theorem source_getgrgid (h : env.ServesGrgid id src group) :
    AtMoment (Source.getgrgid env id src) fun t =>
      env.expected .getgrgidR true GroupRecord.read src (group t) :=
  ask_byKey CGroup.zeroed (fun _ _ _ hat => extractGroup_eq hat) h

end Sources

/-- What the four lookups over all modules return, for each key that the modules answer from
directories. -/
structure LookupsExact (env : Env σ) : Prop where
  getpwnam : ∀ name (dir : Source → σ → Reply PasswdRecord),
    (0 ∉ Utf8.encode name → ∀ src, env.ServesPwnam name src (dir src)) →
    Answers (getpwnam env name) fun src t =>
      env.expected .getpwnamR (decide ((0 : UInt8) ∉ Utf8.encode name))
        (PasswdRecord.read env.lossy) src (dir src t)
  getpwuid : ∀ uid (dir : Source → σ → Reply PasswdRecord),
    (∀ src, env.ServesPwuid uid src (dir src)) →
    Answers (getpwuid env uid) fun src t =>
      env.expected .getpwuidR true (PasswdRecord.read env.lossy) src (dir src t)
  getgrnam : ∀ name (dir : Source → σ → Reply GroupRecord),
    (0 ∉ Utf8.encode name → ∀ src, env.ServesGrnam name src (dir src)) →
    Answers (getgrnam env name) fun src t =>
      env.expected .getgrnamR (decide ((0 : UInt8) ∉ Utf8.encode name)) GroupRecord.read
        src (dir src t)
  getgrgid : ∀ gid (dir : Source → σ → Reply GroupRecord),
    (∀ src, env.ServesGrgid gid src (dir src)) →
    Answers (getgrgid env gid) fun src t =>
      env.expected .getgrgidR true GroupRecord.read src (dir src t)

/-- **Every lookup returns the first hit of the directories**: the entries as the modules
hold them, a module that is unavailable skipped, the first failure of another kind reported.
It reads nothing outside of its buffers. -/
theorem lookups_exact (env : Env σ) : LookupsExact env where
  getpwnam _ _ h := fanOut_answers fun src => source_getpwnam fun hclean => h hclean src
  getpwuid _ _ h := fanOut_answers fun src => source_getpwuid (h src)
  getgrnam _ _ h := fanOut_answers fun src => source_getgrnam fun hclean => h hclean src
  getgrgid _ _ h := fanOut_answers fun src => source_getgrgid (h src)

/-! ### Names as keys -/

/-- A table that does not change, and the length of a buffer that it takes to find an entry
in it, under whichever key, and to find that there is none. -/
structure Table (R : Type) where
  rows : List R
  room : R → ℕ
  miss : ℕ

/-- The first entry. -/
def Table.reply (table : Table R) (p : R → Bool) : Reply R :=
  match table.rows.find? p with
  | some r => ⟨table.room r, .found r⟩
  | none => ⟨table.miss, .absent⟩

/-- No two entries have one name. -/
def Table.NamesAreKeys (table : Table R) (nameOf : R → Option (List UInt8)) : Prop :=
  ∀ r ∈ table.rows, ∀ r' ∈ table.rows, nameOf r = nameOf r' → r = r'

/-- The module, if it is there, exports the function. -/
def Env.Exports (env : Env σ) (sym : Registry.Sym) (src : Source) : Prop :=
  ∀ svc, env.service src = .ok svc → svc.fns sym ≠ none

omit [Preorder σ] in
/-- A source that has a hit was asked, and its directory has the entry. -/
theorem expected_hit {askable : Bool} {reply : Reply R} {out : T}
    (h : env.expected sym askable read src reply = .ok (some out)) :
    ∃ svc a r, env.service src = .ok svc ∧ svc.fns sym = some a ∧
      reply.verdict = .found r ∧ reply.need ≤ maxBuflen ∧ read r src = .ok out := by
  rw [Env.expected] at h
  cases hsvc : env.service src with
  | error e =>
    rw [hsvc] at h
    cases h
  | ok svc =>
    rw [hsvc] at h
    cases hfns : svc.fns sym with
    | none =>
      simp only [hfns, if_true] at h
      cases h
    | some a =>
      simp only [hfns, reduceCtorEq, if_false] at h
      cases askable with
      | false => cases h
      | true =>
        simp only [if_true, Reply.outcome] at h
        split at h
        · next hneed =>
          cases hverdict : reply.verdict with
          | absent =>
            rw [hverdict] at h
            cases h
          | failed a =>
            rw [hverdict] at h
            cases h
          | found r =>
            rw [hverdict, Verdict.outcome] at h
            cases hread : read r src with
            | error e =>
              rw [hread] at h
              cases h
            | ok out' =>
              rw [hread] at h
              cases h
              exact ⟨svc, a, r, rfl, hfns, rfl, hneed, hread⟩
        · cases h

omit [Preorder σ] in
/-- An entry that can be read is a hit. -/
theorem expected_found {svc : Registry.Service} {r : R} {need : ℕ} {out : T}
    (hsvc : env.service src = .ok svc) (hfns : svc.fns sym ≠ none) (hneed : need ≤ maxBuflen)
    (hread : read r src = .ok out) :
    env.expected sym true read src ⟨need, .found r⟩ = .ok (some out) := by
  simp only [Env.expected, hsvc, if_neg hfns, if_true, Reply.outcome, if_pos hneed,
    Verdict.outcome, hread]
  rfl

/-- What a table has found is an entry of it that was asked for. -/
theorem Table.reply_found {table : Table R} {p : R → Bool} {r : R}
    (h : (table.reply p).verdict = .found r) :
    r ∈ table.rows ∧ p r = true ∧ (table.reply p).need = table.room r := by
  unfold reply at h ⊢
  cases hfind : table.rows.find? p with
  | none =>
    rw [hfind] at h
    cases h
  | some r' =>
    rw [hfind] at h
    cases h
    exact ⟨List.mem_of_find?_eq_some hfind, List.find?_some hfind, rfl⟩

/-- Where names are keys, an entry is found under its name. -/
theorem Table.reply_name {table : Table R} {nameOf : R → Option (List UInt8)}
    (hkeys : table.NamesAreKeys nameOf) {r : R} (hmem : r ∈ table.rows) {key : List UInt8}
    (hname : nameOf r = some key) :
    table.reply (fun r => nameOf r = some key) = ⟨table.room r, .found r⟩ := by
  have hfind : table.rows.find? (fun r => nameOf r = some key) = some r := by
    cases hother : table.rows.find? (fun r => nameOf r = some key) with
    | none =>
      have hnot := List.find?_eq_none.mp hother r hmem
      exact absurd (decide_eq_true hname) hnot
    | some r' =>
      have hfound := List.find?_some hother
      have hr' : nameOf r' = some key := of_decide_eq_true hfound
      rw [hkeys r' (List.mem_of_find?_eq_some hother) r hmem (hr'.trans hname.symm)]
  rw [reply, hfind]

/-- A hit in a table was asked for, and is a hit under its name too. -/
theorem expected_again {table : Table R} {p : R → Bool} {raw : ℕ → RawFn σ C}
    {nameSym : Registry.Sym} {nameOf : R → Option (List UInt8)} {nameAt : C → ℕ}
    {name : List Char} {out : T} (w : σ) (c : C)
    (hkeys : table.NamesAreKeys nameOf)
    (hserves : env.Serves At sym raw src fun _ => table.reply p)
    (hexports : env.Exports nameSym src)
    (hat : ∀ {m c r}, At m c r → OptAt m (nameAt c) (nameOf r))
    (hread : ∀ {r}, read r src = .ok out → nameOf r = some (Utf8.encode name))
    (h : env.expected sym true read src (table.reply p) = .ok (some out)) :
    (∃ r, p r = true ∧ read r src = .ok out) ∧
      env.expected nameSym (decide ((0 : UInt8) ∉ Utf8.encode name)) read src
        (table.reply fun r => nameOf r = some (Utf8.encode name)) = .ok (some out) := by
  obtain ⟨svc, a, r, hsvc, hfns, hverdict, hneed, hout⟩ := expected_hit h
  obtain ⟨hmem, hp, hroom⟩ := Table.reply_found hverdict
  have hname := hread hout
  -- the module lays the name into a buffer, so that there is no NUL in it
  obtain ⟨-, -, hlaid⟩ :=
    (hserves hsvc hfns).found (w := w) hverdict c le_rfl hneed
  have hstr := hat hlaid
  rw [hname] at hstr
  rw [hroom] at hneed
  refine ⟨⟨r, hp, hout⟩, ?_⟩
  rw [decide_eq_true hstr.1, Table.reply_name hkeys hmem hname]
  exact expected_found hsvc (hexports svc hsvc) hneed hout

omit [Preorder σ] in
theorem readName_ok {o : Option (List UInt8)} {name : List Char} (h : readName o = .ok name) :
    o = some (Utf8.encode name) := by
  cases o with
  | none => cases h
  | some s =>
    rw [readName] at h
    cases hs : Utf8.decode s with
    | none =>
      rw [hs] at h
      cases h
    | some cs =>
      rw [hs] at h
      cases h
      rw [Utf8.decode_eq_some.mp hs]

theorem PasswdRecord.read_ok {lossy : Lossy} {r : PasswdRecord} {pw : Passwd}
    (h : r.read lossy src = .ok pw) :
    r.name = some (Utf8.encode pw.name) ∧ pw.uid = r.uid ∧ pw.source = src := by
  rw [read] at h
  cases hname : readName r.name with
  | error e =>
    rw [hname] at h
    cases h
  | ok name =>
    rw [hname] at h
    cases h
    exact ⟨readName_ok hname, rfl, rfl⟩

theorem GroupRecord.read_ok {r : GroupRecord} {g : Group} (h : r.read src = .ok g) :
    r.name = some (Utf8.encode g.name) ∧ g.gid = r.gid ∧ g.source = src := by
  rw [read] at h
  cases hmembers : r.members.mapM fun s => readName (some s) with
  | error e =>
    rw [hmembers] at h
    cases h
  | ok members =>
    cases hname : readName r.name with
    | error e =>
      rw [hmembers, hname] at h
      cases h
    | ok name =>
      rw [hmembers, hname] at h
      cases h
      exact ⟨readName_ok hname, rfl, rfl⟩

/-- The moment does not matter where the answer is always the same. -/
theorem AtMoment.const {query : Query σ T} {answer : σ → Except Error (Option T)}
    {a : Except Error (Option T)} (h : AtMoment query answer) (hconst : ∀ t, answer t = a)
    (w : σ) : (query w).1 = some a := by
  obtain ⟨t, w', -, -, heq⟩ := h w
  rw [heq, hconst]

/-! ### Where a hit comes from -/

section Hits

variable {w w' : σ} {out : T} {lookup : Source → Query σ T}

omit [Preorder σ] in
theorem fanOut_hit {srcs : List Source} (h : fanOut lookup srcs w = (some (.ok (some out)), w')) :
    ∃ src w₁ w₂, lookup src w₁ = (some (.ok (some out)), w₂) := by
  induction srcs generalizing w with
  | nil => cases h
  | cons src srcs ih =>
    rw [fanOut] at h
    split at h
    · cases h
    · next hlookup =>
      cases h
      exact ⟨src, w, w', hlookup⟩
    · exact ih h
    · split at h
      · exact ih h
      · cases h

omit [Preorder σ] in
theorem lookupEntry_hit {heap : Heap} {svc : Registry.Service} {op : String} {raw : RawFn σ C}
    {zeroed : C} (h : lookupEntry heap svc op raw zeroed extract w = (some (.ok (some out)), w')) :
    ∃ m c, extract m c svc.source = some (.ok out) := by
  have hread := congrArg Prod.fst h
  simp only [lookupEntry] at hread
  generalize growAndCall (attempt heap raw) _ _ = g at hread
  cases hclass : classifyLookup svc.name op g.answer with
  | error e =>
    rw [hclass] at hread
    cases hread
  | ok hit =>
    rw [hclass] at hread
    cases hit with
    | false => cases hread
    | true =>
      refine ⟨heap.block g.len g.state.bytes, g.state.entry, ?_⟩
      change (extract _ _ svc.source >>= fun out => pure (some out) : Reading (Option T)) = _
        at hread
      cases hout : extract (heap.block g.len g.state.bytes) g.state.entry svc.source with
      | none =>
        rw [hout] at hread
        cases hread
      | some r =>
        rw [hout] at hread
        cases r with
        | error e => cases hread
        | ok out' =>
          cases hread
          rfl

omit [Preorder σ] in
/-- A hit of a source was copied out as an entry of that source. -/
theorem ask_hit {K : Type} {code : ℕ → K → RawFn σ C} {key : K} {zeroed : C}
    (h : env.ask (fun svc => byKey env.heap svc sym code zeroed extract key) src w =
      (some (.ok (some out)), w')) :
    ∃ m c, extract m c src = some (.ok out) := by
  rw [Env.ask] at h
  split at h
  · cases h
  · next svc hsvc =>
    rw [byKey] at h
    split at h
    · cases h
    · obtain ⟨m, c, hout⟩ := lookupEntry_hit h
      rw [env.source hsvc] at hout
      exact ⟨m, c, hout⟩

theorem Reading.bind_ok {A B : Type} {x : Reading A} {f : A → Reading B} {b : B}
    (h : x >>= f = some (.ok b)) : ∃ a, f a = some (.ok b) := by
  cases x with
  | none => cases h
  | some r =>
    cases r with
    | error e => cases h
    | ok a => exact ⟨a, h⟩

theorem extractPasswd_source {lossy : Lossy} {m : Block} {c : CPasswd} {pw : Passwd}
    (h : extractPasswd lossy m c src = some (.ok pw)) : pw.source = src := by
  obtain ⟨name, h⟩ := Reading.bind_ok h
  obtain ⟨gecos, h⟩ := Reading.bind_ok h
  obtain ⟨dir, h⟩ := Reading.bind_ok h
  obtain ⟨shell, h⟩ := Reading.bind_ok h
  cases h
  rfl

theorem extractGroup_source {m : Block} {c : CGroup} {g : Group}
    (h : extractGroup m c src = some (.ok g)) : g.source = src := by
  obtain ⟨members, h⟩ := Reading.bind_ok h
  obtain ⟨name, h⟩ := Reading.bind_ok h
  cases h
  rfl

end Hits

/-- What is found by id is that id's, and its source has it under its name, if the module of
the source answers for the id and for the name from one table and exports both lookups. -/
structure RoundTrip (env : Env σ) (passwds : Source → Table PasswdRecord)
    (groups : Source → Table GroupRecord) : Prop where
  passwd : ∀ {uid w w' pw}, getpwuid env uid w = (some (.ok (some pw)), w') →
    env.ServesPwuid uid pw.source (fun _ => (passwds pw.source).reply fun r => r.uid = uid) →
    env.ServesPwnam pw.name pw.source (fun _ => (passwds pw.source).reply
      fun r => r.name = some (Utf8.encode pw.name)) →
    env.Exports .getpwnamR pw.source →
    pw.uid = uid ∧ ∀ w, (Source.getpwnam env pw.name pw.source w).1 = some (.ok (some pw))
  group : ∀ {gid w w' g}, getgrgid env gid w = (some (.ok (some g)), w') →
    env.ServesGrgid gid g.source (fun _ => (groups g.source).reply fun r => r.gid = gid) →
    env.ServesGrnam g.name g.source (fun _ => (groups g.source).reply
      fun r => r.name = some (Utf8.encode g.name)) →
    env.Exports .getgrnamR g.source →
    g.gid = gid ∧ ∀ w, (Source.getgrnam env g.name g.source w).1 = some (.ok (some g))

/-- **A name that was read out of an entry finds that entry again.** -/
theorem identity_round_trip {passwds : Source → Table PasswdRecord}
    {groups : Source → Table GroupRecord}
    (hpasswds : ∀ src, (passwds src).NamesAreKeys PasswdRecord.name)
    (hgroups : ∀ src, (groups src).NamesAreKeys GroupRecord.name) :
    RoundTrip env passwds groups where
  passwd := by
    intro uid w w' pw hquery hid hname hexports
    obtain ⟨src, w₁, w₂, hhit⟩ := fanOut_hit hquery
    obtain ⟨m, c, hout⟩ := ask_hit hhit
    obtain rfl := extractPasswd_source hout
    have hanswer := (source_getpwuid hid).const (fun _ => rfl) w₁
    rw [hhit] at hanswer
    obtain ⟨⟨r, huid, hread⟩, hagain⟩ := expected_again w₁ c (hpasswds pw.source) hid hexports
      (fun hat => hat.name) (fun hread => (PasswdRecord.read_ok hread).1)
      (Option.some.inj hanswer).symm
    obtain ⟨-, heq, -⟩ := PasswdRecord.read_ok hread
    exact ⟨heq.trans (of_decide_eq_true huid),
      (source_getpwnam fun _ => hname).const fun _ => hagain⟩
  group := by
    intro gid w w' g hquery hid hname hexports
    obtain ⟨src, w₁, w₂, hhit⟩ := fanOut_hit hquery
    obtain ⟨m, c, hout⟩ := ask_hit hhit
    obtain rfl := extractGroup_source hout
    have hanswer := (source_getgrgid hid).const (fun _ => rfl) w₁
    rw [hhit] at hanswer
    obtain ⟨⟨r, hgid, hread⟩, hagain⟩ := expected_again w₁ c (hgroups g.source) hid hexports
      (fun hat => hat.name) (fun hread => (GroupRecord.read_ok hread).1)
      (Option.some.inj hanswer).symm
    obtain ⟨-, heq, -⟩ := GroupRecord.read_ok hread
    exact ⟨heq.trans (of_decide_eq_true hgid),
      (source_getgrnam fun _ => hname).const fun _ => hagain⟩

end Exact

/-! ### A table with one group -/

section Wheel

open LittleEndian

variable {C R : Type}

/-- A function that answers one and the same thing, laying an entry out by `pack`. -/
def rawOf (pack : R → ℕ → ℕ → C × List UInt8) (reply : Reply R) : RawFn ℕ C :=
  fun w c base len =>
    if reply.need ≤ len then
      match reply.verdict with
      | .found r => ⟨⟨statusSuccess, 0⟩, (pack r base len).1, (pack r base len).2, w⟩
      | .absent => ⟨⟨statusNotfound, 0⟩, c, List.replicate len 0, w⟩
      | .failed a => ⟨a.1, c, List.replicate len 0, w⟩
    else ⟨⟨statusTryagain, erange⟩, c, List.replicate len 0, w⟩

theorem serves_rawOf {heap : Heap} {At : Block → C → R → Prop}
    {pack : R → ℕ → ℕ → C × List UInt8} {reply : Reply R}
    (hpack : ∀ r len, reply.verdict = .found r → len ≤ maxBuflen → reply.need ≤ len →
      (pack r (heap.addr len) len).2.length = len ∧
        At (heap.block len (pack r (heap.addr len) len).2) (pack r (heap.addr len) len).1 r) :
    Serves heap At (rawOf pack reply) fun _ => reply where
  short := by
    intro w c len _ hshort
    simp only [rawOf, if_neg (not_le.mpr hshort)]
  found := by
    intro w r hverdict c len hlen hneed
    simp only [rawOf, if_pos hneed, hverdict, true_and]
    exact hpack r len hverdict hlen hneed
  absent := by
    intro w hverdict c len _ hneed
    simp only [rawOf, if_pos hneed, hverdict]
  failed := by
    intro w a hverdict c len _ hneed
    simp only [rawOf, if_pos hneed, hverdict]
  forward := by
    intro w c base len
    have hsame : (rawOf pack reply w c base len).world = w := by
      unfold rawOf
      split
      · split <;> rfl
      · rfl
    exact hsame.ge

/-- A name of 2000 letters. -/
def longName : List UInt8 := List.replicate 2000 97

/-- The group `wheel`, 10, with one member. -/
def wheel : GroupRecord := ⟨some [119, 104, 101, 101, 108], 10, [longName]⟩

/-- The room for the entry: two pointers and two strings. -/
def wheelRoom : ℕ := 2023

/-- The array of members first, then the strings. -/
def packWheel (base len : ℕ) : CGroup × List UInt8 :=
  (⟨base + 2017, 0, 10, base⟩,
    toLe 8 (base + 16) ++ (toLe 8 0 ++
      ((longName ++ [0]) ++ ([119, 104, 101, 101, 108, 0] ++
        List.replicate (len - wheelRoom) 0))))

theorem length_longName : longName.length = 2000 := List.length_replicate

theorem packWheel_at {heap : Heap} {len : ℕ} (hlen : len ≤ maxBuflen) (hroom : wheelRoom ≤ len) :
    (packWheel (heap.addr len) len).2.length = len ∧
      GroupRecord.At (heap.block len (packWheel (heap.addr len) len).2)
        (packWheel (heap.addr len) len).1 wheel := by
  have hfits := heap.fits len hlen
  have hroom' : 2023 ≤ len := hroom
  have hnul : (0 : UInt8) ∉ longName := by
    rw [longName, List.mem_replicate]
    exact fun h => absurd h.2 (by decide)
  refine ⟨?_, ⟨⟨by decide, ?_⟩, rfl, .inr ⟨heap.addr len + 16, ?_, ⟨hnul, ?_⟩, ?_⟩⟩⟩
  · simp only [packWheel, List.length_append, List.length_replicate, length_longName, wheelRoom]
    show 8 + (8 + (2000 + 1 + (6 + (len - 2023)))) = len
    omega
  · refine Block.holds_append (toLe 8 (heap.addr len + 16) ++ (toLe 8 0 ++ (longName ++ [0])))
      (List.replicate (len - wheelRoom) 0) ?_ ?_
    · simp only [List.length_append, length_longName]
      rfl
    · simp only [Heap.block, packWheel, List.append_assoc]
      rfl
  · exact ⟨toLe 8 (heap.addr len + 16), rfl, ofLe_toLe (by omega),
      Block.holds_append [] _ rfl rfl⟩
  · refine Block.holds_append (toLe 8 (heap.addr len + 16) ++ toLe 8 0)
      ([119, 104, 101, 101, 108, 0] ++ List.replicate (len - wheelRoom) 0) rfl ?_
    simp only [Heap.block, packWheel, List.append_assoc]
  · exact ⟨toLe 8 0, rfl, rfl, Block.holds_append (toLe 8 (heap.addr len + 16)) _ rfl rfl⟩

/-- The groups of the module whose functions are at this address: the local one has to read
past `wheel` to find that a group is not there. -/
def groupsAt (a : ℕ) : Table GroupRecord where
  rows := if a = 1 then [wheel] else []
  room _ := wheelRoom
  miss := if a = 1 then wheelRoom else 0

/-- Where the functions of a module are. -/
def homeOf : Source → ℕ
  | .files => 1
  | .sss => 2
  | .winbind => 3

/-- A function that finds no user. -/
def nobody : RawFn ℕ CPasswd :=
  rawOf (fun (_ : PasswdRecord) _ _ => (CPasswd.zeroed, [])) ⟨0, .absent⟩

/-- Modules that serve these groups, and no users. -/
def wheelEnv (lossy : Lossy) : Env ℕ where
  heap := ⟨fun _ => 4096, fun _ => by decide, fun len hlen => by
    have : maxBuflen + 4096 ≤ 2 ^ 64 := by decide
    omega⟩
  lossy := lossy
  code :=
    { getpwnamR := fun _ _ => nobody
      getpwuidR := fun _ _ => nobody
      getgrnamR := fun a key =>
        rawOf (fun _ => packWheel) ((groupsAt a).reply fun r => r.name = some key)
      getgrgidR := fun a gid =>
        rawOf (fun _ => packWheel) ((groupsAt a).reply fun r => r.gid = gid) }
  service src := .ok ⟨Registry.sourceName src, Registry.sourcePrefix src, src,
    Registry.sourceScope src, fun _ => some (homeOf src)⟩
  source := by
    intro src svc h
    cases h
    rfl

theorem eq_wheel {a : ℕ} {r : GroupRecord} (h : r ∈ (groupsAt a).rows) : r = wheel := by
  rw [groupsAt] at h
  split at h
  · exact List.mem_singleton.mp h
  · cases h

theorem serves_groupsAt (heap : Heap) (a : ℕ) (p : GroupRecord → Bool) :
    Serves heap GroupRecord.At (rawOf (fun _ => packWheel) ((groupsAt a).reply p))
      fun _ => (groupsAt a).reply p := by
  refine serves_rawOf ?_
  intro r len hverdict hlen hneed
  obtain ⟨hmem, -, hroom⟩ := Table.reply_found hverdict
  obtain rfl := eq_wheel hmem
  rw [hroom] at hneed
  exact packWheel_at hlen hneed

section Served

variable (lossy : Lossy) (src : Source)

theorem wheel_servesGrgid (gid : UInt32) : (wheelEnv lossy).ServesGrgid gid src fun _ =>
    (groupsAt (homeOf src)).reply fun r => r.gid = gid := by
  intro svc a hsvc hfns
  cases hsvc
  cases hfns
  exact serves_groupsAt _ _ _

theorem wheel_servesGrnam (name : List Char) : (wheelEnv lossy).ServesGrnam name src fun _ =>
    (groupsAt (homeOf src)).reply fun r => r.name = some (Utf8.encode name) := by
  intro svc a hsvc hfns
  cases hsvc
  cases hfns
  exact serves_groupsAt _ _ _

end Served

/-- Text that is not UTF-8 becomes one replacement character. -/
def oneMark : Lossy where
  decode b := (Utf8.decode b).getD ['\uFFFD']
  valid cs := by
    rw [Utf8.decode_eq_some.mpr rfl]
    rfl

/-- `wheel` as it is read. -/
def wheelGroup : Group :=
  ⟨['w', 'h', 'e', 'e', 'l'], 10, [List.replicate 2000 'a'], .files⟩

theorem wheel_read : wheel.read .files = .ok wheelGroup := by
  have hname : Utf8.decode [119, 104, 101, 101, 108] = some ['w', 'h', 'e', 'e', 'l'] :=
    Utf8.decode_eq_some.mpr (by decide)
  have hmember : Utf8.decode longName = some (List.replicate 2000 'a') := by
    have hascii : ∀ c ∈ List.replicate 2000 'a', c.toNat < 128 := by
      intro c hc
      rw [List.eq_of_mem_replicate hc]
      decide
    refine Utf8.decode_eq_some.mpr ?_
    rw [Utf8.encode_ascii hascii, List.map_replicate]
    rfl
  simp only [GroupRecord.read, wheel, List.mapM_cons, List.mapM_nil, readName, hname, hmember]
  rfl

/-- A lookup of 10 that is the first hit of these groups finds `wheel`. -/
theorem wheel_found {query : Query ℕ Group}
    (h : Answers query fun src _ => (wheelEnv oneMark).expected .getgrgidR true GroupRecord.read
      src ((groupsAt (homeOf src)).reply fun r => r.gid = 10)) :
    ∃ w, query 0 = (some (.ok (some wheelGroup)), w) := by
  obtain ⟨t, w', r, hquery, -, -, hfirst⟩ := h 0
  have hfiles : (wheelEnv oneMark).expected .getgrgidR true GroupRecord.read .files
      ((groupsAt (homeOf .files)).reply fun r => r.gid = 10) = .ok (some wheelGroup) :=
    expected_found rfl (Option.some_ne_none _) (by decide) wheel_read
  rw [hfirst.head hfiles id] at hquery
  exact ⟨w', hquery⟩

/-- The entry does not fit into the first buffer. -/
theorem lookups_exact_wheel : initialBuflen < wheelRoom ∧
    ∃ w, getgrgid (wheelEnv oneMark) 10 0 = (some (.ok (some wheelGroup)), w) :=
  ⟨by decide, wheel_found ((lookups_exact (wheelEnv oneMark)).getgrgid 10 _ fun src =>
    wheel_servesGrgid oneMark src 10)⟩

theorem identity_round_trip_wheel :
    ∃ w, getgrgid (wheelEnv oneMark) 10 0 = (some (.ok (some wheelGroup)), w) ∧
      ∀ w, (Source.getgrnam (wheelEnv oneMark) ['w', 'h', 'e', 'e', 'l'] .files w).1 =
        some (.ok (some wheelGroup)) := by
  have hkeys : ∀ src, (groupsAt (homeOf src)).NamesAreKeys GroupRecord.name := by
    intro src r hr r' hr' _
    rw [eq_wheel hr, eq_wheel hr']
  have hnone : ∀ _ : Source, (⟨[], fun _ => 0, 0⟩ : Table PasswdRecord).NamesAreKeys
      PasswdRecord.name := fun _ r hr => absurd hr List.not_mem_nil
  obtain ⟨w, hquery⟩ := wheel_found
    (fanOut_answers fun src => source_getgrgid (wheel_servesGrgid oneMark src 10))
  refine ⟨w, hquery, ?_⟩
  have hexports : (wheelEnv oneMark).Exports .getgrnamR .files := by
    intro svc hsvc
    cases hsvc
    exact Option.some_ne_none _
  exact ((identity_round_trip hnone hkeys).group hquery (wheel_servesGrgid oneMark .files 10)
    (wheel_servesGrnam oneMark .files _) hexports).2

end Wheel

end Nss.Lookup
