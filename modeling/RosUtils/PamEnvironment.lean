/-
The environment of a PAM transaction (`truenas_pam/src/txn.rs`).

libpam keeps `NAME=VALUE` strings of bytes.  The application reads and changes them by names
and values that are text, the modules of the stack by whatever bytes they like, and all of
them through `pam_putenv`, which tells an assignment from a removal by the first `=`.

libpam is a parameter: `Libpam` has the three functions that are called, and `Libpam.Laws` is
what their manual pages say of them.  A call that fails may lose the variable that it names.

* `putenv`, `unsetenv`, `getenv`, `env` — the application's calls, with `putenv_eq` and
  `unsetenv_eq`: which call of libpam each of them is, and what its return code becomes;
* `splitEnv_eq_ok` — how an entry is split;
* `environment_exact` — what is put stays until somebody names it again, what is taken out
  was there, and `env` lists what `getenv` reads.
-/
import Mathlib.Data.List.AList
import Mathlib.Data.List.TakeWhile
import RosUtils.PamConv
import RosUtils.Utf8

namespace Pam.Txn

open Conv (bne_of_not_mem check fromRaw pamBufErr pamSuccess)

/-! ### libpam -/

/-- `PAM_BAD_ITEM` -/
def pamBadItem : ℤ := 29

/-- The byte `=`. -/
def equals : UInt8 := 61

/-- A C string: bytes without a NUL. -/
@[ext] structure CString where
  bytes : List UInt8
  nul : 0 ∉ bytes
  deriving DecidableEq

/-- Up to the first `=`. -/
def nameOf (entry : List UInt8) : List UInt8 := entry.takeWhile (· != equals)

/-- Behind the first `=`. -/
def valueOf (entry : List UInt8) : List UInt8 := (entry.dropWhile (· != equals)).drop 1

def CString.name (s : CString) : CString where
  bytes := nameOf s.bytes
  nul h := s.nul (List.takeWhile_subset _ h)

def CString.value (s : CString) : CString where
  bytes := valueOf s.bytes
  nul h := s.nul (List.dropWhile_subset _ (List.mem_of_mem_drop h))

/-- The functions of libpam.  `σ` is the state of the handle and of all else that they depend
on, such as the memory that there is. -/
structure Libpam (σ : Type) where
  /-- `pam_putenv`, with its return code -/
  putenv : σ → CString → ℤ × σ
  /-- `pam_getenv` -/
  getenv : σ → CString → Option CString
  /-- `pam_getenvlist` -/
  getenvlist : σ → Option (List CString)

/-- What the manual pages say. -/
structure Libpam.Laws {σ : Type} (lib : Libpam σ) : Prop where
  /-- a call changes the variable that it names at most -/
  other : ∀ st s name, equals ∉ name.bytes → name ≠ s.name →
    lib.getenv (lib.putenv st s).2 name = lib.getenv st name
  /-- `NAME=VALUE` sets the variable -/
  assigned : ∀ st s, equals ∈ s.bytes → (lib.putenv st s).1 = pamSuccess →
    lib.getenv (lib.putenv st s).2 s.name = some s.value
  /-- `NAME` deletes it -/
  removed : ∀ st s, equals ∉ s.bytes → (lib.putenv st s).1 = pamSuccess →
    lib.getenv st s ≠ none ∧ lib.getenv (lib.putenv st s).2 s = none
  /-- unless it is not set -/
  absent : ∀ st s, equals ∉ s.bytes → (lib.putenv st s).1 = pamBadItem →
    lib.getenv st s = none ∧ lib.getenv (lib.putenv st s).2 s = none
  /-- the list is a copy of the environment, as `NAME=VALUE` strings -/
  listed : ∀ st list, lib.getenvlist st = some list →
    (list.map CString.name).Nodup ∧ ∀ name value, equals ∉ name.bytes →
      (lib.getenv st name = some value ↔ ∃ s ∈ list, s.name = name ∧ s.value = value)

/-! ### What the application calls -/

/-- `cstring` -/
def cstring (s : List Char) : Except Error CString :=
  if nul : 0 ∈ Utf8.encode s then .error .nulByte else .ok ⟨Utf8.encode s, nul⟩

/-- `str::from_utf8`, with the error it is mapped to. -/
def fromUtf8 (bytes : List UInt8) : Except Error (List Char) :=
  match Utf8.decode bytes with
  | some s => .ok s
  | none => .error .notUtf8

/-- `check_env_name` -/
def checkEnvName (name : List Char) : Except Error Unit :=
  if name = [] ∨ '=' ∈ name then .error .invalidName else .ok ()

/-- `split_env` -/
def splitEnv (entry : List UInt8) : Except Error (List Char × List Char) := do
  let (name, value) :=
    match entry.findIdx? (· == equals) with
    | some i => (entry.take i, entry.drop (i + 1))
    | none => (entry, [])
  let name ← fromUtf8 name
  let value ← fromUtf8 value
  pure (name, value)

section Calls

variable {σ : Type} (lib : Libpam σ) (st : σ)

/-- `Transaction::raw_putenv` -/
def rawPutenv (entry : List Char) : Except Error Unit × σ :=
  match cstring entry with
  | .error err => (.error err, st)
  | .ok s => (check (lib.putenv st s).1, (lib.putenv st s).2)

/-- `Transaction::putenv` -/
def putenv (name value : List Char) : Except Error Unit × σ :=
  match checkEnvName name with
  | .error err => (.error err, st)
  | .ok () => rawPutenv lib st (name ++ '=' :: value)

/-- `Transaction::unsetenv` -/
def unsetenv (name : List Char) : Except Error Bool × σ :=
  match checkEnvName name with
  | .error err => (.error err, st)
  | .ok () =>
    match rawPutenv lib st name with
    | (.ok (), st) => (.ok true, st)
    -- there was none
    | (.error err, st) => (if err = .pam pamBadItem then .ok false else .error err, st)

/-- `Transaction::getenv` -/
def getenv (name : List Char) : Except Error (Option (List Char)) :=
  match cstring name with
  | .error err => .error err
  | .ok name =>
    match lib.getenv st name with
    | none => .ok none
    | some value => (fromUtf8 value.bytes).map some

/-- `Transaction::env`: what does not split is skipped. -/
def env : Except Error (List (List Char × List Char)) :=
  match lib.getenvlist st with
  | none => .error (.pam pamBufErr)
  | some list => .ok (list.filterMap fun entry => (splitEnv entry.bytes).toOption)

end Calls

/-! ### Names and values -/

theorem equals_eq : equals = '='.toUInt8 := rfl

theorem equals_mem_encode {s : List Char} : equals ∈ Utf8.encode s ↔ '=' ∈ s :=
  Utf8.mem_encode (d := '=') (by decide) s

theorem nul_mem_encode {s : List Char} : 0 ∈ Utf8.encode s ↔ '\x00' ∈ s :=
  Utf8.mem_encode (d := '\x00') (by decide) s

theorem encode_entry (name value : List Char) :
    Utf8.encode (name ++ '=' :: value) = Utf8.encode name ++ equals :: Utf8.encode value := by
  rw [Utf8.encode_append, Utf8.encode_cons_ascii (by decide), equals_eq]

theorem nameOf_append {name : List UInt8} (h : equals ∉ name) (value : List UInt8) :
    nameOf (name ++ equals :: value) = name := by
  rw [nameOf, List.takeWhile_append_of_pos (bne_of_not_mem h), List.takeWhile_cons,
    bne_self_eq_false]
  exact List.append_nil name

theorem valueOf_append {name : List UInt8} (h : equals ∉ name) (value : List UInt8) :
    valueOf (name ++ equals :: value) = value := by
  rw [valueOf, List.dropWhile_append_of_pos (bne_of_not_mem h), List.dropWhile_cons,
    bne_self_eq_false]
  rfl

theorem nameOf_of_not_mem {s : List UInt8} (h : equals ∉ s) : nameOf s = s :=
  List.takeWhile_eq_self_iff.mpr (bne_of_not_mem h)

theorem valueOf_of_not_mem {s : List UInt8} (h : equals ∉ s) : valueOf s = [] := by
  rw [valueOf, List.dropWhile_eq_nil_iff.mpr (bne_of_not_mem h), List.drop_nil]

theorem equals_not_mem_nameOf (s : List UInt8) : equals ∉ nameOf s := by
  intro h
  have hne := List.mem_takeWhile_imp h
  rw [bne_self_eq_false] at hne
  cases hne

/-- An assignment is its name, the first `=` and its value. -/
theorem entry_eq {s : List UInt8} (h : equals ∈ s) : s = nameOf s ++ equals :: valueOf s := by
  induction s with
  | nil => cases h
  | cons b s ih =>
    rw [nameOf, valueOf, List.takeWhile_cons, List.dropWhile_cons]
    by_cases hb : b = equals
    · rw [hb, bne_self_eq_false]
      rfl
    · have hs : equals ∈ s := (List.mem_cons.mp h).resolve_left (Ne.symm hb)
      rw [bne_iff_ne.mpr hb]
      exact congrArg (b :: ·) (ih hs)

theorem findIdx?_equals {s : List UInt8} (h : equals ∈ s) :
    s.findIdx? (· == equals) = some (nameOf s).length := by
  induction s with
  | nil => cases h
  | cons b s ih =>
    rw [List.findIdx?_cons, nameOf, List.takeWhile_cons]
    by_cases hb : b = equals
    · rw [hb, beq_self_eq_true, bne_self_eq_false]
      rfl
    · have hs : equals ∈ s := (List.mem_cons.mp h).resolve_left (Ne.symm hb)
      rw [beq_eq_false_iff_ne.mpr hb, bne_iff_ne.mpr hb, ih hs]
      rfl

/-! ### Reading -/

theorem fromUtf8_eq_ok {b : List UInt8} {s : List Char} :
    fromUtf8 b = .ok s ↔ b = Utf8.encode s := by
  rw [fromUtf8, ← Utf8.decode_eq_some]
  cases Utf8.decode b with
  | none => simp
  | some c => simp

/-- The two parts of an entry.  Without a `=` the value is empty. -/
theorem splitEnv_eq (entry : List UInt8) :
    splitEnv entry = (do
      let name ← fromUtf8 (nameOf entry)
      let value ← fromUtf8 (valueOf entry)
      pure (name, value)) := by
  by_cases h : equals ∈ entry
  · have hentry := entry_eq h
    have htake : entry.take (nameOf entry).length = nameOf entry :=
      (congrArg (List.take _) hentry).trans List.take_left
    have hdrop : entry.drop ((nameOf entry).length + 1) = valueOf entry :=
      (congrArg (List.drop _) hentry).trans (List.drop_length_add_append _)
    rw [splitEnv, findIdx?_equals h]
    show (do
      let name ← fromUtf8 (entry.take (nameOf entry).length)
      let value ← fromUtf8 (entry.drop ((nameOf entry).length + 1))
      pure (name, value)) = _
    rw [htake, hdrop]
  · have hnone : entry.findIdx? (· == equals) = none := by
      rw [List.findIdx?_eq_none_iff]
      intro b hb
      exact beq_eq_false_iff_ne.mpr fun hbe => h (hbe ▸ hb)
    rw [splitEnv, hnone, nameOf_of_not_mem h, valueOf_of_not_mem h]

/-- **An entry is split at its first `=`**, if both parts are text. -/
theorem splitEnv_eq_ok {entry : List UInt8} {name value : List Char} :
    splitEnv entry = .ok (name, value) ↔
      nameOf entry = Utf8.encode name ∧ valueOf entry = Utf8.encode value := by
  rw [splitEnv_eq, ← fromUtf8_eq_ok, ← fromUtf8_eq_ok]
  cases fromUtf8 (nameOf entry) with
  | error err => simp [bind, Except.bind]
  | ok c =>
    cases fromUtf8 (valueOf entry) with
    | error err => simp [bind, Except.bind]
    | ok d => simp [bind, Except.bind, pure, Except.pure]

theorem cstring_ok {s : List Char} (h : '\x00' ∉ s) :
    cstring s = .ok ⟨Utf8.encode s, fun hmem => h (nul_mem_encode.mp hmem)⟩ :=
  dif_neg fun hmem => h (nul_mem_encode.mp hmem)

theorem cstring_error {s : List Char} (h : '\x00' ∈ s) : cstring s = .error .nulByte :=
  dif_pos (nul_mem_encode.mpr h)

variable {σ : Type} {lib : Libpam σ} {st st' : σ} {name value : List Char}

/-- A value as the application gets it. -/
def readValue : Option CString → Except Error (Option (List Char))
  | none => .ok none
  | some value => (fromUtf8 value.bytes).map some

/-- What is read is text exactly if the bytes are that text. -/
theorem readValue_eq_ok {v : Option CString} {text : Option (List Char)} :
    readValue v = .ok text ↔ v.map CString.bytes = text.map Utf8.encode := by
  cases v with
  | none => cases text <;> simp [readValue]
  | some s =>
    rw [readValue]
    cases text with
    | none => cases fromUtf8 s.bytes <;> simp [Except.map]
    | some t =>
      rw [Option.map_some, Option.map_some, Option.some.injEq, ← fromUtf8_eq_ok]
      cases fromUtf8 s.bytes <;> simp [Except.map]

theorem getenv_eq {s : CString} (hs : s.bytes = Utf8.encode name) :
    getenv lib st name = readValue (lib.getenv st s) := by
  have hnul : '\x00' ∉ name := fun h => s.nul (hs ▸ nul_mem_encode.mpr h)
  obtain rfl : s = ⟨Utf8.encode name, fun h => hnul (nul_mem_encode.mp h)⟩ := CString.ext hs
  rw [getenv, cstring_ok hnul]
  dsimp only
  cases lib.getenv st ⟨Utf8.encode name, _⟩ with
  | none => rfl
  | some value => rfl

theorem getenv_nul (h : '\x00' ∈ name) : getenv lib st name = .error .nulByte := by
  rw [getenv, cstring_error h]

/-- Where libpam answers alike, so does `getenv`. -/
theorem getenv_congr (h : ∀ s, s.bytes = Utf8.encode name → lib.getenv st' s = lib.getenv st s) :
    getenv lib st' name = getenv lib st name := by
  by_cases hnul : '\x00' ∈ name
  · rw [getenv_nul hnul, getenv_nul hnul]
  · obtain ⟨s, hs⟩ : ∃ s : CString, s.bytes = Utf8.encode name :=
      ⟨⟨_, fun hmem => hnul (nul_mem_encode.mp hmem)⟩, rfl⟩
    rw [getenv_eq hs, getenv_eq hs, h s hs]

/-! ### Changing -/

/-- A name that a variable can have. -/
def ValidName (name : List Char) : Prop := name ≠ [] ∧ '=' ∉ name ∧ '\x00' ∉ name

instance (name : List Char) : Decidable (ValidName name) := inferInstanceAs (Decidable (_ ∧ _))

theorem checkEnvName_ok (h : ValidName name) : checkEnvName name = .ok () :=
  if_neg (not_or.mpr ⟨h.1, h.2.1⟩)

/-- A request that is not one of C strings is refused before libpam sees it. -/
theorem refused_of_not_valid (value : List Char) (h : ¬ (ValidName name ∧ '\x00' ∉ value)) :
    checkEnvName name = .error .invalidName ∨
      checkEnvName name = .ok () ∧ ('\x00' ∈ name ∨ '\x00' ∈ value) := by
  by_cases hname : name = [] ∨ '=' ∈ name
  · exact .inl (if_pos hname)
  · obtain ⟨hempty, heq⟩ := not_or.mp hname
    refine .inr ⟨if_neg hname, ?_⟩
    by_contra hnul
    obtain ⟨hnul, hvalue⟩ := not_or.mp hnul
    exact h ⟨⟨hempty, heq, hnul⟩, hvalue⟩

/-- The two refusals that libpam has no part in. -/
def Refusal (err : Error) : Prop := err = .invalidName ∨ err = .nulByte

theorem putenv_refused (lib : Libpam σ) (st : σ) (h : ¬ (ValidName name ∧ '\x00' ∉ value)) :
    ∃ err, Refusal err ∧ putenv lib st name value = (.error err, st) := by
  rw [putenv]
  obtain hcheck | ⟨hcheck, hnul⟩ := refused_of_not_valid value h
  · exact ⟨.invalidName, .inl rfl, by rw [hcheck]⟩
  · have hentry : '\x00' ∈ name ++ '=' :: value := by
      rw [List.mem_append, List.mem_cons]
      exact hnul.imp_right .inr
    exact ⟨.nulByte, .inr rfl, by simp only [hcheck, rawPutenv, cstring_error hentry]⟩

theorem unsetenv_refused (lib : Libpam σ) (st : σ) (h : ¬ ValidName name) :
    ∃ err, Refusal err ∧ unsetenv lib st name = (.error err, st) := by
  rw [unsetenv]
  obtain hcheck | ⟨hcheck, hnul⟩ := refused_of_not_valid [] fun hvalid => h hvalid.1
  · exact ⟨.invalidName, .inl rfl, by rw [hcheck]⟩
  · have hname : '\x00' ∈ name := hnul.resolve_right List.not_mem_nil
    refine ⟨.nulByte, .inr rfl, ?_⟩
    simp only [hcheck, rawPutenv, cstring_error hname]
    rfl

/-- `putenv` is one call with the name and the value, and its return code. -/
theorem putenv_eq (lib : Libpam σ) (st : σ) (hname : ValidName name) (hvalue : '\x00' ∉ value) :
    ∃ s : CString, equals ∈ s.bytes ∧ s.name.bytes = Utf8.encode name ∧
      s.value.bytes = Utf8.encode value ∧
      putenv lib st name value = (check (lib.putenv st s).1, (lib.putenv st s).2) := by
  have hequals : equals ∉ Utf8.encode name := fun h => hname.2.1 (equals_mem_encode.mp h)
  have hnul : '\x00' ∉ name ++ '=' :: value := by
    rw [List.mem_append, List.mem_cons]
    rintro (h | h | h)
    · exact hname.2.2 h
    · exact absurd h (by decide)
    · exact hvalue h
  refine ⟨⟨Utf8.encode (name ++ '=' :: value), fun h => hnul (nul_mem_encode.mp h)⟩, ?_, ?_, ?_, ?_⟩
  · show equals ∈ Utf8.encode (name ++ '=' :: value)
    rw [encode_entry]
    exact List.mem_append_right _ List.mem_cons_self
  · show nameOf (Utf8.encode (name ++ '=' :: value)) = _
    rw [encode_entry, nameOf_append hequals]
  · show valueOf (Utf8.encode (name ++ '=' :: value)) = _
    rw [encode_entry, valueOf_append hequals]
  · simp only [putenv, checkEnvName_ok hname, rawPutenv, cstring_ok hnul]

/-- What `unsetenv` makes of a return code. -/
def unsetResult (code : ℤ) : Except Error Bool :=
  if code = pamSuccess then .ok true
  else if code = pamBadItem then .ok false
  else .error (fromRaw code)

theorem fromRaw_eq_badItem {code : ℤ} : fromRaw code = .pam pamBadItem ↔ code = pamBadItem := by
  constructor
  · rw [fromRaw]
    split
    · exact Error.pam.inj
    · nofun
  · rintro rfl
    rfl

/-- `unsetenv` is one call with the name. -/
theorem unsetenv_eq (lib : Libpam σ) (st : σ) (hname : ValidName name) :
    ∃ s : CString, equals ∉ s.bytes ∧ s.bytes = Utf8.encode name ∧
      unsetenv lib st name = (unsetResult (lib.putenv st s).1, (lib.putenv st s).2) := by
  refine ⟨⟨Utf8.encode name, fun h => hname.2.2 (nul_mem_encode.mp h)⟩,
    fun h => hname.2.1 (equals_mem_encode.mp h), rfl, ?_⟩
  simp only [unsetenv, checkEnvName_ok hname, rawPutenv, cstring_ok hname.2.2, check, unsetResult]
  split
  · next heq =>
    split at heq
    · next hsuccess =>
      cases heq
      rw [if_pos hsuccess]
    · cases heq
  · next heq =>
    split at heq
    · cases heq
    · next hfailed =>
      cases heq
      simp only [fromRaw_eq_badItem, if_neg hfailed]

/-! ### Runs -/

/-- A change of the environment. -/
inductive Event where
  | putenv (name value : List Char)
  | unsetenv (name : List Char)
  /-- A module of the stack calls `pam_putenv`. -/
  | module (s : CString)

/-- The variable that a change is about. -/
def Event.about : Event → List UInt8
  | .putenv name _ => Utf8.encode name
  | .unsetenv name => Utf8.encode name
  | .module s => nameOf s.bytes

def step (lib : Libpam σ) (st : σ) : Event → σ
  | .putenv name value => (putenv lib st name value).2
  | .unsetenv name => (unsetenv lib st name).2
  | .module s => (lib.putenv st s).2

def run (lib : Libpam σ) (st : σ) (es : List Event) : σ := es.foldl (step lib) st

/-- A change is a call of libpam about the variable, or none. -/
theorem step_eq (lib : Libpam σ) (st : σ) (e : Event) :
    step lib st e = st ∨
      ∃ s : CString, s.name.bytes = e.about ∧ step lib st e = (lib.putenv st s).2 := by
  cases e with
  | putenv name value =>
    by_cases h : ValidName name ∧ '\x00' ∉ value
    · obtain ⟨s, -, hname, -, heq⟩ := putenv_eq lib st h.1 h.2
      exact .inr ⟨s, hname, congrArg Prod.snd heq⟩
    · obtain ⟨err, -, heq⟩ := putenv_refused lib st h
      exact .inl (congrArg Prod.snd heq)
  | unsetenv name =>
    by_cases h : ValidName name
    · obtain ⟨s, hequals, hname, heq⟩ := unsetenv_eq lib st h
      exact .inr ⟨s, (nameOf_of_not_mem hequals).trans hname, congrArg Prod.snd heq⟩
    · obtain ⟨err, -, heq⟩ := unsetenv_refused lib st h
      exact .inl (congrArg Prod.snd heq)
  | module s => exact .inr ⟨s, rfl, rfl⟩

/-- No change is about the name. -/
def Unnamed (name : List Char) (es : List Event) : Prop := ∀ e ∈ es, e.about ≠ Utf8.encode name

section Laws

variable (h : lib.Laws)

include h

theorem getenv_step {e : Event} (heq : '=' ∉ name) (hother : e.about ≠ Utf8.encode name) :
    getenv lib (step lib st e) name = getenv lib st name := by
  refine getenv_congr ?_
  intro s hs
  obtain hsame | ⟨entry, hname, hcall⟩ := step_eq lib st e
  · rw [hsame]
  · rw [hcall]
    refine h.other st entry s ?_ ?_
    · rw [hs]
      exact fun hmem => heq (equals_mem_encode.mp hmem)
    · rintro rfl
      exact hother (hname.symm.trans hs)

/-- **What nobody names stays as it is.** -/
theorem getenv_run {es : List Event} (heq : '=' ∉ name) (hes : Unnamed name es) :
    getenv lib (run lib st es) name = getenv lib st name := by
  induction es generalizing st with
  | nil => rfl
  | cons e es ih =>
    obtain ⟨he, hes⟩ := List.forall_mem_cons.mp hes
    exact (ih hes).trans (getenv_step h heq he)

theorem putenv_ok (hput : putenv lib st name value = (.ok (), st')) :
    '=' ∉ name ∧ getenv lib st' name = .ok (some value) := by
  by_cases hvalid : ValidName name ∧ '\x00' ∉ value
  · obtain ⟨s, hequals, hname, hvalue, heq⟩ :=
      putenv_eq lib st hvalid.1 hvalid.2
    rw [heq] at hput
    have hcode : (lib.putenv st s).1 = pamSuccess := by
      have hcheck := congrArg Prod.fst hput
      dsimp only at hcheck
      rw [check] at hcheck
      split at hcheck
      · assumption
      · cases hcheck
    obtain rfl : (lib.putenv st s).2 = st' := congrArg Prod.snd hput
    refine ⟨hvalid.1.2.1, ?_⟩
    rw [getenv_eq hname, h.assigned st s hequals hcode, readValue_eq_ok]
    exact congrArg some hvalue
  · obtain ⟨err, -, heq⟩ := putenv_refused lib st hvalid
    cases congrArg Prod.fst (heq.symm.trans hput)

theorem unsetenv_ok {b : Bool} (hunset : unsetenv lib st name = (.ok b, st')) :
    '=' ∉ name ∧ (b = false ↔ getenv lib st name = .ok none) ∧
      getenv lib st' name = .ok none := by
  by_cases hvalid : ValidName name
  · obtain ⟨s, hequals, hname, heq⟩ := unsetenv_eq lib st hvalid
    rw [heq] at hunset
    obtain rfl : (lib.putenv st s).2 = st' := congrArg Prod.snd hunset
    have hresult : unsetResult (lib.putenv st s).1 = .ok b := congrArg Prod.fst hunset
    have hread : ∀ st, getenv lib st name = .ok none ↔ lib.getenv st s = none := by
      intro st
      rw [getenv_eq hname, readValue_eq_ok]
      exact Option.map_eq_none_iff
    rw [hread, hread]
    refine ⟨hvalid.2.1, ?_⟩
    rw [unsetResult] at hresult
    split at hresult
    · next hcode =>
      cases hresult
      obtain ⟨hset, hgone⟩ := h.removed st s hequals hcode
      exact ⟨iff_of_false nofun hset, hgone⟩
    · split at hresult
      · next hcode =>
        cases hresult
        obtain ⟨hnone, hgone⟩ := h.absent st s hequals hcode
        exact ⟨iff_of_true rfl hnone, hgone⟩
      · cases hresult
  · obtain ⟨err, -, heq⟩ := unsetenv_refused lib st hvalid
    cases congrArg Prod.fst (heq.symm.trans hunset)

end Laws

/-! ### Listing -/

/-- The listing of an entry, if it has one. -/
def listing (s : CString) : Option (List Char × List Char) := (splitEnv s.bytes).toOption

theorem listing_eq_some {s : CString} :
    listing s = some (name, value) ↔
      s.name.bytes = Utf8.encode name ∧ s.value.bytes = Utf8.encode value := by
  rw [listing]
  refine Iff.trans ?_ splitEnv_eq_ok
  cases splitEnv s.bytes with
  | error err => simp [Except.toOption]
  | ok p => simp [Except.toOption]

/-- What is listed is named as the entries are. -/
theorem names_sublist (list : List CString) :
    List.Sublist ((list.filterMap listing).map fun p => Utf8.encode p.1)
      (list.map fun s => s.name.bytes) := by
  induction list with
  | nil => exact List.Sublist.slnil
  | cons s list ih =>
    rw [List.filterMap_cons, List.map_cons]
    cases hs : listing s with
    | none => exact ih.cons _
    | some p =>
      rw [(listing_eq_some.mp hs).1]
      exact ih.cons_cons _

theorem nodup_listing {list : List CString} (h : (list.map CString.name).Nodup) :
    ((list.filterMap listing).map Prod.fst).Nodup := by
  have hbytes : (list.map fun s => s.name.bytes).Nodup := by
    have := h.map (f := CString.bytes) fun a b hab => CString.ext hab
    rwa [List.map_map] at this
  have hnames := (names_sublist list).nodup hbytes
  rw [← Function.comp_def Utf8.encode Prod.fst, ← List.map_map] at hnames
  exact hnames.of_map _

theorem env_listed (h : lib.Laws) {pairs : List (List Char × List Char)}
    (henv : env lib st = .ok pairs) : (pairs.map Prod.fst).Nodup ∧
      ∀ n v, (n, v) ∈ pairs ↔ '=' ∉ n ∧ getenv lib st n = .ok (some v) := by
  rw [env] at henv
  split at henv
  · cases henv
  · next list hlist =>
    cases henv
    obtain ⟨hnodup, hentries⟩ := h.listed st list hlist
    refine ⟨nodup_listing hnodup, fun n v => ?_⟩
    constructor
    · intro hmem
      obtain ⟨s, hs, hlisting⟩ := List.mem_filterMap.mp hmem
      obtain ⟨hname, hvalue⟩ := listing_eq_some.mp hlisting
      have hequals : equals ∉ s.name.bytes := equals_not_mem_nameOf _
      refine ⟨fun hn => hequals (hname ▸ equals_mem_encode.mpr hn), ?_⟩
      rw [getenv_eq hname, (hentries s.name s.value hequals).mpr ⟨s, hs, rfl, rfl⟩,
        readValue_eq_ok]
      exact congrArg some hvalue
    · rintro ⟨heq, hget⟩
      have hnul : '\x00' ∉ n := by
        intro hnul
        rw [getenv_nul hnul] at hget
        cases hget
      obtain ⟨name, hname⟩ : ∃ name : CString, name.bytes = Utf8.encode n :=
        ⟨⟨_, fun hmem => hnul (nul_mem_encode.mp hmem)⟩, rfl⟩
      rw [getenv_eq hname, readValue_eq_ok] at hget
      obtain ⟨value, hsome, hvalue⟩ := Option.map_eq_some_iff.mp hget
      have hequals : equals ∉ name.bytes := by
        rw [hname]
        exact fun hmem => heq (equals_mem_encode.mp hmem)
      obtain ⟨s, hs, rfl, rfl⟩ := (hentries name value hequals).mp hsome
      exact List.mem_filterMap.mpr ⟨s, hs, listing_eq_some.mpr ⟨hname, hvalue⟩⟩

/-! ### The environment -/

/-- What the application may rely on. -/
structure EnvironmentExact (lib : Libpam σ) (st : σ) : Prop where
  /-- A request that is not one of C strings never gets to libpam. -/
  refused : ∀ name value, ¬ (ValidName name ∧ '\x00' ∉ value) →
    ∃ err, Refusal err ∧ putenv lib st name value = (.error err, st)
  unsetRefused : ∀ name, ¬ ValidName name →
    ∃ err, Refusal err ∧ unsetenv lib st name = (.error err, st)
  /-- Any other is one call, and its return code. -/
  called : ∀ name value, ValidName name → '\x00' ∉ value → ∃ s : CString,
    s.name.bytes = Utf8.encode name ∧ s.value.bytes = Utf8.encode value ∧
      putenv lib st name value = (check (lib.putenv st s).1, (lib.putenv st s).2)
  unsetCalled : ∀ name, ValidName name → ∃ s : CString, s.bytes = Utf8.encode name ∧
    unsetenv lib st name = (unsetResult (lib.putenv st s).1, (lib.putenv st s).2)
  /-- What is put is read until somebody names it again. -/
  put : ∀ name value st', putenv lib st name value = (.ok (), st') → ∀ es, Unnamed name es →
    getenv lib (run lib st' es) name = .ok (some value)
  /-- `unsetenv` reports whether there was a variable, and leaves none. -/
  unset : ∀ name b st', unsetenv lib st name = (.ok b, st') →
    (b = false ↔ getenv lib st name = .ok none) ∧ ∀ es, Unnamed name es →
      getenv lib (run lib st' es) name = .ok none
  /-- No change touches another name, whether it fails or not. -/
  others : ∀ name es, '=' ∉ name → Unnamed name es →
    getenv lib (run lib st es) name = getenv lib st name
  /-- `env` lists each variable once, and exactly those that `getenv` reads. -/
  listed : ∀ pairs, env lib st = .ok pairs → (pairs.map Prod.fst).Nodup ∧
    ∀ n v, (n, v) ∈ pairs ↔ '=' ∉ n ∧ getenv lib st n = .ok (some v)

/-- **The environment**: over any libpam that keeps to its manual, and whatever the modules of
the stack change, the four calls of the application agree. -/
theorem environment_exact (h : lib.Laws) (st : σ) : EnvironmentExact lib st where
  refused _ _ := putenv_refused lib st
  unsetRefused _ := unsetenv_refused lib st
  called name value hname hvalue := by
    obtain ⟨s, -, hs⟩ := putenv_eq lib st hname hvalue
    exact ⟨s, hs⟩
  unsetCalled name hname := by
    obtain ⟨s, -, hs⟩ := unsetenv_eq lib st hname
    exact ⟨s, hs⟩
  put name value st' hput es hes := by
    obtain ⟨heq, hread⟩ := putenv_ok h hput
    rw [getenv_run h heq hes, hread]
  unset name b st' hunset := by
    obtain ⟨heq, hthere, hgone⟩ := unsetenv_ok h hunset
    refine ⟨hthere, fun es hes => ?_⟩
    rw [getenv_run h heq hes, hgone]
  others name es heq hes := getenv_run h heq hes
  listed _ henv := env_listed h henv

/-! ### An environment with memory enough -/

/-- The name of a variable. -/
abbrev Name := {name : CString // name.bytes ≠ [] ∧ equals ∉ name.bytes}

/-- Values by names. -/
abbrev Variables := AList fun _ : Name => CString

/-- The `NAME=VALUE` string of a variable. -/
def entryOf (v : Sigma fun _ : Name => CString) : CString where
  bytes := v.1.1.bytes ++ equals :: v.2.bytes
  nul h := by
    rw [List.mem_append, List.mem_cons] at h
    obtain h | h | h := h
    · exact v.1.1.nul h
    · cases h
    · exact v.2.nul h

def mapLib : Libpam Variables where
  putenv st s :=
    if h : nameOf s.bytes = [] then (pamBadItem, st)
    else if equals ∈ s.bytes then
      (pamSuccess, st.insert ⟨s.name, h, equals_not_mem_nameOf _⟩ s.value)
    else if ⟨s.name, h, equals_not_mem_nameOf _⟩ ∈ st then
      (pamSuccess, st.erase ⟨s.name, h, equals_not_mem_nameOf _⟩)
    else (pamBadItem, st)
  getenv st name :=
    if h : name.bytes ≠ [] ∧ equals ∉ name.bytes then st.lookup ⟨name, h⟩ else none
  getenvlist st := some (st.entries.map entryOf)

theorem entryOf_name (v : Sigma fun _ : Name => CString) : (entryOf v).name = v.1.1 :=
  CString.ext (nameOf_append v.1.2.2 _)

theorem entryOf_value (v : Sigma fun _ : Name => CString) : (entryOf v).value = v.2 :=
  CString.ext (valueOf_append v.1.2.2 _)

/-- A call with a name alone deletes the variable, if there is one. -/
theorem mapLib_putenv_name (st : Variables) {s : CString} (hequals : equals ∉ s.bytes) :
    (mapLib.putenv st s = (pamBadItem, st) ∧ mapLib.getenv st s = none) ∨
      (mapLib.putenv st s).1 = pamSuccess ∧ mapLib.getenv st s ≠ none ∧
        mapLib.getenv (mapLib.putenv st s).2 s = none := by
  have hself : s.name = s := CString.ext (nameOf_of_not_mem hequals)
  by_cases hempty : nameOf s.bytes = []
  · have hinvalid : ¬ (s.bytes ≠ [] ∧ equals ∉ s.bytes) :=
      fun h => h.1 (nameOf_of_not_mem hequals ▸ hempty)
    exact .inl ⟨dif_pos hempty, dif_neg hinvalid⟩
  · have hvalid : s.bytes ≠ [] ∧ equals ∉ s.bytes :=
      ⟨nameOf_of_not_mem hequals ▸ hempty, hequals⟩
    simp only [mapLib, dif_neg hempty, if_neg hequals, hself, dif_pos hvalid]
    by_cases hmem : (⟨s, hvalid⟩ : Name) ∈ st
    · rw [if_pos hmem]
      exact .inr ⟨rfl, fun hnone => AList.lookup_eq_none.mp hnone hmem, AList.lookup_erase _ st⟩
    · exact .inl ⟨if_neg hmem, AList.lookup_eq_none.mpr hmem⟩

theorem mapLib_laws : mapLib.Laws where
  other := by
    intro st s name hequals hname
    by_cases hvalid : name.bytes ≠ [] ∧ equals ∉ name.bytes
    · simp only [mapLib, dif_pos hvalid]
      split
      · rfl
      · next hne =>
        have hkey : (⟨name, hvalid⟩ : Name) ≠ ⟨s.name, hne, equals_not_mem_nameOf _⟩ :=
          fun h => hname (congrArg Subtype.val h)
        split
        · exact AList.lookup_insert_ne hkey
        · split
          · exact AList.lookup_erase_ne hkey
          · rfl
    · simp only [mapLib, dif_neg hvalid]
  assigned := by
    intro st s hequals hcode
    by_cases hempty : nameOf s.bytes = []
    · simp only [mapLib, dif_pos hempty] at hcode
      cases hcode
    · have hvalid : s.name.bytes ≠ [] ∧ equals ∉ s.name.bytes :=
        ⟨hempty, equals_not_mem_nameOf _⟩
      simp only [mapLib, dif_neg hempty, if_pos hequals, dif_pos hvalid]
      exact AList.lookup_insert st
  removed := by
    intro st s hequals hcode
    obtain ⟨hput, -⟩ | ⟨-, hthere, hgone⟩ := mapLib_putenv_name st hequals
    · rw [hput] at hcode
      cases hcode
    · exact ⟨hthere, hgone⟩
  absent := by
    intro st s hequals hcode
    obtain ⟨hput, hnone⟩ | ⟨hok, -⟩ := mapLib_putenv_name st hequals
    · rw [hput]
      exact ⟨hnone, hnone⟩
    · rw [hok] at hcode
      cases hcode
  listed := by
    intro st list hlist
    cases hlist
    have hnames : (st.entries.map entryOf).map CString.name = st.keys.map Subtype.val := by
      rw [AList.keys, List.keys, List.map_map, List.map_map]
      exact List.map_congr_left fun v _ => entryOf_name v
    refine ⟨?_, ?_⟩
    · rw [hnames]
      exact st.keys_nodup.map Subtype.val_injective
    · intro name value hequals
      constructor
      · intro hget
        simp only [mapLib] at hget
        split at hget
        · next hvalid =>
          exact ⟨_, List.mem_map_of_mem (AList.mem_lookup_iff.mp hget), entryOf_name _,
            entryOf_value _⟩
        · cases hget
      · rintro ⟨s, hs, rfl, rfl⟩
        obtain ⟨v, hv, rfl⟩ := List.mem_map.mp hs
        simp only [mapLib, entryOf_name, entryOf_value, dif_pos v.1.2]
        exact AList.mem_lookup_iff.mpr hv

/-- The application sets `D`; then a module sets `A=b=c` and bytes that are no text. -/
theorem environment_exact_session :
    ∃ st, putenv mapLib ∅ ['D'] ['x'] = (.ok (), st) ∧
      getenv mapLib (run mapLib st [.module ⟨[65, 61, 98, 61, 99], by decide⟩,
        .module ⟨[66, 61, 255], by decide⟩]) ['D'] = .ok (some ['x']) :=
  ⟨_, rfl, (environment_exact mapLib_laws ∅).put ['D'] ['x'] _ rfl _
    (List.forall_mem_cons.mpr ⟨by decide, List.forall_mem_singleton.mpr (by decide)⟩)⟩

end Pam.Txn
