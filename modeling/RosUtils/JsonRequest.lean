/-
Reading one inbound frame: a request, a notification, or a batch.

`parse` checks a frame against the JSON grammar, looks at the first token to tell
an object from an array, and reads the object a second time as a map from names to
the texts of the values (`one`).  The `id` is resolved first, so that what is
refused later is answered against it.
-/
import RosUtils.JsonFrame
import RosUtils.SerdeJson

open ExceptState JsonText JsonReader

namespace Jsonrpc

/-- `VERSION`. -/
def version : String := "2.0"

/-! ### Ids -/

/-- `Id`: a request without an `id` member has none, which is not `null`. -/
inductive Id where
  | number (n : Number)
  | string (s : String)
  | null
  deriving DecidableEq

/-- `Id::from_raw`: what is read as a Boolean, an Array or an Object is no id. -/
def Id.fromRaw (lib : SerdeJson) (raw : Text) : Option Id :=
  match lib.value raw with
  | .ok .null => some .null
  | .ok (.string s) => some (.string s)
  | .ok (.number n) => some (.number n)
  | _ => none

/-! ### Errors -/

/-- `ErrorObject`. -/
structure ErrorObject where
  code : Int64
  message : String
  data : Option Value

/-- `ErrorObject::new`. -/
def ErrorObject.new (code : Int64) (message : String) : ErrorObject := ⟨code, message, none⟩

def ErrorObject.parseError : ErrorObject := .new (-32700) "Parse error"

def ErrorObject.invalidRequest : ErrorObject := .new (-32600) "Invalid Request"

/-! ### Requests -/

/-- `Params`: the text of the member, with the structure it is. -/
inductive Params where
  | positional (raw : Text)
  | named (raw : Text)
  deriving DecidableEq

/-- `Params::get`: the text, whichever structure it is. -/
def Params.get : Params → Text
  | .positional raw => raw
  | .named raw => raw

/-- `Request`: a notification when there is no id. -/
structure Request where
  id : Option Id
  method : String
  params : Option Params
  deriving DecidableEq

/-- `Call`: a request to act on, or a refusal to send back. -/
inductive Call where
  | valid (request : Request)
  | invalid (id : Id) (error : ErrorObject) (reason : String)

/-- `Incoming`: what one frame held. -/
inductive Incoming where
  | single (call : Call)
  | batch (calls : List Call)
  | invalid (error : ErrorObject) (reason : String)

/-- `first_token`: the first byte that is not whitespace. -/
def firstToken (text : Text) : Option UInt8 := (Utf8.encode text).find? fun b => !isWs b

/-- `as_str`: the value of a JSON String. -/
def asStr (lib : SerdeJson) (raw : Text) : Option String := (lib.string raw).toOption

/-- A refusal for the caller's fault. -/
def Call.refuse (id : Id) (reason : String) : Call := .invalid id .invalidRequest reason

/-- The `params` member: an Array, an Object, or nothing that is allowed. -/
def Params.fromRaw (raw : Text) : Option Params :=
  if firstToken raw = some '['.toUInt8 then some (.positional raw)
  else if firstToken raw = some '{'.toUInt8 then some (.named raw)
  else none

/-- What `one` checks of the members, one after the other. -/
def validate (lib : SerdeJson) (members : Map Text) : Call :=
  match (members.get "id").map (Id.fromRaw lib) with
  | some none => .refuse .null "'id' must be a String, a Number, or Null"
  | id? =>
    let id := id?.join
    let answerTo := id.getD .null
    if (members.get "jsonrpc").bind (asStr lib) ≠ some version then
      .refuse answerTo "'jsonrpc' must be exactly \"2.0\""
    else
      match (members.get "method").bind (asStr lib) with
      | none => .refuse answerTo "'method' must be a String"
      | some method =>
        match (members.get "params").map Params.fromRaw with
        | some none => .refuse answerTo "'params' must be an Array or an Object"
        | params? => .valid ⟨id, method, params?.join⟩

/-- `one`: validate one Request object. -/
def one (lib : SerdeJson) (text : Text) : Call :=
  match lib.rawObject text with
  | .error _ => .refuse .null "unreadable Object"
  | .ok members => validate lib members

/-- One element of a batch. -/
def element (lib : SerdeJson) (raw : Text) : Call :=
  if firstToken raw = some '{'.toUInt8 then one lib raw
  else .refuse .null "a batch element must be an Object"

/-- `batch`. -/
def batch (lib : SerdeJson) (text : Text) : Incoming :=
  match lib.rawArray text with
  | .error _ => .invalid .invalidRequest "a batch must be an Array of Request objects"
  | .ok elements =>
    if elements = [] then .invalid .invalidRequest "an empty batch"
    else .batch (elements.map (element lib))

/-- `parse`: the frame must hold exactly one JSON value. -/
def parse (lib : SerdeJson) (frame : List UInt8) : Incoming :=
  match Utf8.decode frame with
  | none => .invalid .parseError "not UTF-8"
  | some text =>
    match lib.rawValue text with
    | .error e => .invalid .parseError (lib.display e)
    | .ok _ =>
      if firstToken text = some '{'.toUInt8 then .single (one lib text)
      else if firstToken text = some '['.toUInt8 then batch lib text
      else .invalid .invalidRequest "a request must be an Object and a batch a non-empty Array"

/-! ### What the parts of a request are -/

/-- The text is an id. -/
inductive IdIs (lib : SerdeJson) : Text → Id → Prop
  | number {t : NumberText} {n : Number} (ht : t.WF) (hn : lib.number t = some n) :
      IdIs lib t.text (.number n)
  | string {v : Text} {s : String} (h : StrIs v s) : IdIs lib v (.string s)
  | null : IdIs lib "null".toList .null

/-- The text is that of parameters. -/
inductive ParamsIs (v : Text) : Params → Prop
  | positional {vs : List Text} (h : ArrayOf vs v) : ParamsIs v (.positional v)
  | named {ms : List (Text × Text)} (h : ObjectOf ms v) : ParamsIs v (.named v)

/-- The last member of the name has the value `v`. -/
def LastMember (name : String) (ms : List (Text × Text)) (v : Text) : Prop :=
  ∃ front k back, ms = front ++ (k, v) :: back ∧ StrIs k name ∧ ∀ m ∈ back, ¬ StrIs m.1 name

/-- No member has the name. -/
def Absent (name : String) (ms : List (Text × Text)) : Prop := ∀ m ∈ ms, ¬ StrIs m.1 name

/-- A member with its name decoded. -/
def Decoded (m : Text × Text) (x : String × Text) : Prop := StrIs m.1 x.1 ∧ m.2 = x.2

section Values

variable {v text : Text}

/-- The first token of a value with whitespace around it is its first character. -/
theorem firstToken_eq {c : Char} (hc : c ∈ "tfn\"[\x7b-0123456789".toList)
    (h : Padded ElementOf v text) : firstToken text = some c.toUInt8 ↔ v.head? = some c := by
  obtain ⟨w, _, w', rfl, hw, ⟨rfl, hv⟩, -⟩ := h
  obtain ⟨x, s, rfl, hx⟩ := isValue_begins hv
  have hall : ∀ c ∈ "tfn\"[\x7b-0123456789".toList, c.toNat < 128 ∧ isWs c.toUInt8 = false :=
    forall_mem_of_all (by decide)
  have hnodup : ("tfn\"[\x7b-0123456789".toList.map Char.toUInt8).Nodup := by decide
  have hws : ∀ b ∈ Utf8.encode w, isWs b = true := isWs_of_ws hw.grammar
  have hfirst : firstToken (w ++ (x :: s ++ w')) = some x.toUInt8 := by
    rw [firstToken, Utf8.encode_append, List.cons_append, Utf8.encode_cons_ascii (hall x hx).1,
      List.find?_append, List.find?_eq_none.mpr fun b hb => by simp [hws b hb],
      List.find?_cons_of_pos (by simp [(hall x hx).2])]
    rfl
  rw [hfirst, List.head?_cons, Option.some.injEq, Option.some.injEq]
  exact ⟨fun h => List.inj_on_of_nodup_map hnodup hx hc h, fun h => h ▸ rfl⟩

theorem firstToken_object (h : Padded ElementOf v text) :
    firstToken text = some '{'.toUInt8 ↔ ∃ ms, ObjectOf ms v := by
  obtain ⟨-, _, -, -, -, hv, -⟩ := id h
  rw [firstToken_eq (by decide) h, head_object (hv.1 ▸ hv.2)]

theorem firstToken_array (h : Padded ElementOf v text) :
    firstToken text = some '['.toUInt8 ↔ ∃ vs, ArrayOf vs v := by
  obtain ⟨-, _, -, -, -, hv, -⟩ := id h
  rw [firstToken_eq (by decide) h, head_array (hv.1 ▸ hv.2)]

theorem asStr_eq_some {lib : SerdeJson} (hlib : lib.Laws) {s : String} (hv : IsValue v) :
    asStr lib v = some s ↔ StrIs v s := by
  rw [asStr, except_toOption_eq_some, hlib.string]
  exact padded_iff isValue_of_strIs (padded_self hv)

section Id

variable {lib : SerdeJson} {i : Id}

/-- An id is read as such. -/
theorem IdIs.fromRaw_eq (hlib : lib.Laws) (h : IdIs lib v i) : Id.fromRaw lib v = some i := by
  rw [Id.fromRaw]
  cases h with
  | number ht hn => rw [SerdeJson.number_eq_some.mp hn]
  | string hs => rw [hlib.value_of (ValueStep.string hs)]
  | null => rw [hlib.value_of ValueStep.null]

/-- What is read as an id is one, unless it begins with a reserved name. -/
theorem Id.fromRaw_eq_some (hlib : lib.Laws) (hv : IsValue v) (hr : ¬ Reserved lib.reserved v) :
    Id.fromRaw lib v = some i ↔ IdIs lib v i := by
  refine ⟨fun h => ?_, fun h => h.fromRaw_eq hlib⟩
  rw [Id.fromRaw] at h
  split at h
  · next hx =>
    cases hlib.kind hv hr hx
    cases h
    exact .null
  · next hx =>
    cases h
    cases hlib.kind hv hr hx with
    | string hs => exact .string hs
  · next hx =>
    cases h
    cases hlib.kind hv hr hx with
    | number ht hn => exact .number ht hn
  · cases h

theorem IdIs.unique (hlib : lib.Laws) {j : Id} (h : IdIs lib v i) (h' : IdIs lib v j) : i = j := by
  have heq := (h.fromRaw_eq hlib).symm.trans (h'.fromRaw_eq hlib)
  exact Option.some.inj heq

end Id

/-- A number that is an id is the number that is read of it. -/
theorem IdIs.of_number {lib : SerdeJson} {t : NumberText} {i : Id} (ht : t.WF)
    (h : IdIs lib t.text i) : ∃ n, lib.number t = some n ∧ i = .number n := by
  obtain ⟨c, s, hcs, hc⟩ := number_begins ht
  generalize hv : t.text = v at h
  cases h with
  | number ht' hn =>
    obtain rfl := text_injective ht ht' hv
    exact ⟨_, hn, rfl⟩
  | string h =>
    obtain ⟨k, rfl⟩ := stringOf_begins h
    rw [hcs] at hv
    cases hv
    exact absurd hc (by decide)
  | null =>
    rw [hcs] at hv
    cases hv
    exact absurd hc (by decide)

theorem Params.fromRaw_eq_some {p : Params} (hv : IsValue v) :
    Params.fromRaw v = some p ↔ ParamsIs v p := by
  have hself := padded_self hv
  rw [Params.fromRaw]
  constructor
  · intro h
    split_ifs at h with harray hobject
    · cases h
      obtain ⟨vs, hvs⟩ := (firstToken_array hself).mp harray
      exact .positional hvs
    · cases h
      obtain ⟨ms, hms⟩ := (firstToken_object hself).mp hobject
      exact .named hms
  · intro h
    cases h with
    | positional h => rw [if_pos ((firstToken_array hself).mpr ⟨_, h⟩)]
    | named h =>
      have hobject := (firstToken_object hself).mpr ⟨_, h⟩
      rw [if_neg, if_pos hobject]
      rw [hobject]
      decide

end Values

/-! ### The members of an object -/

/-- Lists that go together are taken apart together. -/
theorem forall₂_split {α β : Type} {R : α → β → Prop} {front back : List α} {a : α} {bs : List β}
    (h : List.Forall₂ R (front ++ a :: back) bs) :
    ∃ front' b back', bs = front' ++ b :: back' ∧ R a b ∧ List.Forall₂ R back back' := by
  induction front generalizing bs with
  | nil =>
    cases h with
    | cons hab hback => exact ⟨[], _, _, rfl, hab, hback⟩
  | cons x front ih =>
    cases h with
    | cons hxy h =>
      obtain ⟨front', b, back', rfl, hab, hback⟩ := ih h
      exact ⟨_ :: front', b, back', rfl, hab, hback⟩

theorem forall₂_mem {α β : Type} {R : α → β → Prop} {as : List α} {bs : List β}
    (h : List.Forall₂ R as bs) {a : α} (ha : a ∈ as) : ∃ b ∈ bs, R a b := by
  obtain ⟨front, back, rfl⟩ := List.append_of_mem ha
  obtain ⟨front', b, back', rfl, hab, -⟩ := forall₂_split h
  exact ⟨b, by simp, hab⟩

section Members

variable {ms : List (Text × Text)} {pairs : List (String × Text)} {name : String} {v : Text}

/-- The decoded members have the names that the members have. -/
theorem absent_iff (h : List.Forall₂ Decoded ms pairs) :
    Absent name ms ↔ ∀ x ∈ pairs, x.1 ≠ name := by
  constructor
  · rintro habsent x hx rfl
    obtain ⟨m, hm, hmx⟩ := forall₂_mem (R := flip Decoded) h.flip hx
    exact habsent m hm hmx.1
  · intro hpairs m hm hname
    obtain ⟨x, hx, hmx⟩ := forall₂_mem h hm
    exact hpairs x hx (strIs_unique hmx.1 hname)

theorem get_eq_none_iff (h : List.Forall₂ Decoded ms pairs) :
    (Map.ofList pairs).get name = none ↔ Absent name ms := by
  rw [Map.get_ofList_eq_none, absent_iff h]

theorem get_eq_some_iff (h : List.Forall₂ Decoded ms pairs) :
    (Map.ofList pairs).get name = some v ↔ LastMember name ms v := by
  rw [Map.get_ofList_eq_some]
  constructor
  · rintro ⟨front, back, rfl, hback⟩
    obtain ⟨front', ⟨k, u⟩, back', rfl, ⟨hk, hu⟩, hrest⟩ := forall₂_split (R := flip Decoded) h.flip
    cases hu
    exact ⟨front', k, back', rfl, hk, (absent_iff hrest.flip).mpr hback⟩
  · rintro ⟨front, k, back, rfl, hk, hback⟩
    obtain ⟨front', ⟨x, u⟩, back', rfl, ⟨hx, hu⟩, hrest⟩ := forall₂_split h
    cases hu
    cases strIs_unique hk hx
    exact ⟨front', back', rfl, (absent_iff hrest).mp hback⟩

/-- The names of an object are decoded, or one of them stands for no characters. -/
theorem decoded_or (ms : List (Text × Text)) :
    (∃ pairs, List.Forall₂ Decoded ms pairs) ∨ ∃ m ∈ ms, ∀ x, ¬ StrIs m.1 x := by
  induction ms with
  | nil => exact .inl ⟨[], .nil⟩
  | cons m ms ih =>
    by_cases hm : ∃ x, StrIs m.1 x
    · obtain ⟨x, hx⟩ := hm
      rcases ih with ⟨pairs, hpairs⟩ | ⟨m', hm', hno⟩
      · exact .inl ⟨(x, m.2) :: pairs, .cons ⟨hx, rfl⟩ hpairs⟩
      · exact .inr ⟨m', List.mem_cons_of_mem _ hm', hno⟩
    · exact .inr ⟨m, List.mem_cons_self, not_exists.mp hm⟩

/-- An object whose names are decoded is an object. -/
theorem objectOf_of_namesOf (h : NamesOf pairs v) :
    ∃ ms, List.Forall₂ (flip Decoded) pairs ms ∧ ObjectOf ms v := by
  refine h.transfer ?_
  rintro ⟨x, u⟩ _ ⟨k, w, w', u, rfl, ⟨ps, hk, hx⟩, hw, hw', rfl, hu⟩
  exact ⟨(k, u), ⟨⟨ps, hk, hx⟩, rfl⟩, w, w', rfl, ⟨ps, hk⟩, hw, hw', hu⟩

theorem namesOf_iff (h : ObjectOf ms v) : NamesOf pairs v ↔ List.Forall₂ Decoded ms pairs := by
  constructor
  · intro hnames
    obtain ⟨ms', hdec, hms'⟩ := objectOf_of_namesOf hnames
    rw [objectOf_unique h hms']
    exact hdec.flip
  · intro hdec
    refine h.forall₂ (R := Decoded) ?_ hdec
    rintro ⟨k, u⟩ ⟨x, u'⟩ _ ⟨hx, hu⟩ ⟨w, w', rfl, -, hw, hw', hv⟩
    cases hu
    exact ⟨k, w, w', u, rfl, hx, hw, hw', rfl, hv⟩

end Members

/-! ### The checks -/

/-- The members other than the id are those of a request. -/
structure Passes (lib : SerdeJson) (members : Map Text) (method : String)
    (params : Option Params) : Prop where
  jsonrpc : (members.get "jsonrpc").bind (asStr lib) = some version
  method : (members.get "method").bind (asStr lib) = some method
  params : (members.get "params").map Params.fromRaw = params.map some

section Validate

variable {lib : SerdeJson} {members : Map Text}

theorem validate_no_id (h : (members.get "id").map (Id.fromRaw lib) = some none) :
    ∃ reason, validate lib members = .refuse .null reason := by
  rw [validate, h]
  exact ⟨_, rfl⟩

/-- Once the id is resolved, the rest is checked and refused against it. -/
theorem validate_of_id {id : Option Id}
    (h : (members.get "id").map (Id.fromRaw lib) = id.map some) :
    (∃ method params, Passes lib members method params ∧
      validate lib members = .valid ⟨id, method, params⟩) ∨
    (∀ method params, ¬ Passes lib members method params) ∧
      ∃ reason, validate lib members = .refuse (id.getD .null) reason := by
  have hne : id.map some ≠ some none := by cases id <;> simp
  have hjoin : (id.map some).join = id := by cases id <;> rfl
  rw [validate, h]
  split
  · rename_i hnone
    exact absurd hnone hne
  rw [hjoin]
  dsimp only
  split_ifs with hversion
  · exact .inr ⟨fun _ _ hp => hversion hp.jsonrpc, _, rfl⟩
  rw [not_not] at hversion
  cases hmethod : (members.get "method").bind (asStr lib) with
  | none =>
    refine .inr ⟨fun _ _ hp => ?_, _, rfl⟩
    have hp := hp.method
    rw [hmethod] at hp
    cases hp
  | some method =>
    cases hparams : (members.get "params").map Params.fromRaw with
    | none => exact .inl ⟨method, none, ⟨hversion, hmethod, hparams⟩, rfl⟩
    | some params =>
      cases params with
      | none =>
        refine .inr ⟨fun _ params hp => ?_, _, rfl⟩
        have hp := hp.params
        rw [hparams] at hp
        cases params <;> cases hp
      | some params => exact .inl ⟨method, some params, ⟨hversion, hmethod, hparams⟩, rfl⟩

theorem Passes.unique {m m' : String} {p p' : Option Params} (h : Passes lib members m p)
    (h' : Passes lib members m' p') : m = m' ∧ p = p' := by
  have hm := h.method.symm.trans h'.method
  have hp := h.params.symm.trans h'.params
  exact ⟨Option.some.inj hm, Option.map_injective (Option.some_injective _) hp⟩

/-- The id that is read, or that it is of a type that is refused. -/
theorem id_cases (lib : SerdeJson) (members : Map Text) :
    (members.get "id").map (Id.fromRaw lib) = some none ∨
      ∃ id : Option Id, (members.get "id").map (Id.fromRaw lib) = id.map some := by
  rcases (members.get "id").map (Id.fromRaw lib) with _ | _ | i
  · exact .inr ⟨none, rfl⟩
  · exact .inl rfl
  · exact .inr ⟨some i, rfl⟩

theorem validate_eq_valid {r : Request} :
    validate lib members = .valid r ↔
      Passes lib members r.method r.params ∧
        (members.get "id").map (Id.fromRaw lib) = r.id.map some := by
  constructor
  · intro hvalid
    rcases id_cases lib members with hid | ⟨id, hid⟩
    · obtain ⟨reason, hreason⟩ := validate_no_id hid
      rw [hreason] at hvalid
      cases hvalid
    · rcases validate_of_id hid with ⟨method, params, hpass, heq⟩ | ⟨-, reason, hreason⟩
      · rw [heq] at hvalid
        cases hvalid
        exact ⟨hpass, hid⟩
      · rw [hreason] at hvalid
        cases hvalid
  · rintro ⟨hpass, hid⟩
    rcases validate_of_id hid with ⟨method, params, hpass', heq⟩ | ⟨hno, -⟩
    · obtain ⟨rfl, rfl⟩ := hpass'.unique hpass
      exact heq
    · exact absurd hpass (hno _ _)

/-- What is refused is answered against the id that can be read. -/
theorem validate_refused (h : ∀ r, validate lib members ≠ .valid r) :
    ∃ reason, validate lib members =
      .refuse (((members.get "id").bind (Id.fromRaw lib)).getD .null) reason := by
  have hjoin : (members.get "id").bind (Id.fromRaw lib)
      = ((members.get "id").map (Id.fromRaw lib)).join := by
    cases members.get "id" <;> rfl
  rw [hjoin]
  rcases id_cases lib members with hid | ⟨id, hid⟩
  · rw [hid]
    exact validate_no_id hid
  · rcases validate_of_id hid with ⟨method, params, -, heq⟩ | ⟨-, hreason⟩
    · exact absurd heq (h _)
    · rw [hid]
      cases id with
      | none => exact hreason
      | some i => exact hreason

end Validate

end Jsonrpc
