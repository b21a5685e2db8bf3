/-
What `parse` makes of a frame.

The members of an object are those of a request (`Envelope`), and then the request
carries what they say (`Carries`); or they are not, and the refusal is answered
against the id of the object (`OwnId`).  `parse_verdicts` states this for all
frames whose strings and id numbers the library can read, and whose id does not begin with
a name that the library reserves, if it reserves one.

The object is read twice: as a text, which checks the grammar only, and as a map
from decoded names.  A name with an unpaired surrogate passes the first reading
and not the second, and the id is lost: `refusal_keeps_id_iff`.
-/
import RosUtils.JsonInstance
import RosUtils.JsonRequest

open ExceptState JsonText JsonReader

namespace Jsonrpc

/-- The frame is a text of the kind, surrounded by whitespace only. -/
def FrameOf {α : Type} (G : α → Text → Prop) (a : α) (frame : List UInt8) : Prop :=
  ∃ text, frame = Utf8.encode text ∧ Padded G a text

/-- A String, a Number or Null. -/
def IdType (v : Text) : Prop :=
  (∃ ps, StrOf ps v) ∨ (∃ t : NumberText, t.WF ∧ v = t.text) ∨ v = "null".toList

/-- The members are those of a request. -/
structure Envelope (ms : List (Text × Text)) : Prop where
  jsonrpc : ∃ v, LastMember "jsonrpc" ms v ∧ StrIs v version
  method : ∃ v, LastMember "method" ms v ∧ ∃ ps, StrOf ps v
  id : ∀ v, LastMember "id" ms v → IdType v
  params : ∀ v, LastMember "params" ms v → (∃ vs, ArrayOf vs v) ∨ ∃ ms', ObjectOf ms' v

/-- The request has the method, the id and the parameters of the members. -/
structure Carries (lib : SerdeJson) (ms : List (Text × Text)) (r : Request) : Prop where
  method : ∃ v, LastMember "method" ms v ∧ StrIs v r.method
  id : Absent "id" ms ∧ r.id = none ∨
    ∃ v i, LastMember "id" ms v ∧ IdIs lib v i ∧ r.id = some i
  params : Absent "params" ms ∧ r.params = none ∨
    ∃ v p, LastMember "params" ms v ∧ ParamsIs v p ∧ r.params = some p

/-- The id to answer an object against: its own, or Null when that is absent or of
another type. -/
def OwnId (lib : SerdeJson) (ms : List (Text × Text)) (i : Id) : Prop :=
  (∃ v, LastMember "id" ms v ∧ IdIs lib v i) ∨
    (∀ v, LastMember "id" ms v → ¬ IdType v) ∧ i = .null

/-- The library reads the strings and the id numbers among the members, and what it reads as
the id is the id. -/
structure Readable (lib : SerdeJson) (ms : List (Text × Text)) : Prop where
  name : ∀ m ∈ ms, ∃ x, StrIs m.1 x
  string : ∀ m ∈ ms, ∀ ps, StrOf ps m.2 → ∃ x, StrIs m.2 x
  number : ∀ m ∈ ms, StrIs m.1 "id" →
    ∀ t : NumberText, t.WF → m.2 = t.text → ∃ n, lib.number t = some n
  reserved : ∀ v, LastMember "id" ms v → ¬ Reserved lib.reserved v

/-! ### Lookups in the members -/

section Members

variable {lib : SerdeJson} {ms : List (Text × Text)} {pairs : List (String × Text)}
  {name : String} {o v text : Text}

theorem LastMember.mem (h : LastMember name ms v) : ∃ k, (k, v) ∈ ms ∧ StrIs k name := by
  obtain ⟨front, k, back, rfl, hk, -⟩ := h
  exact ⟨k, by simp, hk⟩

theorem isValue_of_mem (ho : ObjectOf ms o) {m : Text × Text} (hm : m ∈ ms) : IsValue m.2 := by
  obtain ⟨s, hs⟩ := ho.mem hm
  obtain ⟨w, w', -, -, -, -, hv⟩ := hs
  exact hv

theorem LastMember.isValue (h : LastMember name ms v) (ho : ObjectOf ms o) : IsValue v := by
  obtain ⟨k, hk, -⟩ := h.mem
  exact isValue_of_mem ho hk

theorem lastMember_unique (hd : List.Forall₂ Decoded ms pairs) {u : Text}
    (hu : LastMember name ms u) (hv : LastMember name ms v) : u = v := by
  have hget := (get_eq_some_iff hd).mpr hu
  rw [(get_eq_some_iff hd).mpr hv] at hget
  cases hget
  rfl

/-- A member of the name is there or not. -/
theorem lastMember_or_absent (hd : List.Forall₂ Decoded ms pairs) (name : String) :
    Absent name ms ∨ ∃ v, LastMember name ms v := by
  cases hget : (Map.ofList pairs).get name with
  | none => exact .inl ((get_eq_none_iff hd).mp hget)
  | some v => exact .inr ⟨v, (get_eq_some_iff hd).mp hget⟩

/-- If the member of the name has a value that is read whenever it is there, then what is read
of it is something or nothing. -/
theorem exists_read_member {α : Type} {P : Text → α → Prop} (hd : List.Forall₂ Decoded ms pairs)
    (name : String) (h : ∀ v, LastMember name ms v → ∃ a, P v a) :
    ∃ o : Option α, Absent name ms ∧ o = none ∨
      ∃ v a, LastMember name ms v ∧ P v a ∧ o = some a := by
  rcases lastMember_or_absent hd name with habsent | ⟨v, hv⟩
  · exact ⟨none, .inl ⟨habsent, rfl⟩⟩
  · obtain ⟨a, ha⟩ := h v hv
    exact ⟨some a, .inr ⟨v, a, hv, ha, rfl⟩⟩

theorem bind_asStr_iff (hlib : lib.Laws) (hd : List.Forall₂ Decoded ms pairs)
    (ho : ObjectOf ms o) {s : String} :
    ((Map.ofList pairs).get name).bind (asStr lib) = some s ↔
      ∃ v, LastMember name ms v ∧ StrIs v s := by
  rw [Option.bind_eq_some_iff]
  constructor
  · rintro ⟨v, hget, hs⟩
    have hlast := (get_eq_some_iff hd).mp hget
    exact ⟨v, hlast, (asStr_eq_some hlib (hlast.isValue ho)).mp hs⟩
  · rintro ⟨v, hlast, hs⟩
    exact ⟨v, (get_eq_some_iff hd).mpr hlast, (asStr_eq_some hlib (hlast.isValue ho)).mpr hs⟩

/-- An optional member that is read by `f`. -/
theorem map_get_iff (hd : List.Forall₂ Decoded ms pairs) {α : Type} {f : Text → Option α}
    {x : Option α} :
    ((Map.ofList pairs).get name).map f = x.map some ↔
      Absent name ms ∧ x = none ∨ ∃ v a, LastMember name ms v ∧ f v = some a ∧ x = some a := by
  constructor
  · intro h
    rcases lastMember_or_absent hd name with habsent | ⟨v, hlast⟩
    · rw [(get_eq_none_iff hd).mpr habsent] at h
      cases x with
      | none => exact .inl ⟨habsent, rfl⟩
      | some a => cases h
    · rw [(get_eq_some_iff hd).mpr hlast] at h
      cases x with
      | none => cases h
      | some a => exact .inr ⟨v, a, hlast, Option.some.inj h, rfl⟩
  · rintro (⟨habsent, rfl⟩ | ⟨v, a, hlast, ha, rfl⟩)
    · rw [(get_eq_none_iff hd).mpr habsent]
      rfl
    · rw [(get_eq_some_iff hd).mpr hlast, Option.map_some, ha]
      rfl

theorem passes_iff (hlib : lib.Laws) (hd : List.Forall₂ Decoded ms pairs) (ho : ObjectOf ms o)
    {method : String} {params : Option Params} :
    Passes lib (Map.ofList pairs) method params ↔
      (∃ v, LastMember "jsonrpc" ms v ∧ StrIs v version) ∧
      (∃ v, LastMember "method" ms v ∧ StrIs v method) ∧
      (Absent "params" ms ∧ params = none ∨
        ∃ v p, LastMember "params" ms v ∧ ParamsIs v p ∧ params = some p) := by
  have hparams : (∃ v p, LastMember "params" ms v ∧ Params.fromRaw v = some p ∧ params = some p) ↔
      ∃ v p, LastMember "params" ms v ∧ ParamsIs v p ∧ params = some p := by
    refine exists_congr fun v => exists_congr fun p => and_congr_right fun hlast => ?_
    rw [Params.fromRaw_eq_some (hlast.isValue ho)]
  rw [← bind_asStr_iff hlib hd ho, ← bind_asStr_iff hlib hd ho, ← hparams, ← map_get_iff hd]
  exact ⟨fun h => ⟨h.1, h.2, h.3⟩, fun h => ⟨h.1, h.2.1, h.2.2⟩⟩

/-! ### One object -/

theorem padded_namesOf_iff (h : Padded ObjectOf ms text) :
    Padded NamesOf pairs text ↔ List.Forall₂ Decoded ms pairs := by
  obtain ⟨o, htext, ho⟩ := padded_value isValue_of_objectOf h
  rw [padded_iff isValue_of_namesOf htext, namesOf_iff ho]

theorem one_decoded (hlib : lib.Laws) (h : Padded ObjectOf ms text)
    (hd : List.Forall₂ Decoded ms pairs) : one lib text = validate lib (Map.ofList pairs) := by
  rw [one, hlib.rawObject.mpr ⟨pairs, (padded_namesOf_iff h).mpr hd, rfl⟩]

/-- A name that stands for no characters makes the object unreadable. -/
theorem one_undecoded (hlib : lib.Laws) (h : Padded ObjectOf ms text)
    (hno : ∃ m ∈ ms, ∀ x, ¬ StrIs m.1 x) : one lib text = .refuse .null "unreadable Object" := by
  obtain ⟨m, hm, hno⟩ := hno
  cases hread : lib.rawObject text with
  | error e => rw [one, hread]
  | ok members =>
    obtain ⟨pairs, hpairs, -⟩ := hlib.rawObject.mp hread
    obtain ⟨x, -, hx⟩ := forall₂_mem ((padded_namesOf_iff h).mp hpairs) hm
    exact absurd hx.1 (hno x.1)

/-- The id of an object is resolved, or it is of a type that is refused. -/
theorem id_get_iff (hlib : lib.Laws) (hd : List.Forall₂ Decoded ms pairs) (ho : ObjectOf ms o)
    (hr : ∀ v, LastMember "id" ms v → ¬ Reserved lib.reserved v) {id : Option Id} :
    ((Map.ofList pairs).get "id").map (Id.fromRaw lib) = id.map some ↔
      Absent "id" ms ∧ id = none ∨
        ∃ v i, LastMember "id" ms v ∧ IdIs lib v i ∧ id = some i := by
  rw [map_get_iff hd]
  refine or_congr_right (exists_congr fun v => exists_congr fun i =>
    and_congr_right fun hlast => ?_)
  rw [Id.fromRaw_eq_some hlib (hlast.isValue ho) (hr v hlast)]

/-- What `one` lets through, once the names are decoded. -/
theorem one_valid_iff (hlib : lib.Laws) (h : Padded ObjectOf ms text)
    (hd : List.Forall₂ Decoded ms pairs)
    (hr : ∀ v, LastMember "id" ms v → ¬ Reserved lib.reserved v) {r : Request} :
    one lib text = .valid r ↔
      (∃ v, LastMember "jsonrpc" ms v ∧ StrIs v version) ∧ Carries lib ms r := by
  obtain ⟨o, -, ho⟩ := padded_value isValue_of_objectOf h
  rw [one_decoded hlib h hd, validate_eq_valid, passes_iff hlib hd ho, id_get_iff hlib hd ho hr]
  exact ⟨fun ⟨⟨h1, h2, h4⟩, h3⟩ => ⟨h1, h2, h3, h4⟩, fun ⟨h1, h2, h3, h4⟩ => ⟨⟨h1, h2, h4⟩, h3⟩⟩

/-- What `one` refuses, once the names are decoded, is answered against the id that is
read. -/
theorem one_refused (hlib : lib.Laws) (h : Padded ObjectOf ms text)
    (hd : List.Forall₂ Decoded ms pairs) (hno : ∀ r, one lib text ≠ .valid r) :
    ∃ reason, one lib text =
      .refuse ((((Map.ofList pairs).get "id").bind (Id.fromRaw lib)).getD .null) reason := by
  rw [one_decoded hlib h hd] at hno ⊢
  exact validate_refused hno

end Members

/-! ### Objects that the library can read -/

section Readable

variable {lib : SerdeJson} {ms : List (Text × Text)} {pairs : List (String × Text)} {o v : Text}

theorem Readable.decoded (hr : Readable lib ms) : ∃ pairs, List.Forall₂ Decoded ms pairs := by
  rcases decoded_or ms with hpairs | ⟨m, hm, hno⟩
  · exact hpairs
  · obtain ⟨x, hx⟩ := hr.name m hm
    exact absurd hx (hno x)

theorem idType_of_idIs {i : Id} (h : IdIs lib v i) : IdType v := by
  cases h with
  | number ht _ => exact .inr (.inl ⟨_, ht, rfl⟩)
  | string h => exact .inl ⟨_, h.choose_spec.1⟩
  | null => exact .inr (.inr rfl)

/-- A String, a Number and Null do not begin with a brace. -/
theorem IdType.not_reserved {res : Option String} (h : IdType v) : ¬ Reserved res v := by
  rintro ⟨name, m, ms, -, ⟨s, hv, -⟩, -⟩
  rcases h with ⟨ps, k, rfl, -⟩ | ⟨t, ht, rfl⟩ | rfl
  · cases hv
  · obtain ⟨c, s', hcs, hc⟩ := number_begins ht
    rw [hcs] at hv
    cases hv
    exact absurd hc (by decide)
  · cases hv

theorem Readable.idIs (hr : Readable lib ms) (hlast : LastMember "id" ms v) (h : IdType v) :
    ∃ i, IdIs lib v i := by
  obtain ⟨k, hk, hname⟩ := hlast.mem
  rcases h with ⟨ps, hps⟩ | ⟨t, ht, rfl⟩ | rfl
  · obtain ⟨x, hx⟩ := hr.string (k, v) hk ps hps
    exact ⟨.string x, .string hx⟩
  · obtain ⟨n, hn⟩ := hr.number (k, t.text) hk hname t ht rfl
    exact ⟨.number n, .number ht hn⟩
  · exact ⟨.null, .null⟩

theorem absent_of_lastMember {name : String} (habsent : Absent name ms)
    (h : LastMember name ms v) : False := by
  obtain ⟨k, hk, hname⟩ := h.mem
  exact habsent (k, v) hk hname

/-- The members are those of a request exactly when there is a request they make. -/
theorem Readable.envelope_iff (hr : Readable lib ms) (hd : List.Forall₂ Decoded ms pairs) :
    Envelope ms ↔
      ∃ r, (∃ v, LastMember "jsonrpc" ms v ∧ StrIs v version) ∧ Carries lib ms r := by
  constructor
  · intro henv
    obtain ⟨v, hlast, ps, hps⟩ := henv.method
    obtain ⟨k, hk, -⟩ := hlast.mem
    obtain ⟨method, hmethod⟩ := hr.string (k, v) hk ps hps
    obtain ⟨id, hid⟩ := exists_read_member hd "id" fun u hu => hr.idIs hu (henv.id u hu)
    have hvalue : ∀ u, LastMember "params" ms u → ∃ p, ParamsIs u p := by
      intro u hu
      rcases henv.params u hu with ⟨vs, hvs⟩ | ⟨ms', hms'⟩
      · exact ⟨_, .positional hvs⟩
      · exact ⟨_, .named hms'⟩
    obtain ⟨params, hparams⟩ := exists_read_member hd "params" hvalue
    exact ⟨⟨id, method, params⟩, henv.jsonrpc, ⟨v, hlast, hmethod⟩, hid, hparams⟩
  · rintro ⟨r, hversion, ⟨v, hlast, hmethod⟩, hid, hparams⟩
    refine ⟨hversion, ⟨v, hlast, _, hmethod.choose_spec.1⟩, fun u hu => ?_, fun u hu => ?_⟩
    · rcases hid with ⟨habsent, -⟩ | ⟨u', i, hu', hi, -⟩
      · exact (absent_of_lastMember habsent hu).elim
      · rw [lastMember_unique hd hu hu']
        exact idType_of_idIs hi
    · rcases hparams with ⟨habsent, -⟩ | ⟨u', p, hu', hp, -⟩
      · exact (absent_of_lastMember habsent hu).elim
      · rw [lastMember_unique hd hu hu']
        cases hp with
        | positional h => exact .inl ⟨_, h⟩
        | named h => exact .inr ⟨_, h⟩

/-- The id that is read is the object's own. -/
theorem Readable.ownId (hlib : lib.Laws) (hr : Readable lib ms)
    (hd : List.Forall₂ Decoded ms pairs) (ho : ObjectOf ms o) :
    OwnId lib ms ((((Map.ofList pairs).get "id").bind (Id.fromRaw lib)).getD .null) := by
  rcases lastMember_or_absent hd "id" with habsent | ⟨v, hlast⟩
  · rw [(get_eq_none_iff hd).mpr habsent]
    exact .inr ⟨fun v hv => (absent_of_lastMember habsent hv).elim, rfl⟩
  · have hiff := fun i => Id.fromRaw_eq_some hlib (i := i) (hlast.isValue ho) (hr.reserved v hlast)
    rw [(get_eq_some_iff hd).mpr hlast, Option.bind_some]
    cases hraw : Id.fromRaw lib v with
    | some i => exact .inl ⟨v, hlast, (hiff i).mp hraw⟩
    | none =>
      refine .inr ⟨fun u hu htype => ?_, rfl⟩
      obtain ⟨j, hj⟩ := hr.idIs hu htype
      rw [lastMember_unique hd hu hlast, ← hiff, hraw] at hj
      cases hj

end Readable

/-! ### Frames -/

section Frames

variable {lib : SerdeJson} {ms : List (Text × Text)} {vs : List Text} {v text : Text}
  {frame : List UInt8}

theorem decode_encode (text : Text) : Utf8.decode (Utf8.encode text) = some text :=
  Utf8.decode_eq_some.mpr rfl

/-- A frame that holds a value is told by the first token of the value. -/
theorem parse_of_value (hlib : lib.Laws) (h : Padded ElementOf v text) :
    parse lib (Utf8.encode text) =
      if firstToken text = some '{'.toUInt8 then .single (one lib text)
      else if firstToken text = some '['.toUInt8 then batch lib text
      else .invalid .invalidRequest
        "a request must be an Object and a batch a non-empty Array" := by
  rw [parse, decode_encode]
  dsimp only
  rw [hlib.rawValue.mpr h]

theorem parse_object (hlib : lib.Laws) (h : Padded ObjectOf ms text) :
    parse lib (Utf8.encode text) = .single (one lib text) := by
  obtain ⟨o, htext, ho⟩ := padded_value isValue_of_objectOf h
  rw [parse_of_value hlib htext, if_pos ((firstToken_object htext).mpr ⟨ms, ho⟩)]

theorem parse_array (hlib : lib.Laws) (h : Padded ArrayOf vs text) :
    parse lib (Utf8.encode text) =
      if vs = [] then .invalid .invalidRequest "an empty batch"
      else .batch (vs.map (element lib)) := by
  obtain ⟨o, htext, ho⟩ := padded_value isValue_of_arrayOf h
  have harray := (firstToken_array htext).mpr ⟨vs, ho⟩
  rw [parse_of_value hlib htext, harray, if_neg (by decide), if_pos rfl, batch,
    hlib.rawArray.mpr h]

/-- A frame that holds neither an object nor an array with elements is refused as a
whole. -/
theorem parse_other (hlib : lib.Laws) (hobject : ∀ ms, ¬ FrameOf ObjectOf ms frame)
    (harray : ∀ vs, vs ≠ [] → ¬ FrameOf ArrayOf vs frame) :
    ∃ error reason, parse lib frame = .invalid error reason := by
  cases hdecode : Utf8.decode frame with
  | none => exact ⟨_, _, by rw [parse, hdecode]⟩
  | some text =>
    obtain rfl := Utf8.decode_eq_some.mp hdecode
    cases hread : lib.rawValue text with
    | error e =>
      refine ⟨.parseError, lib.display e, ?_⟩
      rw [parse, hdecode]
      dsimp only
      rw [hread]
    | ok v =>
      have htext := hlib.rawValue.mp hread
      by_cases hms : ∃ ms, ObjectOf ms v
      · obtain ⟨ms, hms⟩ := hms
        exact absurd ⟨text, rfl, (padded_iff isValue_of_objectOf htext).mpr hms⟩ (hobject ms)
      by_cases hvs : ∃ vs, ArrayOf vs v
      · obtain ⟨vs, hvs⟩ := hvs
        have hpad := (padded_iff isValue_of_arrayOf htext).mpr hvs
        have hnil : vs = [] := not_not.mp fun hne => harray vs hne ⟨text, rfl, hpad⟩
        rw [parse_array hlib hpad, if_pos hnil]
        exact ⟨_, _, rfl⟩
      · rw [parse_of_value hlib htext, if_neg fun h => hms ((firstToken_object htext).mp h),
          if_neg fun h => hvs ((firstToken_array htext).mp h)]
        exact ⟨_, _, rfl⟩

/-- The verdict on an element of a batch. -/
def ElementVerdict (lib : SerdeJson) (v : Text) (call : Call) : Prop :=
  (∃ ms, ObjectOf ms v) ∧ parse lib (Utf8.encode v) = .single call ∨
    (¬ ∃ ms, ObjectOf ms v) ∧ ∃ error reason, call = .invalid .null error reason

theorem element_verdict (hlib : lib.Laws) (hv : IsValue v) :
    ElementVerdict lib v (element lib v) := by
  have hself := padded_self hv
  by_cases ho : ∃ ms, ObjectOf ms v
  · refine .inl ⟨ho, ?_⟩
    obtain ⟨ms, hms⟩ := ho
    rw [element, if_pos ((firstToken_object hself).mpr ⟨ms, hms⟩)]
    exact parse_object hlib ((padded_iff isValue_of_objectOf hself).mpr hms)
  · refine .inr ⟨ho, ?_⟩
    rw [element, if_neg fun h => ho ((firstToken_object hself).mp h)]
    exact ⟨_, _, rfl⟩

/-- What `parse` makes of the frame. -/
structure Verdicts (lib : SerdeJson) (frame : List UInt8) : Prop where
  /-- A request is an object with the members of one, and nothing else is. -/
  valid : (∃ r, parse lib frame = .single (.valid r)) ↔
    ∃ ms, FrameOf ObjectOf ms frame ∧ Envelope ms
  /-- The request carries what the members say. -/
  carries : ∀ r ms, parse lib frame = .single (.valid r) → FrameOf ObjectOf ms frame →
    Carries lib ms r
  /-- Any other object is refused against its own id. -/
  refused : ∀ ms, FrameOf ObjectOf ms frame → ¬ Envelope ms →
    ∃ i reason, parse lib frame = .single (.invalid i .invalidRequest reason) ∧ OwnId lib ms i
  /-- An array with elements is a batch, each element of which is judged on its own. -/
  batch : ∀ vs, FrameOf ArrayOf vs frame → vs ≠ [] →
    ∃ calls, parse lib frame = .batch calls ∧ List.Forall₂ (ElementVerdict lib) vs calls
  /-- Everything else is refused as a whole. -/
  invalid : (∀ ms, ¬ FrameOf ObjectOf ms frame) → (∀ vs, vs ≠ [] → ¬ FrameOf ArrayOf vs frame) →
    ∃ error reason, parse lib frame = .invalid error reason

theorem frameOf_object (hlib : lib.Laws) (hms : FrameOf ObjectOf ms frame) :
    ∃ text, frame = Utf8.encode text ∧ Padded ObjectOf ms text ∧
      parse lib frame = .single (one lib text) := by
  obtain ⟨text, rfl, htext⟩ := hms
  exact ⟨text, rfl, htext, parse_object hlib htext⟩

/-- Only an object is a single call. -/
theorem object_of_single (hlib : lib.Laws) {call : Call} (h : parse lib frame = .single call) :
    ∃ ms, FrameOf ObjectOf ms frame := by
  by_contra hobject
  by_cases harray : ∃ vs, vs ≠ [] ∧ FrameOf ArrayOf vs frame
  · obtain ⟨vs, hne, text, rfl, htext⟩ := harray
    rw [parse_array hlib htext, if_neg hne] at h
    cases h
  · obtain ⟨error, reason, hparse⟩ := parse_other hlib (not_exists.mp hobject)
      fun vs hne hvs => harray ⟨vs, hne, hvs⟩
    rw [hparse] at h
    cases h

theorem object_verdict (hlib : lib.Laws) (hr : Readable lib ms) (htext : Padded ObjectOf ms text) :
    (∃ r, one lib text = .valid r ∧ Envelope ms ∧ Carries lib ms r) ∨
      ¬ Envelope ms ∧ ∃ i reason, one lib text = .refuse i reason ∧ OwnId lib ms i := by
  obtain ⟨pairs, hd⟩ := hr.decoded
  have hiff := fun r => one_valid_iff (r := r) hlib htext hd hr.reserved
  by_cases hvalid : ∃ r, one lib text = .valid r
  · obtain ⟨r, hr'⟩ := hvalid
    have hcarries := (hiff r).mp hr'
    exact .inl ⟨r, hr', (hr.envelope_iff hd).mpr ⟨r, hcarries⟩, hcarries.2⟩
  · refine .inr ⟨fun henv => ?_, ?_⟩
    · obtain ⟨r, hcarries⟩ := (hr.envelope_iff hd).mp henv
      exact hvalid ⟨r, (hiff r).mpr hcarries⟩
    · obtain ⟨reason, hone⟩ := one_refused hlib htext hd (not_exists.mp hvalid)
      obtain ⟨o, -, ho⟩ := padded_value isValue_of_objectOf htext
      exact ⟨_, reason, hone, hr.ownId hlib hd ho⟩

theorem frameOf_unique {ms' : List (Text × Text)} (h : FrameOf ObjectOf ms frame)
    (h' : FrameOf ObjectOf ms' frame) : ms = ms' := by
  obtain ⟨text, rfl, htext⟩ := h
  obtain ⟨text', heq, htext'⟩ := h'
  obtain rfl := Utf8.encode_injective heq
  obtain ⟨o, hpad, ho⟩ := padded_value isValue_of_objectOf htext
  exact objectOf_unique ho ((padded_iff isValue_of_objectOf hpad).mp htext')

/-- **The verdicts of `parse`**, on every frame whose names, strings and id numbers the
library can read. -/
theorem parse_verdicts (lib : SerdeJson) (hlib : lib.Laws) (frame : List UInt8)
    (hr : ∀ ms, FrameOf ObjectOf ms frame → Readable lib ms) : Verdicts lib frame where
  valid := by
    constructor
    · rintro ⟨r, hparse⟩
      obtain ⟨ms, hms⟩ := object_of_single hlib hparse
      obtain ⟨text, -, htext, hsingle⟩ := frameOf_object hlib hms
      rw [hsingle] at hparse
      rcases object_verdict hlib (hr ms hms) htext with ⟨-, -, henv, -⟩ | ⟨-, i, reason, hone, -⟩
      · exact ⟨ms, hms, henv⟩
      · rw [hone] at hparse
        cases hparse
    · rintro ⟨ms, hms, henv⟩
      obtain ⟨text, -, htext, hsingle⟩ := frameOf_object hlib hms
      rcases object_verdict hlib (hr ms hms) htext with ⟨r, hone, -⟩ | ⟨hno, -⟩
      · exact ⟨r, by rw [hsingle, hone]⟩
      · exact absurd henv hno
  carries := by
    intro r ms hparse hms
    obtain ⟨text, -, htext, hsingle⟩ := frameOf_object hlib hms
    rw [hsingle] at hparse
    rcases object_verdict hlib (hr ms hms) htext with
      ⟨r', hone, -, hcarries⟩ | ⟨-, i, reason, hone, -⟩
    · rw [hone] at hparse
      cases hparse
      exact hcarries
    · rw [hone] at hparse
      cases hparse
  refused := by
    intro ms hms hno
    obtain ⟨text, -, htext, hsingle⟩ := frameOf_object hlib hms
    rcases object_verdict hlib (hr ms hms) htext with ⟨-, -, henv, -⟩ | ⟨-, i, reason, hone, hid⟩
    · exact absurd henv hno
    · exact ⟨i, reason, by rw [hsingle, hone]; rfl, hid⟩
  batch := by
    rintro vs ⟨text, rfl, htext⟩ hne
    refine ⟨vs.map (element lib), by rw [parse_array hlib htext, if_neg hne], ?_⟩
    rw [List.forall₂_map_right_iff, List.forall₂_same]
    intro v hv
    obtain ⟨o, -, ho⟩ := padded_value isValue_of_arrayOf htext
    obtain ⟨s, rfl, hvalue⟩ := ho.mem hv
    exact element_verdict hlib hvalue
  invalid := parse_other hlib

/-- Members that are all strings are read. -/
theorem readable_of_strings {pairs : List (String × Text)}
    (hd : List.Forall₂ Decoded ms pairs) (hs : ∀ x ∈ pairs, ∃ y, StrIs x.2 y) :
    Readable lib ms := by
  have hstr : ∀ m ∈ ms, ∃ x, StrIs m.2 x := by
    intro m hm
    obtain ⟨y, hy, -, hmy⟩ := forall₂_mem hd hm
    exact hmy ▸ hs y hy
  refine ⟨fun m hm => ?_, fun m hm _ _ => hstr m hm, fun m hm _ t ht hmt => ?_, fun v hv => ?_⟩
  · obtain ⟨y, -, hy, -⟩ := forall₂_mem hd hm
    exact ⟨y.1, hy⟩
  · -- a string is no number
    obtain ⟨x, hx⟩ := hstr m hm
    obtain ⟨k, hk⟩ := stringOf_begins hx
    obtain ⟨c, s, hcs, hc⟩ := number_begins ht
    rw [hmt, hcs] at hk
    cases hk
    exact absurd hc (by decide)
  · obtain ⟨k, hk, -⟩ := hv.mem
    obtain ⟨x, ps, hps, -⟩ := hstr (k, v) hk
    exact IdType.not_reserved (.inl ⟨ps, hps⟩)

end Frames

/-- A request with the id `"7"`. -/
def pingFrame : List UInt8 := Utf8.encode
  " \x7b\"jsonrpc\": \"2.0\", \"method\": \"ping\", \"id\": \"7\"\x7d".toList

theorem parse_verdicts_ping : Verdicts SerdeJson.reference pingFrame := by
  refine parse_verdicts _ SerdeJson.reference_laws pingFrame fun ms hms => ?_
  obtain ⟨text, heq, htext⟩ := hms
  obtain rfl := Utf8.encode_injective heq
  have hread : fromStr rawObject
      " \x7b\"jsonrpc\": \"2.0\", \"method\": \"ping\", \"id\": \"7\"\x7d".toList
      = .ok [("jsonrpc", "\"2.0\"".toList), ("method", "\"ping\"".toList),
        ("id", "\"7\"".toList)] := by decide +kernel
  have hnames := (fromStr_ok rawObject_sound rawObject_complete isValue_of_namesOf).mp hread
  refine readable_of_strings ((padded_namesOf_iff htext).mp hnames) ?_
  simp only [List.forall_mem_cons]
  exact ⟨⟨"2.0", by decide +kernel⟩, ⟨"ping", by decide +kernel⟩, ⟨"7", by decide +kernel⟩, nofun⟩

/-! ### The id of a refusal -/

/-- If the frame is refused as a call, then against the id. -/
def FrameKeepsId (lib : SerdeJson) (frame : List UInt8) (i : Id) : Prop :=
  ∀ j error reason, parse lib frame = .single (.invalid j error reason) → j = i

/-- If the element of the batch is refused, then against the id. -/
def ElementKeepsId (lib : SerdeJson) (frame : List UInt8) (n : ℕ) (i : Id) : Prop :=
  ∀ calls j error reason, parse lib frame = .batch calls →
    calls[n]? = some (.invalid j error reason) → j = i

/-- Every name of the object stands for characters. -/
def NamesDecode (ms : List (Text × Text)) : Prop := ∀ m ∈ ms, ∃ x, StrIs m.1 x

section KeepsId

variable {lib : SerdeJson} {ms : List (Text × Text)} {o v text : Text} {i : Id}

theorem one_keeps_id_iff (hlib : lib.Laws) (htext : Padded ObjectOf ms text)
    (hlast : LastMember "id" ms v) (hi : IdIs lib v i) :
    (∀ j error reason, one lib text = .invalid j error reason → j = i) ↔
      NamesDecode ms ∨ i = .null := by
  rcases decoded_or ms with ⟨pairs, hd⟩ | ⟨m, hm, hno⟩
  · have hnames : NamesDecode ms := by
      intro m hm
      obtain ⟨x, -, hx, -⟩ := forall₂_mem hd hm
      exact ⟨x.1, hx⟩
    refine iff_of_true (fun j error reason hone => ?_) (.inl hnames)
    have hno : ∀ r, one lib text ≠ .valid r := by simp [hone]
    obtain ⟨reason', hone'⟩ := one_refused hlib htext hd hno
    rw [hone, (get_eq_some_iff hd).mpr hlast, Option.bind_some, hi.fromRaw_eq hlib] at hone'
    cases hone'
    rfl
  · have hone : one lib text = .refuse .null "unreadable Object" :=
      one_undecoded hlib htext ⟨m, hm, hno⟩
    have hnames : ¬ NamesDecode ms := fun h => (h m hm).elim hno
    rw [hone]
    constructor
    · intro h
      exact .inr (h _ _ _ rfl).symm
    · rintro (h | rfl) j error reason hj
      · exact absurd h hnames
      · cases hj
        rfl

/-- **When a refusal answers the request's own id**: a frame or an element of a batch that is
an object with a readable id is refused against that id, if at all, exactly when all names
of the object decode or the id is Null anyway. -/
theorem refusal_keeps_id_iff (lib : SerdeJson) (hlib : lib.Laws) :
    (∀ frame ms v i, FrameOf ObjectOf ms frame → LastMember "id" ms v → IdIs lib v i →
      (FrameKeepsId lib frame i ↔ NamesDecode ms ∨ i = .null)) ∧
    ∀ frame vs n o ms v i, FrameOf ArrayOf vs frame → vs[n]? = some o → ObjectOf ms o →
      LastMember "id" ms v → IdIs lib v i →
      (ElementKeepsId lib frame n i ↔ NamesDecode ms ∨ i = .null) := by
  constructor
  · rintro frame ms v i ⟨text, rfl, htext⟩ hlast hi
    rw [← one_keeps_id_iff hlib htext hlast hi, FrameKeepsId, parse_object hlib htext]
    simp only [Incoming.single.injEq]
  · rintro frame vs n o ms v i ⟨text, rfl, htext⟩ hn ho hlast hi
    have hself := padded_self (isValue_of_objectOf ho)
    have hpad : Padded ObjectOf ms o := (padded_iff isValue_of_objectOf hself).mpr ho
    have hne : vs ≠ [] := by
      rintro rfl
      cases hn
    rw [← one_keeps_id_iff hlib hpad hlast hi, ElementKeepsId, parse_array hlib htext, if_neg hne]
    have helement : (vs.map (element lib))[n]? = some (one lib o) := by
      rw [List.getElem?_map, hn, Option.map_some, element,
        if_pos ((firstToken_object hself).mpr ⟨ms, ho⟩)]
    constructor
    · intro h j error reason hone
      exact h _ j error reason rfl (helement.trans (congrArg some hone))
    · rintro h _ j error reason ⟨⟩ hcall
      rw [helement] at hcall
      exact h j error reason (Option.some.inj hcall)

end KeepsId

/-- A name that is an unpaired surrogate. -/
def loneName : Text := "\"\\ud800\"".toList

def loneMembers : List (Text × Text) :=
  [("\"jsonrpc\"".toList, "\"2.0\"".toList), ("\"method\"".toList, "\"ping\"".toList),
    ("\"id\"".toList, "7".toList), (loneName, "null".toList)]

/-- A request with the id `7` and one more member. -/
def loneFrame : List UInt8 := Utf8.encode
  "\x7b\"jsonrpc\":\"2.0\",\"method\":\"ping\",\"id\":7,\"\\ud800\":null\x7d".toList

theorem loneFrame_object : FrameOf ObjectOf loneMembers loneFrame :=
  ⟨_, rfl, (fromStr_ok rawMembers_sound rawMembers_complete isValue_of_objectOf).mp
    (by decide +kernel)⟩

theorem loneFrame_id : LastMember "id" loneMembers "7".toList :=
  ⟨loneMembers.take 2, "\"id\"".toList, [(loneName, "null".toList)], rfl, by decide +kernel,
    by decide +kernel⟩

theorem loneName_undecoded (x : String) : ¬ StrIs loneName x := by
  have hrun : (string loneName.length).run loneName = .error .loneLeadingSurrogateInHexEscape := by
    decide +kernel
  rw [strIs_iff_run, hrun]
  nofun

/-- The id `7`. -/
def seven : Id := .number (.int ⟨7, by decide, by decide⟩)

theorem idIs_seven {lib : SerdeJson} (hlib : lib.Laws) : IdIs lib "7".toList seven := by
  have hint : integerOf ⟨false, "7".toList, [], []⟩ = some ⟨7, by decide, by decide⟩ := by
    decide +kernel
  have hwf : NumberText.WF ⟨false, "7".toList, [], []⟩ :=
    ⟨⟨⟨by decide, List.forall_mem_singleton.mpr rfl⟩, by decide⟩, .inl rfl, .inl rfl⟩
  exact .number hwf (hlib.integer hwf hint)

/-- The request with the id `7` is refused against Null. -/
theorem refusal_loses_id :
    SerdeJson.reference.Laws ∧ FrameOf ObjectOf loneMembers loneFrame ∧
      LastMember "id" loneMembers "7".toList ∧ IdIs SerdeJson.reference "7".toList seven ∧
      parse SerdeJson.reference loneFrame =
        .single (.invalid .null .invalidRequest "unreadable Object") ∧ seven ≠ .null := by
  have hlib := SerdeJson.reference_laws
  refine ⟨hlib, loneFrame_object, loneFrame_id, idIs_seven hlib, ?_, nofun⟩
  obtain ⟨text, heq, htext⟩ := loneFrame_object
  rw [heq, parse_object hlib htext, one_undecoded hlib htext ⟨_, List.mem_of_getLast? rfl,
    loneName_undecoded⟩]
  rfl

theorem refusal_keeps_id_iff_lone : ¬ FrameKeepsId SerdeJson.reference loneFrame seven := by
  rw [(refusal_keeps_id_iff _ SerdeJson.reference_laws).1 loneFrame _ _ _ loneFrame_object
    loneFrame_id (idIs_seven SerdeJson.reference_laws)]
  rintro (hnames | hnull)
  · obtain ⟨x, hx⟩ := hnames _ (List.mem_of_getLast? rfl)
    exact loneName_undecoded x hx
  · cases hnull

end Jsonrpc
