/-
The text form of a Kerberos principal (`truenas_krb5/src/principal.rs`).

`RawPrincipal::build` writes a principal as text and has the library parse it, so the
components and the realm have to come back out of the library's grammar as they were;
`parseName` is what is assumed of that grammar.
`escapeInto` quotes the separators for that, and `build_faithful` says that they do,
whatever they hold, as long as there is a component: a principal without any is written as
the one with a single empty component is.
-/
import RosUtils.Quoting

namespace Krb5

open Quoting

/-! ### The code -/

/-- `Error`. -/
structure Error where
  code : Int32
  message : String
  deriving DecidableEq, Repr

/-- `libc::EINVAL`. -/
def einval : Int32 := 22

/-- `Principal`. -/
structure Principal where
  realm : String
  components : List String
  nameType : Int32
  deriving DecidableEq, Repr

/-- `cstring`: the text that the library is given. -/
def cstring (s : String) (what : String) : Except Error String :=
  if '\x00' ∈ s.toList then .error ⟨einval, "interior NUL in " ++ what⟩ else .ok s

/-- The characters that `escape_into` looks for. -/
def special (ch : Char) : Bool := ch == '\\' || ch == '/' || ch == '@'

/-- `escape_into`. -/
def escapeInto (out component : String) : String :=
  component.toList.foldl (fun out ch => (if special ch then out.push '\\' else out).push ch) out

/-- The text that `RawPrincipal::build` assembles. -/
def buildText (principal : Principal) : String :=
  let text := principal.components.zipIdx.foldl
    (fun text (component, i) => escapeInto (if 0 < i then text.push '/' else text) component) ""
  escapeInto (text.push '@') principal.realm

/-! ### The library -/

/-- The separators of the library's grammar. -/
def isSeparator (ch : Char) : Bool := ch == '/' || ch == '@'

/-- `KRB5_NT_PRINCIPAL`. -/
def ntPrincipal : Int32 := 1

/-- The grammar that is assumed of `krb5_parse_name`: a backslash quotes a separator or itself,
a slash separates components, and the first at sign starts the realm.  A name without one takes
the default realm, if one is configured.  The library also takes a quoted `n`, `t`, `b` or `0`
for a control character; `escape_into` quotes none of these. -/
def parseName (defaultRealm : Except Error String) (name : String) : Except Error Principal :=
  let tokens := read '\\' isSeparator name.toList
  let components := ((tokens.takeWhile (· ≠ .sep '@')).splitOn (.sep '/')).map
    fun component => String.ofList (component.map Token.symbol)
  match tokens.dropWhile (· ≠ .sep '@') with
  | [] => defaultRealm.map fun realm => ⟨realm, components, ntPrincipal⟩
  | _ :: realm => .ok ⟨String.ofList (realm.map Token.symbol), components, ntPrincipal⟩

namespace RawPrincipal

/-- `RawPrincipal::parse`, as the principal that the raw one holds. -/
def parse (defaultRealm : Except Error String) (name : String) : Except Error Principal := do
  let cname ← cstring name "principal"
  parseName defaultRealm cname

/-- `RawPrincipal::build`. -/
def build (defaultRealm : Except Error String) (principal : Principal) :
    Except Error Principal := do
  let raw ← parse defaultRealm (buildText principal)
  return { raw with nameType := principal.nameType }

end RawPrincipal

/-! ### The text -/

section Text

variable {out text component : String} {p q : Principal} {components : List String}

/-- What `escape_into` looks for is what the library's grammar wants quoted. -/
theorem special_eq (ch : Char) : special ch = isQuoted '\\' isSeparator ch :=
  Bool.or_assoc _ _ _

/-- What one turn of the loop of `escape_into` appends. -/
theorem toList_push_special (ch : Char) :
    ((if special ch then out.push '\\' else out).push ch).toList =
      out.toList ++ if isQuoted '\\' isSeparator ch then ['\\', ch] else [ch] := by
  rw [special_eq, String.toList_push]
  split
  · rw [String.toList_push, List.append_assoc, List.singleton_append]
  · rfl

/-- `escape_into` appends the quoted component. -/
theorem toList_escapeInto : (escapeInto out component).toList =
    out.toList ++ quote '\\' isSeparator component.toList := by
  rw [escapeInto, quote]
  generalize component.toList = chars
  induction chars generalizing out with
  | nil => exact (List.append_nil _).symm
  | cons ch chars ih =>
    rw [List.foldl_cons, ih, toList_push_special, List.flatMap_cons, List.append_assoc]

/-- After the first component, each one comes with a slash before it. -/
theorem toList_foldl_zipIdx (i : ℕ) : ((components.zipIdx (i + 1)).foldl
      (fun text (component, i) => escapeInto (if 0 < i then text.push '/' else text) component)
      text).toList =
    text.toList ++ components.flatMap fun c => '/' :: quote '\\' isSeparator c.toList := by
  induction components generalizing text i with
  | nil => exact (List.append_nil _).symm
  | cons component components ih =>
    rw [List.zipIdx_cons, List.foldl_cons, ih, List.flatMap_cons]
    dsimp only
    rw [if_pos (Nat.succ_pos i), toList_escapeInto, String.toList_push, List.append_assoc,
      List.append_assoc, List.singleton_append, List.cons_append]

/-- **The text of a principal**: the quoted components with slashes between them, an at sign
and the quoted realm. -/
theorem toList_buildText (p : Principal) : (buildText p).toList =
    ['/'].intercalate ((p.components.map String.toList).map (quote '\\' isSeparator)) ++
      '@' :: quote '\\' isSeparator p.realm.toList := by
  rw [buildText, toList_escapeInto, String.toList_push, List.append_assoc, List.singleton_append]
  congr 1
  cases p.components with
  | nil => rfl
  | cons component components =>
    rw [List.zipIdx_cons, List.foldl_cons, toList_foldl_zipIdx]
    dsimp only
    rw [if_neg (Nat.lt_irrefl 0), toList_escapeInto, List.map_cons, List.map_cons,
      intercalate_cons_flatMap, List.map_map, List.flatMap_map]
    rfl

end Text

/-! ### What the library reads -/

/-- No string of the principal has a NUL. -/
def Principal.NulFree (p : Principal) : Prop :=
  '\x00' ∉ p.realm.toList ∧ ∀ component ∈ p.components, '\x00' ∉ component.toList

section Parse

variable {defaultRealm : Except Error String} {p q : Principal}

/-- The tokens of the text: the separators are those that `build` has put there. -/
theorem read_buildText (p : Principal) : read '\\' isSeparator (buildText p).toList =
    [.sep '/'].intercalate ((p.components.map String.toList).map (List.map .lit)) ++
      .sep '@' :: p.realm.toList.map .lit := by
  have hslash : '/' ≠ '\\' := by decide
  have hat : '@' ≠ '\\' := by decide
  rw [toList_buildText, read_quoted_fields hslash rfl, read_sep hat rfl, read_quote_all]

/-- What stands before the first at sign, and from it on. -/
theorem cut_buildText (p : Principal) :
    (read '\\' isSeparator (buildText p).toList).takeWhile (· ≠ .sep '@') =
        [.sep '/'].intercalate ((p.components.map String.toList).map (List.map .lit)) ∧
      (read '\\' isSeparator (buildText p).toList).dropWhile (· ≠ .sep '@') =
        .sep '@' :: p.realm.toList.map .lit := by
  -- the at signs of the components are quoted
  have hat : '@' ≠ '/' := by decide
  have hnone : ∀ t ∈ [Token.sep '/'].intercalate
      ((p.components.map String.toList).map (List.map .lit)), decide (t ≠ .sep '@') = true := by
    intro t ht
    rw [decide_eq_true_iff]
    rintro rfl
    exact sep_notMem_fields hat _ ht
  rw [read_buildText, List.takeWhile_append_of_pos hnone, List.dropWhile_append_of_pos hnone]
  constructor
  · rw [List.takeWhile_cons_of_neg (by simp), List.append_nil]
  · rw [List.dropWhile_cons_of_neg (by simp)]

/-- **The library reads the text as the principal it was made of.** -/
theorem parseName_buildText (hp : p.components ≠ []) :
    parseName defaultRealm (buildText p) = .ok ⟨p.realm, p.components, ntPrincipal⟩ := by
  have hne : p.components.map String.toList ≠ [] := mt List.map_eq_nil_iff.mp hp
  have hstrings : (p.components.map String.toList).map String.ofList = p.components := by
    rw [List.map_map]
    exact (List.map_congr_left fun s _ => String.ofList_toList).trans (List.map_id _)
  obtain ⟨hfront, hback⟩ := cut_buildText p
  have hcomponents : (((read '\\' isSeparator (buildText p).toList).takeWhile
      (· ≠ .sep '@')).splitOn (.sep '/')).map
        (fun component => String.ofList (component.map Token.symbol)) = p.components := by
    -- an empty component is a field too, so the fields are the components
    rw [hfront]
    calc _ = ((([Token.sep '/'].intercalate ((p.components.map String.toList).map
          (List.map .lit))).splitOn (.sep '/')).map (List.map Token.symbol)).map
            String.ofList := List.map_map.symm
      _ = (p.components.map String.toList).map String.ofList := by rw [splitOn_fields hne]
      _ = p.components := hstrings
  rw [parseName, hback, hcomponents]
  dsimp only
  rw [map_symbol_lit, String.ofList_toList]

/-- The text has no NUL that the principal does not have. -/
theorem nul_notMem_buildText (hp : p.NulFree) : '\x00' ∉ (buildText p).toList := by
  have hquote : ∀ {s : List Char}, '\x00' ∉ s → '\x00' ∉ quote '\\' isSeparator s := by
    intro s hs hmem
    obtain hesc | hs' := eq_or_mem_of_mem_quote hmem
    · exact absurd hesc (by decide)
    · exact hs hs'
  rw [toList_buildText, List.mem_append, List.mem_cons]
  rintro (hfields | hat | hrealm)
  · obtain hslash | ⟨text, htext, hnul⟩ := eq_or_mem_of_mem_intercalate hfields
    · exact absurd hslash (by decide)
    · obtain ⟨_, hchars, rfl⟩ := List.mem_map.mp htext
      obtain ⟨component, hcomponent, rfl⟩ := List.mem_map.mp hchars
      exact hquote (hp.2 component hcomponent) hnul
  · exact absurd hat (by decide)
  · exact hquote hp.1 hrealm

theorem parse_buildText (hp : p.components ≠ []) (hnul : p.NulFree) :
    RawPrincipal.parse defaultRealm (buildText p) =
      .ok ⟨p.realm, p.components, ntPrincipal⟩ := by
  rw [RawPrincipal.parse, cstring, if_neg (nul_notMem_buildText hnul)]
  exact parseName_buildText hp

end Parse

/-- **The text of a principal stands for that principal.**  What `build` makes of a principal
is the principal, name type included; the library reads the text as the same components and
the same realm; and so no principal that differs in them has the same text. -/
theorem build_faithful (defaultRealm : Except Error String) (p : Principal)
    (hp : p.components ≠ []) (hnul : p.NulFree) :
    RawPrincipal.build defaultRealm p = .ok p ∧
      RawPrincipal.parse defaultRealm (buildText p) =
        .ok ⟨p.realm, p.components, ntPrincipal⟩ ∧
      ∀ q : Principal, q.components ≠ [] → q.NulFree →
        q.components ≠ p.components ∨ q.realm ≠ p.realm → buildText q ≠ buildText p := by
  have hparse : RawPrincipal.parse defaultRealm (buildText p) = _ := parse_buildText hp hnul
  refine ⟨?_, hparse, ?_⟩
  · rw [RawPrincipal.build, hparse]
    rfl
  · intro q hq hqnul hdiffer htext
    rw [← htext, parse_buildText hq hqnul, Except.ok.injEq, Principal.mk.injEq] at hparse
    exact hdiffer.elim (absurd hparse.2.1) (absurd hparse.1)

/-- An empty component, one of separators, and a realm with an at sign. -/
theorem build_faithful_adversarial :
    RawPrincipal.build (.error ⟨0, ""⟩) ⟨"A@B\\", ["", "/\\@ \n"], 0⟩ =
      .ok ⟨"A@B\\", ["", "/\\@ \n"], 0⟩ :=
  (build_faithful _ _ (List.cons_ne_nil _ _) ⟨by decide, by decide⟩).1

-- without a component, the text does not tell a principal from another
example (realm : String) (t : Int32) :
    buildText ⟨realm, [], t⟩ = buildText ⟨realm, [""], t⟩ := rfl

end Krb5
