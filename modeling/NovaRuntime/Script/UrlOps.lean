import NovaRuntime.Host.UrlSetters
import NovaRuntime.Script.TaskData

/-!
# The ops of `URL` (`url.rs`, `ops.js`)

The guest has a URL only as the components that the host wrote for it.  Every setter crosses with the
`href` of these, and the host parses it again.

* `UrlCrate`     the `url` crate: its parser, the parts of a URL and its setters;
* `apply`, `components`, `nativeUrl`   the native;
* `urlParse`, `urlUpdate`   the ops over it;
* `Follows.update`   on special URLs these are the setters of `UrlSetters`;
* `Built`        the URLs that a host would have that kept them;
* `Shown`        the values that the guest has;
* `shown_iff`    these are the components of those.
-/

namespace NovaRuntime
open Lib

abbrev RustText := { t : Text // Scalars t }

/-- the `url` crate; a setter other than that of the host leaves a URL as it is where it fails -/
structure UrlCrate (Url : Type) where
  parse : Text → Option Url
  /-- a relative reference against a base -/
  parseWith : Url → Text → Option Url
  asStr : Url → RustText
  origin : Url → RustText
  scheme : Url → RustText
  username : Url → RustText
  password : Url → Option RustText
  /-- from `Position::BeforeHost` to `Position::AfterPort` -/
  hostAndPort : Url → RustText
  hostStr : Url → Option RustText
  port : Url → Option Nat
  path : Url → RustText
  query : Url → Option RustText
  fragment : Url → Option RustText
  setScheme : Url → Text → Url
  setUsername : Url → Text → Url
  setPassword : Url → Option Text → Url
  setHost : Url → Option Text → Option Url
  setPort : Url → Option Nat → Url
  setPath : Url → Text → Url
  setQuery : Url → Option Text → Url
  setFragment : Url → Option Text → Url

def urlArg : JsVal → Js Text
  | .symbol _ => .error (.typeError (.lit "cannot convert a symbol to a string"))
  | v => v.toText.map fun s => decodeLossy s.units

namespace UrlCrate
variable {Url : Type} (crate : UrlCrate Url)

/-! ## the native -/

/-- `set_port` of the module -/
def portSetter (url : Url) (value : Text) : Url :=
  if value = [] then crate.setPort url none
  else
    match parseUnsigned 65536 value with
    | none => url
    | some port => crate.setPort url (some port)

/-- `set_host` of the module -/
def hostSetter (url : Url) (value : Text) : Url :=
  match crate.setHost url (some (UrlSetters.hostAndPort value).1) with
  | none => url
  | some url =>
    match (UrlSetters.hostAndPort value).2 with
    | some port => crate.portSetter url port
    | none => url

/-- `value.strip_prefix(mark).unwrap_or(value)`, and no value for an empty one -/
def unmarked (mark : Nat) (value : Text) : Option Text :=
  let rest := if value.head? = some mark then value.tail else value
  if rest = [] then none else some rest

/-- `apply`, from where the input is parsed -/
def update (url : Url) (op value : Text) : Option Url :=
  if op = txt "href" then crate.parse value
  else if op = txt "protocol" then some (crate.setScheme url (value.takeWhile (· != 58)))
  else if op = txt "username" then some (crate.setUsername url value)
  else if op = txt "password" then some (crate.setPassword url (some value))
  else if op = txt "host" then some (crate.hostSetter url value)
  else if op = txt "hostname" then
    some (if !value.contains 58 then (crate.setHost url (some value)).getD url else url)
  else if op = txt "port" then some (crate.portSetter url value)
  else if op = txt "pathname" then some (crate.setPath url value)
  else if op = txt "search" then some (crate.setQuery url (unmarked 63 value))
  else if op = txt "hash" then some (crate.setFragment url (unmarked 35 value))
  else none

def apply (op input : Text) (value : Option Text) : Option Url :=
  if op = txt "parse" then
    match value with
    | some base => (crate.parse base).bind fun base => crate.parseWith base input
    | none => crate.parse input
  else (crate.parse input).bind fun url => crate.update url op (value.getD [])

/-- `unwrap_or_default` of a part -/
def partText (part : Option RustText) : Text := (part.map Subtype.val).getD []

/-- a part with its mark, unless there is nothing in it -/
def marked (mark : Nat) (part : Option RustText) : Text :=
  match part with
  | some part => if part.val = [] then [] else mark :: part.val
  | none => []

def componentTexts (url : Url) : List (Text × Text) :=
  [(txt "href", (crate.asStr url).val), (txt "origin", (crate.origin url).val),
    (txt "protocol", (crate.scheme url).val ++ [58]), (txt "username", (crate.username url).val),
    (txt "password", partText (crate.password url)), (txt "host", (crate.hostAndPort url).val),
    (txt "hostname", partText (crate.hostStr url)),
    (txt "port", ((crate.port url).map Json.natText).getD []),
    (txt "pathname", (crate.path url).val), (txt "search", marked 63 (crate.query url)),
    (txt "hash", marked 35 (crate.fragment url))]

def components (url : Url) : Json :=
  .obj (toMap ((crate.componentTexts url).map fun m => (m.1, .str m.2)))

/-- an argument that may be left out -/
def optionalText : JsVal → Js (Option Text)
  | .undefined => .ok none
  | v => (urlArg v).map some

def nativeUrl (op input value : JsVal) : Js JsString := do
  let op ← urlArg op
  let input ← urlArg input
  let value ← optionalText value
  let components :=
    match crate.apply op input value with
    | some url => Json.print (crate.components url)
    | none => txt "null"
  return .ofUnits (encode components)

/-! ## the ops -/

def parseAnswer (answer : Js JsString) : Js JsVal :=
  answer.bind fun text =>
    match jsonParse text.units with
    | some v => .ok v
    | none => .error (.error (.lit "SyntaxError") (.lit "the text is not JSON"))

def urlParse (input base : JsVal) : Js JsVal :=
  let base :=
    match base with
    | .null => .undefined
    | base => base
  parseAnswer (crate.nativeUrl (.str (.lit "parse")) input base)

def urlUpdate (href part value : JsVal) : Js JsVal := parseAnswer (crate.nativeUrl part href value)

/-! ## the setters of the host and the port -/

/-- Where it is a special URL with a host, a URL of the crate follows `Url::set_port` and
`Url::set_host`. -/
structure Follows {Host : Type} (parseHost : Text → Option Host)
    (special : Url → SpecialUrl Host → Prop) : Prop where
  port {url : Url} {s : SpecialUrl Host} (port : Option Nat) : special url s →
    special (crate.setPort url port) (s.setPort port)
  host {url : Url} {s : SpecialUrl Host} (host : Text) : special url s →
    Option.Rel special (crate.setHost url (some host)) (s.setHost parseHost host)

def setterName : UrlSetters.Setter → Text
  | .host => txt "host"
  | .hostname => txt "hostname"
  | .port => txt "port"

section
variable {crate} {Host : Type} {parseHost : Text → Option Host}
  {special : Url → SpecialUrl Host → Prop} {url : Url} {s : SpecialUrl Host}

theorem Follows.portSetter (hf : crate.Follows parseHost special) (h : special url s) (value : Text) :
    special (crate.portSetter url value) (UrlSetters.setPort s value) := by
  unfold UrlCrate.portSetter UrlSetters.setPort
  split
  · exact hf.port none h
  · cases parseUnsigned 65536 value with
    | none => exact h
    | some port => exact hf.port (some port) h

theorem Follows.hostSetter (hf : crate.Follows parseHost special) (h : special url s) (value : Text) :
    special (crate.hostSetter url value) (UrlSetters.setHost parseHost s value) := by
  have hrel := hf.host (UrlSetters.hostAndPort value).1 h
  unfold UrlCrate.hostSetter UrlSetters.setHost
  generalize crate.setHost url (some (UrlSetters.hostAndPort value).1) = set at hrel ⊢
  generalize s.setHost parseHost (UrlSetters.hostAndPort value).1 = set' at hrel ⊢
  cases hrel with
  | none => exact h
  | some hset =>
    cases (UrlSetters.hostAndPort value).2 with
    | none => exact hset
    | some port => exact hf.portSetter hset port

/-- On these URLs the setters do what `UrlSetters.apply` does. -/
theorem Follows.update (hf : crate.Follows parseHost special) (h : special url s)
    (setter : UrlSetters.Setter) (value : Text) :
    ∃ url', crate.update url (setterName setter) value = some url' ∧
      special url' (UrlSetters.apply parseHost s value setter) := by
  cases setter with
  | host => exact ⟨_, rfl, hf.hostSetter h value⟩
  | port => exact ⟨_, rfl, hf.portSetter h value⟩
  | hostname =>
    refine ⟨_, rfl, ?_⟩
    show special (if !value.contains 58 then _ else _) (if !value.contains 58 then _ else _)
    split
    · have hrel := hf.host value h
      generalize crate.setHost url (some value) = set at hrel ⊢
      generalize s.setHost parseHost value = set' at hrel ⊢
      cases hrel with
      | none => exact h
      | some hset => exact hset
    · exact h

end

/-! ## two views of a URL -/

/-- the text that the host reads of a text of the guest -/
def textOf (s : JsString) : Text := decodeLossy s.units

/-- the URLs that come of parsing and setting, without any text in between -/
inductive Built : Url → Prop
  | parsed {input : JsString} {base : Option JsString} {url : Url}
      (h : crate.apply (txt "parse") (textOf input) (base.map textOf) = some url) : Built url
  | updated {url : Url} {part : JsString} {value : Option JsString} {url' : Url} (hbuilt : Built url)
      (hpart : textOf part ≠ txt "parse")
      (h : crate.update url (textOf part) ((value.map textOf).getD []) = some url') : Built url'

/-- the values that the ops gave for a URL, each from the `href` of one before it -/
inductive Shown : JsVal → Prop
  | parsed {input base v : JsVal} (h : crate.urlParse input base = .ok v) (hv : v ≠ .null) : Shown v
  | updated {v part value href v' : JsVal} (hshown : Shown v) (hhref : v.get (txt "href") = .ok href)
      (h : crate.urlUpdate href part value = .ok v') (hv : v' ≠ .null) : Shown v'

def value (url : Url) : JsVal := ofJson (Json.map encode (crate.components url))

/-- what a URL is written as is parsed as this URL -/
def Reparses : Prop := ∀ url, crate.Built url → crate.parse (crate.asStr url).val = some url

/-! ## what crosses -/

section
variable {crate}

theorem urlArg_str (s : JsString) : urlArg (.str s) = .ok (textOf s) := rfl

theorem urlArg_ok {v : JsVal} {t : Text} (h : urlArg v = .ok t) : ∃ s, textOf s = t := by
  have htext : (v.toText.map fun s => decodeLossy s.units) = .ok t := by
    cases v with
    | symbol => cases h
    | undefined | null | bool | num | str | bigint | object => exact h
  cases hv : v.toText with
  | error e =>
    rw [hv] at htext
    cases htext
  | ok s =>
    rw [hv] at htext
    exact ⟨s, Except.ok.inj htext⟩

theorem textOf_encode {t : Text} (h : Scalars t) : textOf (.ofUnits (encode t)) = t := by
  rw [textOf, units_ofUnits_encode h, decodeLossy_encode h]

theorem textOf_lit (s : String) : textOf (.lit s) = txt s := decodeLossy_encode (scalars_txt s)

theorem scalars_marked {mark : Nat} (hmark : mark < 0x80) (part : Option RustText) :
    Scalars (marked mark part) := by
  unfold marked
  split
  · next part =>
    split
    · exact List.forall_mem_nil _
    · exact Json.scalars_cons hmark part.2
  · exact List.forall_mem_nil _

theorem scalars_partText (part : Option RustText) : Scalars (partText part) := by
  cases part with
  | none => exact List.forall_mem_nil _
  | some part => exact part.2

theorem natText_ascii (n : Nat) : ∀ c ∈ Json.natText n, c < 0x80 := by
  obtain ⟨d, hd, -⟩ := Json.natText_eq n
  rw [hd]
  exact Json.digitsText_ascii d

theorem scalars_componentTexts (url : Url) :
    ∀ m ∈ crate.componentTexts url, Scalars m.1 ∧ Scalars m.2 := by
  have hport : Scalars (((crate.port url).map Json.natText).getD []) := by
    cases crate.port url with
    | none => exact List.forall_mem_nil _
    | some port => exact Json.scalars_ascii (natText_ascii port)
  have hscheme : Scalars ((crate.scheme url).val ++ [58]) :=
    (crate.scheme url).2.append (Json.scalars_cons (by norm_num) (List.forall_mem_nil _))
  unfold componentTexts
  simp only [List.forall_mem_cons]
  exact ⟨⟨by decide, (crate.asStr url).2⟩, ⟨by decide, (crate.origin url).2⟩, ⟨by decide, hscheme⟩,
    ⟨by decide, (crate.username url).2⟩, ⟨by decide, scalars_partText _⟩,
    ⟨by decide, (crate.hostAndPort url).2⟩, ⟨by decide, scalars_partText _⟩, ⟨by decide, hport⟩,
    ⟨by decide, (crate.path url).2⟩, ⟨by decide, scalars_marked (by norm_num) _⟩,
    ⟨by decide, scalars_marked (by norm_num) _⟩, List.forall_mem_nil _⟩

variable (crate) in
theorem component_names (url : Url) :
    (((crate.componentTexts url).map fun m => (m.1, Json.str m.2)).map Prod.fst).Nodup := by
  show ([txt "href", txt "origin", txt "protocol", txt "username", txt "password", txt "host",
    txt "hostname", txt "port", txt "pathname", txt "search", txt "hash"] : List Text).Nodup
  decide

theorem scalars_object {ms : List (Text × Text)}
    (hnames : ((ms.map fun m => (m.1, Json.str m.2)).map Prod.fst).Nodup)
    (h : ∀ m ∈ ms, Scalars m.1 ∧ Scalars m.2) :
    Scalars (Json.print (.obj (toMap (ms.map fun m => (m.1, .str m.2))))) := by
  refine Json.scalars_print _ (Json.scalarMembers_iff.mpr fun m hm => ?_)
  obtain ⟨c, hc, rfl⟩ := List.mem_map.mp ((toMap_perm_self hnames).mem_iff.mp hm)
  exact h c hc

theorem scalars_components (url : Url) : Scalars (Json.print (crate.components url)) :=
  scalars_object (component_names crate url) (scalars_componentTexts url)

theorem parseAnswer_print {j : Json} (h : Scalars (Json.print j)) :
    parseAnswer (.ok (.ofUnits (encode (Json.print j)))) = .ok (ofJson (Json.map encode j)) := by
  have hparse : jsonParse (JsString.ofUnits (encode (Json.print j))).units =
      some (ofJson (Json.map encode j)) := by
    rw [units_ofUnits_encode h, jsonParse, ← Json.print_map_encode,
      Json.parse_print, Option.map_some]
  unfold parseAnswer
  show (match jsonParse _ with
    | some v => Except.ok v
    | none => _) = _
  rw [hparse]

theorem optionalText_ok {v : JsVal} {t : Option Text} (h : optionalText v = .ok t) :
    ∃ s : Option JsString, s.map textOf = t := by
  have hcases : v = .undefined ∨ optionalText v = (urlArg v).map some := by
    cases v with
    | undefined => exact .inl rfl
    | null | bool | num | str | symbol | bigint | object => exact .inr rfl
  rcases hcases with rfl | hv
  · exact ⟨none, Except.ok.inj h⟩
  · rw [hv] at h
    cases hread : urlArg v with
    | error e =>
      rw [hread] at h
      cases h
    | ok text =>
      rw [hread] at h
      obtain ⟨s, rfl⟩ := urlArg_ok hread
      exact ⟨some s, Except.ok.inj h⟩

variable (crate) in
/-- the value of an answer -/
def answer (url : Option Url) : JsVal := url.elim .null crate.value

theorem answer_some (url : Url) : crate.answer (some url) = crate.value url := rfl

theorem nativeUrl_ok {op input value : JsVal} {o i : Text} {t : Option Text} (ho : urlArg op = .ok o)
    (hi : urlArg input = .ok i) (ht : optionalText value = .ok t) :
    crate.nativeUrl op input value = .ok (.ofUnits (encode (match crate.apply o i t with
      | some url => Json.print (crate.components url)
      | none => txt "null"))) := by
  unfold nativeUrl
  rw [ho, hi, ht]
  rfl

/-- An op gives the components of what `apply` gives, or `null`; it throws only where an argument
cannot be converted. -/
theorem parseAnswer_native {op input value v : JsVal} :
    parseAnswer (crate.nativeUrl op input value) = .ok v ↔ ∃ o i t, urlArg op = .ok o ∧
      urlArg input = .ok i ∧ optionalText value = .ok t ∧ crate.answer (crate.apply o i t) = v := by
  have hread {o i : Text} {t : Option Text} (ho : urlArg op = .ok o) (hi : urlArg input = .ok i)
      (ht : optionalText value = .ok t) : parseAnswer (crate.nativeUrl op input value) =
        .ok (crate.answer (crate.apply o i t)) := by
    rw [nativeUrl_ok ho hi ht]
    cases crate.apply o i t with
    | some url => exact parseAnswer_print (scalars_components url)
    | none => exact parseAnswer_print (j := .null) (by decide)
  constructor
  · intro h
    cases ho : urlArg op with
    | error e =>
      unfold nativeUrl at h
      rw [ho] at h
      cases h
    | ok o =>
      cases hi : urlArg input with
      | error e =>
        unfold nativeUrl at h
        rw [ho, hi] at h
        cases h
      | ok i =>
        cases ht : optionalText value with
        | error e =>
          unfold nativeUrl at h
          rw [ho, hi, ht] at h
          cases h
        | ok t =>
          rw [hread ho hi ht] at h
          exact ⟨o, i, t, rfl, rfl, rfl, Except.ok.inj h⟩
  · rintro ⟨o, i, t, ho, hi, ht, rfl⟩
    exact hread ho hi ht

theorem value_ne_null (url : Url) : crate.value url ≠ .null := by
  intro h
  cases h

theorem value_get (url : Url) {m : Text × Text} (hm : m ∈ crate.componentTexts url) :
    (crate.value url).get (encode m.1) = .ok (.str (.ofUnits (encode m.2))) := by
  have hperm := toMap_perm_self (component_names crate url)
  have hnames : ∀ m ∈ toMap ((crate.componentTexts url).map fun m => (m.1, Json.str m.2)),
      Scalars m.1 := by
    intro m hm
    obtain ⟨c, hc, rfl⟩ := List.mem_map.mp (hperm.mem_iff.mp hm)
    exact (scalars_componentTexts url c hc).1
  have hmem := (payloadMembers_perm hnames (toMap_sorted _).nodup).mem_iff.mpr
    (List.mem_map_of_mem (hperm.mem_iff.mpr (List.mem_map_of_mem hm)))
  have hread := member_of_mem (nodup_payloadMembers hnames (toMap_sorted _).nodup) hmem
  rw [units_ofUnits_encode (scalars_componentTexts url m hm).1] at hread
  rw [value, components, ofJson_obj]
  exact congrArg Except.ok hread

theorem value_href (url : Url) :
    (crate.value url).get (txt "href") = .ok (.str (.ofUnits (encode (crate.asStr url).val))) :=
  value_get url (m := (txt "href", (crate.asStr url).val)) List.mem_cons_self

/-! ## the values of the guest -/

theorem apply_update {op input : Text} {value : Option Text} (hop : op ≠ txt "parse") :
    crate.apply op input value =
      (crate.parse input).bind fun url => crate.update url op (value.getD []) := if_neg hop

theorem Shown.built (hreparses : crate.Reparses) {v : JsVal} (h : crate.Shown v) :
    ∃ url, crate.Built url ∧ v = crate.value url := by
  induction h with
  | parsed h hv =>
    obtain ⟨o, i, t, ho, hi, ht, rfl⟩ := parseAnswer_native.mp h
    obtain ⟨input, rfl⟩ := urlArg_ok hi
    obtain ⟨base, rfl⟩ := optionalText_ok ht
    obtain rfl : txt "parse" = o := by
      rw [← textOf_lit]
      exact Except.ok.inj ho
    cases hurl : crate.apply (txt "parse") (textOf input) (base.map textOf) with
    | none =>
      rw [hurl] at hv
      exact absurd rfl hv
    | some url => exact ⟨url, .parsed hurl, rfl⟩
  | updated hshown hhref h hv ih =>
    obtain ⟨url, hbuilt, rfl⟩ := ih
    obtain ⟨o, i, t, ho, hi, ht, rfl⟩ := parseAnswer_native.mp h
    rw [value_href] at hhref
    cases hhref
    obtain rfl : (crate.asStr url).val = i := by
      rw [← textOf_encode (crate.asStr url).2]
      exact Except.ok.inj hi
    obtain ⟨part, rfl⟩ := urlArg_ok ho
    obtain ⟨value, rfl⟩ := optionalText_ok ht
    cases hurl : crate.apply (textOf part) (crate.asStr url).val (value.map textOf) with
    | none =>
      rw [hurl] at hv
      exact absurd rfl hv
    | some url' =>
      refine ⟨url', ?_, rfl⟩
      by_cases hpart : textOf part = txt "parse"
      · rw [hpart, ← textOf_encode (crate.asStr url).2] at hurl
        exact .parsed hurl
      · rw [apply_update hpart, hreparses url hbuilt] at hurl
        exact .updated hbuilt hpart hurl

theorem Built.shown (hreparses : crate.Reparses) {url : Url} (h : crate.Built url) :
    crate.Shown (crate.value url) := by
  induction h with
  | @parsed input base url h =>
    have hbase : ∃ v : JsVal, optionalText (match v with
        | .null => .undefined
        | base => base) = .ok (base.map textOf) := by
      cases base with
      | none => exact ⟨.null, rfl⟩
      | some base => exact ⟨.str base, rfl⟩
    obtain ⟨v, hv⟩ := hbase
    have hparse : crate.urlParse (.str input) v = .ok (crate.value url) := by
      refine parseAnswer_native.mpr ⟨_, _, _, urlArg_str _, urlArg_str _, hv, ?_⟩
      rw [textOf_lit, h]
      rfl
    exact .parsed hparse (value_ne_null url)
  | @updated url part value url' hbuilt hpart h ih =>
    have hvalue : ∃ v, optionalText v = .ok (value.map textOf) := by
      cases value with
      | none => exact ⟨.undefined, rfl⟩
      | some value => exact ⟨.str value, rfl⟩
    obtain ⟨v, hv⟩ := hvalue
    have hupdate : crate.urlUpdate (.str (.ofUnits (encode (crate.asStr url).val))) (.str part) v =
        .ok (crate.value url') := by
      refine parseAnswer_native.mpr ⟨_, _, _, urlArg_str _, urlArg_str _, hv, ?_⟩
      rw [textOf_encode (crate.asStr url).2, apply_update hpart, hreparses url hbuilt,
        Option.bind_some, h]
      rfl
    exact .updated ih (value_href url) hupdate (value_ne_null url')

/-- What the guest has are the components of the URLs that a host would have that kept them, though
only texts cross: it reads each component as it is, and a setter gives what the crate's does. -/
theorem guest_has_the_url (crate : UrlCrate Url) (hreparses : crate.Reparses) :
    (∀ v, crate.Shown v ↔ ∃ url, crate.Built url ∧ v = crate.value url) ∧
      ∀ url, crate.Built url →
        (∀ m ∈ crate.componentTexts url,
          (crate.value url).get (encode m.1) = .ok (.str (.ofUnits (encode m.2)))) ∧
        ∀ href part value, (crate.value url).get (txt "href") = .ok href → textOf part ≠ txt "parse" →
          crate.urlUpdate href (.str part) (.str value) =
            .ok (crate.answer (crate.update url (textOf part) (textOf value))) := by
  refine ⟨fun v => ⟨Shown.built hreparses, ?_⟩, fun url hbuilt => ⟨fun m hm => value_get url hm, ?_⟩⟩
  · rintro ⟨url, hbuilt, rfl⟩
    exact hbuilt.shown hreparses
  · intro href part value hhref hpart
    rw [value_href] at hhref
    cases hhref
    refine parseAnswer_native.mpr ⟨_, _, _, urlArg_str _, urlArg_str _, rfl, ?_⟩
    rw [textOf_encode (crate.asStr url).2, apply_update hpart, hreparses url hbuilt, Option.bind_some]
    rfl

end

/-! ## a URL with a fragment -/

/-- `http://a/` and what stands before a fragment of it -/
def hostA : RustText := ⟨txt "http://a/", scalars_txt _⟩

/-- a crate that knows one URL and its fragments -/
def fragmentCrate : UrlCrate (Option RustText) where
  parse t :=
    if t = hostA.val then some none
    else if t.take 10 = txt "http://a/#" then
      if h : Scalars (t.drop 10) then some (some ⟨t.drop 10, h⟩) else none
    else none
  parseWith _ _ := none
  asStr url :=
    match url with
    | none => hostA
    | some fragment => ⟨txt "http://a/#" ++ fragment.val, (scalars_txt _).append fragment.2⟩
  origin _ := ⟨txt "http://a", scalars_txt _⟩
  scheme _ := ⟨txt "http", scalars_txt _⟩
  username _ := ⟨[], List.forall_mem_nil _⟩
  password _ := none
  hostAndPort _ := ⟨txt "a", scalars_txt _⟩
  hostStr _ := some ⟨txt "a", scalars_txt _⟩
  port _ := none
  path _ := ⟨txt "/", scalars_txt _⟩
  query _ := none
  fragment url := url
  setScheme url _ := url
  setUsername url _ := url
  setPassword url _ := url
  setHost _ _ := none
  setPort url _ := url
  setPath url _ := url
  setQuery url _ := url
  setFragment url fragment :=
    match fragment with
    | none => none
    | some t => if h : Scalars t then some ⟨t, h⟩ else url

theorem fragmentCrate_reparses : fragmentCrate.Reparses := by
  intro url _
  cases url with
  | none => rfl
  | some fragment =>
    -- the texts are compared in their first characters only
    show (if h : Scalars fragment.val then some (some (⟨fragment.val, h⟩ : RustText)) else none) = _
    exact dif_pos fragment.2

theorem guest_has_the_url_hash :
    fragmentCrate.urlUpdate (.str (.ofUnits (encode hostA.val))) (.str (.lit "hash"))
        (.str (.lit "x")) = .ok (fragmentCrate.value (some ⟨txt "x", scalars_txt _⟩)) ∧
      (fragmentCrate.value (some ⟨txt "x", scalars_txt _⟩)).get (txt "hash") =
        .ok (.str (.ofUnits (txt "#x"))) := by
  have hparsed : fragmentCrate.apply (txt "parse") (textOf (.lit "http://a/"))
      ((none : Option JsString).map textOf) = some none := by
    rw [textOf_lit]
    rfl
  obtain ⟨-, hurls⟩ := guest_has_the_url fragmentCrate fragmentCrate_reparses
  have hbuilt : fragmentCrate.Built none := .parsed hparsed
  have hhash : textOf (.lit "hash") ≠ txt "parse" := by
    rw [textOf_lit]
    decide
  have hset := (hurls none hbuilt).2 _ (.lit "hash") (.lit "x") (value_href none) hhash
  have hx : fragmentCrate.update none (textOf (.lit "hash")) (textOf (.lit "x")) =
      some (some ⟨txt "x", scalars_txt _⟩) := by
    rw [textOf_lit, textOf_lit]
    rfl
  rw [hx, answer_some] at hset
  refine ⟨hset, ?_⟩
  have hnext : fragmentCrate.update none (textOf (.lit "hash"))
      (((some (.lit "x") : Option JsString).map textOf).getD []) = _ := hx
  have hgets := (hurls _ (.updated hbuilt hhash hnext)).1
  exact hgets (txt "hash", txt "#x") (by decide)

end UrlCrate
end NovaRuntime
