import NovaRuntime.Lib.Except
import NovaRuntime.Script.Delivery

/-!
# The headers of a response (`headers.js`)

The glue hands a response's headers to the host without looking at them: a `Headers` object is taken
to hold what its constructor and mutators let in.

* `Surface`       what the web surface, which is a package, and the engine do with a value;
* `walk`          the loops over `_map`;
* `ValidHeader`   a name that is a token, and a value without CR, LF and NUL;
* `Holds`, `Readable`   what the `_map` of an object holds, and that all of it can be read;
* `Sendable`      a response that can go on the wire but for its headers;
* `receivedResponse`   the response that the host makes of a payload.

`response_headers_valid` says which responses put an invalid header on the wire: those whose headers
pass for a `Headers` object and hold one.
-/

namespace NovaRuntime
open Lib

structure Surface where
  /-- `init instanceof Headers` -/
  isHeaders : JsVal → Js Bool
  /-- `new Headers(init)` -/
  newHeaders : JsVal → Js JsVal
  /-- what `for (const one of v)` goes through; the loop ends where the iterator throws -/
  iterate : JsVal → List (Js JsVal)
  /-- `const [name, value] = v` -/
  pair : JsVal → Js (JsVal × JsVal)

def JsVal.isArray : JsVal → Js Bool
  | .object shape throws result =>
    if throws .isArray then .error (result .isArray) else .ok shape.isArray
  | _ => .ok false

namespace Surface
variable (surface : Surface)

/-- the pairs of one entry of `_map` -/
def entryPairs (entry : Js JsVal) : Js (List (JsVal × JsVal)) := do
  let (name, value) ← surface.pair (← entry)
  if ← value.isArray then
    (surface.iterate value).mapM fun one => do return (name, ← one)
  else return [(name, value)]

/-- the loops over the `_map` of a `Headers` object -/
def walk (headers : JsVal) : Js (List (JsVal × JsVal)) := do
  return (← (surface.iterate (← headers.get (txt "_map"))).mapM surface.entryPairs).flatten

def headersToWire (init : JsVal) : Js (List (JsVal × JsVal)) := do
  let headers ← if ← surface.isHeaders init then .ok init else surface.newHeaders init
  surface.walk headers

end Surface

/-! ## valid headers -/

def isTokenChar (c : Nat) : Bool :=
  (48 ≤ c && c ≤ 57) || (65 ≤ c && c ≤ 90) || (97 ≤ c && c ≤ 122) ||
    (txt "!#$%&'*+-.^_`|~").contains c

def isToken (s : Text) : Bool := !s.isEmpty && s.all isTokenChar

/-- no CR, LF or NUL -/
def isFieldValue (s : Text) : Bool := s.all fun c => c ≠ 13 && c ≠ 10 && c ≠ 0

def ValidHeader (h : Text × Text) : Prop := isToken h.1 = true ∧ isFieldValue h.2 = true

instance (h : Text × Text) : Decidable (ValidHeader h) := by unfold ValidHeader; infer_instance

section
variable (surface : Surface)

/-- This name and this value come out of an entry of `_map`. -/
def Surface.EntryHolds (entry : Js JsVal) (name value : JsVal) : Prop :=
  ∃ pair held, entry = .ok pair ∧ surface.pair pair = .ok (name, held) ∧
    (held.isArray = .ok false ∧ value = held ∨
      held.isArray = .ok true ∧ .ok value ∈ surface.iterate held)

/-- The `_map` of this object holds this name with this value. -/
def Surface.Holds (headers name value : JsVal) : Prop :=
  ∃ map, headers.get (txt "_map") = .ok map ∧
    ∃ entry ∈ surface.iterate map, surface.EntryHolds entry name value

/-- Nothing throws while an entry is taken apart and its parts are turned into texts. -/
def Surface.EntryReadable (entry : Js JsVal) : Prop :=
  ∃ pair name held, entry = .ok pair ∧ surface.pair pair = .ok (name, held) ∧
    (held.isArray = .ok false ∧ HasText name ∧ HasText held ∨
      held.isArray = .ok true ∧ ∀ one ∈ surface.iterate held,
        HasText name ∧ ∃ value, one = .ok value ∧ HasText value)

/-- Nothing throws while the `_map` of this object is read. -/
def Surface.Readable (headers : JsVal) : Prop :=
  ∃ map, headers.get (txt "_map") = .ok map ∧
    ∀ entry ∈ surface.iterate map, surface.EntryReadable entry

/-- this name and this value are a valid header, as strings -/
def ValidPair (name value : JsVal) : Prop :=
  ∀ n v, name.toText = .ok n → value.toText = .ok v → ValidHeader (n.units, v.units)

/-- The surface's constructor throws on an invalid header, so that what it makes holds none. -/
def Surface.Validates : Prop :=
  ∀ init headers, surface.newHeaders init = .ok headers →
    ∀ name value, surface.Holds headers name value → ValidPair name value

end

/-- `text` or `body` of a response -/
def responseRaw (response : JsVal) : Js JsVal := do
  let text ← response.get (txt "text")
  if text.isCallable then response.call (txt "text") else response.get (txt "body")

def responseBody : JsVal → Js WireText
  | .undefined | .null => .ok WireText.empty
  | raw => wireText raw

/-- everything of a response but its headers can go on the wire -/
structure Sendable (response headers : JsVal) : Prop where
  truthy : response.truthy = true
  body : ∃ raw body, responseRaw response = .ok raw ∧ responseBody raw = .ok body
  status : ∃ value status, response.get (txt "status") = .ok value ∧ wireStatus value = .ok status
  headers : response.get (txt "headers") = .ok headers

/-! ## the host -/

/-- the payload of a dispatch, as `take_outcome` reads it -/
def receivedResponse (payload : Text) : Option (DispatchOutcome DispatchResponse) :=
  (fromStr (some recursionLimit) (decodeLossy payload)).bind
    (decodeDispatchOutcome decodeDispatchResponse)

/-- the end of `handle_fetch` -/
def DispatchResponse.toHttp (r : DispatchResponse) : HttpResponse where
  status := r.status
  headers := r.headers
  body := .bytes (utf8Bytes r.body)

section
variable {headersToWire : JsVal → Js (List (JsVal × JsVal))} {handled : Handled} {r : WireResponse}

/-- What the glue settles with is what the host has. -/
theorem received_response (r : WireResponse) :
    ∃ payload, settleText (.ok r.toJs) = some payload ∧
      receivedResponse payload =
        some (.value ⟨r.status, r.headers.map fun h => (h.1.text, h.2.text), r.body.text⟩) := by
  refine ⟨_, stringify_response r, ?_⟩
  rw [receivedResponse, response_read rfl, Option.bind_some, decode_responseTree]

/-- A failure is no response. -/
theorem received_failure {e : JsVal} {payload : Text} (h : settleText (.error e) = some payload) :
    ∃ message, receivedResponse payload = some (.error message) := by
  rw [settleText] at h
  split at h
  · next message _ =>
    cases h
    rw [receivedResponse, failure_read rfl]
    exact ⟨message.text, rfl⟩
  · cases h

/-- The host has a response exactly when the glue gave one. -/
theorem received_iff {response : DispatchResponse} :
    (∃ payload, dispatchText headersToWire .fetch handled = some payload ∧
        receivedResponse payload = some (.value response)) ↔
      ∃ r : WireResponse, dispatchFetch headersToWire handled = .ok r ∧
        ⟨r.status, r.headers.map fun h => (h.1.text, h.2.text), r.body.text⟩ = response := by
  rw [dispatchText, settled]
  cases dispatchFetch headersToWire handled with
  | error e =>
    refine iff_of_false ?_ nofun
    rintro ⟨payload, hsent, hreceived⟩
    obtain ⟨message, hfailed⟩ := received_failure hsent
    rw [hfailed] at hreceived
    cases hreceived
  | ok r =>
    obtain ⟨payload, hpayload, hresponse⟩ := received_response r
    constructor
    · rintro ⟨payload', hsent, hreceived⟩
      cases hpayload.symm.trans hsent
      cases hresponse.symm.trans hreceived
      exact ⟨r, rfl, rfl⟩
    · rintro ⟨r', hr, rfl⟩
      cases hr
      exact ⟨payload, hpayload, hresponse⟩

end

/-! ## texts -/

theorem not_token_char (c : Nat)
    (h : isHigh c = true ∨ isLow c = true ∨ c = replacement ∨ 0x10000 ≤ c) :
    isTokenChar c = false := by
  have hlarge : 0x80 ≤ c := by
    simp only [isHigh, isLow, Bool.and_eq_true, decide_eq_true_eq, replacement] at h
    omega
  have hcontains : (txt "!#$%&'*+-.^_`|~").contains c = false := by
    rw [← Bool.not_eq_true, List.contains_iff_mem]
    intro hmem
    have hsmall : ∀ x ∈ txt "!#$%&'*+-.^_`|~", x < 0x80 := by decide
    have := hsmall c hmem
    omega
  rw [isTokenChar, hcontains]
  simp only [Bool.or_false, Bool.or_eq_false_iff, Bool.and_eq_false_iff, decide_eq_false_iff_not]
  omega

theorem isToken_decodeLossy (s : Text) : isToken (decodeLossy s) = isToken s := by
  have hempty : (decodeLossy s).isEmpty = s.isEmpty := by
    cases s with
    | nil => rfl
    | cons c r =>
      cases r with
      | nil => rfl
      | cons d r =>
        rw [decodeLossy]
        split <;> simp only [List.isEmpty_cons]
  rw [isToken, isToken, hempty, all_decodeLossy not_token_char]

theorem isFieldValue_decodeLossy (s : Text) : isFieldValue (decodeLossy s) = isFieldValue s := by
  refine all_decodeLossy (b := true) ?_ s
  intro c h
  simp only [isHigh, isLow, Bool.and_eq_true, decide_eq_true_eq, replacement] at h
  simp only [Bool.and_eq_true, decide_eq_true_eq]
  omega

theorem wireText_text {v : JsVal} {s : WireText} :
    wireText v = .ok s ↔ ∃ n, v.toText = .ok n ∧ n.toWellFormed = s := by
  rw [wireText]
  cases v.toText with
  | error e => simp [Except.map]
  | ok n => simp [Except.map]

theorem text_toWellFormed (n : JsString) : n.toWellFormed.text = decodeLossy n.units := by
  have hunits : n.toWellFormed.units = encode (decodeLossy n.units) := toWellFormed_eq _ n.small
  rw [WireText.text, hunits, decodeLossy_encode (scalars_decodeLossy _ n.small)]

theorem validHeader_text (n v : JsString) :
    ValidHeader (n.toWellFormed.text, v.toWellFormed.text) ↔ ValidHeader (n.units, v.units) := by
  rw [ValidHeader, ValidHeader, text_toWellFormed, text_toWellFormed, isToken_decodeLossy,
    isFieldValue_decodeLossy]

/-! ## the walk -/

section
variable {surface : Surface} {entry : Js JsVal} {headers : JsVal}

theorem named_ok {name : JsVal} {one : Js JsVal} {p : JsVal × JsVal} :
    (do return (name, ← one) : Js (JsVal × JsVal)) = .ok p ↔ p.1 = name ∧ one = .ok p.2 := by
  rw [bind_ok]
  constructor
  · rintro ⟨value, hone, hp⟩
    cases pure_ok.mp hp
    exact ⟨rfl, hone⟩
  · rintro ⟨rfl, hone⟩
    exact ⟨p.2, hone, rfl⟩

theorem entryPairs_ok {ps : List (JsVal × JsVal)} : surface.entryPairs entry = .ok ps ↔
    ∃ pair name held, entry = .ok pair ∧ surface.pair pair = .ok (name, held) ∧
      (held.isArray = .ok false ∧ [(name, held)] = ps ∨ held.isArray = .ok true ∧
        ((surface.iterate held).mapM fun one => do return (name, ← one)) = .ok ps) := by
  constructor
  · intro h
    obtain ⟨pair, hentry, h⟩ := bind_ok.mp h
    obtain ⟨⟨name, held⟩, hpair, h⟩ := bind_ok.mp h
    obtain ⟨array, harray, h⟩ := bind_ok.mp h
    cases array with
    | false => exact ⟨pair, name, held, hentry, hpair, .inl ⟨harray, pure_ok.mp h⟩⟩
    | true => exact ⟨pair, name, held, hentry, hpair, .inr ⟨harray, h⟩⟩
  · rintro ⟨pair, name, held, hentry, hpair, ⟨harray, h⟩ | ⟨harray, h⟩⟩
    · exact bind_ok.mpr ⟨pair, hentry, bind_ok.mpr ⟨(name, held), hpair,
        bind_ok.mpr ⟨false, harray, pure_ok.mpr h⟩⟩⟩
    · exact bind_ok.mpr ⟨pair, hentry, bind_ok.mpr ⟨(name, held), hpair,
        bind_ok.mpr ⟨true, harray, h⟩⟩⟩

theorem mem_entryPairs {ps : List (JsVal × JsVal)} (h : surface.entryPairs entry = .ok ps)
    {p : JsVal × JsVal} : p ∈ ps ↔ surface.EntryHolds entry p.1 p.2 := by
  obtain ⟨pair, name, held, hentry, hpair, hheld⟩ := entryPairs_ok.mp h
  constructor
  · intro hp
    rcases hheld with ⟨harray, rfl⟩ | ⟨harray, hmap⟩
    · cases List.mem_singleton.mp hp
      exact ⟨pair, held, hentry, hpair, .inl ⟨harray, rfl⟩⟩
    · obtain ⟨one, hone, hp⟩ := (mem_mapM hmap).mp hp
      obtain ⟨hname, rfl⟩ := named_ok.mp hp
      rw [hname]
      exact ⟨pair, held, hentry, hpair, .inr ⟨harray, hone⟩⟩
  · rintro ⟨pair', held', hentry', hpair', hvalue⟩
    cases hentry.symm.trans hentry'
    have heq : name = p.1 ∧ held = held' := Prod.mk.inj (Except.ok.inj (hpair.symm.trans hpair'))
    obtain ⟨rfl, rfl⟩ := heq
    rcases hheld, hvalue with ⟨⟨harray, rfl⟩ | ⟨harray, hmap⟩, ⟨harray', hv⟩ | ⟨harray', hv⟩⟩
    · rw [← hv]
      exact List.mem_singleton.mpr rfl
    · cases harray.symm.trans harray'
    · cases harray.symm.trans harray'
    · exact (mem_mapM hmap).mpr ⟨_, hv, named_ok.mpr ⟨rfl, rfl⟩⟩

theorem entryReadable_iff : surface.EntryReadable entry ↔
    ∃ ps, surface.entryPairs entry = .ok ps ∧ ∀ p ∈ ps, HasText p.1 ∧ HasText p.2 := by
  constructor
  · rintro ⟨pair, name, held, hentry, hpair, ⟨harray, htexts⟩ | ⟨harray, hones⟩⟩
    · refine ⟨[(name, held)], entryPairs_ok.mpr
        ⟨pair, name, held, hentry, hpair, .inl ⟨harray, rfl⟩⟩, ?_⟩
      simpa using htexts
    · have hends : ∀ one ∈ surface.iterate held,
          ∃ p, (do return (name, ← one) : Js (JsVal × JsVal)) = .ok p := by
        intro one hone
        obtain ⟨-, value, rfl, -⟩ := hones one hone
        exact ⟨(name, value), rfl⟩
      obtain ⟨ps, hmap⟩ := mapM_ends.mpr hends
      refine ⟨ps, entryPairs_ok.mpr ⟨pair, name, held, hentry, hpair, .inr ⟨harray, hmap⟩⟩, ?_⟩
      intro p hp
      obtain ⟨one, hone, h⟩ := (mem_mapM hmap).mp hp
      obtain ⟨hname, rfl⟩ := named_ok.mp h
      obtain ⟨htext, value, hvalue, hv⟩ := hones _ hone
      cases hvalue
      exact ⟨hname ▸ htext, hv⟩
  · rintro ⟨ps, h, htexts⟩
    obtain ⟨pair, name, held, hentry, hpair, ⟨harray, rfl⟩ | ⟨harray, hmap⟩⟩ := entryPairs_ok.mp h
    · exact ⟨pair, name, held, hentry, hpair, .inl ⟨harray, htexts _ (List.mem_singleton.mpr rfl)⟩⟩
    · refine ⟨pair, name, held, hentry, hpair, .inr ⟨harray, ?_⟩⟩
      intro one hone
      obtain ⟨p, hp⟩ := mapM_ends.mp ⟨ps, hmap⟩ one hone
      obtain ⟨hname, hvalue⟩ := named_ok.mp hp
      have htext := htexts p ((mem_mapM hmap).mpr ⟨one, hone, hp⟩)
      exact ⟨hname ▸ htext.1, p.2, hvalue, htext.2⟩

theorem walk_ok {pairs : List (JsVal × JsVal)} : surface.walk headers = .ok pairs ↔
    ∃ map pss, headers.get (txt "_map") = .ok map ∧
      (surface.iterate map).mapM surface.entryPairs = .ok pss ∧ pss.flatten = pairs := by
  simp only [Surface.walk, bind_ok, pure_ok, exists_and_left]

theorem mem_walk {pairs : List (JsVal × JsVal)} (h : surface.walk headers = .ok pairs)
    {p : JsVal × JsVal} : p ∈ pairs ↔ surface.Holds headers p.1 p.2 := by
  obtain ⟨map, pss, hmap, hpss, rfl⟩ := walk_ok.mp h
  rw [List.mem_flatten]
  constructor
  · rintro ⟨ps, hps, hp⟩
    obtain ⟨entry, hentry, h⟩ := (mem_mapM hpss).mp hps
    exact ⟨map, hmap, entry, hentry, (mem_entryPairs h).mp hp⟩
  · rintro ⟨map', hmap', entry, hentry, hholds⟩
    cases hmap.symm.trans hmap'
    obtain ⟨ps, h⟩ := mapM_ends.mp ⟨pss, hpss⟩ entry hentry
    exact ⟨ps, (mem_mapM hpss).mpr ⟨entry, hentry, h⟩, (mem_entryPairs h).mpr hholds⟩

theorem readable_iff : surface.Readable headers ↔
    ∃ pairs, surface.walk headers = .ok pairs ∧ ∀ p ∈ pairs, HasText p.1 ∧ HasText p.2 := by
  constructor
  · rintro ⟨map, hmap, hentries⟩
    have hends : ∀ entry ∈ surface.iterate map, ∃ ps, surface.entryPairs entry = .ok ps :=
      fun entry hentry => (entryReadable_iff.mp (hentries entry hentry)).imp fun ps h => h.1
    obtain ⟨pss, hpss⟩ := mapM_ends.mpr hends
    refine ⟨pss.flatten, walk_ok.mpr ⟨map, pss, hmap, hpss, rfl⟩, ?_⟩
    intro p hp
    obtain ⟨ps, hps, hp⟩ := List.mem_flatten.mp hp
    obtain ⟨entry, hentry, h⟩ := (mem_mapM hpss).mp hps
    obtain ⟨ps', h', htexts⟩ := entryReadable_iff.mp (hentries entry hentry)
    cases h.symm.trans h'
    exact htexts p hp
  · rintro ⟨pairs, hwalk, htexts⟩
    obtain ⟨map, pss, hmap, hpss, rfl⟩ := walk_ok.mp hwalk
    refine ⟨map, hmap, fun entry hentry => entryReadable_iff.mpr ?_⟩
    obtain ⟨ps, h⟩ := mapM_ends.mp ⟨pss, hpss⟩ entry hentry
    exact ⟨ps, h, fun p hp =>
      htexts p (List.mem_flatten.mpr ⟨ps, (mem_mapM hpss).mpr ⟨entry, hentry, h⟩, hp⟩)⟩

/-! ## what goes on the wire -/

theorem texts_ok {p : JsVal × JsVal} {h : WireText × WireText} :
    (do return (← wireText p.1, ← wireText p.2) : Js (WireText × WireText)) = .ok h ↔
      wireText p.1 = .ok h.1 ∧ wireText p.2 = .ok h.2 := by
  simp only [bind_ok, pure_ok]
  constructor
  · rintro ⟨name, hname, value, hvalue, rfl⟩
    exact ⟨hname, hvalue⟩
  · rintro ⟨hname, hvalue⟩
    exact ⟨_, hname, _, hvalue, rfl⟩

theorem mapM_texts {pairs : List (JsVal × JsVal)} :
    (∃ wire, (pairs.mapM fun p => do return (← wireText p.1, ← wireText p.2) :
        Js (List (WireText × WireText))) = .ok wire) ↔
      ∀ p ∈ pairs, HasText p.1 ∧ HasText p.2 := by
  rw [mapM_ends]
  refine forall₂_congr fun p _ => ?_
  rw [← wireText_ok, ← wireText_ok]
  constructor
  · rintro ⟨h, hok⟩
    obtain ⟨hname, hvalue⟩ := texts_ok.mp hok
    exact ⟨⟨_, hname⟩, _, hvalue⟩
  · rintro ⟨⟨n, hn⟩, v, hv⟩
    exact ⟨(n, v), texts_ok.mpr ⟨hn, hv⟩⟩

/-- what the walk gives for an object that passes for a `Headers` object -/
theorem headersToWire_headers (h : surface.isHeaders headers = .ok true) :
    surface.headersToWire headers = surface.walk headers := by
  rw [Surface.headersToWire, h]
  rfl

/-- What is walked is what was given, or what the constructor made of it. -/
theorem headersToWire_ok {pairs : List (JsVal × JsVal)}
    (h : surface.headersToWire headers = .ok pairs) :
    surface.isHeaders headers = .ok true ∧ surface.walk headers = .ok pairs ∨
      ∃ made, surface.newHeaders headers = .ok made ∧ surface.walk made = .ok pairs := by
  rw [Surface.headersToWire] at h
  cases hi : surface.isHeaders headers with
  | error e =>
    rw [hi] at h
    cases h
  | ok isHeaders =>
    rw [hi] at h
    cases isHeaders with
    | true => exact .inl ⟨rfl, h⟩
    | false => exact .inr (bind_ok.mp h)

theorem headersToPairs_ok {wire : List (WireText × WireText)} (ht : headers.truthy = true) :
    headersToPairs surface.headersToWire headers = .ok wire ↔
      ∃ pairs, surface.headersToWire headers = .ok pairs ∧
        (pairs.mapM fun p => do return (← wireText p.1, ← wireText p.2)) = .ok wire := by
  rw [headersToPairs, if_pos ht]
  exact bind_ok

/-- The headers on the wire are valid when what was walked is. -/
theorem valid_wire {pairs : List (JsVal × JsVal)} {wire : List (WireText × WireText)}
    (h : (pairs.mapM fun p => do return (← wireText p.1, ← wireText p.2)) = .ok wire) :
    (∀ h ∈ wire, ValidHeader (h.1.text, h.2.text)) ↔ ∀ p ∈ pairs, ValidPair p.1 p.2 := by
  constructor
  · intro hvalid p hp n v hn hv
    have hname : wireText p.1 = .ok n.toWellFormed := wireText_text.mpr ⟨n, hn, rfl⟩
    have hvalue : wireText p.2 = .ok v.toWellFormed := wireText_text.mpr ⟨v, hv, rfl⟩
    have hmem : (n.toWellFormed, v.toWellFormed) ∈ wire :=
      (mem_mapM h).mpr ⟨p, hp, texts_ok.mpr ⟨hname, hvalue⟩⟩
    exact (validHeader_text n v).mp (hvalid _ hmem)
  · intro hvalid t ht
    obtain ⟨p, hp, hwire⟩ := (mem_mapM h).mp ht
    obtain ⟨hname, hvalue⟩ := texts_ok.mp hwire
    obtain ⟨n, hn, hn'⟩ := wireText_text.mp hname
    obtain ⟨v, hv, hv'⟩ := wireText_text.mp hvalue
    rw [← hn', ← hv']
    exact (validHeader_text n v).mpr (hvalid p hp n v hn hv)

/-- Headers that were sent are valid: the constructor made them, or the object held valid ones. -/
theorem valid_sent (hnew : surface.Validates) {wire : List (WireText × WireText)}
    (h : headersToPairs surface.headersToWire headers = .ok wire)
    (hheld : headers.truthy = true → surface.isHeaders headers = .ok true →
      surface.Readable headers → ∀ name held, surface.Holds headers name held →
        ValidPair name held) :
    ∀ t ∈ wire, ValidHeader (t.1.text, t.2.text) := by
  cases htruthy : headers.truthy with
  | false =>
    rw [headersToPairs, if_neg (by rw [htruthy]; exact Bool.false_ne_true)] at h
    obtain rfl := Except.ok.inj h
    exact fun t ht => absurd ht List.not_mem_nil
  | true =>
    obtain ⟨pairs, hwalk, hwire⟩ := (headersToPairs_ok htruthy).mp h
    refine (valid_wire hwire).mpr fun p hp => ?_
    rcases headersToWire_ok hwalk with ⟨hi, hwalk⟩ | ⟨made, hmade, hwalk⟩
    · have hreadable : surface.Readable headers :=
        readable_iff.mpr ⟨pairs, hwalk, mapM_texts.mp ⟨wire, hwire⟩⟩
      exact hheld htruthy hi hreadable p.1 p.2 ((mem_walk hwalk).mp hp)
    · exact hnew _ made hmade p.1 p.2 ((mem_walk hwalk).mp hp)

/-- The rest of `__ow_dispatch` for a response. -/
theorem dispatchFetch_response {headersToWire : JsVal → Js (List (JsVal × JsVal))} {listeners : Bool}
    {value : JsVal} (ht : value.truthy = true) :
    dispatchFetch headersToWire (.ended listeners (.ok value)) =
      responseRaw value >>= fun raw => value.get (txt "status") >>= fun given =>
        wireStatus given >>= fun status => value.get (txt "headers") >>= fun headers =>
          headersToPairs headersToWire headers >>= fun wire => responseBody raw >>= fun body =>
            .ok ⟨status.1, status.2, wire, body⟩ := by
  show (if (!value.truthy) = true then _ else _) = _
  rw [ht, if_neg (by decide), responseRaw]
  cases value.get (txt "text") with
  | error e => rfl
  | ok text =>
    dsimp only [bind, Except.bind]
    cases text.isCallable with
    | true =>
      cases value.call (txt "text") with
      | error e => rfl
      | ok raw => cases raw <;> rfl
    | false =>
      cases value.get (txt "body") with
      | error e => rfl
      | ok raw => cases raw <;> rfl

theorem dispatchFetch_ok {handled : Handled} {r : WireResponse}
    (h : dispatchFetch surface.headersToWire handled = .ok r) :
    ∃ listeners value headers, handled = .ended listeners (.ok value) ∧
      Sendable value headers ∧ headersToPairs surface.headersToWire headers = .ok r.headers := by
  cases handled with
  | unhandled => cases h
  | ended listeners outcome =>
    obtain ⟨value, rfl, hvalue⟩ := bind_ok.mp h
    cases ht : value.truthy with
    | false =>
      rw [ht] at hvalue
      cases hvalue
    | true =>
      rw [dispatchFetch_response ht] at h
      obtain ⟨raw, hraw, h⟩ := bind_ok.mp h
      obtain ⟨given, hgiven, h⟩ := bind_ok.mp h
      obtain ⟨status, hstatus, h⟩ := bind_ok.mp h
      obtain ⟨headers, hheaders, h⟩ := bind_ok.mp h
      obtain ⟨wire, hwire, h⟩ := bind_ok.mp h
      obtain ⟨body, hbody, h⟩ := bind_ok.mp h
      cases h
      exact ⟨listeners, value, headers, rfl,
        ⟨ht, ⟨raw, body, hraw, hbody⟩, ⟨given, status, hgiven, hstatus⟩, hheaders⟩, hwire⟩

/-- A response that can go on the wire does, with its headers. -/
theorem dispatchFetch_sendable (listeners : Bool) {value : JsVal} (hs : Sendable value headers)
    {wire : List (WireText × WireText)}
    (hw : headersToPairs surface.headersToWire headers = .ok wire) :
    ∃ r, dispatchFetch surface.headersToWire (.ended listeners (.ok value)) = .ok r ∧
      r.headers = wire := by
  obtain ⟨ht, ⟨raw, body, hraw, hbody⟩, ⟨given, status, hgiven, hstatus⟩, hheaders⟩ := hs
  refine ⟨⟨status.1, status.2, wire, body⟩, ?_, rfl⟩
  rw [dispatchFetch_response ht]
  exact bind_ok.mpr ⟨raw, hraw, bind_ok.mpr ⟨given, hgiven, bind_ok.mpr ⟨status, hstatus,
    bind_ok.mpr ⟨headers, hheaders, bind_ok.mpr ⟨wire, hw, bind_ok.mpr ⟨body, hbody, rfl⟩⟩⟩⟩⟩⟩

/-- The headers of a response are valid at the host unless they pass for a `Headers` object whose
`_map` can be read and holds an invalid one. -/
theorem response_headers_valid (surface : Surface) (hnew : surface.Validates) (handled : Handled) :
    (∀ payload response, dispatchText surface.headersToWire .fetch handled = some payload →
      receivedResponse payload = some (.value response) →
        ∀ h ∈ response.toHttp.headers, ValidHeader h) ↔
      ∀ listeners value headers, handled = .ended listeners (.ok value) → Sendable value headers →
        headers.truthy = true → surface.isHeaders headers = .ok true → surface.Readable headers →
          ∀ name held, surface.Holds headers name held → ValidPair name held := by
  constructor
  · intro hvalid listeners value headers hended hs ht hi hreadable name held hholds
    obtain ⟨pairs, hwalk, htexts⟩ := readable_iff.mp hreadable
    obtain ⟨wire, hwire⟩ := mapM_texts.mpr htexts
    have hpairs : headersToPairs surface.headersToWire headers = .ok wire :=
      (headersToPairs_ok ht).mpr ⟨pairs, (headersToWire_headers hi).trans hwalk, hwire⟩
    obtain ⟨r, hr, rfl⟩ := dispatchFetch_sendable listeners hs hpairs
    rw [← hended] at hr
    obtain ⟨payload, hsent, hreceived⟩ := received_iff.mpr ⟨r, hr, rfl⟩
    have hhost := hvalid payload _ hsent hreceived
    refine (valid_wire hwire).mp (fun h hh => ?_) (name, held) ((mem_walk hwalk).mpr hholds)
    exact hhost _ (List.mem_map.mpr ⟨h, hh, rfl⟩)
  · intro hcond payload response hsent hreceived h hh
    obtain ⟨r, hr, rfl⟩ := received_iff.mp ⟨payload, hsent, hreceived⟩
    obtain ⟨listeners, value, headers, hended, hs, hpairs⟩ := dispatchFetch_ok hr
    obtain ⟨t, ht, rfl⟩ := List.mem_map.mp hh
    refine valid_sent hnew hpairs ?_ t ht
    exact fun htruthy hi => hcond listeners value headers hended hs htruthy hi

end

/-! ## a surface of plain objects -/

def arrayItems : JsVal → List (Js JsVal)
  | .object shape throws result =>
    (List.range shape.length).map fun i => JsVal.ask throws result (.item i)
  | _ => []

def firstTwo (v : JsVal) : Js (JsVal × JsVal) :=
  match arrayItems v with
  | .ok name :: .ok value :: _ => .ok (name, value)
  | _ => .error (.typeError (.lit "this value cannot be taken apart"))

/-- an entry that the constructor lets in -/
def checkedEntry (name value : JsString) : Js JsVal :=
  if ValidHeader (name.units, value.units) then .ok (.plainArray [.str name, .str value])
  else .error (.typeError (.lit "invalid header"))

def headersOf (map : List JsVal) : JsVal := .plainObject [(.lit "_map", .plainArray map)]

/-- what passes for a `Headers` object here is an object with a `_map` -/
def Surface.plain : Surface where
  isHeaders v := (v.get (txt "_map")).map JsVal.truthy
  newHeaders
    | .object shape throws result => do
      return headersOf (← shape.keys.mapM fun key => do
        checkedEntry key (← (← (JsVal.object shape throws result).get key.units).toText))
    | _ => .error (.typeError (.lit "this value is no object"))
  iterate := arrayItems
  pair := firstTwo

theorem arrayItems_plainArray (xs : List JsVal) : arrayItems (.plainArray xs) = xs.map .ok := by
  have hitem : ∀ i, JsVal.ask (fun _ => false) (JsVal.readItem xs) (.item i) =
      (.ok ((xs[i]?).getD .undefined) : Js JsVal) := fun i => rfl
  have hitems : arrayItems (.plainArray xs) =
      (List.range xs.length).map fun i => .ok ((xs[i]?).getD .undefined) := by
    rw [JsVal.plainArray, arrayItems]
    exact List.map_congr_left fun i _ => hitem i
  rw [hitems]
  refine List.ext_getElem (by simp) ?_
  intro i h _
  have hi : i < xs.length := by simpa using h
  simp [hi]

theorem checkedEntry_ok {name value : JsString} {entry : JsVal}
    (h : checkedEntry name value = .ok entry) :
    ValidHeader (name.units, value.units) ∧ entry = .plainArray [.str name, .str value] := by
  unfold checkedEntry at h
  split at h
  · next hvalid => exact ⟨hvalid, (Except.ok.inj h).symm⟩
  · cases h

theorem Surface.plain_validates : Surface.plain.Validates := by
  intro init headers hmade name value hholds
  cases init with
  | object shape throws result =>
    obtain ⟨entries, hentries, hheaders⟩ := bind_ok.mp hmade
    cases pure_ok.mp hheaders
    obtain ⟨map, hmap, entry, hentry, pair, held, rfl, hpair, hheld⟩ := hholds
    cases hmap
    have hitems : (.ok pair : Js JsVal) ∈ entries.map .ok := by
      rw [← arrayItems_plainArray]
      exact hentry
    obtain ⟨made, hmem, hok⟩ := List.mem_map.mp hitems
    cases hok
    obtain ⟨key, -, hkey⟩ := (mem_mapM hentries).mp hmem
    obtain ⟨given, -, hkey⟩ := bind_ok.mp hkey
    obtain ⟨text, -, hkey⟩ := bind_ok.mp hkey
    obtain ⟨hvalid, rfl⟩ := checkedEntry_ok hkey
    have htaken : (JsVal.str key, JsVal.str text) = (name, held) := Except.ok.inj hpair
    cases htaken
    rcases hheld with ⟨-, rfl⟩ | ⟨harray, -⟩
    · intro n v hn hv
      cases hn
      cases hv
      exact hvalid
    · cases harray
  | _ => cases hmade

/-- a response of this shape, with these headers -/
def duckResponse (headers : JsVal) : Handled := .ended true (.ok (.plainObject
  [(.lit "status", .num (.ofNat 201)), (.lit "headers", headers), (.lit "body", .str (.lit "duck"))]))

def duckHeaders : JsVal := .plainObject [(.lit "a", .str (.lit "b"))]

def forgedHeaders : JsVal :=
  headersOf [.plainArray [.str (.lit "x-a"), .str (.lit "ok\r\nSet-Cookie: injected=1")]]

theorem response_headers_valid_duck :
    (∃ payload, dispatchText Surface.plain.headersToWire .fetch (duckResponse duckHeaders) =
      some payload ∧ receivedResponse payload =
        some (.value ⟨201, [(txt "a", txt "b")], txt "duck"⟩)) ∧
      ∀ payload response,
        dispatchText Surface.plain.headersToWire .fetch (duckResponse duckHeaders) = some payload →
          receivedResponse payload = some (.value response) →
            ∀ h ∈ response.toHttp.headers, ValidHeader h := by
  constructor
  · exact received_response ⟨201, by decide,
      [((JsString.lit "a").toWellFormed, (JsString.lit "b").toWellFormed)],
      (JsString.lit "duck").toWellFormed⟩
  · refine (response_headers_valid Surface.plain Surface.plain_validates _).mpr ?_
    rintro listeners value headers hended ⟨-, -, -, hheaders⟩ ht hi
    cases hended
    cases hheaders
    cases hi

theorem a_forged_header_is_sent : Surface.plain.Validates ∧
    ∃ payload, dispatchText Surface.plain.headersToWire .fetch (duckResponse forgedHeaders) =
      some payload ∧ receivedResponse payload =
        some (.value ⟨201, [(txt "x-a", txt "ok\r\nSet-Cookie: injected=1")], txt "duck"⟩) ∧
      ¬ ValidHeader (txt "x-a", txt "ok\r\nSet-Cookie: injected=1") := by
  refine ⟨Surface.plain_validates, ?_⟩
  obtain ⟨payload, hpayload, hreceived⟩ := received_response ⟨201, by decide,
    [((JsString.lit "x-a").toWellFormed,
      (JsString.lit "ok\r\nSet-Cookie: injected=1").toWellFormed)],
    (JsString.lit "duck").toWellFormed⟩
  exact ⟨payload, hpayload, hreceived, by decide⟩

end NovaRuntime
