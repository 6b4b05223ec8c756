import NovaRuntime.Lib.Decimal

/-!
# The setters of a URL's host and port (`url.rs`)

The `url` crate is known by what it documents: `parseHost` is its host parser, `set_host` parses what
stands before the first colon outside brackets, and `set_port` stores a port, or none if it is the
default of the scheme.  A URL of the scheme `file` has no port to set.

* `SpecialUrl`   a URL of a special scheme, with a host;
* `setPort`, `setHost`, `apply`   the setters as the code has them;
* `portRule`, `standard`   the setters as the standard has them;
* `Agree`   two texts that are read as one port, the first by its digits and the second as a whole;
* `Fits`   the values on which a setter does what the standard says;
* `apply_eq_standard_iff`   these are all of them.
-/

namespace NovaRuntime
open Lib

inductive SpecialScheme where
  | http
  | https
  | ws
  | wss
  | ftp
  | file
  deriving DecidableEq

def SpecialScheme.defaultPort : SpecialScheme → Option Nat
  | .http | .ws => some 80
  | .https | .wss => some 443
  | .ftp => some 21
  | .file => none

structure SpecialUrl (Host : Type) where
  scheme : SpecialScheme
  username : Text
  password : Text
  host : Host
  port : Option Nat
  path : Text
  query : Option Text
  fragment : Option Text
  deriving DecidableEq

/-- a bracket opens or closes -/
def bracket (inside : Bool) (c : Nat) : Bool := if c = 91 then true else if c = 93 then false else inside

/-- what stands before the first colon outside brackets, and what follows it -/
def splitHost : (inside : Bool) → Text → Text × Option Text
  | _, [] => ([], none)
  | inside, c :: r =>
    if c = 58 && !inside then ([], some r)
    else (c :: (splitHost (bracket inside c) r).1, (splitHost (bracket inside c) r).2)

/-- what a scheme has for a port -/
def SpecialScheme.stored (scheme : SpecialScheme) (port : Option Nat) : Option Nat :=
  if port = scheme.defaultPort then none else port

namespace SpecialUrl
variable {Host : Type}

def setPort (url : SpecialUrl Host) (port : Option Nat) : SpecialUrl Host :=
  if url.scheme = .file then url else { url with port := url.scheme.stored port }

def setHost (parseHost : Text → Option Host) (url : SpecialUrl Host) (host : Text) :
    Option (SpecialUrl Host) :=
  (parseHost (splitHost false host).1).map fun h => { url with host := h }

end SpecialUrl

namespace UrlSetters
variable {Host : Type}

/-! ## the code -/

def rfindColon : Text → Option (Text × Text)
  | [] => none
  | c :: r =>
    match rfindColon r with
    | some (before, after) => some (c :: before, after)
    | none => if c = 58 then some ([], r) else none

def endsWithBracket (s : Text) : Bool := s.getLast? = some 93

def setPort (url : SpecialUrl Host) (value : Text) : SpecialUrl Host :=
  if value = [] then url.setPort none
  else
    match parseUnsigned 65536 value with
    | none => url
    | some port => url.setPort (some port)

/-- the host and the port of a value of the host setter -/
def hostAndPort (value : Text) : Text × Option Text :=
  match rfindColon value with
  | some (host, port) => if !endsWithBracket value then (host, some port) else (value, none)
  | none => (value, none)

def setHost (parseHost : Text → Option Host) (url : SpecialUrl Host) (value : Text) :
    SpecialUrl Host :=
  match url.setHost parseHost (hostAndPort value).1 with
  | none => url
  | some url =>
    match (hostAndPort value).2 with
    | some port => setPort url port
    | none => url

inductive Setter where
  | host
  | hostname
  | port
  deriving DecidableEq

def apply (parseHost : Text → Option Host) (url : SpecialUrl Host) (value : Text) :
    Setter → SpecialUrl Host
  | .host => setHost parseHost url value
  | .hostname => if !value.contains 58 then (url.setHost parseHost value).getD url else url
  | .port => setPort url value

/-! ## the standard -/

/-- the digits that a text begins with become the port -/
def portRule (url : SpecialUrl Host) (value : Text) : SpecialUrl Host :=
  match leadingNumber 65536 value with
  | none => url
  | some port => url.setPort (some port)

def standard (parseHost : Text → Option Host) (url : SpecialUrl Host) (value : Text) :
    Setter → SpecialUrl Host
  | .host =>
    match parseHost (splitHost false value).1, (splitHost false value).2 with
    | none, _ => url
    | some host, none => { url with host := host }
    | some host, some rest => portRule { url with host := host } rest
  | .hostname =>
    match parseHost (splitHost false value).1, (splitHost false value).2 with
    | some host, none => { url with host := host }
    | _, _ => url
  | .port => if value = [] then url.setPort none else portRule url value

/-! ## where they agree -/

/-- the URL has this port already, or has none to set -/
def Has (url : SpecialUrl Host) (port : Option Nat) : Prop :=
  url.scheme = .file ∨ url.port = url.scheme.stored port

/-- what the code takes from the text of a port: nothing for an empty one -/
def Stores (value : Text) (port : Option Nat) : Prop :=
  value = [] ∧ port = none ∨ ∃ n, Whole 65536 value n ∧ port = some n

/-- The digits that `value` begins with and all of `last` are the same port, or the URL has the
ports that they are. -/
def Agree (url : SpecialUrl Host) (value last : Text) : Prop :=
  (∃ n port, Leading 65536 value n ∧ Stores last port ∧
    url.scheme.stored (some n) = url.scheme.stored port) ∨
  (∀ n, Leading 65536 value n → Has url (some n)) ∧ ∀ port, Stores last port → Has url port

/-- what follows the last colon of a text, or all of it -/
def afterColons (value : Text) : Text := ((rfindColon value).map Prod.snd).getD value

/-- the values on which a setter does what the standard says -/
def Fits (parseHost : Text → Option Host) (url : SpecialUrl Host) (value : Text) : Setter → Prop
  | .port => value = [] ∨ Agree url value value
  | .host => ∀ host rest, splitHost false value = (host, some rest) → (parseHost host).isSome →
    if endsWithBracket value then ∀ n, Leading 65536 rest n → Has url (some n)
    else Agree url rest (afterColons rest)
  | .hostname => 58 ∈ value → (splitHost false value).2 = none →
    ∀ host, parseHost value = some host → host = url.host

/-! ## splitting a value -/

theorem splitHost_cons {inside : Bool} {c : Nat} (h : (c = 58 && !inside) = false) (r : Text) :
    splitHost inside (c :: r) =
      (c :: (splitHost (bracket inside c) r).1, (splitHost (bracket inside c) r).2) := by
  rw [splitHost, h, if_neg (by decide)]

/-- A colon outside brackets is found, whatever follows it. -/
theorem splitHost_some {inside : Bool} {value host rest : Text}
    (h : splitHost inside value = (host, some rest)) :
    value = host ++ 58 :: rest ∧ splitHost inside host = (host, none) ∧
      ∀ rest', splitHost inside (host ++ 58 :: rest') = (host, some rest') := by
  induction value generalizing inside host with
  | nil => cases h
  | cons c value ih =>
    cases hc : c = 58 && !inside with
    | true =>
      rw [splitHost, hc, if_pos rfl] at h
      obtain ⟨hcolon, hout⟩ := Bool.and_eq_true_iff.mp hc
      cases h
      refine ⟨by rw [of_decide_eq_true hcolon]; rfl, rfl, fun rest' => ?_⟩
      show splitHost inside (58 :: rest') = _
      rw [splitHost, hout, if_pos (by decide)]
    | false =>
      rw [splitHost_cons hc] at h
      obtain ⟨rfl, hrest⟩ := Prod.mk.inj h
      obtain ⟨heq, hown, hfound⟩ := ih (Prod.ext rfl hrest)
      refine ⟨congrArg (c :: ·) heq, ?_, fun rest' => ?_⟩
      · rw [splitHost_cons hc, hown]
      · rw [List.cons_append, splitHost_cons hc, hfound]

theorem splitHost_none {inside : Bool} {value : Text} (h : (splitHost inside value).2 = none) :
    (splitHost inside value).1 = value := by
  induction value generalizing inside with
  | nil => rfl
  | cons c value ih =>
    cases hc : c = 58 && !inside with
    | true =>
      rw [splitHost, hc, if_pos rfl] at h
      cases h
    | false =>
      rw [splitHost_cons hc] at h ⊢
      exact congrArg (c :: ·) (ih h)

/-- whether brackets are open after a text -/
def insideAfter (inside : Bool) (s : Text) : Bool := s.foldl bracket inside

/-- Brackets are open at a colon that is passed over, and none is found before it. -/
theorem splitHost_inside {inside : Bool} {a b : Text}
    (h : (splitHost inside (a ++ 58 :: b)).2 = none) :
    insideAfter inside a = true ∧ (splitHost inside a).2 = none := by
  induction a generalizing inside with
  | nil =>
    cases inside with
    | true => exact ⟨rfl, rfl⟩
    | false => cases h
  | cons c a ih =>
    cases hc : c = 58 && !inside with
    | true =>
      rw [List.cons_append, splitHost, hc, if_pos rfl] at h
      cases h
    | false =>
      rw [List.cons_append, splitHost_cons hc] at h
      rw [splitHost_cons hc]
      exact ih h

theorem bracket_opened {inside : Bool} {s : Text} (h : insideAfter inside s = true) :
    inside = true ∨ 91 ∈ s := by
  induction s generalizing inside with
  | nil => exact .inl h
  | cons c s ih =>
    rcases ih h with hc | hs
    · by_cases hopen : c = 91
      · exact .inr (hopen ▸ List.mem_cons_self)
      · rw [bracket, if_neg hopen] at hc
        split at hc
        · cases hc
        · exact .inl hc
    · exact .inr (List.mem_cons_of_mem _ hs)

theorem not_endsWithBracket {s : Text} (h : insideAfter false s = true) :
    endsWithBracket s = false := by
  rcases List.eq_nil_or_concat s with rfl | ⟨r, c, rfl⟩
  · rfl
  · rw [insideAfter, List.concat_eq_append, List.foldl_append] at h
    rw [endsWithBracket, List.concat_eq_append, List.getLast?_append]
    refine decide_eq_false fun hc => ?_
    obtain rfl : c = 93 := Option.some.inj hc
    cases h

theorem rfindColon_eq {s a b : Text} (h : rfindColon s = some (a, b)) : s = a ++ 58 :: b := by
  induction s generalizing a with
  | nil => cases h
  | cons c s ih =>
    rw [rfindColon] at h
    split at h
    · next before after hr =>
      cases h
      exact congrArg (c :: ·) (ih hr)
    · split at h
      · next hc =>
        cases h
        rw [hc]
        rfl
      · cases h

/-- The last colon of a text with a colon is that one or a later one. -/
theorem rfindColon_append (host rest : Text) :
    ∃ a, rfindColon (host ++ 58 :: rest) = some (a, afterColons rest) ∧
      (a = host ∨ ∃ x, a = host ++ 58 :: x) := by
  induction host with
  | nil =>
    cases hr : rfindColon rest with
    | none => exact ⟨[], by simp [rfindColon, hr, afterColons], .inl rfl⟩
    | some p => exact ⟨58 :: p.1, by simp [rfindColon, hr, afterColons], .inr ⟨p.1, rfl⟩⟩
  | cons c host ih =>
    obtain ⟨a, ha, hsplit⟩ := ih
    refine ⟨c :: a, by rw [List.cons_append, rfindColon, ha], ?_⟩
    rcases hsplit with rfl | ⟨x, rfl⟩
    · exact .inl rfl
    · exact .inr ⟨x, rfl⟩

/-! ## storing a port -/

theorem setPort_eq_self_iff {url : SpecialUrl Host} {port : Option Nat} :
    url.setPort port = url ↔ Has url port := by
  rw [SpecialUrl.setPort, Has]
  split
  · next hfile => exact iff_of_true rfl (.inl hfile)
  · next hfile =>
    rw [or_iff_right hfile]
    refine ⟨fun h => (congrArg SpecialUrl.port h).symm, fun h => ?_⟩
    rw [← h]

theorem setPort_eq_setPort_iff {url : SpecialUrl Host} {p q : Option Nat} :
    url.setPort p = url.setPort q ↔
      url.scheme.stored p = url.scheme.stored q ∨ Has url p ∧ Has url q := by
  rw [SpecialUrl.setPort, SpecialUrl.setPort, Has, Has]
  split
  · next hfile => exact iff_of_true rfl (.inr ⟨.inl hfile, .inl hfile⟩)
  · next hfile =>
    rw [or_iff_right hfile, or_iff_right hfile]
    refine ⟨fun h => .inl (congrArg SpecialUrl.port h), ?_⟩
    rintro (h | ⟨hp, hq⟩)
    · rw [h]
    · rw [← hp, ← hq]

/-- a port that is read or not -/
def storing (url : SpecialUrl Host) (port : Option (Option Nat)) : SpecialUrl Host :=
  port.elim url url.setPort

theorem storing_eq_iff {url : SpecialUrl Host} {p q : Option (Option Nat)} :
    storing url p = storing url q ↔
      (∃ x y, p = some x ∧ q = some y ∧ url.scheme.stored x = url.scheme.stored y) ∨
        (∀ x, p = some x → Has url x) ∧ ∀ y, q = some y → Has url y := by
  cases p with
  | none =>
    cases q with
    | none => simp [storing]
    | some y =>
      rw [storing, storing, Option.elim_none, Option.elim_some, eq_comm, setPort_eq_self_iff]
      simp
  | some x =>
    cases q with
    | none =>
      rw [storing, storing, Option.elim_none, Option.elim_some, setPort_eq_self_iff]
      simp
    | some y =>
      rw [storing, storing, Option.elim_some, Option.elim_some, setPort_eq_setPort_iff]
      simp

theorem portRule_eq (url : SpecialUrl Host) (value : Text) :
    portRule url value = storing url ((leadingNumber 65536 value).map some) := by
  rw [portRule]
  cases leadingNumber 65536 value <;> rfl

theorem setPort_eq (url : SpecialUrl Host) (value : Text) : setPort url value =
    storing url (if value = [] then some none else (parseUnsigned 65536 value).map some) := by
  rw [setPort]
  split
  · rfl
  · cases parseUnsigned 65536 value <;> rfl

theorem stores_iff {value : Text} {port : Option Nat} :
    (if value = [] then some none else (parseUnsigned 65536 value).map some) = some port ↔
      Stores value port := by
  rw [Stores]
  split
  · next hnil =>
    rw [Option.some.injEq, eq_comm]
    refine ⟨fun h => .inl ⟨hnil, h⟩, ?_⟩
    rintro (⟨-, h⟩ | ⟨n, hw, -⟩)
    · exact h
    · rw [hnil, ← parseUnsigned_eq_some (by decide)] at hw
      cases hw
  · next hne =>
    rw [Option.map_eq_some_iff, or_iff_right fun h => hne h.1]
    exact exists_congr fun n => and_congr (parseUnsigned_eq_some (by decide)) eq_comm

theorem portRule_eq_setPort_iff (url : SpecialUrl Host) (value last : Text) :
    setPort url last = portRule url value ↔ Agree url value last := by
  have hlead : ∀ x, (leadingNumber 65536 value).map some = some x ↔
      ∃ n, Leading 65536 value n ∧ x = some n := fun x => by
    rw [Option.map_eq_some_iff]
    exact exists_congr fun n => and_congr leadingNumber_eq_some eq_comm
  rw [eq_comm, setPort_eq, portRule_eq, storing_eq_iff, Agree]
  refine or_congr ⟨?_, ?_⟩ (and_congr ⟨fun h n hn => ?_, fun h x hx => ?_⟩ ?_)
  · rintro ⟨x, y, hx, hy, hstored⟩
    obtain ⟨n, hn, rfl⟩ := (hlead x).mp hx
    exact ⟨n, y, hn, stores_iff.mp hy, hstored⟩
  · rintro ⟨n, y, hn, hy, hstored⟩
    exact ⟨some n, y, (hlead _).mpr ⟨n, hn, rfl⟩, stores_iff.mpr hy, hstored⟩
  · exact h (some n) ((hlead _).mpr ⟨n, hn, rfl⟩)
  · obtain ⟨n, hn, rfl⟩ := (hlead x).mp hx
    exact h n hn
  · exact forall_congr' fun y => imp_congr_left stores_iff

theorem portRule_eq_self_iff (url : SpecialUrl Host) (value : Text) :
    url = portRule url value ↔ ∀ n, Leading 65536 value n → Has url (some n) := by
  rw [portRule_eq, eq_comm]
  cases hlead : leadingNumber 65536 value with
  | none =>
    refine iff_of_true rfl fun n hn => ?_
    rw [← leadingNumber_eq_some, hlead] at hn
    cases hn
  | some n =>
    rw [Option.map_some, storing, Option.elim_some, setPort_eq_self_iff]
    refine ⟨fun h m hm => ?_, fun h => h n (leadingNumber_eq_some.mp hlead)⟩
    rw [← leadingNumber_eq_some, hlead] at hm
    exact Option.some.inj hm ▸ h

/-! ## the setters -/

/-- What the code takes for the host is read as the standard reads it, if there is a colon outside
brackets. -/
theorem splitHost_hostAndPort {value host rest : Text}
    (h : splitHost false value = (host, some rest)) :
    (splitHost false (hostAndPort value).1).1 = host ∧ (hostAndPort value).2 =
      if endsWithBracket value then none else some (afterColons rest) := by
  obtain ⟨heq, hown, hfound⟩ := splitHost_some h
  obtain ⟨a, ha, hsplit⟩ := rfindColon_append host rest
  rw [← heq] at ha
  rw [hostAndPort, ha]
  cases hb : endsWithBracket value with
  | true => exact ⟨congrArg Prod.fst h, rfl⟩
  | false =>
    refine ⟨?_, rfl⟩
    show (splitHost false a).1 = host
    rcases hsplit with rfl | ⟨x, rfl⟩
    · rw [hown]
    · rw [hfound x]

/-- Where there is none, the code finds no host that the standard does not find. -/
theorem parse_hostAndPort {parseHost : Text → Option Host}
    (hbracket : ∀ t, (parseHost t).isSome → 91 ∈ t → endsWithBracket t = true) {value : Text}
    (h : (splitHost false value).2 = none) : hostAndPort value = (value, none) ∨
      parseHost value = none ∧ parseHost (splitHost false (hostAndPort value).1).1 = none := by
  rw [hostAndPort]
  cases hr : rfindColon value with
  | none => exact .inl rfl
  | some p =>
    obtain ⟨a, b⟩ := p
    have hvalue := rfindColon_eq hr
    cases hb : endsWithBracket value with
    | true => exact .inl rfl
    | false =>
      refine .inr ⟨?_, ?_⟩
      all_goals rw [hvalue] at h
      all_goals obtain ⟨hinside, hnone⟩ := splitHost_inside h
      all_goals have hopen : 91 ∈ a := (bracket_opened hinside).resolve_left (by decide)
      · have hmem : 91 ∈ value := hvalue ▸ List.mem_append_left _ hopen
        rw [← Option.not_isSome_iff_eq_none]
        intro hsome
        rw [hbracket value hsome hmem] at hb
        cases hb
      · show parseHost (splitHost false a).1 = none
        rw [splitHost_none hnone, ← Option.not_isSome_iff_eq_none]
        intro hsome
        have hend := hbracket a hsome hopen
        rw [not_endsWithBracket hinside] at hend
        cases hend

theorem host_eq_iff {parseHost : Text → Option Host}
    (hbracket : ∀ t, (parseHost t).isSome → 91 ∈ t → endsWithBracket t = true)
    (url : SpecialUrl Host) (value : Text) :
    apply parseHost url value .host = standard parseHost url value .host ↔
      Fits parseHost url value .host := by
  rw [apply, setHost, SpecialUrl.setHost, standard, Fits]
  cases hsplit : (splitHost false value).2 with
  | none =>
    have hown := splitHost_none hsplit
    refine iff_of_true ?_ fun host rest h => ?_
    · rcases parse_hostAndPort hbracket hsplit with heq | ⟨hvalue, hpart⟩
      · simp only [heq, hown]
        cases parseHost value <;> rfl
      · rw [hpart, hown, hvalue]
        rfl
    · rw [h] at hsplit
      cases hsplit
  | some rest =>
    have hvalue : splitHost false value = ((splitHost false value).1, some rest) :=
      Prod.ext rfl hsplit
    obtain ⟨hhost, hport⟩ := splitHost_hostAndPort hvalue
    rw [hhost, hport]
    cases hparse : parseHost (splitHost false value).1 with
    | none =>
      refine iff_of_true rfl fun host rest' h hsome => ?_
      rw [h] at hparse
      rw [hparse] at hsome
      cases hsome
    | some host =>
      have hfits : (∀ host' rest', splitHost false value = (host', some rest') →
          (parseHost host').isSome →
          if endsWithBracket value then ∀ n, Leading 65536 rest' n → Has url (some n)
          else Agree url rest' (afterColons rest')) ↔
          if endsWithBracket value then ∀ n, Leading 65536 rest n → Has url (some n)
          else Agree url rest (afterColons rest) := by
        refine ⟨fun h => h _ rest hvalue (by rw [hparse]; rfl), fun h host' rest' heq _ => ?_⟩
        rw [hvalue] at heq
        cases heq
        exact h
      rw [hfits]
      cases endsWithBracket value with
      | true => exact portRule_eq_self_iff { url with host := host } rest
      | false => exact portRule_eq_setPort_iff { url with host := host } rest (afterColons rest)

theorem hostname_eq_iff (parseHost : Text → Option Host) (url : SpecialUrl Host) (value : Text) :
    apply parseHost url value .hostname = standard parseHost url value .hostname ↔
      Fits parseHost url value .hostname := by
  rw [apply, SpecialUrl.setHost, standard, Fits]
  by_cases hcolon : 58 ∈ value
  · rw [if_neg (by simpa using hcolon), forall_prop_of_true hcolon]
    cases hsplit : (splitHost false value).2 with
    | some rest =>
      refine iff_of_true ?_ fun h => by cases h
      cases parseHost (splitHost false value).1 <;> rfl
    | none =>
      rw [splitHost_none hsplit, forall_prop_of_true rfl]
      cases hparse : parseHost value with
      | none => exact iff_of_true rfl fun host h => by cases h
      | some host =>
        refine ⟨fun h host' heq => ?_, fun h => ?_⟩
        · rw [← Option.some.inj heq]
          exact (congrArg SpecialUrl.host h).symm
        · rw [h host rfl]
  · rw [if_pos (by simpa using hcolon)]
    refine iff_of_true ?_ fun h => absurd h hcolon
    cases hsplit : (splitHost false value).2 with
    | some rest =>
      obtain ⟨heq, -⟩ := splitHost_some (Prod.ext rfl hsplit)
      exact absurd (heq ▸ List.mem_append_right _ List.mem_cons_self) hcolon
    | none => cases parseHost (splitHost false value).1 <;> rfl

theorem port_eq_iff (parseHost : Text → Option Host) (url : SpecialUrl Host) (value : Text) :
    apply parseHost url value .port = standard parseHost url value .port ↔
      Fits parseHost url value .port := by
  rw [apply, standard, Fits]
  split
  · next hnil => exact iff_of_true (if_pos hnil) (.inl hnil)
  · next hne => exact (portRule_eq_setPort_iff url value value).trans (or_iff_right hne).symm

/-- Each setter does what the standard says on exactly the values that fit it. -/
theorem apply_eq_standard_iff (parseHost : Text → Option Host)
    (hbracket : ∀ t, (parseHost t).isSome → 91 ∈ t → endsWithBracket t = true)
    (url : SpecialUrl Host) (value : Text) (setter : Setter) :
    apply parseHost url value setter = standard parseHost url value setter ↔
      Fits parseHost url value setter := by
  cases setter with
  | host => exact host_eq_iff hbracket url value
  | hostname => exact hostname_eq_iff parseHost url value
  | port => exact port_eq_iff parseHost url value

/-- a parser that knows three hosts -/
def knownHosts (t : Text) : Option Text :=
  if t ∈ [txt "a.com", txt "b.com", txt "[::1]"] then some t else none

theorem knownHosts_bracket (t : Text) (h : (knownHosts t).isSome) (hopen : 91 ∈ t) :
    endsWithBracket t = true := by
  have hall : ∀ t ∈ [txt "a.com", txt "b.com", txt "[::1]"], 91 ∈ t → endsWithBracket t = true := by
    decide
  rw [knownHosts] at h
  split at h
  · next hmem => exact hall t hmem hopen
  · cases h

def exampleUrl : SpecialUrl Text where
  scheme := .http
  username := []
  password := []
  host := txt "a.com"
  port := some 8080
  path := txt "/"
  query := none
  fragment := none

theorem apply_eq_standard_iff_port :
    apply knownHosts exampleUrl (txt "b.com:81") .host =
        standard knownHosts exampleUrl (txt "b.com:81") .host ↔
      Fits knownHosts exampleUrl (txt "b.com:81") .host :=
  apply_eq_standard_iff knownHosts knownHosts_bracket exampleUrl (txt "b.com:81") .host

/-- A bracketed host is ignored by the setter of the host name. -/
theorem a_bracketed_host_is_ignored : ¬ ∀ (parseHost : Text → Option Text),
    (∀ t, (parseHost t).isSome → 91 ∈ t → endsWithBracket t = true) →
      ∀ url value setter, apply parseHost url value setter = standard parseHost url value setter := by
  intro h
  exact absurd (h knownHosts knownHosts_bracket exampleUrl (txt "[::1]") .hostname) (by decide)

-- an empty port after a host clears the port, and digits with something after them are no port
example : (apply knownHosts exampleUrl (txt "b.com:") .host).port = none ∧
    (standard knownHosts exampleUrl (txt "b.com:") .host).port = some 8080 := by decide

example : (apply knownHosts exampleUrl (txt "81/") .port).port = some 8080 ∧
    (standard knownHosts exampleUrl (txt "81/") .port).port = some 81 := by decide

end UrlSetters

end NovaRuntime
