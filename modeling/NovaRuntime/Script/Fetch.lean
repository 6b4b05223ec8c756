import NovaRuntime.Lib.Base64
import NovaRuntime.Script.Headers
import NovaRuntime.Host.Bindings

/-!
# A request on its way to the host (`bindings.js`)

The global `fetch` puts a request into the text of a binding call, from which `http_fetch` makes the
request that the operations handler gets.

* `Request`       what the glue reads of a `Request` object;
* `base64Of`      the loop over the bytes of a body;
* `fromEntries`   `Object.fromEntries`, which keeps one value for each name;
* `requestTree`   the parameters of a call, and `decode_requestTree`, what the host reads of them;
* `fetchParams`   the global `fetch` up to the call;
* `Arrived`       the handler gets what the guest asked for.

`request_arrives` says for which requests it does: those with one of the seven methods of the host
and no two headers of one name.
-/

namespace NovaRuntime
open Lib

/-! ## bytes as text -/

def fromCharCodes (bytes : List UInt8) : Text := bytes.map UInt8.toNat

/-- how many bytes one turn of the loop takes -/
def chunk : Nat := 0x8000

theorem chunk_pos : 0 < chunk := by decide

/-- the loop of `base64Of`, from `i` on -/
def binaryOf (bytes : List UInt8) (i : Nat) (binary : Text) : Text :=
  if i < bytes.length then
    binaryOf bytes (i + chunk) (binary ++ fromCharCodes ((bytes.drop i).take chunk))
  else binary
termination_by bytes.length - i
decreasing_by
  have hpos := chunk_pos
  omega

def base64Of (btoa : Text → Text) (bytes : List UInt8) : Text := btoa (binaryOf bytes 0 [])

/-- The chunks of the loop leave no byte out and repeat none. -/
theorem binaryOf_eq (bytes : List UInt8) (i : Nat) (binary : Text) :
    binaryOf bytes i binary = binary ++ fromCharCodes (bytes.drop i) := by
  induction i, binary using binaryOf.induct bytes with
  | case1 i binary h ih =>
    have hchunk : (bytes.drop i).take chunk ++ bytes.drop (i + chunk) = bytes.drop i := by
      rw [← List.drop_drop, List.take_append_drop]
    rw [binaryOf, if_pos h, ih, List.append_assoc, fromCharCodes, fromCharCodes, ← List.map_append,
      hchunk]
    rfl
  | case2 i binary h =>
    rw [binaryOf, if_neg h, List.drop_eq_nil_of_le (by omega)]
    exact (List.append_nil _).symm

theorem base64Of_eq (btoa : Text → Text) (bytes : List UInt8) :
    base64Of btoa bytes = btoa (fromCharCodes bytes) := by
  rw [base64Of, binaryOf_eq]
  rfl

/-! ## the members of an object -/

section
variable {α : Type}

def fromEntries (entries : List (Text × α)) : List (Text × α) :=
  ownOrder (entries.foldl (fun members h => assign h.1 h.2 members) [])

/-- Entries with names of their own are all kept. -/
theorem fromEntries_perm {entries : List (Text × α)} (h : (entries.map Prod.fst).Nodup) :
    (fromEntries entries).Perm entries := by
  rw [fromEntries, foldl_assign (by simpa using h), List.nil_append]
  exact perm_ownOrder entries

end

/-! ## the parameters of a call -/

structure Request where
  url : Text
  method : Text
  /-- what the iterator of its headers goes through -/
  headers : List (Text × Text)
  /-- null, or what reading the body gives -/
  body : Option (Js (List UInt8))
  /-- the reason, if the signal is aborted -/
  aborted : Option JsVal
  url_scalars : Scalars url
  method_token : isToken method = true
  headers_scalars : ∀ h ∈ headers, Scalars h.1 ∧ Scalars h.2

/-- the parameters of a fetch; a member whose value cannot be written is left out -/
def requestTree (url method : Option Json) (headers : List (Text × Option Json))
    (bodyBase64 : Option Text) : Json :=
  .obj (optional (txt "url") url ++ optional (txt "method") method ++
    (txt "headers", .obj ((fromEntries headers).filterMap fun h => h.2.map (h.1, ·))) ::
      optional (txt "bodyBase64") (bodyBase64.map .str))

/-- the text of a tree at the host, after `JSON.stringify` and the native function -/
def crossed (j : Json) : Text := decodeLossy (Json.print (Json.map encode j))

/-- the bytes that go with a request, or why it is not made -/
def Request.sent (request : Request) : Js (Option (List UInt8)) :=
  match request.aborted with
  | some reason => .error reason
  | none =>
    match request.body with
    | none => .ok none
    | some read => read.map some

/-- the tree of the parameters of a `Request` -/
def Request.tree (btoa : Text → Text) (request : Request) (bytes : Option (List UInt8)) : Json :=
  requestTree (some (.str request.url)) (some (.str request.method))
    (request.headers.map fun h => (h.1, some (.str h.2))) (bytes.map (base64Of btoa))

/-- the global `fetch`, up to its call: the parameters, or why the promise is rejected -/
def fetchParams (btoa : Text → Text) (request : Request) : Js Text :=
  request.sent.map fun bytes => crossed (request.tree btoa bytes)

/-! ## what the host reads -/

theorem decode_requestTree (url method : Option Json) (headers : List (Text × Option Json))
    (bodyBase64 : Option Text) :
    decodeFetchParams (requestTree url method headers bodyBase64) =
      url.bind fun url => (decodeString url).bind fun url =>
        (decodeOption decodeString method).bind fun method =>
          (decodeStringMap (.obj ((fromEntries headers).filterMap fun h => h.2.map (h.1, ·)))).map
            fun headers => ⟨url, method, some headers, none, bodyBase64⟩ := by
  have hbody : decodeOption decodeString (bodyBase64.map .str) = some bodyBase64 := by
    cases bodyBase64 <;> rfl
  have hheaders : ∀ ms, decodeOption decodeStringMap (some (.obj ms)) =
      (decodeStringMap (.obj ms)).map some := fun _ => rfl
  have hfields : fields [txt "url"] [txt "method", txt "headers", txt "body", txt "bodyBase64"]
      (requestTree url method headers bodyBase64) =
      some [url, method, some (.obj ((fromEntries headers).filterMap fun h => h.2.map (h.1, ·))),
        none, bodyBase64.map .str] := by
    cases url <;> cases method <;> cases bodyBase64 <;> rfl
  rw [decodeFetchParams, hfields]
  cases url with
  | none => rfl
  | some url =>
    dsimp only
    rw [hbody, Option.bind_some]
    cases decodeString url with
    | none => rfl
    | some u =>
      cases decodeOption decodeString method with
      | none => rfl
      | some m =>
        dsimp only [bind, Option.bind]
        rw [hheaders]
        cases decodeStringMap _ <;> rfl

/-- What a loop of insertions holds was inserted, or was there before. -/
theorem mem_foldl_insert {α : Type} {insert : List α → α → List α}
    (hinsert : ∀ {acc : List α} {x y : α}, y ∈ insert acc x → y = x ∨ y ∈ acc) {m : α} :
    ∀ {xs acc : List α}, m ∈ xs.foldl insert acc → m ∈ xs ∨ m ∈ acc := by
  intro xs
  induction xs with
  | nil => exact .inr
  | cons x xs ih =>
    intro acc hm
    rcases ih hm with hm | hm
    · exact .inl (List.mem_cons_of_mem _ hm)
    · rcases hinsert hm with rfl | hm
      · exact .inl List.mem_cons_self
      · exact .inr hm

/-- Every member was an entry. -/
theorem mem_fromEntries {α : Type} {entries : List (Text × α)} {m : Text × α}
    (h : m ∈ fromEntries entries) : m ∈ entries :=
  (mem_foldl_insert (mem_assign _) (mem_ownOrder.mp h)).resolve_right List.not_mem_nil

theorem mem_toMap {ms : List (Text × Json)} {m : Text × Json} (h : m ∈ toMap ms) : m ∈ ms :=
  (mem_foldl_insert mem_insertMember h).resolve_right List.not_mem_nil

/-- a header as the member of an object -/
def stringMember (h : Text × Text) : Text × Json := (h.1, .str h.2)

theorem stringMember_injective : Function.Injective stringMember := by
  rintro ⟨name, value⟩ ⟨name', value'⟩ h
  obtain ⟨rfl, hvalue⟩ := Prod.mk.inj h
  cases hvalue
  rfl

theorem decodeStringMap_strings {ms : List (Text × Json)}
    (h : ∀ m ∈ ms, ∃ value, m.2 = .str value) :
    ∃ hs, decodeStringMap (.obj ms) = some hs ∧ hs.map stringMember = toMap ms := by
  have hstrings : ∀ l : List (Text × Json), (∀ m ∈ l, ∃ value, m.2 = .str value) →
      ∃ hs : List (Text × Text), hs.map stringMember = l := by
    intro l
    induction l with
    | nil => exact fun _ => ⟨[], rfl⟩
    | cons m l ih =>
      intro hl
      obtain ⟨⟨value, hvalue⟩, hl⟩ := List.forall_mem_cons.mp hl
      obtain ⟨hs, rfl⟩ := ih hl
      exact ⟨(m.1, value) :: hs, congrArg (· :: _) (Prod.ext rfl hvalue.symm)⟩
  obtain ⟨hs, hhs⟩ := hstrings (toMap ms) fun m hm => h m (mem_toMap hm)
  refine ⟨hs, ?_, hhs⟩
  rw [decodeStringMap, ← hhs, List.mapM_map, mapM_eq_map (g := fun h : Text × Text => h)]
  · rw [List.map_id']
  · exact fun h => rfl

theorem mem_written {headers : List (Text × Option Json)} {m : Text × Json}
    (h : m ∈ (fromEntries headers).filterMap fun h => h.2.map (h.1, ·)) :
    (m.1, some m.2) ∈ headers := by
  obtain ⟨e, he, hm⟩ := List.mem_filterMap.mp h
  obtain ⟨x, hx, rfl⟩ := Option.map_eq_some_iff.mp hm
  rw [← hx]
  exact mem_fromEntries he

theorem scalar_requestTree {url method : Option Json} {headers : List (Text × Option Json)}
    {bodyBase64 : Option Text} (hurl : ∀ x, url = some x → Json.ScalarTree x)
    (hmethod : ∀ x, method = some x → Json.ScalarTree x)
    (hheaders : ∀ h ∈ headers, Scalars h.1 ∧ ∀ x, h.2 = some x → Json.ScalarTree x)
    (hbody : ∀ b, bodyBase64 = some b → Scalars b) :
    Json.ScalarTree (requestTree url method headers bodyBase64) := by
  rw [requestTree, List.append_assoc]
  refine scalarMembers_optional (by decide) hurl _ (scalarMembers_optional (by decide) hmethod _ ?_)
  refine ⟨by decide, Json.scalarMembers_iff.mpr fun m hm => ?_, ?_⟩
  · obtain ⟨hname, hvalue⟩ := hheaders _ (mem_written hm)
    exact ⟨hname, hvalue m.2 rfl⟩
  · rw [← List.append_nil (optional _ _)]
    refine scalarMembers_optional (by decide) ?_ [] trivial
    intro x hx
    obtain ⟨b, hb, rfl⟩ := Option.map_eq_some_iff.mp hx
    exact hbody b hb

/-! ## the request that the handler gets -/

def HttpMethod.asStr : HttpMethod → Text
  | .get => txt "GET"
  | .post => txt "POST"
  | .put => txt "PUT"
  | .delete => txt "DELETE"
  | .patch => txt "PATCH"
  | .head => txt "HEAD"
  | .options => txt "OPTIONS"

theorem HttpMethod.parse_asStr (m : HttpMethod) : HttpMethod.parse m.asStr = some m := by
  cases m <;> rfl

/-- The method is kept exactly when it is one of the seven. -/
theorem HttpMethod.asStr_parseOrDefault {method : Text} :
    (HttpMethod.parseOrDefault (some method)).asStr = method ↔ ∃ m : HttpMethod, m.asStr = method := by
  constructor
  · exact fun h => ⟨_, h⟩
  · rintro ⟨m, rfl⟩
    rw [HttpMethod.parseOrDefault, Option.getD_some, HttpMethod.parse_asStr, Option.getD_some]

def requestBody : Option (List UInt8) → RequestBody
  | some b => .bytes b
  | none => .none

/-- The handler is asked for what the guest asked for. -/
structure Arrived (request : Request) (asked : HttpRequest) : Prop where
  method : asked.method.asStr = request.method
  url : asked.url = request.url
  headers : asked.headers.Perm request.headers
  body : ∀ bytes, request.sent = .ok bytes → asked.body = requestBody bytes

theorem token_scalars {s : Text} (h : isToken s = true) : Scalars s := by
  intro c hc
  by_contra hno
  have hchar : isTokenChar c = true := by
    rw [isToken, Bool.and_eq_true] at h
    exact List.all_eq_true.mp h.2 c hc
  have hlarge : isHigh c = true ∨ isLow c = true ∨ c = replacement ∨ 0x10000 ≤ c := by
    unfold Scalar at hno
    simp only [isHigh, isLow, Bool.and_eq_true, decide_eq_true_eq, replacement]
    omega
  rw [not_token_char c hlarge] at hchar
  cases hchar

section
variable {crates : Crates} {btoa : Text → Text} {request : Request} {bytes : Option (List UInt8)}

/-- what an object of header strings holds -/
def headerMembers (headers : List (Text × Text)) : List (Text × Json) :=
  (fromEntries (headers.map fun h => (h.1, some (Json.str h.2)))).filterMap fun h =>
    h.2.map (h.1, ·)

theorem mem_headerMembers {headers : List (Text × Text)} {m : Text × Json}
    (h : m ∈ headerMembers headers) : ∃ value, (m.1, value) ∈ headers ∧ m.2 = .str value := by
  obtain ⟨e, he, heq⟩ := List.mem_map.mp (mem_written h)
  obtain ⟨hname, hvalue⟩ := Prod.mk.inj heq
  exact ⟨e.2, hname ▸ he, (Option.some.inj hvalue).symm⟩

/-- Headers with names of their own are all members. -/
theorem headerMembers_perm {headers : List (Text × Text)} (h : (headers.map Prod.fst).Nodup) :
    (headerMembers headers).Perm (headers.map stringMember) := by
  have hnames : ((headers.map fun h => (h.1, some (Json.str h.2))).map Prod.fst).Nodup := by
    rw [List.map_map]
    exact h
  have hall : (headers.map fun h => (h.1, some (Json.str h.2))).filterMap
      (fun h => h.2.map (h.1, ·)) = headers.map stringMember := by
    rw [List.filterMap_map, ← List.filterMap_eq_map]
    rfl
  rw [headerMembers, ← hall]
  exact (fromEntries_perm hnames).filterMap _

theorem depthMembers_flat {ms : List (Text × Json)} (h : ∀ m ∈ ms, depth m.2 = 0) :
    depthMembers ms = 0 := by
  induction ms with
  | nil => rfl
  | cons m ms ih =>
    obtain ⟨hm, hms⟩ := List.forall_mem_cons.mp h
    rw [depthMembers, hm, ih hms]
    rfl

theorem within_tree : within (some recursionLimit) (request.tree btoa bytes) = true := by
  have hflat : depthMembers (headerMembers request.headers) = 0 := by
    refine depthMembers_flat fun m hm => ?_
    obtain ⟨value, -, hvalue⟩ := mem_headerMembers hm
    rw [hvalue]
    rfl
  have hdepth : depth (request.tree btoa bytes) =
      1 + max 0 (max 0 (max (1 + depthMembers (headerMembers request.headers)) 0)) := by
    cases bytes <;> rfl
  rw [within, hdepth, hflat]
  rfl

theorem scalar_tree (hscalars : ∀ bytes, Scalars (btoa (fromCharCodes bytes))) :
    Json.ScalarTree (request.tree btoa bytes) := by
  refine scalar_requestTree ?_ ?_ ?_ ?_
  · rintro x ⟨⟩
    exact request.url_scalars
  · rintro x ⟨⟩
    exact token_scalars request.method_token
  · intro h hh
    obtain ⟨e, he, rfl⟩ := List.mem_map.mp hh
    obtain ⟨hname, hvalue⟩ := request.headers_scalars e he
    refine ⟨hname, ?_⟩
    rintro x ⟨⟩
    exact hvalue
  · intro b hb
    obtain ⟨bs, -, rfl⟩ := Option.map_eq_some_iff.mp hb
    rw [base64Of_eq]
    exact hscalars bs

/-- What `http_fetch` makes of the parameters: the headers are those of the object. -/
theorem answer_tree (request : Request) (bytes : Option (List UInt8))
    (hlimit : crates.limit = some recursionLimit)
    (hscalars : ∀ bytes, Scalars (btoa (fromCharCodes bytes)))
    (hinverse : ∀ bytes, crates.base64Decode (btoa (fromCharCodes bytes)) = .ok bytes) :
    ∃ headers, headers.map stringMember = toMap (headerMembers request.headers) ∧
      answer crates (txt "http") [] (crossed (request.tree btoa bytes)) =
        .httpFetch
          { method := HttpMethod.parseOrDefault (some request.method)
            url := request.url
            headers := headers
            body := requestBody bytes } := by
  have hstrings : ∀ m ∈ headerMembers request.headers, ∃ value, m.2 = .str value :=
    fun m hm => (mem_headerMembers hm).imp fun value h => h.2
  obtain ⟨headers, hdecoded, hheaders⟩ := decodeStringMap_strings hstrings
  refine ⟨headers, hheaders, ?_⟩
  have hparams : decodeFetchParams (request.tree btoa bytes) =
      some ⟨request.url, some request.method, some headers, none, bytes.map (base64Of btoa)⟩ := by
    rw [Request.tree, decode_requestTree]
    exact congrArg (Option.map _) hdecoded
  show httpFetch crates (crossed (request.tree btoa bytes)) = _
  rw [httpFetch, hlimit, crossed, fromStr_print (scalar_tree hscalars) within_tree,
    Option.bind_some, hparams]
  cases bytes with
  | none => rfl
  | some b =>
    dsimp only [Option.map_some]
    rw [base64Of_eq, hinverse]
    rfl

/-- The host has the headers of the request exactly when no two of them have one name. -/
theorem headers_perm_iff {headers : List (Text × Text)}
    (h : headers.map stringMember = toMap (headerMembers request.headers)) :
    headers.Perm request.headers ↔ (request.headers.map Prod.fst).Nodup := by
  constructor
  · intro hperm
    have hkeys : (headers.map stringMember).map Prod.fst = headers.map Prod.fst := by
      rw [List.map_map]
      rfl
    refine (hperm.map Prod.fst).nodup_iff.mp ?_
    rw [← hkeys, h]
    exact (toMap_sorted _).nodup
  · intro hnames
    have hmembers := headerMembers_perm hnames
    have hkeys : ((headerMembers request.headers).map Prod.fst).Nodup := by
      refine (hmembers.map Prod.fst).nodup_iff.mpr ?_
      rw [List.map_map]
      exact hnames
    refine (List.map_perm_map_iff stringMember_injective).mp ?_
    rw [h]
    exact (toMap_perm_self hkeys).trans hmembers

/-- The host is asked for what the guest asked for exactly when the method is one of the seven and
no two headers have one name. -/
theorem request_arrives (crates : Crates) (btoa : Text → Text)
    (hlimit : crates.limit = some recursionLimit)
    (hscalars : ∀ bytes, Scalars (btoa (fromCharCodes bytes)))
    (hinverse : ∀ bytes, crates.base64Decode (btoa (fromCharCodes bytes)) = .ok bytes)
    (request : Request) :
    (∀ params asked, fetchParams btoa request = .ok params →
      answer crates (txt "http") [] params = .httpFetch asked → Arrived request asked) ↔
      ∀ bytes, request.sent = .ok bytes →
        (∃ m : HttpMethod, m.asStr = request.method) ∧ (request.headers.map Prod.fst).Nodup := by
  constructor
  · intro harrived bytes hsent
    obtain ⟨headers, hheaders, hasked⟩ := answer_tree request bytes hlimit hscalars
      hinverse
    have hparams : fetchParams btoa request = .ok (crossed (request.tree btoa bytes)) := by
      rw [fetchParams, hsent]
      rfl
    obtain ⟨hmethod, -, hperm, -⟩ := harrived _ _ hparams hasked
    exact ⟨HttpMethod.asStr_parseOrDefault.mp hmethod, (headers_perm_iff hheaders).mp hperm⟩
  · intro hcond params asked hparams hasked
    cases hsent : request.sent with
    | error e =>
      rw [fetchParams, hsent] at hparams
      cases hparams
    | ok bytes =>
      rw [fetchParams, hsent] at hparams
      cases hparams
      obtain ⟨hmethod, hnames⟩ := hcond bytes hsent
      obtain ⟨headers, hheaders, hasked'⟩ := answer_tree request bytes hlimit hscalars
        hinverse
      cases hasked'.symm.trans hasked
      refine ⟨HttpMethod.asStr_parseOrDefault.mpr hmethod, rfl,
        (headers_perm_iff hheaders).mpr hnames, ?_⟩
      intro bytes' hsent'
      cases hsent.symm.trans hsent'
      rfl

end

/-! ## requests that arrive, and requests that do not -/

def btoaOf (binary : Text) : Text := Base64.encode (binary.map UInt8.ofNat)

def decodeBase64 (s : Text) : Except Text (List UInt8) :=
  match Base64.decode s with
  | some bytes => .ok bytes
  | none => .error (txt "Invalid padding")

/-- the crates with the standard engine of base64 -/
def Crates.standard : Crates :=
  { Crates.bare with base64Encode := Base64.encode, base64Decode := decodeBase64 }

theorem standard_limit : Crates.standard.limit = some recursionLimit := rfl

theorem bytes_of_fromCharCodes (bytes : List UInt8) :
    (fromCharCodes bytes).map UInt8.ofNat = bytes := by
  rw [fromCharCodes, List.map_map]
  exact List.map_id'' (fun b => UInt8.ofNat_toNat) bytes

theorem btoaOf_scalars (bytes : List UInt8) : Scalars (btoaOf (fromCharCodes bytes)) :=
  Json.scalars_ascii (Base64.encode_ascii _)

theorem decode_btoaOf (bytes : List UInt8) :
    Crates.standard.base64Decode (btoaOf (fromCharCodes bytes)) = .ok bytes := by
  have hdecode : Base64.decode (btoaOf (fromCharCodes bytes)) = some bytes := by
    rw [btoaOf, bytes_of_fromCharCodes, Base64.decode_encode]
  show decodeBase64 _ = _
  rw [decodeBase64, hdecode]

def sampleRequest (method : Text) (headers : List (Text × Text)) (body : Option (List UInt8))
    (hmethod : isToken method = true) (hheaders : ∀ h ∈ headers, Scalars h.1 ∧ Scalars h.2) :
    Request where
  url := txt "http://example.test/echo"
  method := method
  headers := headers
  body := body.map .ok
  aborted := none
  url_scalars := scalars_txt _
  method_token := hmethod
  headers_scalars := hheaders

def putRequest : Request :=
  sampleRequest (txt "PUT") [(txt "x-probe", txt "on"), (txt "accept", txt "*/*")]
    (some [104, 195, 169, 0, 255]) (by decide) (by decide)

def cookieRequest : Request :=
  sampleRequest (txt "GET") [(txt "set-cookie", txt "a=1"), (txt "set-cookie", txt "b=2")] none
    (by decide) (by decide)

def propfindRequest : Request := sampleRequest (txt "PROPFIND") [] none (by decide) (by decide)

theorem request_arrives_put :
    (∃ params asked, fetchParams btoaOf putRequest = .ok params ∧
      answer Crates.standard (txt "http") [] params = .httpFetch asked) ∧
      ∀ params asked, fetchParams btoaOf putRequest = .ok params →
        answer Crates.standard (txt "http") [] params = .httpFetch asked →
          Arrived putRequest asked := by
  constructor
  · obtain ⟨headers, -, hasked⟩ := answer_tree putRequest (some [104, 195, 169, 0, 255])
      standard_limit btoaOf_scalars decode_btoaOf
    exact ⟨_, _, rfl, hasked⟩
  · refine (request_arrives Crates.standard btoaOf rfl btoaOf_scalars decode_btoaOf putRequest).mpr ?_
    exact fun bytes _ => ⟨⟨.put, rfl⟩, by decide⟩

theorem requests_are_changed :
    (∃ params asked, fetchParams btoaOf propfindRequest = .ok params ∧
      answer Crates.standard (txt "http") [] params = .httpFetch asked ∧
        asked.method = .get ∧ ¬ Arrived propfindRequest asked) ∧
    ∃ params asked, fetchParams btoaOf cookieRequest = .ok params ∧
      answer Crates.standard (txt "http") [] params = .httpFetch asked ∧
        asked.headers = [(txt "set-cookie", txt "b=2")] ∧ ¬ Arrived cookieRequest asked := by
  constructor
  · obtain ⟨headers, -, hasked⟩ := answer_tree propfindRequest none standard_limit
      btoaOf_scalars decode_btoaOf
    refine ⟨_, _, rfl, hasked, rfl, fun harrived => ?_⟩
    have hmethod : txt "GET" = txt "PROPFIND" := harrived.method
    exact absurd hmethod (by decide)
  · obtain ⟨headers, hheaders, hasked⟩ := answer_tree cookieRequest none standard_limit
      btoaOf_scalars decode_btoaOf
    have hlast : headers = [(txt "set-cookie", txt "b=2")] :=
      (List.map_injective_iff.mpr stringMember_injective) hheaders
    refine ⟨_, _, rfl, hasked, hlast, fun harrived => ?_⟩
    have hlength : headers.length = 2 := harrived.headers.length_eq
    rw [hlast] at hlength
    exact absurd hlength (by decide)

end NovaRuntime
