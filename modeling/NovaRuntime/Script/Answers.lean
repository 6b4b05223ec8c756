import NovaRuntime.Glue.Runtime
import NovaRuntime.Script.Fetch
import NovaRuntime.Script.TaskData

/-!
# The answer to a fetch on its way to the guest (`bindings.js`)

The host puts a response into JSON, with its body as base64.  The global `fetch` and the `fetch` of
an assets binding each make a `Response` of it, in two copies of the same code.

* `bytesOf`        the loop over a binary string;
* `ResponseClass`  the `Response` and the `Headers` of the web surface, which is a package;
* `fetchResponse`, `assetsResponse`   what the two make of an answer;
* `globalFetch`, `assetsFetch`        the promise of each, from what the handler gives.

`answers_arrive` says when the two agree: for every status but 204, 205 and 304.
-/

namespace NovaRuntime
namespace Answers
open Lib

/-! ## bytes -/

/-- the loop of `bytesOf`, from `i` on -/
def bytesFrom (binary : Text) (i : Nat) (bytes : List UInt8) : List UInt8 :=
  if h : i < binary.length then bytesFrom binary (i + 1) (bytes.set i (UInt8.ofNat binary[i]))
  else bytes
termination_by binary.length - i

/-- `bytesOf`; `atob` gives the code units of a binary string -/
def bytesOf (atob : JsString → Js Text) (base64 : JsVal) : Js (List UInt8) := do
  let binary ← atob (← base64.toText)
  return bytesFrom binary 0 (List.replicate binary.length 0)

theorem bytesFrom_eq (binary : Text) (i : Nat) (bytes : List UInt8)
    (hlength : bytes.length = binary.length)
    (hdone : bytes.take i = (binary.take i).map UInt8.ofNat) :
    bytesFrom binary i bytes = binary.map UInt8.ofNat := by
  induction i, bytes using bytesFrom.induct binary with
  | case1 i bytes h ih =>
    rw [bytesFrom, dif_pos h]
    refine ih (by rw [List.length_set, hlength]) ?_
    have hi : i < bytes.length := by omega
    rw [List.take_succ_eq_append_getElem h, List.map_append, ← hdone,
      List.take_succ_eq_append_getElem (by rw [List.length_set]; exact hi), List.take_set_of_le le_rfl]
    simp
  | case2 i bytes h =>
    rw [bytesFrom, dif_neg h]
    rwa [List.take_of_length_le (by omega), List.take_of_length_le (by omega)] at hdone

theorem bytesFrom_all (binary : Text) :
    bytesFrom binary 0 (List.replicate binary.length 0) = binary.map UInt8.ofNat :=
  bytesFrom_eq binary 0 _ List.length_replicate rfl

/-! ## the web surface -/

/-- the statuses that have no body -/
def Bodiless (status : Nat) : Prop := status = 204 ∨ status = 205 ∨ status = 304

instance (status : Nat) : Decidable (Bodiless status) := by unfold Bodiless; infer_instance

/-- a `Response`, as the guest reads it -/
structure Response (H : Type) where
  status : Nat
  headers : H
  body : List UInt8

structure ResponseClass (H : Type) where
  /-- `new Headers(pairs)`, or nothing where a pair is invalid -/
  headersOf : List (Text × Text) → Option H
  /-- `new Response(body, { status, headers })` -/
  make : Option (List UInt8) → JsVal → JsVal → Js (Response H)

/-- an array of pairs of strings -/
def headerArray (headers : List (Text × Text)) : JsVal :=
  .plainArray (headers.map fun h =>
    .plainArray [.str (.ofUnits (encode h.1)), .str (.ofUnits (encode h.2))])

/-- The constructor throws on a body with a status that has none, and makes every other response. -/
structure ResponseClass.Standard {H : Type} (surface : ResponseClass H) : Prop where
  refuses : ∀ status bytes headers, Bodiless status →
    ∃ e, surface.make (some bytes) (.num (.ofNat status)) headers = .error e
  makes : ∀ body status headers made, 200 ≤ status → status ≤ 599 →
    surface.headersOf headers = some made → (body = none ∨ ¬ Bodiless status) →
    surface.make body (.num (.ofNat status)) (headerArray headers) =
      .ok ⟨status, made, body.getD []⟩

/-! ## what the glue makes of an answer -/

/-- `value === n` -/
def isNumber (n : Nat) : JsVal → Bool
  | .num x => F64.eq x (.ofNat n)
  | _ => false

section
variable {H : Type} (surface : ResponseClass H) (atob : JsString → Js Text)

/-- the end of the global `fetch` -/
def fetchResponse (answer : JsVal) : Js (Response H) := do
  let bytes ← bytesOf atob (← answer.get (txt "body"))
  let status ← answer.get (txt "status")
  let bodiless := isNumber 204 status || isNumber 205 status || isNumber 304 status
  surface.make (if bodiless then none else some bytes) status (← answer.get (txt "headers"))

/-- the end of the `fetch` of an assets binding -/
def assetsResponse (answer : JsVal) : Js (Response H) := do
  let bytes ← bytesOf atob (← answer.get (txt "body"))
  surface.make (some bytes) (← answer.get (txt "status")) (← answer.get (txt "headers"))

variable (crates : Crates) (reply : Except Text HttpResponse)

/-- the end of the promise of a call, whose answer is handed over to `resolve` -/
def settledCall (resolve : JsVal → Js (Response H)) (answer : Except Text Text) :
    Option (Js (Response H)) :=
  match answerOutcome crates answer with
  | some (.resolved tree) => some (resolve (ofJson tree))
  | some (.rejected message) => some (.error (.error (.lit "Error") (.ofUnits message)))
  | _ => none

/-- the promise of the global `fetch`, from what the handler gives -/
def globalFetch (asked : HttpRequest) : Option (Js (Response H)) :=
  ((Answer.httpFetch asked).poll crates (some (.response reply))).bind
    (settledCall crates (fetchResponse surface atob))

/-- the promise of the `fetch` of an assets binding, from what the handler gives -/
def assetsFetch (name : Text) (asked : HttpRequest) : Option (Js (Response H)) :=
  ((Answer.bindingFetch name asked).poll crates (some (.response reply))).bind
    (settledCall crates (assetsResponse surface atob))

end

/-! ## the members of an answer -/

section
variable (status : Nat) (headers : List (Text × Text)) (base64 : Text)

/-- what `JSON.parse` gives the guest -/
def answerValue : JsVal := ofJson (Json.map encode (responseJson status headers base64))

theorem ofItems_headers :
    ofItems (Json.mapItems encode (headers.map fun h => .arr [.str h.1, .str h.2])) =
      headers.map fun h =>
        .plainArray [.str (.ofUnits (encode h.1)), .str (.ofUnits (encode h.2))] := by
  induction headers with
  | nil => rfl
  | cons h headers ih =>
    rw [List.map_cons, List.map_cons, Json.mapItems, ofItems, ih]
    rfl

theorem answerValue_eq : answerValue status headers base64 =
    .plainObject [(.ofUnits (txt "body"), .str (.ofUnits (encode base64))),
      (.ofUnits (txt "headers"), headerArray headers),
      (.ofUnits (txt "status"), .num (numberOf (NumLit.ofInt status)))] := by
  have hmembers : ∀ b h s : JsVal,
      parsedMembers [(txt "body", b), (txt "headers", h), (txt "status", s)] =
        [(.ofUnits (txt "body"), b), (.ofUnits (txt "headers"), h), (.ofUnits (txt "status"), s)] := by
    intro b h s
    have hkeys : [txt "body", txt "headers", txt "status"].Nodup := by decide
    rw [parsedMembers_nodup (by exact hkeys), ownOrder_names]
    · rfl
    · simp only [List.forall_mem_cons]
      exact ⟨by decide, by decide, by decide, by simp⟩
  rw [answerValue, responseJson_eq, headerArray, ← ofItems_headers]
  simp only [Json.map, Json.mapMembers, ofJson, ofMembers]
  exact congrArg JsVal.plainObject (hmembers _ _ _)

end

/-! ## both ends -/

theorem isNumber_ofNat (n status : Nat) : isNumber n (.num (.ofNat status)) = decide (status = n) := by
  rw [Bool.eq_iff_iff, isNumber, F64.eq_ofNat, F64.ofNat_inj, decide_eq_true_iff, eq_comm]

section
variable {H : Type} {surface : ResponseClass H} {atob : JsString → Js Text} {crates : Crates}
  {status : Nat} {headers : List (Text × Text)} {bytes : List UInt8}

theorem answerValue_get (headers : List (Text × Text)) (bytes : List UInt8) (hstatus : status ≤ 599)
    (hinverse : ∀ bytes, atob (.ofUnits (encode (crates.base64Encode bytes))) =
      .ok (fromCharCodes bytes)) :
    let answer := answerValue status headers (crates.base64Encode bytes)
    (answer.get (txt "body")).bind (bytesOf atob) = .ok bytes ∧
      answer.get (txt "status") = .ok (.num (.ofNat status)) ∧
      answer.get (txt "headers") = .ok (headerArray headers) := by
  have hnumber : numberOf (NumLit.ofInt status) = .ofNat status := by
    rw [numberOf_ofInt (by omega)]
    rfl
  intro answer
  have heq : answer = .plainObject _ := answerValue_eq status headers (crates.base64Encode bytes)
  rw [heq, hnumber]
  refine ⟨?_, rfl, rfl⟩
  show (atob (.ofUnits (encode (crates.base64Encode bytes)))).bind _ = _
  rw [hinverse]
  show Except.ok (bytesFrom (fromCharCodes bytes) 0 (List.replicate _ 0)) = _
  rw [bytesFrom_all, bytes_of_fromCharCodes]

theorem fetchResponse_answer (hstatus : status ≤ 599)
    (hinverse : ∀ bytes, atob (.ofUnits (encode (crates.base64Encode bytes))) =
      .ok (fromCharCodes bytes)) :
    fetchResponse surface atob (answerValue status headers (crates.base64Encode bytes)) =
      surface.make (if Bodiless status then none else some bytes) (.num (.ofNat status))
        (headerArray headers) := by
  obtain ⟨hbody, hgiven, hheaders⟩ := answerValue_get headers bytes hstatus hinverse
  obtain ⟨base64, hbase64, hbytes⟩ := bind_ok.mp hbody
  have hbodiless : (isNumber 204 (.num (.ofNat status)) || isNumber 205 (.num (.ofNat status)) ||
      isNumber 304 (.num (.ofNat status))) = decide (Bodiless status) := by
    simp only [isNumber_ofNat, Bodiless, ← Bool.decide_or, or_assoc]
  rw [fetchResponse, hbase64, hgiven, hheaders]
  dsimp only [bind, Except.bind]
  rw [hbytes]
  dsimp only
  rw [hbodiless]
  simp only [decide_eq_true_iff]

theorem assetsResponse_answer (hstatus : status ≤ 599)
    (hinverse : ∀ bytes, atob (.ofUnits (encode (crates.base64Encode bytes))) =
      .ok (fromCharCodes bytes)) :
    assetsResponse surface atob (answerValue status headers (crates.base64Encode bytes)) =
      surface.make (some bytes) (.num (.ofNat status)) (headerArray headers) := by
  obtain ⟨hbody, hgiven, hheaders⟩ := answerValue_get headers bytes hstatus hinverse
  obtain ⟨base64, hbase64, hbytes⟩ := bind_ok.mp hbody
  rw [assetsResponse, hbase64, hgiven, hheaders]
  dsimp only [bind, Except.bind]
  rw [hbytes]

/-- What the host answers is what the guest's end of the call gets. -/
theorem settledCall_fetchAnswer {resolve : JsVal → Js (Response H)} {response : HttpResponse}
    (hstatus : response.status ≤ 599) (hbody : collect response.body = .ok bytes) :
    settledCall crates resolve (fetchAnswer crates (.ok response)) =
      some (resolve (answerValue response.status response.headers (crates.base64Encode bytes))) := by
  have hanswer : fetchAnswer crates (.ok response) = .ok (Json.print
      (responseJson response.status response.headers (crates.base64Encode bytes))) := by
    rw [fetchAnswer, hbody]
    rfl
  rw [hanswer, settledCall, answerOutcome, crates.engine.reads_response _ _ _ (by omega)]
  rfl

theorem globalFetch_eq {response : HttpResponse} {asked : HttpRequest} :
    globalFetch surface atob crates (.ok response) asked =
      settledCall crates (fetchResponse surface atob) (fetchAnswer crates (.ok response)) :=
  rfl

theorem assetsFetch_eq {response : HttpResponse} {name : Text} {asked : HttpRequest} :
    assetsFetch surface atob crates (.ok response) name asked =
      settledCall crates (assetsResponse surface atob) (fetchAnswer crates (.ok response)) :=
  rfl

/-- the response that the guest should get -/
def Intact (response : HttpResponse) (made : H) (bytes : List UInt8)
    (got : Option (Js (Response H))) : Prop :=
  got = some (.ok ⟨response.status, made, if Bodiless response.status then [] else bytes⟩)

/-- The global `fetch` gives every answer as it is. -/
theorem globalFetch_intact (hsurface : surface.Standard)
    (hinverse : ∀ bytes, atob (.ofUnits (encode (crates.base64Encode bytes))) =
      .ok (fromCharCodes bytes))
    (asked : HttpRequest) {response : HttpResponse} {made : H}
    (hrange : 200 ≤ response.status ∧ response.status ≤ 599)
    (hheaders : surface.headersOf response.headers = some made)
    (hbody : collect response.body = .ok bytes) :
    Intact response made bytes (globalFetch surface atob crates (.ok response) asked) := by
  rw [Intact, globalFetch_eq, settledCall_fetchAnswer hrange.2 hbody, fetchResponse_answer hrange.2 hinverse]
  by_cases hbodiless : Bodiless response.status
  · rw [if_pos hbodiless, if_pos hbodiless,
      hsurface.makes none _ _ made hrange.1 hrange.2 hheaders (.inl rfl)]
    rfl
  · rw [if_neg hbodiless, if_neg hbodiless,
      hsurface.makes (some bytes) _ _ made hrange.1 hrange.2 hheaders (.inr hbodiless)]
    rfl

/-- An assets binding gives an answer as it is exactly when its status may have a body. -/
theorem assetsFetch_intact_iff (hsurface : surface.Standard)
    (hinverse : ∀ bytes, atob (.ofUnits (encode (crates.base64Encode bytes))) =
      .ok (fromCharCodes bytes))
    (name : Text) (asked : HttpRequest) {response : HttpResponse} {made : H}
    (hrange : 200 ≤ response.status ∧ response.status ≤ 599)
    (hheaders : surface.headersOf response.headers = some made)
    (hbody : collect response.body = .ok bytes) :
    Intact response made bytes (assetsFetch surface atob crates (.ok response) name asked) ↔
      ¬ Bodiless response.status := by
  rw [Intact, assetsFetch_eq, settledCall_fetchAnswer hrange.2 hbody, assetsResponse_answer hrange.2 hinverse]
  by_cases hbodiless : Bodiless response.status
  · obtain ⟨e, he⟩ := hsurface.refuses _ bytes (headerArray response.headers) hbodiless
    rw [he]
    exact iff_of_false (by simp) (by simpa using hbodiless)
  · rw [if_neg hbodiless,
      hsurface.makes (some bytes) _ _ made hrange.1 hrange.2 hheaders (.inr hbodiless)]
    exact iff_of_true rfl hbodiless

end

/-- Both ways to fetch give an answer as it is, and agree, exactly when its status may have a
body. -/
theorem answers_arrive {H : Type} (surface : ResponseClass H) (hsurface : surface.Standard)
    (crates : Crates) (atob : JsString → Js Text)
    (hinverse : ∀ bytes, atob (.ofUnits (encode (crates.base64Encode bytes))) =
      .ok (fromCharCodes bytes))
    (name : Text) (asked askedOf : HttpRequest) (response : HttpResponse) (made : H)
    (bytes : List UInt8) (hrange : 200 ≤ response.status ∧ response.status ≤ 599)
    (hheaders : surface.headersOf response.headers = some made)
    (hbody : collect response.body = .ok bytes) :
    (Intact response made bytes (globalFetch surface atob crates (.ok response) asked) ∧
      Intact response made bytes (assetsFetch surface atob crates (.ok response) name askedOf) ∧
      globalFetch surface atob crates (.ok response) asked =
        assetsFetch surface atob crates (.ok response) name askedOf) ↔
      ¬ Bodiless response.status := by
  have hglobal := globalFetch_intact hsurface hinverse asked hrange hheaders hbody
  have hassets := assetsFetch_intact_iff hsurface hinverse name askedOf hrange hheaders hbody
  constructor
  · exact fun h => hassets.mp h.2.1
  · intro hbodiless
    have hassets := hassets.mpr hbodiless
    exact ⟨hglobal, hassets, hglobal.trans hassets.symm⟩

/-! ## a surface -/

/-- what the constructor checks, its headers kept as they were given -/
def makeResponse : Option (List UInt8) → JsVal → JsVal → Js (Response JsVal)
  | body, .num (.fin q), headers =>
    if q.num < 200 ∨ 599 < q.num then .error (.error (.lit "RangeError") (.lit "invalid status"))
    else if body.isSome ∧ Bodiless q.num.toNat then
      .error (.typeError (.lit "this status has no body"))
    else .ok ⟨q.num.toNat, headers, body.getD []⟩
  | _, _, _ => .error (.typeError (.lit "invalid status"))

def ResponseClass.sample : ResponseClass JsVal where
  headersOf headers := if ∀ h ∈ headers, ValidHeader h then some (headerArray headers) else none
  make := makeResponse

theorem makeResponse_ofNat {body : Option (List UInt8)} {status : Nat} {headers : JsVal}
    (h : 200 ≤ status ∧ status ≤ 599) : makeResponse body (.num (.ofNat status)) headers =
      if body.isSome ∧ Bodiless status then .error (.typeError (.lit "this status has no body"))
      else .ok ⟨status, headers, body.getD []⟩ := by
  have hnum : (status : ℚ).num = status := Rat.num_natCast status
  rw [F64.ofNat, makeResponse, hnum, if_neg (by omega), Int.toNat_natCast]

theorem ResponseClass.sample_make : ResponseClass.sample.make = makeResponse := rfl

theorem ResponseClass.sample_standard : ResponseClass.sample.Standard where
  refuses status bytes headers h := by
    have hrange : 200 ≤ status ∧ status ≤ 599 := by
      unfold Bodiless at h
      omega
    rw [sample_make, makeResponse_ofNat hrange, if_pos ⟨rfl, h⟩]
    exact ⟨_, rfl⟩
  makes body status headers made hlow hhigh hheaders hbody := by
    have hmade : made = headerArray headers := by
      simp only [ResponseClass.sample] at hheaders
      split at hheaders
      · exact (Option.some.inj hheaders).symm
      · cases hheaders
    have hmay : ¬ (body.isSome ∧ Bodiless status) := by
      rintro ⟨hsome, hbodiless⟩
      rcases hbody with rfl | hno
      · cases hsome
      · exact hno hbodiless
    rw [sample_make, hmade, makeResponse_ofNat ⟨hlow, hhigh⟩, if_neg hmay]

/-- `atob`, through the standard engine -/
def atobOf (s : JsString) : Js Text :=
  match Base64.decode s.units with
  | some bytes => .ok (fromCharCodes bytes)
  | none => .error (.error (.lit "InvalidCharacterError") (.lit "invalid base64"))

theorem atobOf_encode (bytes : List UInt8) :
    atobOf (.ofUnits (encode (Crates.standard.base64Encode bytes))) = .ok (fromCharCodes bytes) := by
  have hscalars : Scalars (Base64.encode bytes) := Json.scalars_ascii (Base64.encode_ascii bytes)
  have hascii : encode (Base64.encode bytes) = Base64.encode bytes :=
    encode_bmp fun c hc => lt_trans (Base64.encode_ascii bytes c hc) (by norm_num)
  have hunits : (JsString.ofUnits (encode (Crates.standard.base64Encode bytes))).units =
      Base64.encode bytes :=
    (JsString.units_ofUnits (encode_small hscalars)).trans hascii
  rw [atobOf, hunits, Base64.decode_encode]

/-- a request for the assets -/
def assetRequest : HttpRequest := ⟨.get, txt "http://localhost/a.js", [], .none⟩

/-- an answer in two chunks, with this status -/
def chunkedResponse (status : Nat) : HttpResponse :=
  ⟨status, [(txt "content-type", txt "text/plain")], .stream [.ok [104, 195], .ok [169]]⟩

theorem answers_arrive_partial :
    Intact (chunkedResponse 206) (headerArray [(txt "content-type", txt "text/plain")])
        [104, 195, 169] (globalFetch .sample atobOf .standard (.ok (chunkedResponse 206))
          assetRequest) ∧
      Intact (chunkedResponse 206) (headerArray [(txt "content-type", txt "text/plain")])
        [104, 195, 169] (assetsFetch .sample atobOf .standard (.ok (chunkedResponse 206))
          (txt "ASSETS") assetRequest) ∧
      globalFetch .sample atobOf .standard (.ok (chunkedResponse 206)) assetRequest =
        assetsFetch .sample atobOf .standard (.ok (chunkedResponse 206)) (txt "ASSETS")
          assetRequest :=
  (answers_arrive .sample ResponseClass.sample_standard .standard atobOf atobOf_encode (txt "ASSETS")
    assetRequest assetRequest (chunkedResponse 206) _ _ (by decide) rfl rfl).mpr (by decide)

/-- the answer to a conditional request for an asset that has not changed -/
def notModified : HttpResponse := ⟨304, [], .none⟩

theorem assetsFetch_notModified :
    assetsFetch .sample atobOf .standard (.ok notModified) (txt "ASSETS") assetRequest =
      some (.error (.typeError (.lit "this status has no body"))) := by
  have hrange : 200 ≤ notModified.status ∧ notModified.status ≤ 599 := by decide
  have hmake : ResponseClass.sample.make (some []) (.num (.ofNat notModified.status))
      (headerArray notModified.headers) = .error (.typeError (.lit "this status has no body")) := by
    rw [ResponseClass.sample_make, makeResponse_ofNat hrange]
    rfl
  have hbody : collect notModified.body = .ok [] := rfl
  rw [assetsFetch_eq, settledCall_fetchAnswer hrange.2 hbody,
    assetsResponse_answer hrange.2 atobOf_encode, hmake]

theorem not_modified_is_a_type_error :
    Intact notModified (headerArray []) []
        (globalFetch .sample atobOf .standard (.ok notModified) assetRequest) ∧
      ¬ Intact notModified (headerArray []) []
        (assetsFetch .sample atobOf .standard (.ok notModified) (txt "ASSETS") assetRequest) := by
  constructor
  · exact globalFetch_intact ResponseClass.sample_standard atobOf_encode assetRequest (by decide) rfl
      rfl
  · rw [Intact, assetsFetch_notModified]
    intro h
    cases Option.some.inj h

end Answers
end NovaRuntime
