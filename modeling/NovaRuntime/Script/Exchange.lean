import NovaRuntime.Lib.Utf8Lossy
import NovaRuntime.Script.Delivered
import NovaRuntime.Script.Fetch
import NovaRuntime.Script.Headers
import NovaRuntime.Script.TaskData

/-!
# A request to the worker and its response (`worker.rs`, `http.js`)

`handle_fetch` writes the request as JSON, in a literal of the dispatcher's script; the glue has a
`Request` made of it for the handler, and writes what that responds with as JSON again.  The class
`Request` is the web surface's, which is a package: it may rewrite what it is given, or refuse it.

* `fetchRequest`, `requestFromWire`   the way in, and `lifted` what `Request` is given;
* `Takes`, `received_takes`   the way out;
* `exchange_eq`       both ways, around what `Request` makes of the one and the handler of that;
* `fetch_of_run`      what a run takes for the end of its handler;
* `BodySurface`, `served_back_iff`   which bodies are the same when they are served back.
-/

namespace NovaRuntime
namespace Exchange
open Lib

/-! ## the way in -/

def fromUtf8Lossy (bytes : List UInt8) : Text := Utf8.lossy (bytes.map UInt8.toNat)

def requestJson (req : HttpRequest) (body : Json) : Json :=
  .obj (toMap [(txt "method", .str req.method.asStr), (txt "url", .str req.url),
    (txt "headers", .obj (toMap (req.headers.map stringMember))), (txt "body", body)])

/-- the text of the body that crosses, if the request is dispatched -/
def bodyText (req : HttpRequest) : Option (Option Text) :=
  match req.body with
  | .none => some none
  | .bytes bytes => some (some (fromUtf8Lossy bytes))
  | .stream => none

/-- the request that `handle_fetch` writes -/
def fetchRequest (req : HttpRequest) : Option Json :=
  (bodyText req).map fun body => requestJson req ((body.map .str).getD .null)

/-- what `new Request` is given, with `_fromHost` -/
structure RequestInit where
  url : JsVal
  method : JsVal
  headers : JsVal
  body : Option JsString

section
variable {R : Type} (construct : RequestInit → Js R)

/-- `__ow_request_from_wire`; `construct` is `new Request` -/
def requestFromWire (data : JsVal) : Js R := do
  let method ← data.get (txt "method")
  let headers ← data.get (txt "headers")
  let body ← match ← data.get (txt "body") with
    | .null | .undefined => .ok none
    | body => (body.toText).map some
  construct ⟨← data.get (txt "url"), method, headers, body⟩

/-- the `Request` of a dispatch: the literal, its text and the tree of that -/
def incoming (req : HttpRequest) : Option (Js R) :=
  (fetchRequest req).bind fun request =>
    ((literalValue (encode (dispatchLiteral request))).bind jsonParse).map
      (requestFromWire construct)

end

/-- `Request` is given the method, the URL, every header once and the text of the body. -/
structure Lifted (req : HttpRequest) (init : RequestInit) : Prop where
  method : init.method = .str (.ofUnits (encode req.method.asStr))
  url : init.url = .str (.ofUnits (encode req.url))
  headers : ∃ ms, init.headers = .plainObject ms ∧
    ms.Perm (req.headers.map fun h => (.ofUnits (encode h.1), .str (.ofUnits (encode h.2))))
  body : (bodyText req).map (·.map fun text => .ofUnits (encode text)) = some init.body

/-- what an `HttpRequest` of the host is: its texts are Rust strings, and its headers a map -/
structure Hosted (req : HttpRequest) : Prop where
  names : ∀ h ∈ req.headers, Scalars h.1
  distinct : (req.headers.map Prod.fst).Nodup

theorem requestJson_eq (req : HttpRequest) (body : Json) : requestJson req body =
    .obj [(txt "body", body), (txt "headers", .obj (toMap (req.headers.map stringMember))),
      (txt "method", .str req.method.asStr), (txt "url", .str req.url)] :=
  rfl

theorem requestJson_get (req : HttpRequest) (body : Json) :
    ∃ data, ofJson (Json.map encode (requestJson req body)) = data ∧
      data.get (txt "method") = .ok (.str (.ofUnits (encode req.method.asStr))) ∧
      data.get (txt "url") = .ok (.str (.ofUnits (encode req.url))) ∧
      data.get (txt "headers") = .ok (ofJson (Json.map encode
        (.obj (toMap (req.headers.map stringMember))))) ∧
      data.get (txt "body") = .ok (ofJson (Json.map encode body)) := by
  refine ⟨_, rfl, ?_⟩
  rw [requestJson_eq]
  exact ⟨rfl, rfl, rfl, rfl⟩

theorem headers_perm {req : HttpRequest} (h : Hosted req) :
    ∃ ms, ofJson (Json.map encode (.obj (toMap (req.headers.map stringMember)))) = .plainObject ms ∧
      ms.Perm (req.headers.map fun h => (.ofUnits (encode h.1), .str (.ofUnits (encode h.2)))) := by
  have hnames : ∀ m ∈ toMap (req.headers.map stringMember), Scalars m.1 := by
    intro m hm
    obtain ⟨header, hheader, rfl⟩ := List.mem_map.mp (mem_toMap hm)
    exact h.names header hheader
  have hkept : (toMap (req.headers.map stringMember)).Perm (req.headers.map stringMember) := by
    refine toMap_perm_self ?_
    rw [List.map_map]
    exact h.distinct
  refine ⟨_, ofJson_obj _, (payloadMembers_perm hnames (toMap_sorted _).nodup).trans ?_⟩
  refine (hkept.map _).trans (List.Perm.of_eq ?_)
  rw [List.map_map]
  rfl

theorem lifted {R : Type} (construct : RequestInit → Js R) {req : HttpRequest} (h : Hosted req)
    (hbody : req.body ≠ .stream) :
    ∃ init, incoming construct req = some (construct init) ∧ Lifted req init := by
  obtain ⟨body, hsome⟩ : ∃ body, bodyText req = some body := by
    unfold bodyText
    cases hb : req.body with
    | stream => exact absurd hb hbody
    | _ => exact ⟨_, rfl⟩
  obtain ⟨data, hdata, hmethod, hurl, hheaders, hget⟩ :=
    requestJson_get req ((body.map .str).getD .null)
  obtain ⟨ms, hms, hperm⟩ := headers_perm h
  have hparse : jsonParse (encode (Json.print (requestJson req ((body.map .str).getD .null)))) =
      some data := by
    rw [jsonParse, ← Json.print_map_encode, Json.parse_print, Option.map_some, hdata]
  refine ⟨⟨.str (.ofUnits (encode req.url)), .str (.ofUnits (encode req.method.asStr)),
    .plainObject ms, body.map fun text => .ofUnits (encode text)⟩, ?_, rfl, rfl, ⟨ms, rfl, hperm⟩, ?_⟩
  · rw [incoming, fetchRequest, hsome, Option.map_some, Option.bind_some,
      literalValue_dispatchLiteral, Option.bind_some, hparse, Option.map_some, requestFromWire,
      hmethod, hurl, hheaders, hget, hms]
    cases body <;> rfl
  · rw [hsome, Option.map_some]

/-! ## the way out -/

section
variable (limit : Option Nat) (serdeError : Text → Text) (slots : HostSlots)

/-- what `handle_fetch` gives after this text, if there is one, was responded -/
def receivedFetch (text : Option Text) : Except TerminationReason HttpResponse :=
  (HostSlots.takeOutcome limit serdeError Kind.fetch.name decodeDispatchResponse
    { slots with outcome := text.map decodeLossy }).1.map DispatchResponse.toHttp

end

def WireResponse.toHost (r : WireResponse) : HttpResponse :=
  ⟨r.status, r.headers.map fun h => (h.1.text, h.2.text), .bytes (utf8Bytes r.body.text)⟩

/-- What the host takes for the end of a handler: its response, or the description of its error.  Where
describing the error throws, the reaction ends before it responds. -/
structure Takes (ended : Js WireResponse) (taken : Except TerminationReason HttpResponse) : Prop where
  response {r : WireResponse} : ended = .ok r → taken = .ok (WireResponse.toHost r)
  described {e : JsVal} {message : WireText} : ended = .error e → failureMessage e = .ok message →
    taken = .error (.exception message.text)
  undescribed {e thrown : JsVal} : ended = .error e → failureMessage e = .error thrown →
    taken = .error (.exception
      (txt "fetch handler did not settle: async host operations are not supported yet"))

section
variable {limit : Option Nat} {serdeError : Text → Text} {slots : HostSlots}

theorem received_response (hl : limit.all (4 ≤ ·) = true) (r : WireResponse) :
    receivedFetch limit serdeError slots (settleText (.ok r.toJs)) = .ok (WireResponse.toHost r) := by
  rw [settleText, stringify_response, receivedFetch, HostSlots.takeOutcome]
  simp only [Option.map_some, response_read hl, Option.bind_some, decode_responseTree]
  rfl

theorem received_description (hl : limit.all (4 ≤ ·) = true) {e : JsVal} {message : WireText}
    (h : failureMessage e = .ok message) :
    receivedFetch limit serdeError slots (settleText (.error e)) =
      .error (.exception message.text) := by
  rw [settleText, h, receivedFetch, HostSlots.takeOutcome]
  simp only [Option.map_some, failure_read hl, Option.bind_some]
  rfl

/-- The host takes what the handler ended with. -/
theorem received_takes (hl : limit.all (4 ≤ ·) = true)
    (headersToWire : JsVal → Js (List (JsVal × JsVal))) (handled : Handled) :
    Takes (dispatchFetch headersToWire handled)
      (receivedFetch limit serdeError slots (dispatchText headersToWire .fetch handled)) where
  response {r} hr := by
    rw [dispatchText, settled, hr]
    exact received_response hl r
  described {e message} he hmessage := by
    rw [dispatchText, settled, he]
    exact received_description hl hmessage
  undescribed {e thrown} he hthrown := by
    rw [dispatchText, settled, he]
    show receivedFetch limit serdeError slots (settleText (.error e)) = _
    rw [settleText, hthrown]
    rfl

end

/-! ## both ways -/

/-- `describe`: the stack of an error, if it is a string, or else what the engine makes of the error -/
def describe (toLossy : JsVal → Text) (error : JsVal) : Text :=
  match error with
  | .object _ throws result =>
    match throws (.get (txt "stack")), result (.get (txt "stack")) with
    | false, .str stack => decodeLossy stack.units
    | _, _ => toLossy error
  | _ => toLossy error

section
variable {R : Type} (limit : Option Nat) (serdeError : Text → Text) (slots : HostSlots)
  (headersToWire : JsVal → Js (List (JsVal × JsVal))) (toLossy : JsVal → Text)
  (construct : RequestInit → Js R)

/-- the response to a request that this handler serves; where `Request` refuses it, the dispatcher
throws before there is a handler -/
def exchange (serve : R → Handled) (req : HttpRequest) :
    Option (Except TerminationReason HttpResponse) :=
  (incoming construct req).map fun made =>
    match made with
    | .ok request => receivedFetch limit serdeError slots
        (dispatchText headersToWire .fetch (serve request))
    | .error e => .error (.exception (describe toLossy e))

variable {limit serdeError slots headersToWire toLossy construct} {serve : R → Handled}
  {req : HttpRequest} {init : RequestInit}

theorem exchange_made (hl : limit.all (4 ≤ ·) = true)
    (hinit : incoming construct req = some (construct init)) {request : R}
    (hrequest : construct init = .ok request) :
    ∃ taken, exchange limit serdeError slots headersToWire toLossy construct serve req =
        some taken ∧ Takes (dispatchFetch headersToWire (serve request)) taken := by
  have hexchange : exchange limit serdeError slots headersToWire toLossy construct serve req =
      some (receivedFetch limit serdeError slots
        (dispatchText headersToWire .fetch (serve request))) := by
    rw [exchange, hinit, hrequest]
    rfl
  exact ⟨_, hexchange, received_takes hl headersToWire (serve request)⟩

end

/-- Between the request and what is made a `Request` of, and between the end of the handler and the
response, nothing is changed. -/
theorem exchange_eq {R : Type} (limit : Option Nat) (hl : limit.all (4 ≤ ·) = true)
    (serdeError : Text → Text) (slots : HostSlots)
    (headersToWire : JsVal → Js (List (JsVal × JsVal))) (toLossy : JsVal → Text)
    (construct : RequestInit → Js R) (serve : R → Handled) (req : HttpRequest) (h : Hosted req)
    (hbody : req.body ≠ .stream) :
    ∃ init, Lifted req init ∧
      (∀ request, construct init = .ok request →
        ∃ taken, exchange limit serdeError slots headersToWire toLossy construct serve req =
            some taken ∧
          Takes (dispatchFetch headersToWire (serve request)) taken) ∧
      ∀ e, construct init = .error e →
        exchange limit serdeError slots headersToWire toLossy construct serve req =
          some (.error (.exception (describe toLossy e))) := by
  obtain ⟨init, hinit, hlifted⟩ := lifted construct h hbody
  refine ⟨init, hlifted, fun request hrequest => exchange_made hl hinit hrequest, fun e he => ?_⟩
  rw [exchange, hinit, he]
  rfl

/-- A drain that ends in Ok after the handler of its fetch has settled leaves what the host takes for
that end. -/
theorem fetch_of_run {crates : Crates} {headersToWire : JsVal → Js (List (JsVal × JsVal))}
    {f : Runtime Handled} {handled : Handled} (hl : crates.limit.all (4 ≤ ·) = true)
    (h : Runtime.Reached crates (dispatchText headersToWire) f)
    (hn : f.worker.dispatches < 2 ^ 53) (hpc : f.worker.pc = .ended (.ok ()))
    (hk : f.worker.kind = .fetch)
    (hs : .finished f.worker.dispatches handled ∈ f.glue.settleLog) :
    Takes (dispatchFetch headersToWire handled)
      ((f.worker.slots.takeOutcome crates.limit crates.serdeError Kind.fetch.name
        decodeDispatchResponse).1.map DispatchResponse.toHttp) := by
  obtain ⟨-, hslot⟩ := Runtime.reaction_of_settled h hn hpc hs
  rw [hk] at hslot
  have htakes : Takes (dispatchFetch headersToWire handled)
      (receivedFetch crates.limit crates.serdeError f.worker.slots
        (dispatchText headersToWire .fetch handled)) := received_takes hl headersToWire handled
  rw [receivedFetch, ← hslot] at htakes
  exact htakes

/-- a run of one fetch whose handler ends so -/
def fetchRun (handled : Handled) : List (GlueAct Handled) :=
  [.host (.evalOver none), .host (.drainJobs true), .host (.popBinding none), .host .nextTimer,
    .host .finish, .host (.exec (.fetch (some ⟨.get, [], [], .none⟩))), .settles 1 .fetch handled,
    .host (.evalOver none), .host (.drainJobs true), .reacted, .host (.evalOver none),
    .host (.drainJobs true), .host (.popBinding none), .host .nextTimer]

/-- a handler that throws a string -/
theorem fetch_of_run_throws : ∃ f : Runtime Handled,
    Runtime.Reached .bare (dispatchText fun _ => .ok []) f ∧
      (f.worker.slots.takeOutcome (some 127) (fun _ => []) Kind.fetch.name
        decodeDispatchResponse).1.map DispatchResponse.toHttp =
        .error (.exception (txt "no")) := by
  obtain ⟨f, payload, hrun, hn, hpc, hkind, hlog⟩ : ∃ (f : Runtime Handled) (payload : Text),
      run (Runtime.step .bare (dispatchText fun _ => .ok [])) (Runtime.build false 0 0)
        (fetchRun (.ended true (.error (.str (.lit "no"))))) = some f ∧
      f.worker.dispatches = 1 ∧ f.worker.pc = .ended (.ok ()) ∧ f.worker.kind = .fetch ∧
      f.glue.settleLog = [.drained (.ok ()), .responded 1 payload,
        .finished 1 (.ended true (.error (.str (.lit "no")))), .drained (.ok ())] :=
    ⟨_, _, rfl, rfl, rfl, rfl, rfl⟩
  have hreached : Runtime.Reached .bare (dispatchText fun _ => .ok []) f := ⟨false, 0, 0, _, hrun⟩
  refine ⟨f, hreached, ?_⟩
  have hs : .finished f.worker.dispatches (.ended true (.error (.str (.lit "no")))) ∈
      f.glue.settleLog := by
    rw [hn, hlog]
    exact List.mem_cons_of_mem _ (List.mem_cons_of_mem _ List.mem_cons_self)
  exact (fetch_of_run rfl hreached (by rw [hn]; norm_num) hpc hkind hs).described rfl rfl

/-! ## a body that is served back -/

theorem utf8Bytes_cons (c : Nat) (s : Text) : utf8Bytes (c :: s) =
    (String.singleton (Char.ofNat c)).toUTF8.toList ++ utf8Bytes s :=
  List.flatMap_cons

theorem utf8Bytes_eq {s : Text} (h : Scalars s) :
    utf8Bytes s = (s.flatMap Utf8.bytes).map UInt8.ofNat := by
  induction s with
  | nil => rfl
  | cons c s ih =>
    rw [utf8Bytes_cons, List.flatMap_cons, List.map_append, ih h.tail,
      Utf8.toUTF8_singleton (h c List.mem_cons_self)]

theorem utf8Bytes_eq_iff {s : Text} (h : Scalars s) (bs : List UInt8) :
    utf8Bytes s = bs ↔ s.flatMap Utf8.bytes = bs.map UInt8.toNat := by
  have hsmall : ((s.flatMap Utf8.bytes).map UInt8.ofNat).map UInt8.toNat = s.flatMap Utf8.bytes := by
    rw [List.map_map]
    refine (List.map_congr_left fun b hb => ?_).trans (List.map_id _)
    obtain ⟨c, hc, hb⟩ := List.mem_flatMap.mp hb
    show (UInt8.ofNat b).toNat = b
    rw [UInt8.toNat_ofNat']
    exact Nat.mod_eq_of_lt (Utf8.bytes_lt (h c hc) b hb)
  have hback : (bs.map UInt8.toNat).map UInt8.ofNat = bs := by
    rw [List.map_map]
    exact (List.map_congr_left fun b _ => UInt8.ofNat_toNat).trans (List.map_id bs)
  rw [utf8Bytes_eq h]
  constructor
  · intro heq
    rw [← heq, hsmall]
  · intro heq
    rw [heq, hback]

/-- a text without the byte order mark that leads it -/
def dropMark : Text → Text
  | c :: s => if c = 0xFEFF then s else c :: s
  | [] => []

theorem dropMark_length (s : Text) : (dropMark s).length ≤ s.length := by
  cases s with
  | nil => exact le_rfl
  | cons c s =>
    rw [dropMark]
    split
    · exact Nat.le_succ _
    · exact le_rfl

theorem scalars_dropMark {s : Text} (h : Scalars s) : Scalars (dropMark s) := by
  cases s with
  | nil => exact h
  | cons c s =>
    rw [dropMark]
    split
    · exact h.tail
    · exact h

/-- Nothing is dropped twice exactly where nothing leads the text. -/
theorem dropMark_twice_iff (s : Text) : dropMark (dropMark s) = s ↔ s.head? ≠ some 0xFEFF := by
  cases s with
  | nil => exact iff_of_true rfl nofun
  | cons c s =>
    rw [dropMark, List.head?_cons, ne_eq, Option.some.injEq]
    split
    · next hc =>
      refine iff_of_false (fun heq => ?_) (not_not_intro hc)
      have hlength := dropMark_length s
      rw [heq, List.length_cons] at hlength
      omega
    · next hc => exact iff_of_true (by rw [dropMark, if_neg hc]) hc

/-- a string that was encoded as UTF-8, and decoded again -/
def reread (s : JsString) : JsString := .ofUnits (encode (dropMark (decodeLossy s.units)))

theorem reread_ofUnits {s : Text} (h : Scalars s) :
    reread (.ofUnits (encode s)) = .ofUnits (encode (dropMark s)) := by
  rw [reread, units_ofUnits_encode h, decodeLossy_encode h]

theorem reread_twice_iff (bs : List UInt8) :
    (dropMark (dropMark (fromUtf8Lossy bs))).flatMap Utf8.bytes = bs.map UInt8.toNat ↔
      ∃ s, Scalars s ∧ s.head? ≠ some 0xFEFF ∧ s.flatMap Utf8.bytes = bs.map UInt8.toNat := by
  have hread : Scalars (fromUtf8Lossy bs) := Utf8.scalars_lossy _
  constructor
  · intro heq
    -- what was replaced or dropped does not come back, so that nothing was
    have hback : fromUtf8Lossy bs = dropMark (dropMark (fromUtf8Lossy bs)) := calc
      fromUtf8Lossy bs = Utf8.lossy (bs.map UInt8.toNat) := rfl
      _ = Utf8.lossy ((dropMark (dropMark (fromUtf8Lossy bs))).flatMap Utf8.bytes) := by rw [heq]
      _ = dropMark (dropMark (fromUtf8Lossy bs)) :=
        Utf8.lossy_bytes (scalars_dropMark (scalars_dropMark hread))
    exact ⟨_, hread, (dropMark_twice_iff _).mp hback.symm, by rw [hback, heq]⟩
  · rintro ⟨s, hs, hhead, heq⟩
    have hlossy : fromUtf8Lossy bs = s := by
      rw [fromUtf8Lossy, ← heq, Utf8.lossy_bytes hs]
    rw [hlossy, (dropMark_twice_iff s).mpr hhead, heq]

/-- the surface, as far as a handler that serves a body back meets it -/
structure BodySurface (R : Type) where
  /-- `new Request` -/
  construct : RequestInit → Js R
  /-- `await request.text()` -/
  text : R → Js JsString
  /-- `new Response(text)` -/
  response : JsString → JsVal

/-- A body is the UTF-8 of the string that it was made of, and `text` decodes that. -/
structure BodySurface.Standard {R : Type} (surface : BodySurface R)
    (headersToWire : JsVal → Js (List (JsVal × JsVal))) : Prop where
  text {init : RequestInit} {request : R} {body : JsString} :
    surface.construct init = .ok request → init.body = some body →
      surface.text request = .ok (reread body)
  truthy (s : JsString) : (surface.response s).truthy = true
  status (s : JsString) : (surface.response s).get (txt "status") = .ok (.num (.ofNat 200))
  headers (s : JsString) : ∃ headers pairs, (surface.response s).get (txt "headers") = .ok headers ∧
    headersToPairs headersToWire headers = .ok pairs
  reads (s : JsString) : ∃ read, (surface.response s).get (txt "text") = .ok read ∧
    read.isCallable = true ∧ (surface.response s).call (txt "text") = .ok (.str (reread s))

section
variable {R : Type} (surface : BodySurface R)

/-- a handler that responds with the text of its request -/
def serveBody (request : R) : Handled :=
  .ended true ((surface.text request).map surface.response)

theorem serveBody_response {headersToWire : JsVal → Js (List (JsVal × JsVal))}
    (hsurface : surface.Standard headersToWire) {init : RequestInit} {request : R} {s : Text}
    (hs : Scalars s) (hrequest : surface.construct init = .ok request)
    (hbody : init.body = some (.ofUnits (encode s))) :
    ∃ r, dispatchFetch headersToWire (serveBody surface request) = .ok r ∧
      r.body.text = dropMark (dropMark s) := by
  have hs' := scalars_dropMark hs
  have htext : surface.text request = .ok (.ofUnits (encode (dropMark s))) := by
    rw [hsurface.text hrequest hbody, reread_ofUnits hs]
  obtain ⟨headers, pairs, hheaders, hpairs⟩ := hsurface.headers (.ofUnits (encode (dropMark s)))
  obtain ⟨read, hread, hcallable, hcall⟩ := hsurface.reads (.ofUnits (encode (dropMark s)))
  rw [reread_ofUnits hs'] at hcall
  refine ⟨⟨200, by decide, pairs,
    (JsString.ofUnits (encode (dropMark (dropMark s)))).toWellFormed⟩, ?_, ?_⟩
  · rw [serveBody, htext]
    show dispatchFetch headersToWire
      (.ended true (.ok (surface.response (.ofUnits (encode (dropMark s)))))) = _
    simp only [dispatchFetch, bind, Except.bind, hsurface.truthy, hread, hcallable, hcall,
      hsurface.status, hheaders, hpairs]
    rfl
  · have hs'' := scalars_dropMark hs'
    rw [WireText.text, toWellFormed_ofUnits hs'', decodeLossy_encode hs'']

/-- A body that is served back is the same exactly if it is the UTF-8 of a text that no byte order mark
leads: the host replaces what is no UTF-8, and each reading drops a mark. -/
theorem served_back_iff (limit : Option Nat) (hl : limit.all (4 ≤ ·) = true)
    (serdeError : Text → Text) (slots : HostSlots)
    (headersToWire : JsVal → Js (List (JsVal × JsVal))) (toLossy : JsVal → Text)
    (hsurface : surface.Standard headersToWire) (req : HttpRequest) (h : Hosted req)
    (bs : List UInt8) (hbody : req.body = .bytes bs)
    (hmade : ∀ init, Lifted req init → ∃ request, surface.construct init = .ok request) :
    (∃ status headers, exchange limit serdeError slots headersToWire toLossy surface.construct
        (serveBody surface) req = some (.ok ⟨status, headers, .bytes bs⟩)) ↔
      ∃ s, Scalars s ∧ s.head? ≠ some 0xFEFF ∧ s.flatMap Utf8.bytes = bs.map UInt8.toNat := by
  obtain ⟨init, hincoming, hinit⟩ := lifted surface.construct h (by rw [hbody]; nofun)
  obtain ⟨request, hrequest⟩ := hmade init hinit
  obtain ⟨taken, htaken, htakes⟩ : ∃ taken, exchange limit serdeError slots headersToWire toLossy
      surface.construct (serveBody surface) req = some taken ∧
        Takes (dispatchFetch headersToWire (serveBody surface request)) taken :=
    exchange_made hl hincoming hrequest
  have hread : Scalars (fromUtf8Lossy bs) := Utf8.scalars_lossy _
  have hgiven : init.body = some (.ofUnits (encode (fromUtf8Lossy bs))) := by
    have hlifted := hinit.body
    rw [bodyText, hbody] at hlifted
    exact (Option.some.inj hlifted).symm
  obtain ⟨r, hr, htext⟩ := serveBody_response surface hsurface hread hrequest hgiven
  have hscalars := scalars_dropMark (scalars_dropMark hread)
  have hsame : (∃ status headers, some taken = some (.ok ⟨status, headers, .bytes bs⟩)) ↔
      (dropMark (dropMark (fromUtf8Lossy bs))).flatMap Utf8.bytes = bs.map UInt8.toNat := by
    rw [htakes.response hr, WireResponse.toHost, htext, ← utf8Bytes_eq_iff hscalars]
    constructor
    · rintro ⟨status, headers, heq⟩
      injection heq with heq
      injection heq with heq
      injection heq with _ _ heq
      injection heq
    · intro heq
      rw [heq]
      exact ⟨_, _, rfl⟩
  rw [htaken, hsame]
  exact reread_twice_iff bs

end

/-- a surface that takes every request as it is -/
def sampleSurface : BodySurface RequestInit where
  construct := .ok
  text init := .ok (reread (init.body.getD (.lit "")))
  response s := sampleResponse s
where
  shape (callable : Bool) : Shape :=
    { callable := callable, isArray := false, isError := false, hasSuccess := false, toJSON := false
      keys := [], length := 0, number := .nan, text := .lit "" }
  sampleResponse (s : JsString) : JsVal :=
    .object (shape false) (fun _ => false) fun
      | .get key =>
        if key = txt "status" then .num (.ofNat 200)
        else if key = txt "text" then .object (shape true) (fun _ => false) fun _ => .undefined
        else .undefined
      | .call _ => .str (reread s)
      | _ => .undefined

theorem sampleSurface_standard : sampleSurface.Standard fun _ => .ok [] where
  text {init request body} hrequest hbody := by
    cases hrequest
    show Except.ok (reread (init.body.getD (.lit ""))) = _
    rw [hbody, Option.getD_some]
  truthy _ := rfl
  status _ := rfl
  headers _ := ⟨.undefined, [], rfl, rfl⟩
  reads _ := ⟨_, rfl, rfl, rfl⟩

def sampleRequest (bs : List UInt8) : HttpRequest :=
  ⟨.post, txt "http://a.test/", [(txt "x-b", txt "1"), (txt "accept", txt "*/*")], .bytes bs⟩

theorem sampleRequest_hosted (bs : List UInt8) : Hosted (sampleRequest bs) :=
  ⟨(by decide : ∀ h ∈ [(txt "x-b", txt "1"), (txt "accept", txt "*/*")], Scalars h.1),
    (by decide : [txt "x-b", txt "accept"].Nodup)⟩

theorem exchange_eq_sample : ∃ init taken, Lifted (sampleRequest [0x61]) init ∧
    exchange (some 127) (fun _ => []) (.default false) (fun _ => .ok []) (fun _ => [])
        sampleSurface.construct (serveBody sampleSurface) (sampleRequest [0x61]) = some taken ∧
      Takes (dispatchFetch (fun _ => .ok []) (serveBody sampleSurface init)) taken := by
  obtain ⟨init, hlifted, hserved, -⟩ := exchange_eq (some 127) rfl (fun _ => []) (.default false)
    (fun _ => .ok []) (fun _ => []) sampleSurface.construct (serveBody sampleSurface)
    (sampleRequest [0x61]) (sampleRequest_hosted [0x61]) nofun
  obtain ⟨taken, htaken, htakes⟩ := hserved init rfl
  exact ⟨init, taken, hlifted, htaken, htakes⟩

theorem served_back_text : ∃ status headers, exchange (some 127) (fun _ => []) (.default false)
    (fun _ => .ok []) (fun _ => []) sampleSurface.construct (serveBody sampleSurface)
    (sampleRequest [0x61, 0xC3, 0xA9]) = some (.ok ⟨status, headers, .bytes [0x61, 0xC3, 0xA9]⟩) :=
  (served_back_iff sampleSurface (some 127) rfl (fun _ => []) (.default false) (fun _ => .ok [])
    (fun _ => []) sampleSurface_standard (sampleRequest [0x61, 0xC3, 0xA9]) (sampleRequest_hosted _)
    [0x61, 0xC3, 0xA9] rfl fun init _ => ⟨init, rfl⟩).mpr
    ⟨[0x61, 0xE9], by decide, by decide, by decide⟩

end Exchange
end NovaRuntime
