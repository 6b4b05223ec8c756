import NovaRuntime.Script.Stringify
import NovaRuntime.Host.Worker

/-!
# From a handler to the text it responds with (`bootstrap.js`)

What the async functions of `__ow_dispatch` and `__ow_dispatch_task` make of the end of a handler,
and what `settle` makes of theirs.

* `Handled`         the end of a handler;
* `dispatchFetch`, `dispatchTask`   the rest of the async function;
* `settleText`      the two reactions of `settle`, up to `__ow_native_respond`;
* `dispatchText`    all of it for a dispatch of one kind.

`headersToWire` is `__ow_headers_to_wire`, which walks the headers of a package that is not part of
the repository.
-/

namespace NovaRuntime
open Lib

inductive Handled where
  /-- none is registered -/
  | unhandled
  /-- what a listener, or the handler of a module, returned or responded with, or threw -/
  | ended (listeners : Bool) (outcome : Js JsVal)

/-- the response that `__ow_dispatch` settles with -/
structure WireResponse where
  status : Nat
  inRange : 100 ≤ status ∧ status ≤ 599
  headers : List (WireText × WireText)
  body : WireText

/-- what `__ow_dispatch_task` settles with; a member that is not there is undefined -/
structure TaskOutcome where
  success : Bool
  data : JsVal
  error : JsVal

def WireText.empty : WireText := ⟨[], [], by decide, rfl⟩

/-! ## fetch -/

theorem toNat_inRange (q : ℚ) (h : q.den = 1 ∧ 100 ≤ q.num ∧ q.num ≤ 599) :
    100 ≤ q.num.toNat ∧ q.num.toNat ≤ 599 := by
  omega

/-- the checked status -/
def wireStatus (value : JsVal) : Js { n : Nat // 100 ≤ n ∧ n ≤ 599 } :=
  value.toNumber.bind fun
    | .fin q =>
      if h : q.den = 1 ∧ 100 ≤ q.num ∧ q.num ≤ 599 then
        .ok ⟨q.num.toNat, toNat_inRange q h⟩
      else outOfRange
    | _ => outOfRange
where
  outOfRange : Js { n : Nat // 100 ≤ n ∧ n ≤ 599 } :=
    value.toText.bind fun text =>
      .error (.error (.lit "RangeError") ((JsString.lit "response status out of range: ").append text))

section
variable (headersToWire : JsVal → Js (List (JsVal × JsVal)))

def headersToPairs (headers : JsVal) : Js (List (WireText × WireText)) :=
  if headers.truthy then do
    (← headersToWire headers).mapM fun p => do return (← wireText p.1, ← wireText p.2)
  else .ok []

def dispatchFetch : Handled → Js WireResponse
  | .unhandled => .error (.error (.lit "Error") (.lit "no fetch handler registered"))
  | .ended listeners outcome => do
    let response ← outcome
    if !response.truthy then
      .error (.error (.lit "Error") (if listeners then
        .lit "fetch handler did not call respondWith()"
        else .lit "fetch handler returned no response"))
    else
      let text ← response.get (txt "text")
      let raw ← if text.isCallable then response.call (txt "text") else response.get (txt "body")
      let status ← wireStatus (← response.get (txt "status"))
      let headers ← headersToPairs headersToWire (← response.get (txt "headers"))
      let body ← match raw with
        | .undefined | .null => .ok WireText.empty
        | raw => wireText raw
      return ⟨status.1, status.2, headers, body⟩

end

/-! ## task -/

def messageOf (error : JsVal) : Js JsVal := do
  if ← error.instanceofError then error.get (txt "message") else return .str (← error.toText)

def errorText (error : JsVal) : Js JsVal :=
  match error with
  | .undefined | .null => .ok .undefined
  | error => messageOf error

def toTaskResult (value : JsVal) : Js TaskOutcome :=
  match value with
  | .object shape throws result =>
    if shape.callable then .ok ⟨true, value, .undefined⟩
    else if throws .hasSuccess then .error (result .hasSuccess)
    else if shape.hasSuccess then do
      let success ← value.get (txt "success")
      let data ← value.get (txt "data")
      let error ← errorText (← value.get (txt "error"))
      return ⟨!success.isFalse, data, error⟩
    else .ok ⟨true, value, .undefined⟩
  | value => .ok ⟨true, value, .undefined⟩

/-- the rest of `__ow_dispatch_task`, with its catch -/
def dispatchTask : Handled → Js TaskOutcome
  | .unhandled => .error (.error (.lit "Error") (.lit "no task handler registered"))
  | .ended _ outcome =>
    match outcome.bind toTaskResult with
    | .ok result => .ok result
    | .error error => (messageOf error).map fun message => ⟨false, .undefined, message⟩

/-! ## settle -/

def WireResponse.toJs (r : WireResponse) : JsVal :=
  .plainObject [(.lit "status", .num (.ofNat r.status)),
    (.lit "headers", .plainArray (r.headers.map fun h =>
      .plainArray [.str h.1.toJs, .str h.2.toJs])),
    (.lit "body", .str r.body.toJs)]

def TaskOutcome.toJs (r : TaskOutcome) : JsVal :=
  .plainObject [(.lit "success", .bool r.success), (.lit "data", r.data), (.lit "error", r.error)]

/-- the reason of a failed dispatch -/
def failureMessage (error : JsVal) : Js WireText := do
  if ← error.instanceofError then
    if (← error.get (txt "stack")).truthy then wireText (← error.getAgain (txt "stack"))
    else wireText error
  else wireText error

/-- what `settle` responds with; `none` if the reaction throws before it does -/
def settleText : Js JsVal → Option Text
  | .ok value => stringify (.plainObject [(.lit "value", value)])
  | .error error =>
    match failureMessage error with
    | .ok message => some (Json.print (.obj [(txt "error", .str message.units)]))
    | .error _ => none

def settled (headersToWire : JsVal → Js (List (JsVal × JsVal))) (kind : Kind) (handled : Handled) :
    Js JsVal :=
  match kind with
  | .task => (dispatchTask handled).map TaskOutcome.toJs
  | .build | .fetch => (dispatchFetch headersToWire handled).map WireResponse.toJs

/-- the text that a dispatch of this kind responds with after its handler has ended -/
def dispatchText (headersToWire : JsVal → Js (List (JsVal × JsVal))) (kind : Kind)
    (handled : Handled) : Option Text :=
  settleText (settled headersToWire kind handled)

end NovaRuntime
