import NovaRuntime.Lib.Promises
import NovaRuntime.Script.Delivered

/-!
# The events of dispatches and their promises (`bootstrap.js`)

Before it returns, the async function of a dispatch awaits `Promise.all` of the promises that its
event was given.

* `fetchRaw`, `fetchRest`   `__ow_dispatch` up to its wait, and after it;
* `comesToWait`   the ends of the handlers after which a dispatch comes to its wait;
* `ExtendableEvent`   the event of a dispatch, with its list of promises;
* `owed`          what was registered before the wait, or while one of these was pending;
* `Extended.step`   the runtime together with all promises and the events.

The job that goes on after a wait, and those before it, may run at any later time.
-/

namespace NovaRuntime
open Lib Promises

/-! ## up to the wait -/

/-- what `__ow_dispatch` does before it waits: the response, and what its body is made of -/
def fetchRaw : Handled → Js (JsVal × JsVal)
  | .unhandled => .error (.error (.lit "Error") (.lit "no fetch handler registered"))
  | .ended listeners outcome => do
    let response ← outcome
    if !response.truthy then
      .error (.error (.lit "Error") (if listeners then
        .lit "fetch handler did not call respondWith()"
        else .lit "fetch handler returned no response"))
    else
      let text ← response.get (txt "text")
      let raw ← if text.isCallable then response.call (txt "text") else response.get (txt "body")
      return (response, raw)

/-- and after it -/
def fetchRest (headersToWire : JsVal → Js (List (JsVal × JsVal))) (response raw : JsVal) :
    Js WireResponse := do
  let ⟨status, hstatus⟩ ← wireStatus (← response.get (txt "status"))
  let headers ← headersToPairs headersToWire (← response.get (txt "headers"))
  let body ← match raw with
    | .undefined | .null => .ok WireText.empty
    | raw => wireText raw
  return ⟨status, hstatus, headers, body⟩

theorem dispatchFetch_eq (headersToWire : JsVal → Js (List (JsVal × JsVal))) (handled : Handled) :
    dispatchFetch headersToWire handled =
      (fetchRaw handled).bind fun r => fetchRest headersToWire r.1 r.2 := by
  cases handled with
  | unhandled => rfl
  | ended listeners outcome =>
    cases outcome with
    | error e => rfl
    | ok response =>
      simp only [dispatchFetch, fetchRaw, fetchRest, bind, Except.bind]
      split
      · rfl
      · cases response.get (txt "text") with
        | error e => rfl
        | ok text =>
          dsimp only
          split
          · cases response.call (txt "text") <;> rfl
          · cases response.get (txt "body") <;> rfl

/-- whether the async function comes to its wait when the handlers end so -/
def comesToWait : Kind → Handled → Bool
  | .task, .unhandled => false
  | .task, .ended _ outcome => (outcome.bind toTaskResult).isOk
  | .build, handled | .fetch, handled => (fetchRaw handled).isOk

/-- A dispatch that does not come to its wait has failed, or is a task that has. -/
theorem failed_of_no_wait {headersToWire : JsVal → Js (List (JsVal × JsVal))} {handled : Handled} :
    (comesToWait .fetch handled = false → ∃ e, dispatchFetch headersToWire handled = .error e) ∧
      (comesToWait .task handled = false →
        ∀ result, dispatchTask handled = .ok result → result.success = false) := by
  constructor
  · intro h
    rw [dispatchFetch_eq]
    cases hraw : fetchRaw handled with
    | error e => exact ⟨e, rfl⟩
    | ok r =>
      rw [comesToWait, hraw] at h
      cases h
  · intro h result hresult
    cases handled with
    | unhandled => cases hresult
    | ended listeners outcome =>
      rw [dispatchTask] at hresult
      cases hout : outcome.bind toTaskResult with
      | ok value =>
        rw [comesToWait, hout] at h
        cases h
      | error e =>
        rw [hout] at hresult
        have hresult : (messageOf e).map _ = .ok result := hresult
        cases hmessage : messageOf e with
        | error e' =>
          rw [hmessage] at hresult
          cases hresult
        | ok message =>
          rw [hmessage] at hresult
          cases hresult
          rfl

/-! ## events and their promises -/

/-- where the async function of a dispatch is -/
inductive Phase where
  /-- in the handlers, or in what their response is made of -/
  | handling
  /-- at `await Promise.all(background)`, which was given these -/
  | waiting (kind : Kind) (handled : Handled) (promises : List Nat)
  /-- past it, or failed before it -/
  | ended (kind : Kind) (handled : Handled)

def Phase.isHandling : Phase → Bool
  | .handling => true
  | .waiting _ _ _ | .ended _ _ => false

/-- what the handlers ended in -/
def Phase.outcome : Phase → Option (Kind × Handled)
  | .handling => none
  | .waiting kind handled _ | .ended kind handled => some (kind, handled)

/-- nothing that the async function waits for can hold it back any more -/
def Phase.Decided (promises : Table Nat) : Phase → Prop
  | .handling => False
  | .waiting _ _ ps => AllDecided promises ps
  | .ended _ _ => True

instance (promises : Table Nat) : (phase : Phase) → Decidable (phase.Decided promises)
  | .handling => inferInstanceAs (Decidable False)
  | .waiting _ _ ps => inferInstanceAs (Decidable (AllDecided promises ps))
  | .ended _ _ => inferInstanceAs (Decidable True)

structure ExtendableEvent where
  phase : Phase
  background : List Nat
  /-- ghost state: what was registered before the wait, or while one of these was pending -/
  owed : List Nat

namespace ExtendableEvent

def new : ExtendableEvent := ⟨.handling, [], []⟩

def waitUntil (e : ExtendableEvent) (promises : Table Nat) (p : Nat) : ExtendableEvent :=
  { e with
    background := e.background ++ [p]
    owed := if e.phase.isHandling = true ∨ ∃ q ∈ e.owed, ¬ Settled promises q then p :: e.owed
      else e.owed }

/-- the handlers have ended so -/
def endHandlers (e : ExtendableEvent) (kind : Kind) (handled : Handled) : ExtendableEvent :=
  { e with
    phase := if comesToWait kind handled then .waiting kind handled e.background
      else .ended kind handled }

/-- all that is owed has settled -/
def Paid (e : ExtendableEvent) (promises : Table Nat) : Prop := ∀ p ∈ e.owed, Settled promises p

instance (e : ExtendableEvent) (promises : Table Nat) : Decidable (e.Paid promises) :=
  inferInstanceAs (Decidable (∀ _ ∈ _, _))

end ExtendableEvent

/-! ## the runtime with its events -/

/-- The runtime, all promises, and the event of each dispatch. -/
structure Extended where
  runtime : Runtime Handled
  promises : Table Nat
  events : Int → ExtendableEvent

inductive ExtendedAct where
  /-- an act of the runtime, but for the end of an async function -/
  | runtime (a : GlueAct Handled)
  | waitUntil (n : Int) (p : Nat)
  | settle (p : Nat) (fulfils : Bool)
  | handlersEnd (n : Int) (kind : Kind) (handled : Handled)
  /-- the async function goes on after its wait -/
  | resume (n : Int)
  /-- the async function returns, or throws -/
  | finish (n : Int)

def GlueAct.isSettles {S : Type} : GlueAct S → Bool
  | .settles _ _ _ => true
  | _ => false

namespace Extended
variable (crates : Crates) (headersToWire : JsVal → Js (List (JsVal × JsVal)))

def build (ops : Bool) (maxWallClockTimeMs now : Nat) : Extended where
  runtime := Runtime.build ops maxWallClockTimeMs now
  promises _ := .pending
  events _ := .new

def change (f : Extended) (n : Int) (g : ExtendableEvent → ExtendableEvent) : Extended :=
  { f with events := Function.update f.events n (g (f.events n)) }

def onRuntime (f : Extended) (a : GlueAct Handled) : Option Extended :=
  (Runtime.step crates (dispatchText headersToWire) f.runtime a).map fun r => { f with runtime := r }

def step (f : Extended) : ExtendedAct → Option Extended
  | .runtime a => if a.isSettles then none else f.onRuntime crates headersToWire a
  | .waitUntil n p =>
    if f.runtime.evaluating = true ∧ 0 < n ∧ n ≤ f.runtime.worker.dispatches then
      some (f.change n fun e => e.waitUntil f.promises p)
    else none
  | .settle p fulfils =>
    if f.runtime.evaluating then some { f with promises := settle f.promises p fulfils } else none
  | .handlersEnd n kind handled =>
    match (f.events n).phase with
    | .handling =>
      if f.runtime.evaluating = true ∧ f.runtime.glue.running.contains (n, kind) then
        some (f.change n fun e => e.endHandlers kind handled)
      else none
    | _ => none
  | .resume n =>
    match (f.events n).phase with
    | .waiting kind handled ps =>
      if f.runtime.evaluating = true ∧ AllDecided f.promises ps then
        some (f.change n fun e => { e with phase := .ended kind handled })
      else none
    | _ => none
  | .finish n =>
    match (f.events n).phase with
    | .ended kind handled => f.onRuntime crates headersToWire (.settles n kind handled)
    | _ => none

/-- Everything an act can do. -/
inductive Step (f : Extended) : ExtendedAct → Extended → Prop
  | runtime (a r) (ha : a.isSettles = false)
      (hr : Runtime.step crates (dispatchText headersToWire) f.runtime a = some r) :
      Step f (.runtime a) { f with runtime := r }
  | waitUntil (n p) : Step f (.waitUntil n p) (f.change n fun e => e.waitUntil f.promises p)
  | settle (p fulfils) :
      Step f (.settle p fulfils) { f with promises := settle f.promises p fulfils }
  | handlersEnd (n kind handled) (hphase : (f.events n).phase = .handling)
      (hn : (n, kind) ∈ f.runtime.glue.running) :
      Step f (.handlersEnd n kind handled) (f.change n fun e => e.endHandlers kind handled)
  | resume (n kind handled ps) (hphase : (f.events n).phase = .waiting kind handled ps)
      (hd : AllDecided f.promises ps) :
      Step f (.resume n) (f.change n fun e => { e with phase := .ended kind handled })
  | finish (n kind handled r) (hphase : (f.events n).phase = .ended kind handled)
      (hr : Runtime.step crates (dispatchText headersToWire) f.runtime (.settles n kind handled) =
        some r) :
      Step f (.finish n) { f with runtime := r }

variable {crates headersToWire} {f f' : Extended}

theorem step_cases {a : ExtendedAct} (h : step crates headersToWire f a = some f') :
    Step crates headersToWire f a f' := by
  cases a with
  | runtime a =>
    rw [step] at h
    split at h
    · cases h
    · next ha =>
      obtain ⟨r, hr, rfl⟩ := Option.map_eq_some_iff.mp h
      exact .runtime a r (Bool.eq_false_iff.mpr ha) hr
  | waitUntil n p =>
    rw [step] at h
    split at h
    · cases h
      exact .waitUntil n p
    · cases h
  | settle p fulfils =>
    rw [step] at h
    split at h
    · cases h
      exact .settle p fulfils
    · cases h
  | handlersEnd n kind handled =>
    rw [step] at h
    split at h
    · next hphase =>
      split at h
      · next hn =>
        cases h
        exact .handlersEnd n kind handled hphase (List.contains_iff_mem.mp hn.2)
      · cases h
    · cases h
  | resume n =>
    rw [step] at h
    split at h
    · next kind handled ps hphase =>
      split at h
      · next hd =>
        cases h
        exact .resume n kind handled ps hphase hd.2
      · cases h
    · cases h
  | finish n =>
    rw [step] at h
    split at h
    · next kind handled hphase =>
      obtain ⟨r, hr, rfl⟩ := Option.map_eq_some_iff.mp h
      exact .finish n kind handled r hphase hr
    · cases h

end Extended

end NovaRuntime
