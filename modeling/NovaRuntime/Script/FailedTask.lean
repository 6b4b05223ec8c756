import NovaRuntime.Script.Echo

/-!
# A task that throws (`bootstrap.js`)

* `HandlerCall`, `callAll`   the calls of the handlers of a task, and the value they answer with;
* `ThrowsAt`       where a task can throw; `throwsAt_iff`, and nowhere else;
* `Reportable`     the values whose message the catch can read and the host can take;
* `FailsTask`      the dispatch fulfils with that message, and the host receives it;
* `failed_task_iff`   a task that throws fails so exactly when what it throws is reportable.

A rejected promise of `waitUntil` is caught on its own, and leaves no trace here.
-/

namespace NovaRuntime
open Lib

/-! ## the handlers of a task -/

/-- the call of a listener, or of the handler of the module -/
structure HandlerCall where
  /-- what awaiting the last value gives that `respondWith` was called with during the call -/
  responds : Option (Js JsVal)
  /-- how awaiting the call itself ends -/
  ended : Js JsVal

/-- what the calls answer with, after some that responded and returned so -/
def callAll : List HandlerCall → Option (Js JsVal) → JsVal → Js JsVal
  | [], responded, returned => responded.getD (.ok returned)
  | call :: calls, responded, _ =>
    call.ended.bind fun returned => callAll calls (call.responds <|> responded) returned

/-- the handlers that there are when a task is dispatched -/
structure TaskHandlers where
  listeners : List HandlerCall
  module : Option HandlerCall

namespace TaskHandlers

def calls (handlers : TaskHandlers) : List HandlerCall :=
  if handlers.listeners.length > 0 then handlers.listeners else handlers.module.toList

def answer (handlers : TaskHandlers) : Js JsVal := callAll handlers.calls none .undefined

def handled (handlers : TaskHandlers) : Handled :=
  match handlers.listeners, handlers.module with
  | [], none => .unhandled
  | listeners, _ => .ended (listeners.length > 0) handlers.answer

end TaskHandlers

/-! ## where a task throws -/

def lastResponse : List HandlerCall → Option (Js JsVal)
  | [] => none
  | call :: calls => lastResponse calls <|> call.responds

/-- the calls return -/
def AllReturn (calls : List HandlerCall) : Prop := ∀ call ∈ calls, ∃ v, call.ended = .ok v

/-- a point at which a task throws or rejects with `e` -/
inductive ThrowsAt (handlers : TaskHandlers) (e : JsVal) : Prop
  /-- a handler, after those before it -/
  | handler (before : List HandlerCall) (call : HandlerCall) (after : List HandlerCall)
      (hcalls : handlers.calls = before ++ call :: after) (hbefore : AllReturn before)
      (h : call.ended = .error e)
  /-- the promise that was responded with last -/
  | response (hall : AllReturn handlers.calls)
      (h : lastResponse handlers.calls = some (.error e))
  /-- a read of the answer, while the result is made of it -/
  | result (value : JsVal) (hvalue : handlers.answer = .ok value)
      (h : toTaskResult value = .error e)

/-- a handler throws `e`, after those before it -/
def HandlerThrows (calls : List HandlerCall) (e : JsVal) : Prop :=
  ∃ before call after, calls = before ++ call :: after ∧ AllReturn before ∧ call.ended = .error e

theorem not_handlerThrows_nil (e : JsVal) : ¬ HandlerThrows [] e := by
  rintro ⟨before, call, after, hcalls, -⟩
  cases before <;> cases hcalls

theorem handlerThrows_cons (call : HandlerCall) (calls : List HandlerCall) (e : JsVal) :
    HandlerThrows (call :: calls) e ↔
      call.ended = .error e ∨ (∃ v, call.ended = .ok v) ∧ HandlerThrows calls e := by
  constructor
  · rintro ⟨before, call', after, hcalls, hbefore, h⟩
    cases before with
    | nil =>
      cases hcalls
      exact .inl h
    | cons first before =>
      cases hcalls
      obtain ⟨hfirst, hbefore⟩ := List.forall_mem_cons.mp hbefore
      exact .inr ⟨hfirst, before, call', after, rfl, hbefore, h⟩
  · rintro (h | ⟨hcall, before, call', after, rfl, hbefore, h⟩)
    · exact ⟨[], call, calls, rfl, fun c hc => (by cases hc), h⟩
    · exact ⟨call :: before, call', after, rfl, List.forall_mem_cons.mpr ⟨hcall, hbefore⟩, h⟩

theorem allReturn_cons (call : HandlerCall) (calls : List HandlerCall) :
    AllReturn (call :: calls) ↔ (∃ v, call.ended = .ok v) ∧ AllReturn calls :=
  List.forall_mem_cons

theorem callAll_error_iff (calls : List HandlerCall) (responded : Option (Js JsVal))
    (returned e : JsVal) :
    callAll calls responded returned = .error e ↔
      HandlerThrows calls e ∨
        AllReturn calls ∧ (lastResponse calls <|> responded) = some (.error e) := by
  induction calls generalizing responded returned with
  | nil =>
    have hall : AllReturn [] := fun call hcall => by cases hcall
    rw [or_iff_right (not_handlerThrows_nil e), and_iff_right hall]
    cases responded with
    | none => simp [callAll, lastResponse]
    | some r => simp [callAll, lastResponse]
  | cons call calls ih =>
    rw [callAll, handlerThrows_cons, allReturn_cons]
    cases hended : call.ended with
    | error e' =>
      have hreturn : ¬ ∃ v, (.error e' : Js JsVal) = .ok v := by
        rintro ⟨v, h⟩
        cases h
      rw [or_iff_left fun h => hreturn h.1.1, or_iff_left fun h => hreturn h.1]
      rfl
    | ok v =>
      have hrest : (lastResponse calls <|> (call.responds <|> responded)) =
          (lastResponse (call :: calls) <|> responded) := by
        rw [lastResponse]
        cases lastResponse calls <;> rfl
      have hreturn : ∃ v', (.ok v : Js JsVal) = .ok v' := ⟨v, rfl⟩
      have hthrow : ¬ (.ok v : Js JsVal) = .error e := fun h => by cases h
      rw [or_iff_right hthrow, and_iff_right hreturn, and_iff_right hreturn, ← hrest]
      exact ih _ _

theorem throwsAt_iff (handlers : TaskHandlers) (e : JsVal) :
    ThrowsAt handlers e ↔ handlers.answer.bind toTaskResult = .error e := by
  have hanswer : handlers.answer = .error e ↔
      HandlerThrows handlers.calls e ∨ AllReturn handlers.calls ∧ lastResponse handlers.calls = some (.error e) := by
    have hlast : (lastResponse handlers.calls <|> none) = lastResponse handlers.calls := by
      cases lastResponse handlers.calls <;> rfl
    rw [← hlast]
    exact callAll_error_iff handlers.calls none .undefined e
  constructor
  · rintro (⟨before, call, after, hcalls, hbefore, h⟩ | ⟨hall, h⟩ | ⟨value, hvalue, h⟩)
    · rw [hanswer.mpr (.inl ⟨before, call, after, hcalls, hbefore, h⟩)]
      rfl
    · rw [hanswer.mpr (.inr ⟨hall, h⟩)]
      rfl
    · rw [hvalue]
      exact h
  · intro h
    cases hvalue : handlers.answer with
    | ok value =>
      rw [hvalue] at h
      exact .result value hvalue h
    | error e' =>
      rw [hvalue] at h
      cases h
      rcases hanswer.mp hvalue with ⟨before, call, after, hcalls, hbefore, h⟩ | ⟨hall, h⟩
      · exact .handler before call after hcalls hbefore h
      · exact .response hall h

/-! ## what the catch makes of it -/

/-- a value whose message can be read, as a string -/
def Reportable : JsVal → Prop
  | .object shape throws result =>
    throws .instanceofError = false ∧
      if shape.isError then
        throws (.get (txt "message")) = false ∧ ∃ s, result (.get (txt "message")) = .str s
      else throws .toText = false
  | _ => True

theorem reportable_iff (e : JsVal) : Reportable e ↔ ∃ s, messageOf e = .ok (.str s) := by
  cases e with
  | object shape throws result =>
    simp only [Reportable, messageOf, JsVal.instanceofError, JsVal.get, JsVal.ask, JsVal.toText]
    cases throws .instanceofError with
    | true => simp [bind, Except.bind]
    | false =>
      cases shape.isError with
      | true => cases throws (.get (txt "message")) <;> simp [bind, Except.bind]
      | false => cases throws .toText <;> simp [bind, Except.bind, pure, Except.pure]
  | _ => exact iff_of_true trivial ⟨_, rfl⟩

/-! ## what the host receives -/

/-- the result of a task that failed with this message, of which lone surrogates are replaced -/
def failedResult (message : JsString) : TaskResult :=
  ⟨false, none, some (decodeLossy message.units)⟩

/-- The async function of the dispatch fulfils with `success` false and a message that is a string;
and where its drain ends, the caller receives that result. -/
def FailsTask (handled : Handled) : Prop :=
  ∃ message, dispatchTask handled = .ok ⟨false, .undefined, .str message⟩ ∧
    ∀ (crates : Crates) (headersToWire : JsVal → Js (List (JsVal × JsVal))) (f : Runtime Handled),
      crates.limit.all (fun n => 2 ≤ n) = true →
      Runtime.Reached crates (dispatchText headersToWire) f → f.worker.dispatches < 2 ^ 53 →
      f.worker.pc = .ended (.ok ()) → f.worker.kind = .task →
      .finished f.worker.dispatches handled ∈ f.glue.settleLog →
      (Worker.take crates f.worker.kind f.worker.slots).1 = .ok (.result (failedResult message))

theorem received_failed (limit : Option Nat) (serdeError : Text → Text) (slots : HostSlots)
    (message : JsString) (hl : limit.all (fun n => 2 ≤ n) = true) :
    received limit serdeError slots
        (settleText (.ok (TaskOutcome.toJs ⟨false, .undefined, .str message⟩))) =
      .ok (failedResult message) := by
  have herror : serialize false (.str message) =
      some (((some (decodeLossy message.units)).map encode).map .str) := by
    rw [serialize, Option.map_some, Option.map_some, ← toWellFormed_eq _ message.small]
    rfl
  have hdata : ∀ x : Json, none = some x → Json.ScalarTree x := fun _ h => by cases h
  have hmessage : ∀ s, some (decodeLossy message.units) = some s → Scalars s := by
    intro s hs
    cases hs
    exact scalars_decodeLossy _ message.small
  have hwithin : within limit (taskTree false none (some (.str (decodeLossy message.units)))) =
      true := by
    cases limit with
    | none => rfl
    | some n => exact hl
  have hreceived := @received_outcome limit serdeError slots ⟨false, .undefined, .str message⟩ none
    (some (decodeLossy message.units)) hdata hmessage rfl herror
  have hreceived := hreceived.trans (if_pos hwithin)
  cases hr : received limit serdeError slots
      (settleText (.ok (TaskOutcome.toJs ⟨false, .undefined, .str message⟩))) with
  | error reason =>
    rw [hr] at hreceived
    cases hreceived
  | ok r =>
    rw [hr] at hreceived
    exact congrArg Except.ok (Option.some.inj hreceived)

theorem failsTask_iff (handled : Handled) :
    FailsTask handled ↔
      ∃ message, dispatchTask handled = .ok ⟨false, .undefined, .str message⟩ := by
  refine ⟨fun ⟨message, h, _⟩ => ⟨message, h⟩, fun ⟨message, h⟩ => ⟨message, h, ?_⟩⟩
  intro crates headersToWire f hl hreached hn hpc hk hs
  obtain ⟨-, hslot⟩ := Runtime.reaction_of_settled hreached hn hpc hs
  have htext : dispatchText headersToWire .task handled =
      settleText (.ok (TaskOutcome.toJs ⟨false, .undefined, .str message⟩)) := by
    rw [dispatchText, settled, h]
    rfl
  rw [hk, htext] at hslot
  have htake : (Worker.take crates .task f.worker.slots).1 =
      (received crates.limit crates.serdeError f.worker.slots
        (settleText (.ok (TaskOutcome.toJs ⟨false, .undefined, .str message⟩)))).map .result := by
    rw [received, ← hslot]
    rfl
  rw [hk, htake, received_failed _ _ _ _ hl]
  rfl

theorem handled_of_throwsAt {handlers : TaskHandlers} {e : JsVal} (h : ThrowsAt handlers e) :
    ∃ listeners, handlers.handled = .ended listeners handlers.answer := by
  have hcalls : handlers.calls ≠ [] := by
    intro hnone
    have herror := (throwsAt_iff handlers e).mp h
    rw [TaskHandlers.answer, hnone] at herror
    cases herror
  unfold TaskHandlers.handled
  split
  · next hl hm =>
    refine absurd ?_ hcalls
    rw [TaskHandlers.calls, hl, hm]
    rfl
  · exact ⟨_, rfl⟩

/-- A task that throws, at any point and anything, is a failed task with its message exactly when the
message can be read and is a string. -/
theorem failed_task_iff (handlers : TaskHandlers) (e : JsVal) (h : ThrowsAt handlers e) :
    FailsTask handlers.handled ↔ Reportable e := by
  obtain ⟨listeners, hhandled⟩ := handled_of_throwsAt h
  have hcatch : dispatchTask handlers.handled =
      (messageOf e).map fun message => ⟨false, .undefined, message⟩ := by
    rw [hhandled, dispatchTask, (throwsAt_iff handlers e).mp h]
  rw [failsTask_iff, reportable_iff, hcatch]
  refine exists_congr fun s => ?_
  cases messageOf e with
  | error e' => exact iff_of_false (fun h => by cases h) fun h => by cases h
  | ok message =>
    constructor
    · intro h
      exact congrArg Except.ok (TaskOutcome.mk.inj (Except.ok.inj h)).2.2
    · intro h
      rw [Except.ok.inj h]
      rfl

/-- a listener that responds with a promise, and one after it that throws a string -/
def throwsText : TaskHandlers where
  listeners := [⟨some (.ok (.bool true)), .ok .undefined⟩, ⟨none, .error (.str (.lit "no"))⟩]
  module := none

theorem failed_task_iff_text : FailsTask throwsText.handled :=
  (failed_task_iff throwsText (.str (.lit "no"))
    (.handler [⟨some (.ok (.bool true)), .ok .undefined⟩] _ [] rfl
      (by rintro call (_ | ⟨_, ⟨⟩⟩); exact ⟨_, rfl⟩) rfl)).mpr trivial

/-- an error whose message is a number -/
def numberedError : JsVal :=
  .object
    { callable := false, isArray := false, isError := true, hasSuccess := false, toJSON := false
      keys := [], length := 0, text := .lit "Error: 42", number := .nan }
    (fun _ => false)
    fun op => if op = .get (txt "message") then .num (.ofNat 42) else .undefined

/-- an object without a prototype: it has no text -/
def bareObject : JsVal :=
  .object
    { callable := false, isArray := false, isError := false, hasSuccess := false, toJSON := false
      keys := [], length := 0, text := .lit "", number := .nan }
    (fun op => op = .toText)
    fun _ => .typeError (.lit "cannot convert this object to a string")

/-- a module whose task throws this -/
def throwing (e : JsVal) : TaskHandlers := ⟨[], some ⟨none, .error e⟩⟩

/-- The message of the first is refused by the host; the second has none. -/
theorem not_every_task_that_throws_fails :
    (ThrowsAt (throwing numberedError) numberedError ∧
        ¬ FailsTask (throwing numberedError).handled) ∧
      ThrowsAt (throwing bareObject) bareObject ∧ ¬ FailsTask (throwing bareObject).handled := by
  have hthrows : ∀ e, ThrowsAt (throwing e) e := fun e =>
    .handler [] ⟨none, .error e⟩ [] rfl (fun call hcall => by cases hcall) rfl
  refine ⟨⟨hthrows _, ?_⟩, hthrows _, ?_⟩
  · rintro ⟨message, h, -⟩
    cases h
  · rintro ⟨message, h, -⟩
    cases h

end NovaRuntime
