import NovaRuntime.Host.Slots
import NovaRuntime.Lib.Run

/-!
# The worker as a step machine (`worker.rs`)

`Worker J` is the `Worker` of the source with its slots, its job queue and the point it has
reached; `step` takes it through one act.  Guest code is not modelled here: while `pc` is `eval`
it may do any `Guest` act, in any order, before the evaluation is over.  The content of a job is
the parameter `J`.

* `native`      the `__ow_native_*` builtins and the queueing of a job;
* `evalOver`    what follows `Worker::eval` or a job that ran;
* `drainJobs`, `popBinding`, `settleBinding`, `nextTimer`, `fireTimer`   the parts of
  `Worker::drain`;
* `exec`, `finish`   the two ends of `Worker::exec`.

`calls`, `log` and `Job.origin` are ghost state: nothing the worker does depends on them.
-/

namespace NovaRuntime
open Lib

def maxJobsPerDrain : Nat := 10000

structure Job (J : Type) where
  work : J
  /-- the dispatch in flight when the job was queued -/
  origin : Int

structure TaskInit where
  taskId : Text
  payload : Option Json
  /-- the source as serde writes it, and the time of a schedule -/
  source : Json
  schedule : Option Int
  attempt : Nat

inductive Event where
  | fetch (init : Option HttpRequest)
  | task (init : Option TaskInit)

/-- what the drain at hand belongs to -/
inductive Kind where
  | build | fetch | task
  deriving DecidableEq

def Kind.name : Kind → Text
  | .build => []
  | .fetch => txt "fetch"
  | .task => txt "task"

def Event.kind : Event → Kind
  | .fetch _ => .fetch
  | .task _ => .task

/-- what is evaluated, with what the drain needs when it is over -/
inductive Cont (J : Type) where
  /-- the script's own code -/
  | startup
  | dispatcher
  | job (left : Nat) (work : J)
  /-- `__ow_settle_binding(id, ok, payload)` -/
  | settle (id : F64) (answer : Except Text Text)
  /-- `__ow_run_timer(handle)` -/
  | timer (handle : F64)

inductive Pc (J : Type) where
  | idle
  /-- the worker could not be built -/
  | dead
  | eval (c : Cont J)
  /-- at the head of the loop of `drain_jobs` -/
  | jobs (left : Nat)
  | bindings
  | awaiting (p : Pending)
  | timers
  | sleeping (t : Timer)
  | ended (r : Except TerminationReason Unit)

inductive Output where
  | response (r : DispatchResponse)
  | result (r : TaskResult)

/-- what happened, for the statements about runs -/
inductive Obs where
  | began (n : Int)
  /-- a respond call completed, with the payload it stored -/
  | responded (id : Int) (payload : Option Text)
  | called (call : Nat) (asks : Bool)
  /-- the operations handler is asked -/
  | invoked (call : Nat)
  /-- a drain begins -/
  | draining (now : Nat)
  | ranJob (origin n : Int)
  /-- an answer is handed over; `waited` if it was not there when it was first polled -/
  | settled (p : Pending) (answer : Except Text Text) (n : Int) (now : Nat) (waited : Bool)
  /-- a timer fires; `waited` if the drain slept until it was due -/
  | fired (t : Timer) (n : Int) (now : Nat) (waited : Bool)
  /-- the drain gave up on this timer -/
  | overran (t : Timer) (n : Int)
  | drained (n : Int) (r : Except TerminationReason Unit)
  | took (n : Int) (payload : Option Text) (r : Except TerminationReason Output)
  | failed (n : Int) (reason : TerminationReason)
  | refused (reason : TerminationReason)

structure Worker (J : Type) where
  slots : HostSlots
  jobs : List (Job J)
  dispatches : Int
  aborted : Bool
  wallClock : Option Nat
  now : Nat
  deadline : Option Nat
  kind : Kind
  pc : Pc J
  /-- the ids of the respond calls that are converting their payload, innermost first -/
  frames : List Int
  calls : Nat
  /-- newest first -/
  log : List Obs

/-- what guest code can do to the host -/
inductive Guest (J : Type) where
  | enqueue (work : J)
  | respondId (id : F64)
  | respondPayload (payload : Text)
  /-- the conversion of a payload throws -/
  | respondThrows
  | timerStart (handle delay : F64) (repeating : Bool)
  | timerClear (handle : F64)
  | binding (id : F64) (kind name params : Text)

inductive Act (J : Type) where
  | tick (d : Nat)
  | guest (g : Guest J)
  | evalOver (thrown : Option Text)
  | drainJobs (finished : Bool)
  | popBinding (reply : Option Reply)
  | answered (reply : Reply)
  | elapsed
  | nextTimer
  | wake
  | exec (event : Event)
  | finish
  | abort

namespace Worker
variable {J : Type}

/-- A worker whose script is about to be evaluated.  What the runtime's own scripts, the surface and
the env script do before it counts as the script's; where one of these throws there is no worker,
only an `InitializationError`. -/
def build (ops : Bool) (maxWallClockTimeMs now : Nat) : Worker J :=
  { slots := HostSlots.default ops
    jobs := []
    dispatches := 0
    aborted := false
    wallClock := if maxWallClockTimeMs = 0 then none else some (fromMillis maxWallClockTimeMs)
    now := now
    deadline := none
    kind := .build
    pc := .eval .startup
    frames := []
    calls := 0
    log := [] }

/-! ## the builtins -/

def native (crates : Crates) (w : Worker J) : Guest J → Option (Worker J)
  | .enqueue work => some { w with jobs := w.jobs ++ [⟨work, w.dispatches⟩] }
  | .respondId id =>
    if w.slots.nativeRespondId id then some { w with frames := id.intoI64 :: w.frames }
    else some { w with log := .responded id.intoI64 none :: w.log }
  | .respondPayload payload =>
    match w.frames with
    | [] => none
    | id :: frames => some { w with
        slots := w.slots.nativeRespondPayload payload
        frames := frames
        log := .responded id (some payload) :: w.log }
  | .respondThrows =>
    match w.frames with
    | [] => none
    | _ :: frames => some { w with frames := frames }
  | .timerStart handle delay repeating =>
    (w.slots.nativeTimerStart w.now w.dispatches handle delay repeating).map fun slots =>
      { w with slots := slots }
  | .timerClear handle => some { w with slots := w.slots.nativeTimerClear handle }
  | .binding id kind name params =>
    let slots := w.slots.nativeBinding crates w.calls w.dispatches id kind name params
    some { w with
      slots := slots
      calls := w.calls + 1
      log := .called w.calls (slots.bindings.getLast?.any fun p => p.answer.asks) :: w.log }

/-! ## the drain -/

def startDrain (w : Worker J) : Option (Worker J) :=
  match w.wallClock with
  | none => some { w with
      deadline := none, pc := .jobs maxJobsPerDrain, log := .draining w.now :: w.log }
  | some budget => (addDuration w.now budget).map fun deadline => { w with
      deadline := some deadline, pc := .jobs maxJobsPerDrain, log := .draining w.now :: w.log }

def endDrain (w : Worker J) (r : Except TerminationReason Unit) : Worker J :=
  { w with pc := .ended r, log := .drained w.dispatches r :: w.log }

/-- An exception of a job, a timer callback or a settling is only reported. -/
def evalOver (w : Worker J) (thrown : Option Text) : Cont J → Option (Worker J)
  | .startup =>
    match thrown with
    | none => w.startDrain
    | some message => some { w with pc := .dead, log := .refused (.exception message) :: w.log }
  | .dispatcher =>
    match thrown with
    | none => w.startDrain
    | some message => some { w with pc := .ended (.error (.exception message)) }
  | .job left _ => some { w with pc := .jobs left }
  | .settle _ _ | .timer _ => some { w with pc := .jobs maxJobsPerDrain }

/-- one turn of `drain_jobs`, with `left` jobs to go before the cap -/
def drainJobs (w : Worker J) (finished : Bool) (left : Nat) : Worker J :=
  match w.jobs, left with
  | [], _ => { w with pc := .bindings }
  | _ :: _, 0 => endDrain { w with jobs := [] } (.error .maxIterationsReached)
  | job :: jobs, left + 1 =>
    if finished then { w with
      jobs := jobs
      pc := .eval (.job left job.work)
      log := .ranJob job.origin w.dispatches :: w.log }
    else { w with jobs := jobs ++ [job], pc := .jobs left }

def settleBinding (w : Worker J) (p : Pending) (waited : Bool) (answer : Except Text Text) :
    Worker J :=
  { w with
    pc := .eval (.settle p.id answer)
    log := .settled p answer w.dispatches w.now waited :: w.log }

/-- Takes the last call and polls its answer; `reply` is what the handler has for the first poll,
nothing if it has to be waited for. -/
def popBinding (crates : Crates) (w : Worker J) (reply : Option Reply) : Option (Worker J) :=
  match w.slots.popBinding with
  | none => some { w with pc := .timers }
  | some (p, slots) =>
    let w := { w with
      slots := slots, log := if p.answer.asks then .invoked p.call :: w.log else w.log }
    match p.answer.poll crates reply, reply with
    | some answer, _ => some (w.settleBinding p false answer)
    | none, none => some { w with pc := .awaiting p }
    | none, some _ => none

def fireTimer (w : Worker J) (t : Timer) (waited : Bool) : Worker J :=
  { w with
    pc := .eval (.timer t.handle)
    log := .fired t w.dispatches w.now waited :: w.log }

def nextTimer (w : Worker J) : Option (Worker J) :=
  match w.slots.nextTimer with
  | none => none
  | some (none, _) => some (w.endDrain (.ok ()))
  | some (some t, slots) =>
    if w.deadline.any (· < t.due) then
      some (endDrain { w with
        slots := { slots with timers := [] }, log := .overran t w.dispatches :: w.log }
        (.error .wallClockTimeout))
    else if w.now ≤ t.due then some { w with slots := slots, pc := .sleeping t }
    else some (fireTimer { w with slots := slots } t false)

/-! ## exec -/

/-- `dispatch`, up to the evaluation of the dispatcher -/
def dispatch (w : Worker J) (kind : Kind) : Worker J :=
  let n := w.dispatches + 1
  { w with
    dispatches := n
    slots := w.slots.beginDispatch n
    kind := kind
    pc := .eval .dispatcher
    log := .began n :: w.log }

def refuse (w : Worker J) (reason : TerminationReason) : Worker J :=
  { w with log := .refused reason :: w.log }

def exec (w : Worker J) (event : Event) : Worker J :=
  if w.aborted then w.refuse .aborted
  else match event with
    | .fetch none => w.refuse (.other (txt "FetchInit already taken"))
    | .fetch (some req) =>
      match req.body with
      | .stream => w.refuse (.other (txt "Streaming request bodies are not supported"))
      | .none | .bytes _ => w.dispatch .fetch
    | .task none => w.refuse (.other (txt "TaskInit already taken"))
    | .task (some _) => w.dispatch .task

/-- what a dispatch of this kind makes of the slot: `take_outcome` at its type -/
def take (crates : Crates) (kind : Kind) (slots : HostSlots) :
    Except TerminationReason Output × HostSlots :=
  match kind with
  | .task =>
    let (r, slots) := slots.takeOutcome crates.limit crates.serdeError kind.name decodeTaskResult
    (r.map .result, slots)
  | .build | .fetch =>
    let (r, slots) :=
      slots.takeOutcome crates.limit crates.serdeError kind.name decodeDispatchResponse
    (r.map .response, slots)

/-- after the drain: the end of `build`, or of `handle_fetch` and `handle_task` -/
def finish (crates : Crates) (w : Worker J) : Except TerminationReason Unit → Worker J
  | .error reason =>
    match w.kind with
    | .build => { w with pc := .dead, log := .refused reason :: w.log }
    | .fetch | .task => { w with pc := .idle, log := .failed w.dispatches reason :: w.log }
  | .ok () =>
    match w.kind with
    | .build => { w with pc := .idle }
    | .fetch | .task =>
      let (r, slots) := take crates w.kind w.slots
      { w with
        pc := .idle, slots := slots, log := .took w.dispatches w.slots.outcome r :: w.log }

/-! ## the machine -/

def step (crates : Crates) (w : Worker J) : Act J → Option (Worker J)
  | .tick d => some { w with now := w.now + d }
  | .guest g =>
    match w.pc with
    | .eval _ => w.native crates g
    | _ => none
  | .evalOver thrown =>
    match w.pc, w.frames with
    | .eval c, [] => w.evalOver thrown c
    | _, _ => none
  | .drainJobs finished =>
    match w.pc with
    | .jobs left => some (w.drainJobs finished left)
    | _ => none
  | .popBinding reply =>
    match w.pc with
    | .bindings => w.popBinding crates reply
    | _ => none
  | .answered reply =>
    match w.pc with
    | .awaiting p => (p.answer.poll crates (some reply)).map (w.settleBinding p true)
    | _ => none
  | .elapsed =>
    match w.pc with
    | .awaiting _ =>
      if w.deadline.any (· ≤ w.now) then some (w.endDrain (.error .wallClockTimeout)) else none
    | _ => none
  | .nextTimer =>
    match w.pc with
    | .timers => w.nextTimer
    | _ => none
  | .wake =>
    match w.pc with
    | .sleeping t => if t.due ≤ w.now then some (w.fireTimer t true) else none
    | _ => none
  | .exec event =>
    match w.pc with
    | .idle => some (w.exec event)
    | _ => none
  | .finish =>
    match w.pc with
    | .ended r => some (w.finish crates r)
    | _ => none
  | .abort =>
    match w.pc with
    | .idle => some { w with aborted := true }
    | _ => none

end Worker

end NovaRuntime
