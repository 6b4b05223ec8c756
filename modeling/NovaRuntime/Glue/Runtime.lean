import NovaRuntime.Host.Step

/-!
# The worker together with its glue (`bootstrap.js`, `bindings.js`)

`Runtime S` is a worker and the state its own scripts keep beside the guest's: the table of timer
callbacks, the table of binding calls, and the dispatches whose async function is running.  Guest
code reaches the host only through them.

* `schedule`, `cancel`, `runTimer`       the timer functions of `bootstrap.js`;
* `call`, `settleBinding`                those of `bindings.js`;
* `settles`, `reacted`                   the promise of a dispatch and the reactions that `settle`
                                         attaches to it;
* `step`                                 one act of the two together.

A function of the glue that runs guest code halfway (the conversion of a delay, the serialisation
of parameters or of an outcome) is two acts with a frame in between, and the guest may act
meanwhile.  `S` is what a handler does in the end, and `wire` the text that the reaction makes of it
in a dispatch of either kind; `none` where that throws.

The three logs are ghost state, newest first.
-/

namespace NovaRuntime
open Lib

/-- a queued job: the reaction to the promise of dispatch `n`, or anything else -/
inductive Work (S : Type) where
  | other
  | reaction (n : Int) (kind : Kind) (s : S)

/-- a function of the glue that is waiting for guest code -/
inductive Frame (S : Type) where
  | schedule (handle : Nat) (repeating : Bool)
  | call (id : Nat) (kind name : Text)
  | reaction (n : Int) (kind : Kind) (s : S)

inductive Outcome where
  | resolved (value : Json)
  | rejected (message : Text)
  /-- the executor threw -/
  | thrown

inductive TimerNote where
  /-- a timer function chose a handle -/
  | minted (handle : Nat) (repeating : Bool)
  | armed (handle delay now : Nat)
  | cleared (id : F64)
  | started (handle now : Nat)
  | drained (r : Except TerminationReason Unit)

inductive CallNote where
  /-- a promise was made for a binding call -/
  | call (id : Nat)
  /-- the host was told of a call -/
  | asked (id : Nat) (answer : Answer)
  | answered (id : F64) (answer : Except Text Text)
  /-- the drain gave up waiting for the answer -/
  | expired (id : F64)
  | settled (id : Nat) (outcome : Outcome)
  | drained (r : Except TerminationReason Unit)

inductive SettleNote (S : Type) where
  /-- the async function of a dispatch settled -/
  | finished (n : Int) (s : S)
  | responded (n : Int) (payload : Text)
  /-- a reaction threw before it responded -/
  | silent (n : Int)
  | drained (r : Except TerminationReason Unit)

structure Glue (S : Type) where
  /-- the keys of the map of timers, with `repeating` -/
  timers : List (Nat × Bool)
  nextTimer : Nat
  /-- the keys of the map of binding calls -/
  pending : List Nat
  next : Nat
  /-- the dispatches whose promise has not settled -/
  running : List (Int × Kind)
  /-- innermost first -/
  frames : List (Frame S)
  timerLog : List TimerNote
  callLog : List CallNote
  settleLog : List (SettleNote S)

structure Runtime (S : Type) where
  worker : Worker (Work S)
  glue : Glue S

inductive GlueAct (S : Type) where
  /-- an act of the host, or the end of an evaluation -/
  | host (a : Act (Work S))
  | enqueue
  | schedule (repeating : Bool)
  | scheduled (delay : F64)
  | scheduleThrows
  | cancel (id : F64)
  | call (kind name : Text)
  | called (params : Text)
  | callThrows
  | settles (n : Int) (kind : Kind) (s : S)
  | reacted

/-- the promise's end that an answer leads to: `JSON.parse` may throw after the call was taken
out of the table -/
def answerOutcome (crates : Crates) : Except Text Text → Option Outcome
  | .ok payload => (crates.engine.parse (encode payload)).map .resolved
  | .error message => some (.rejected (encode message))

/-- `__ow_run_timer(handle)`, up to the callback, on the map of timers -/
def runTimer (timers : List (Nat × Bool)) (log : List TimerNote) (handle : F64) (now : Nat) :
    List (Nat × Bool) × List TimerNote :=
  match timers.find? fun e => F64.ofNat e.1 = handle with
  | none => (timers, log)
  | some (h, repeating) =>
    (if repeating then timers else timers.filter fun e => F64.ofNat e.1 ≠ handle,
      .started h now :: log)

/-- `__ow_settle_binding(id, ok, payload)`, on the map of calls -/
def settleBinding (crates : Crates) (pending : List Nat) (log : List CallNote) (id : F64)
    (answer : Except Text Text) : List Nat × List CallNote :=
  match pending.find? fun k => F64.ofNat k = id with
  | none => (pending, .answered id answer :: log)
  | some k =>
    (pending.filter fun k => F64.ofNat k ≠ id,
      match answerOutcome crates answer with
      | some outcome => .settled k outcome :: .answered id answer :: log
      | none => .answered id answer :: log)

namespace Glue
variable {S : Type}

def default : Glue S :=
  { timers := [], nextTimer := 1, pending := [], next := 1, running := [], frames := [],
    timerLog := [], callLog := [], settleLog := [] }

/-- what the script or job does that has just begun, and what the end of a drain leaves -/
def enter (crates : Crates) (g : Glue S) (now : Nat) : Pc (Work S) → Glue S
  | .eval (.job _ (.reaction n kind s)) => { g with frames := .reaction n kind s :: g.frames }
  | .eval (.settle id answer) =>
    let (pending, log) := settleBinding crates g.pending g.callLog id answer
    { g with pending := pending, callLog := log }
  | .eval (.timer handle) =>
    let (timers, log) := runTimer g.timers g.timerLog handle now
    { g with timers := timers, timerLog := log }
  | .ended r => { g with
      timerLog := .drained r :: g.timerLog
      callLog := .drained r :: g.callLog
      settleLog := .drained r :: g.settleLog }
  | _ => g

def expire (g : Glue S) : Pc (Work S) → Glue S
  | .awaiting p => { g with callLog := .expired p.id :: g.callLog }
  | _ => g

/-- the glue's part in an act of the host that takes the worker from `w` to `w'` -/
def follow (crates : Crates) (g : Glue S) (w w' : Worker (Work S)) : Act (Work S) → Glue S
  | .drainJobs _ | .popBinding _ | .answered _ | .nextTimer | .wake =>
    g.enter crates w'.now w'.pc
  | .elapsed => (g.expire w.pc).enter crates w'.now w'.pc
  | .exec _ =>
    match w'.pc with
    | .eval _ => { g with running := (w'.dispatches, w'.kind) :: g.running }
    | _ => g
  | .tick _ | .guest _ | .evalOver _ | .finish | .abort => g

end Glue

namespace Runtime
variable {S : Type} (crates : Crates) (wire : Kind → S → Option Text)

def build (ops : Bool) (maxWallClockTimeMs now : Nat) : Runtime S :=
  { worker := Worker.build ops maxWallClockTimeMs now, glue := Glue.default }

/-- whether an act is the host's own: none of the guest's, and no evaluation ends inside a
function of the glue -/
def hostMay (f : Runtime S) : Act (Work S) → Bool
  | .guest _ => false
  | .evalOver _ => f.glue.frames.isEmpty
  | _ => true

def evaluating (f : Runtime S) : Bool :=
  match f.worker.pc with
  | .eval _ => true
  | _ => false

/-- one of the `__ow_native_*` builtins, or the queueing of a job -/
def native (f : Runtime S) (glue : Glue S) (g : Guest (Work S)) : Option (Runtime S) :=
  (Worker.step crates f.worker (.guest g)).map fun w => ⟨w, glue⟩

/-- `setTimeout` and `setInterval` with a callable callback, up to the conversion of the delay -/
def schedule (g : Glue S) (repeating : Bool) : Glue S :=
  { g with
    timers := g.timers ++ [(g.nextTimer, repeating)]
    nextTimer := g.nextTimer + 1
    frames := .schedule g.nextTimer repeating :: g.frames
    timerLog := .minted g.nextTimer repeating :: g.timerLog }

def scheduled (f : Runtime S) (delay : F64) : Option (Runtime S) :=
  match f.glue.frames with
  | .schedule handle repeating :: frames =>
    let d := (HostSlots.delayOf delay).getD 0
    f.native crates { f.glue with
      frames := frames, timerLog := .armed handle d f.worker.now :: f.glue.timerLog }
      (.timerStart (.ofNat handle) delay repeating)
  | _ => none

/-- `clearTimeout` and `clearInterval`, after the conversion of the handle -/
def cancel (f : Runtime S) (id : F64) : Option (Runtime S) :=
  f.native crates { f.glue with
    timers := f.glue.timers.filter fun e => F64.ofNat e.1 ≠ id
    timerLog := .cleared id :: f.glue.timerLog }
    (.timerClear id)

/-- the executor of a call's promise, up to the serialisation of its parameters -/
def call (g : Glue S) (kind name : Text) : Glue S :=
  { g with
    pending := g.pending ++ [g.next]
    next := g.next + 1
    frames := .call g.next kind name :: g.frames
    callLog := .call g.next :: g.callLog }

def called (f : Runtime S) (params : Text) : Option (Runtime S) :=
  match f.glue.frames with
  | .call id kind name :: frames =>
    f.native crates { f.glue with
      frames := frames
      callLog := .asked id (HostSlots.bindingAnswer crates f.worker.slots.ops kind name params) ::
        f.glue.callLog }
      (.binding (.ofNat id) kind name params)
  | _ => none

/-- the promise of dispatch `n` settles, which queues the reaction `settle` attached to it -/
def settles (f : Runtime S) (n : Int) (kind : Kind) (s : S) : Option (Runtime S) :=
  if (n, kind) ∈ f.glue.running then
    f.native crates { f.glue with
      running := f.glue.running.erase (n, kind)
      settleLog := .finished n s :: f.glue.settleLog }
      (.enqueue (.reaction n kind s))
  else none

/-- `__ow_native_respond(dispatch, payload)` with a number and a string, whose surrogates the host
replaces where they are alone -/
def respond (w : Worker (Work S)) (n : Int) (payload : Text) : Option (Worker (Work S)) :=
  let id := roundF64 n
  (Worker.step crates w (.guest (.respondId id))).bind fun w' =>
    if w.slots.nativeRespondId id then
      Worker.step crates w' (.guest (.respondPayload (decodeLossy payload)))
    else some w'

/-- the rest of a reaction, once the outcome is serialised or that threw -/
def reacted (f : Runtime S) : Option (Runtime S) :=
  match f.glue.frames with
  | .reaction n kind s :: frames =>
    match wire kind s with
    | none => some ⟨f.worker, { f.glue with
        frames := frames, settleLog := .silent n :: f.glue.settleLog }⟩
    | some payload => (respond crates f.worker n payload).map fun w => ⟨w, { f.glue with
        frames := frames, settleLog := .responded n payload :: f.glue.settleLog }⟩
  | _ => none

def step (f : Runtime S) : GlueAct S → Option (Runtime S)
  | .host a =>
    if f.hostMay a then
      (Worker.step crates f.worker a).map fun w => ⟨w, f.glue.follow crates f.worker w a⟩
    else none
  | .enqueue => f.native crates f.glue (.enqueue .other)
  | .schedule repeating => if f.evaluating then some ⟨f.worker, schedule f.glue repeating⟩ else none
  | .scheduled delay => f.scheduled crates delay
  | .scheduleThrows =>
    match f.glue.frames with
    | .schedule _ _ :: frames => some ⟨f.worker, { f.glue with frames := frames }⟩
    | _ => none
  | .cancel id => f.cancel crates id
  | .call kind name => if f.evaluating then some ⟨f.worker, call f.glue kind name⟩ else none
  | .called params => f.called crates params
  | .callThrows =>
    match f.glue.frames with
    | .call id _ _ :: frames => some ⟨f.worker, { f.glue with
        frames := frames, callLog := .settled id .thrown :: f.glue.callLog }⟩
    | _ => none
  | .settles n kind s => f.settles crates n kind s
  | .reacted => f.reacted crates wire

/-! ## one act, case by case -/

/-- Everything an act can do; the host's part is a step of the worker. -/
inductive Step (f : Runtime S) : GlueAct S → Runtime S → Prop
  | host (a w) (hmay : f.hostMay a = true) (hw : Worker.step crates f.worker a = some w) :
      Step f (.host a) ⟨w, f.glue.follow crates f.worker w a⟩
  | enqueue (w) (hw : Worker.step crates f.worker (.guest (.enqueue .other)) = some w) :
      Step f .enqueue ⟨w, f.glue⟩
  | schedule (repeating) (he : f.evaluating = true) :
      Step f (.schedule repeating) ⟨f.worker, Runtime.schedule f.glue repeating⟩
  | scheduled (handle repeating frames delay d w)
      (hf : f.glue.frames = .schedule handle repeating :: frames)
      (hd : d = (HostSlots.delayOf delay).getD 0)
      (hw : Worker.step crates f.worker
        (.guest (.timerStart (.ofNat handle) delay repeating)) = some w) :
      Step f (.scheduled delay) ⟨w, { f.glue with
        frames := frames, timerLog := .armed handle d f.worker.now :: f.glue.timerLog }⟩
  | scheduleThrows (handle repeating frames)
      (hf : f.glue.frames = .schedule handle repeating :: frames) :
      Step f .scheduleThrows ⟨f.worker, { f.glue with frames := frames }⟩
  | cancel (id w) (hw : Worker.step crates f.worker (.guest (.timerClear id)) = some w) :
      Step f (.cancel id) ⟨w, { f.glue with
        timers := f.glue.timers.filter fun e => F64.ofNat e.1 ≠ id
        timerLog := .cleared id :: f.glue.timerLog }⟩
  | call (kind name) (he : f.evaluating = true) :
      Step f (.call kind name) ⟨f.worker, Runtime.call f.glue kind name⟩
  | called (id kind name frames params w) (hf : f.glue.frames = .call id kind name :: frames)
      (hw : Worker.step crates f.worker
        (.guest (.binding (.ofNat id) kind name params)) = some w) :
      Step f (.called params) ⟨w, { f.glue with
        frames := frames
        callLog := .asked id
          (HostSlots.bindingAnswer crates f.worker.slots.ops kind name params) ::
          f.glue.callLog }⟩
  | callThrows (id kind name frames) (hf : f.glue.frames = .call id kind name :: frames) :
      Step f .callThrows ⟨f.worker, { f.glue with
        frames := frames, callLog := .settled id .thrown :: f.glue.callLog }⟩
  | settles (n kind s w) (hn : (n, kind) ∈ f.glue.running)
      (hw : Worker.step crates f.worker (.guest (.enqueue (.reaction n kind s))) = some w) :
      Step f (.settles n kind s) ⟨w, { f.glue with
        running := f.glue.running.erase (n, kind)
        settleLog := .finished n s :: f.glue.settleLog }⟩
  | silent (n kind s frames) (hf : f.glue.frames = .reaction n kind s :: frames)
      (hs : wire kind s = none) :
      Step f .reacted ⟨f.worker, { f.glue with
        frames := frames, settleLog := .silent n :: f.glue.settleLog }⟩
  | responded (n kind s frames payload w) (hf : f.glue.frames = .reaction n kind s :: frames)
      (hs : wire kind s = some payload) (hw : respond crates f.worker n payload = some w) :
      Step f .reacted ⟨w, { f.glue with
        frames := frames, settleLog := .responded n payload :: f.glue.settleLog }⟩

variable {crates wire} {f f' : Runtime S}

theorem step_cases {a : GlueAct S} (h : step crates wire f a = some f') :
    Step crates wire f a f' := by
  cases a with
  | host a =>
    by_cases hmay : f.hostMay a = true
    · rw [step, if_pos hmay] at h
      obtain ⟨w, hw, rfl⟩ := Option.map_eq_some_iff.mp h
      exact .host a w hmay hw
    · rw [step, if_neg hmay] at h
      cases h
  | enqueue =>
    obtain ⟨w, hw, rfl⟩ := Option.map_eq_some_iff.mp h
    exact .enqueue w hw
  | schedule repeating =>
    by_cases he : f.evaluating = true
    · rw [step, if_pos he, Option.some.injEq] at h
      exact h ▸ .schedule repeating he
    · rw [step, if_neg he] at h
      cases h
  | scheduled delay =>
    rw [step, scheduled] at h
    split at h
    · next handle repeating frames hf =>
      obtain ⟨w, hw, rfl⟩ := Option.map_eq_some_iff.mp h
      exact .scheduled handle repeating frames delay _ w hf rfl hw
    · cases h
  | scheduleThrows =>
    rw [step] at h
    split at h
    · next handle repeating frames hf =>
      rw [Option.some.injEq] at h
      exact h ▸ .scheduleThrows handle repeating frames hf
    · cases h
  | cancel id =>
    obtain ⟨w, hw, rfl⟩ := Option.map_eq_some_iff.mp h
    exact .cancel id w hw
  | call kind name =>
    by_cases he : f.evaluating = true
    · rw [step, if_pos he, Option.some.injEq] at h
      exact h ▸ .call kind name he
    · rw [step, if_neg he] at h
      cases h
  | called params =>
    rw [step, called] at h
    split at h
    · next id kind name frames hf =>
      obtain ⟨w, hw, rfl⟩ := Option.map_eq_some_iff.mp h
      exact .called id kind name frames params w hf hw
    · cases h
  | callThrows =>
    rw [step] at h
    split at h
    · next id kind name frames hf =>
      rw [Option.some.injEq] at h
      exact h ▸ .callThrows id kind name frames hf
    · cases h
  | settles n kind s =>
    by_cases hn : (n, kind) ∈ f.glue.running
    · rw [step, settles, if_pos hn] at h
      obtain ⟨w, hw, rfl⟩ := Option.map_eq_some_iff.mp h
      exact .settles n kind s w hn hw
    · rw [step, settles, if_neg hn] at h
      cases h
  | reacted =>
    rw [step, reacted] at h
    split at h
    · next n kind s frames hf =>
      cases hs : wire kind s with
      | none =>
        rw [hs, Option.some.injEq] at h
        exact h ▸ .silent n kind s frames hf hs
      | some payload =>
        rw [hs] at h
        obtain ⟨w, hw, rfl⟩ := Option.map_eq_some_iff.mp h
        exact .responded n kind s frames payload w hf hs hw
    · cases h

/-- What the glue does to the host, the guest could have done. -/
theorem step_worker {a : GlueAct S} (h : step crates wire f a = some f') :
    ∃ acts, run (Worker.step crates) f.worker acts = some f'.worker := by
  have hone : ∀ {a w}, Worker.step crates f.worker a = some w →
      ∃ acts, run (Worker.step crates) f.worker acts = some w :=
    fun hw => ⟨_, run_one _ hw⟩
  cases step_cases h with
  | host a w hmay hw => exact hone hw
  | enqueue w hw => exact hone hw
  | scheduled _ _ _ _ _ w hf hd hw => exact hone hw
  | cancel id w hw => exact hone hw
  | called _ _ _ _ _ w hf hw => exact hone hw
  | settles n kind s w hn hw => exact hone hw
  | schedule | scheduleThrows | call | callThrows | silent => exact ⟨[], rfl⟩
  | responded n kind s frames payload w hf hs hw =>
    obtain ⟨w', hid, hpay⟩ := Option.bind_eq_some_iff.mp hw
    by_cases hmatch : f.worker.slots.nativeRespondId (roundF64 n) = true
    · rw [if_pos hmatch] at hpay
      refine ⟨[.guest (.respondId (roundF64 n)), .guest (.respondPayload (decodeLossy payload))], ?_⟩
      rw [run_cons, hid]
      exact run_one _ hpay
    · rw [if_neg hmatch, Option.some.injEq] at hpay
      exact hone (hpay ▸ hid)

theorem step_inv {P : Worker (Work S) → Prop} {a : GlueAct S}
    (hstep : ∀ w a w', P w → Worker.step crates w a = some w' → P w') (hf : P f.worker)
    (h : step crates wire f a = some f') : P f'.worker := by
  obtain ⟨acts, hrun⟩ := step_worker h
  exact run_inv (Worker.step crates) hstep hf hrun

theorem step_coherent {a : GlueAct S} (hf : Worker.Coherent f.worker)
    (h : step crates wire f a = some f') : Worker.Coherent f'.worker :=
  step_inv (fun _ _ _ hw h => hw.step h) hf h

theorem step_drained {a : GlueAct S} (hf : Worker.Drained f.worker)
    (h : step crates wire f a = some f') : Worker.Drained f'.worker :=
  step_inv (fun _ _ _ hw h => Worker.step_drained hw h) hf h

/-- a builtin called by the glue leaves the evaluation where it was -/
theorem native_pc {g : Guest (Work S)} {w w' : Worker (Work S)}
    (hw : Worker.step crates w (.guest g) = some w') :
    (∃ c, w.pc = .eval c) ∧ w'.pc = w.pc ∧ w'.now = w.now := by
  cases Worker.step_cases hw with
  | enqueue _ c hpc | respondOther _ c hpc | respondMatch _ c hpc | respondPayload _ _ _ c hpc
  | respondThrows _ _ c hpc | timerStart _ _ _ _ _ c hpc | timerClear _ c hpc
  | binding _ _ _ _ _ c hpc => exact ⟨⟨c, hpc⟩, rfl, rfl⟩

theorem respond_pc {n : Int} {payload : Text} {w w' : Worker (Work S)}
    (hw : respond crates w n payload = some w') :
    (∃ c, w.pc = .eval c) ∧ w'.pc = w.pc ∧ w'.now = w.now := by
  obtain ⟨w₁, hid, hpay⟩ := Option.bind_eq_some_iff.mp hw
  obtain ⟨he, hpc, hnow⟩ := native_pc hid
  split at hpay
  · obtain ⟨-, hpc', hnow'⟩ := native_pc hpay
    exact ⟨he, hpc'.trans hpc, hnow'.trans hnow⟩
  · cases hpay
    exact ⟨he, hpc, hnow⟩

/-- A function of the glue waits for guest code only during an evaluation. -/
def Calm (f : Runtime S) : Prop := (∀ c, f.worker.pc ≠ .eval c) → f.glue.frames = []

theorem Calm.eval (h : Calm f) {fr : Frame S} {frames : List (Frame S)}
    (hf : f.glue.frames = fr :: frames) : ∃ c, f.worker.pc = .eval c := by
  by_contra hne
  have hnil := h fun c hpc => hne ⟨c, hpc⟩
  rw [hf] at hnil
  cases hnil

theorem calm_of_eval (h : ∃ c, f.worker.pc = .eval c) : Calm f := by
  obtain ⟨c, hpc⟩ := h
  exact fun hne => absurd hpc (hne c)

theorem follow_frames {a : Act (Work S)} {w : Worker (Work S)} (g : Glue S)
    (hpc : ∀ c, w.pc ≠ .eval c) : (g.follow crates f.worker w a).frames = g.frames := by
  have henter : ∀ g : Glue S, (g.enter crates w.now w.pc).frames = g.frames := by
    intro g
    cases hw : w.pc with
    | eval c => exact absurd hw (hpc c)
    | _ => rfl
  cases a with
  | elapsed =>
    rw [Glue.follow, henter]
    cases f.worker.pc <;> rfl
  | exec event =>
    rw [Glue.follow]
    split
    · next c hw => exact absurd hw (hpc c)
    · rfl
  | drainJobs | popBinding | answered | nextTimer | wake => exact henter g
  | _ => rfl

theorem host_calm {a : Act (Work S)} {w : Worker (Work S)} (hf : Calm f)
    (hmay : f.hostMay a = true) (hw : Worker.step crates f.worker a = some w) :
    Calm ⟨w, f.glue.follow crates f.worker w a⟩ := by
  intro hne
  rw [follow_frames f.glue hne]
  cases Worker.step_cases hw with
  | enqueue | respondOther | respondMatch | respondPayload | respondThrows | timerStart
  | timerClear | binding => cases hmay
  | tick => exact hf hne
  | drain _ _ hpc | startupThrew _ hpc | dispatcherThrew _ hpc | jobOver _ _ _ hpc
  | callbackOver _ _ hpc => exact List.isEmpty_iff.mp hmay
  | noJobs _ _ hpc | jobCap _ hpc | runJob _ _ _ hpc | putBack _ _ _ hpc | noBindings _ hpc
  | ready _ _ _ _ _ hpc | await _ _ _ hpc | answered _ _ _ hpc | elapsed _ _ hpc | noTimers hpc
  | overran _ _ _ _ _ hpc | sleep _ _ _ _ hpc | fireLate _ _ _ _ hpc | wake _ hpc
  | refuse _ _ hpc | dispatch _ _ hpc | buildFailed _ hpc | built hpc | failed _ hpc | took hpc
  | abort hpc => exact hf (by simp [hpc])

theorem Calm.step {a : GlueAct S} (hf : Calm f) (h : step crates wire f a = some f') :
    Calm f' := by
  cases step_cases h with
  | host a w hmay hw => exact host_calm hf hmay hw
  | schedule _ he | call _ _ he =>
    refine calm_of_eval ?_
    unfold evaluating at he
    split at he
    · next c hpc => exact ⟨c, hpc⟩
    · cases he
  | enqueue w hw | scheduled _ _ _ _ _ w _ _ hw | cancel _ w hw | called _ _ _ _ _ w _ hw
  | settles _ _ _ w _ hw =>
    obtain ⟨⟨c, hc⟩, hpc, -⟩ := native_pc hw
    exact calm_of_eval ⟨c, hpc.trans hc⟩
  | scheduleThrows _ _ _ hfr | callThrows _ _ _ _ hfr | silent _ _ _ _ hfr =>
    exact calm_of_eval (f := ⟨f.worker, _⟩) (hf.eval hfr)
  | responded _ _ _ _ _ w hfr _ hw =>
    obtain ⟨⟨c, hc⟩, hpc, -⟩ := respond_pc hw
    exact calm_of_eval ⟨c, hpc.trans hc⟩

theorem Calm.build (ops : Bool) (ms now : Nat) : Calm (build ops ms now : Runtime S) :=
  fun _ => rfl

def Reached (crates : Crates) (wire : Kind → S → Option Text) (f : Runtime S) : Prop :=
  ∃ ops maxWallClockTimeMs now acts,
    run (step crates wire) (build ops maxWallClockTimeMs now) acts = some f

theorem Reached.inv {P : Runtime S → Prop} (h : Reached crates wire f)
    (hbuild : ∀ ops ms now, P (build ops ms now))
    (hstep : ∀ f a f', P f → step crates wire f a = some f' → P f') : P f := by
  obtain ⟨ops, ms, now, acts, h⟩ := h
  exact run_inv (step crates wire) hstep (hbuild ops ms now) h

/-- The worker of a runtime is one that guest code alone could have brought there. -/
theorem Reached.worker (h : Reached crates wire f) : Worker.Reached crates f.worker := by
  obtain ⟨ops, ms, now, acts, h⟩ := h
  obtain ⟨acts', h'⟩ := run_refine Runtime.worker (fun _ _ _ hs => step_worker hs) h
  exact ⟨ops, ms, now, acts', h'⟩

end Runtime

end NovaRuntime
