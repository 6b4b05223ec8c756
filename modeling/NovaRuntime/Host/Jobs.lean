import NovaRuntime.Lib.Fifo
import NovaRuntime.Host.Worker

/-!
# The job queue of a drain (`worker.rs`)

* `Agent`       what the jobs of the engine do when they are polled and run;
* `drainJobs`   the drain, with the history of its queue;
* `loop_pops`   its turns are those of a first-in first-out queue;
* `drain_jobs_is_fifo`     when it ends well, and what has run then;
* `drainJobs_machine`      the worker machine can take the same turns.
-/

namespace NovaRuntime
open Lib

/-- the engine, as far as its jobs go; `σ` is everything that they read and change -/
structure Agent (σ J : Type) where
  /-- `Job::is_finished` -/
  isFinished : σ → J → Bool × σ
  /-- `Job::run`: the jobs it queues, and the text of what it throws -/
  run : σ → J → σ × List J × Option Text

/-- the queue of `WorkerHostHooks`, and the messages of the jobs that failed -/
structure Draining (σ J : Type) extends Fifo.Line σ J where
  uncaught : List Text

namespace Draining
variable {σ J : Type}

def start (state : σ) (jobs : List J) : Draining σ J := ⟨.start state jobs, []⟩

/-- a turn of the loop, with this job at the front -/
def turn (agent : Agent σ J) (d : Draining σ J) (job : Fifo.Entry J) (jobs : List (Fifo.Entry J)) :
    Draining σ J :=
  match agent.isFinished d.state job.item with
  | (false, state) => { d with toLine := d.toLine.putBack state job jobs }
  | (true, state) =>
    match agent.run state job.item with
    | (state, queued, error) =>
      ⟨d.toLine.finish state job jobs queued, d.uncaught ++ error.toList⟩

/-- the turns of `drain_jobs` that are left, and what follows them -/
def loop (agent : Agent σ J) : Nat → Draining σ J → Except TerminationReason Unit × Draining σ J
  | 0, d =>
    if d.queue.isEmpty then (.ok (), d)
    else (.error .maxIterationsReached, { d with queue := [] })
  | left + 1, d =>
    match d.queue with
    | [] => (.ok (), d)
    | job :: jobs => loop agent left (d.turn agent job jobs)

def drainJobs (agent : Agent σ J) (d : Draining σ J) :
    Except TerminationReason Unit × Draining σ J :=
  loop agent maxJobsPerDrain d

end Draining

/-- a job at the front -/
def Agent.serve {σ J : Type} (agent : Agent σ J) (state : σ) (job : J) : Fifo.Served σ J :=
  match agent.isFinished state job with
  | (false, state) => .unfinished state
  | (true, state) =>
    match agent.run state job with
    | (state, queued, _) => .done state queued

namespace Draining
variable {σ J : Type} (agent : Agent σ J)

theorem turn_pop {d : Draining σ J} {job : Fifo.Entry J} {jobs : List (Fifo.Entry J)}
    (hq : d.queue = job :: jobs) :
    Fifo.pop agent.serve d.toLine = some (d.turn agent job jobs).toLine := by
  rw [Fifo.pop, hq]
  dsimp only
  unfold Agent.serve turn
  rcases agent.isFinished d.state job.item with ⟨_ | _, state⟩
  · rfl
  · rfl

/-- The loop ends early with an empty queue, or goes on for all its turns. -/
theorem loop_pops (left : Nat) (d : Draining σ J) :
    ((loop agent left d).1 = .ok () ∧ (loop agent left d).2.queue = [] ∧
        ∃ k ≤ left, Fifo.pops agent.serve k d.toLine = some (loop agent left d).2.toLine) ∨
      ((loop agent left d).1 = .error .maxIterationsReached ∧
        ∃ l, Fifo.pops agent.serve left d.toLine = some l ∧ l.queue ≠ [] ∧
          (loop agent left d).2.toLine = { l with queue := [] }) := by
  induction left generalizing d with
  | zero =>
    rw [loop]
    split
    · next hempty => exact .inl ⟨rfl, List.isEmpty_iff.mp hempty, 0, Nat.le_refl _, rfl⟩
    · next hne => exact .inr ⟨rfl, d.toLine, rfl, fun h => hne (List.isEmpty_iff.mpr h), rfl⟩
  | succ left ih =>
    cases hq : d.queue with
    | nil =>
      have hend : loop agent (left + 1) d = (.ok (), d) := by rw [loop, hq]
      rw [hend]
      exact .inl ⟨rfl, hq, 0, Nat.zero_le _, rfl⟩
    | cons job jobs =>
      have hturn : loop agent (left + 1) d = loop agent left (d.turn agent job jobs) := by
        rw [loop, hq]
      have hpops : ∀ k, Fifo.pops agent.serve (k + 1) d.toLine =
          Fifo.pops agent.serve k (d.turn agent job jobs).toLine := by
        intro k
        show (Fifo.pop agent.serve d.toLine).bind _ = _
        rw [turn_pop agent hq]
        rfl
      rw [hturn]
      rcases ih (d.turn agent job jobs) with ⟨hok, hempty, k, hk, hrun⟩ | ⟨herror, l, hrun, hrest⟩
      · exact .inl ⟨hok, hempty, k + 1, Nat.succ_le_succ hk, (hpops k).trans hrun⟩
      · exact .inr ⟨herror, l, (hpops left).trans hrun, hrest⟩

/-- what a drain of these jobs comes to -/
structure Drained (state : σ) (jobs : List J) (r : Except TerminationReason Unit)
    (d : Draining σ J) : Prop where
  /-- the turns that were taken, until the queue was empty or there were no more; what is left in the
  queue is thrown away -/
  turns : ∃ k ≤ maxJobsPerDrain, ∃ l, Fifo.pops agent.serve k (.start state jobs) = some l ∧
    d.toLine = { l with queue := [] } ∧ (r = .ok () ↔ l.queue = []) ∧
    (l.queue ≠ [] → k = maxJobsPerDrain)
  cap : d.popped.length ≤ maxJobsPerDrain
  emptied : d.queue = []
  /-- it ends well exactly when the turns are enough -/
  ok_iff : r = .ok () ↔ Fifo.EmptiedWithin agent.serve maxJobsPerDrain (.start state jobs)
  /-- the finished jobs ran, in the order they reached the front -/
  in_order : d.done = (d.popped.filter Prod.snd).map Prod.fst
  /-- every job ran once, and they reached the front in the order they were put at the back -/
  all_ran : r = .ok () →
    d.done.Perm d.arrived ∧ d.arrived.Nodup ∧ d.popped.map Prod.fst = d.pushed
  /-- no job ran twice -/
  gave_up : r ≠ .ok () → r = .error .maxIterationsReached ∧ d.done.Nodup

/-- what either way of ending has in common -/
theorem drained_of_pops {state : σ} {jobs : List J} {d : Draining σ J} {l : Fifo.Line σ J} {k : Nat}
    (hk : k ≤ maxJobsPerDrain) (hrun : Fifo.pops agent.serve k (.start state jobs) = some l)
    (hline : d.toLine = { l with queue := [] }) :
    d.popped.length ≤ maxJobsPerDrain ∧ d.queue = [] ∧
      d.done = (d.popped.filter Prod.snd).map Prod.fst ∧ d.done.Nodup := by
  have hsound := Fifo.pops_sound (Fifo.sound_start state jobs) hrun
  have hpopped : d.popped = l.popped := by rw [hline]
  have hdone : d.done = l.done := by rw [hline]
  rw [hpopped, hdone]
  refine ⟨?_, congrArg Fifo.Line.queue hline, hsound.finished, hsound.done_nodup⟩
  have hlength : l.popped.length = 0 + k := Fifo.pops_length hrun
  omega

/-- `drain_jobs` is a first-in first-out queue with a bounded number of turns, whatever jobs it is
begun with and whatever they do: they may queue others, fail, or stay unfinished. -/
theorem drain_jobs_is_fifo (state : σ) (jobs : List J) :
    Drained agent state jobs (drainJobs agent (start state jobs)).1
      (drainJobs agent (start state jobs)).2 := by
  rcases loop_pops agent maxJobsPerDrain (start state jobs) with
    ⟨hok, hempty, k, hk, hrun⟩ | ⟨herror, l, hrun, hne, hline⟩
  · have hsound := Fifo.pops_sound (Fifo.sound_start state jobs) hrun
    have hline : (drainJobs agent (start state jobs)).2.toLine =
        { (drainJobs agent (start state jobs)).2.toLine with queue := [] } := by
      rw [← hempty]
      rfl
    obtain ⟨hcap, hemptied, horder, -⟩ := drained_of_pops agent hk hrun hline
    refine ⟨⟨k, hk, _, hrun, hline, iff_of_true hok hempty, fun hne => absurd hempty hne⟩, hcap,
      hemptied, iff_of_true hok ⟨k, hk, _, hrun, hempty⟩, horder, fun _ => ?_,
      fun hno => absurd hok hno⟩
    refine ⟨hsound.all_done hempty, hsound.arrived_nodup, ?_⟩
    have hpushed := hsound.order
    rw [hempty, List.append_nil] at hpushed
    exact hpushed.symm
  · obtain ⟨hcap, hemptied, horder, hnodup⟩ := drained_of_pops agent le_rfl hrun hline
    have hnot : (drainJobs agent (start state jobs)).1 ≠ .ok () := fun hok => by
      cases herror.symm.trans hok
    exact ⟨⟨maxJobsPerDrain, le_rfl, l, hrun, hline, iff_of_false hnot hne, fun _ => rfl⟩, hcap,
      hemptied, iff_of_false hnot (Fifo.not_emptied hrun hne), horder, fun hok => absurd hok hnot,
      fun _ => ⟨herror, hnodup⟩⟩

/-- jobs that queue the next smaller one, and are finished at every other look -/
def countdown : Agent Nat Nat where
  isFinished looks _ := (decide (looks % 2 = 1), looks + 1)
  run looks job := (looks, if job = 0 then [] else [job - 1], if job = 1 then some [job] else none)

theorem drain_jobs_is_fifo_countdown :
    (drainJobs countdown (start 0 [2, 0])).1 = .ok () ∧
      (drainJobs countdown (start 0 [2, 0])).2.done.map Fifo.Entry.item = [0, 2, 1, 0] ∧
      Drained countdown 0 [2, 0] (drainJobs countdown (start 0 [2, 0])).1
        (drainJobs countdown (start 0 [2, 0])).2 :=
  ⟨by decide +kernel, by decide +kernel, drain_jobs_is_fifo countdown 0 [2, 0]⟩

end Draining

/-! ## the worker machine -/

namespace Worker
variable {σ J : Type} (agent : Agent σ J) (crates : Crates)

def turnActs (d : Draining σ J) (job : Fifo.Entry J) : List (Act J) :=
  match agent.isFinished d.state job.item with
  | (false, _) => [.drainJobs false]
  | (true, state) =>
    match agent.run state job.item with
    | (_, queued, error) =>
      .drainJobs true :: queued.map (fun work => .guest (.enqueue work)) ++ [.evalOver error]

/-- the acts of a drain with so many turns left -/
def drainActs : Nat → Draining σ J → List (Act J)
  | 0, _ => [.drainJobs true]
  | left + 1, d =>
    match d.queue with
    | [] => [.drainJobs true]
    | job :: jobs => turnActs agent d job ++ drainActs left (d.turn agent job jobs)

def SameJobs (w : Worker J) (d : Draining σ J) : Prop :=
  w.jobs.map Job.work = d.queue.map Fifo.Entry.item

theorem enqueue_all {w : Worker J} {c : Cont J} (hpc : w.pc = .eval c) (queued : List J) :
    run (step crates) w (queued.map fun work => .guest (.enqueue work)) =
      some { w with jobs := w.jobs ++ queued.map fun work => ⟨work, w.dispatches⟩ } := by
  induction queued generalizing w with
  | nil =>
    rw [List.map_nil, List.map_nil, List.append_nil]
    rfl
  | cons work queued ih =>
    have hnative : step crates w (.guest (.enqueue work)) = w.native crates (.enqueue work) := by
      rw [step, hpc]
    rw [List.map_cons, run_cons, hnative]
    refine (ih (w := { w with jobs := w.jobs ++ [⟨work, w.dispatches⟩] }) hpc).trans ?_
    rw [List.map_cons, List.append_assoc]
    rfl

theorem step_putBack {w : Worker J} {front : Job J} {rest : List (Job J)} {left : Nat}
    (hpc : w.pc = .jobs (left + 1)) (hj : w.jobs = front :: rest) :
    step crates w (.drainJobs false) =
      some { w with jobs := rest ++ [front], pc := .jobs left } := by
  simp only [step, hpc, drainJobs, hj, Bool.false_eq_true, ↓reduceIte]

theorem step_runJob {w : Worker J} {front : Job J} {rest : List (Job J)} {left : Nat}
    (hpc : w.pc = .jobs (left + 1)) (hj : w.jobs = front :: rest) :
    step crates w (.drainJobs true) = some { w with
      jobs := rest
      pc := .eval (.job left front.work)
      log := .ranJob front.origin w.dispatches :: w.log } := by
  simp only [step, hpc, drainJobs, hj, ↓reduceIte]

theorem step_drained_jobs {w : Worker J} {left : Nat} (hpc : w.pc = .jobs left) (hj : w.jobs = [])
    (finished : Bool) :
    step crates w (.drainJobs finished) = some { w with pc := .bindings } := by
  simp only [step, hpc, drainJobs, hj]

theorem step_jobCap {w : Worker J} (hpc : w.pc = .jobs 0) (hj : w.jobs ≠ []) (finished : Bool) :
    step crates w (.drainJobs finished) =
      some (endDrain { w with jobs := [] } (.error .maxIterationsReached)) := by
  obtain ⟨front, rest, hj⟩ := List.exists_cons_of_ne_nil hj
  simp only [step, hpc, drainJobs, hj]

theorem SameJobs.nil_iff {w : Worker J} {d : Draining σ J} (hw : SameJobs w d) :
    w.jobs = [] ↔ d.queue = [] := by
  unfold SameJobs at hw
  rw [← List.map_eq_nil_iff (f := Job.work), hw, List.map_eq_nil_iff]

theorem turn_machine {w : Worker J} {d : Draining σ J} {job : Fifo.Entry J}
    {jobs : List (Fifo.Entry J)} {left : Nat} (hpc : w.pc = .jobs (left + 1)) (hf : w.frames = [])
    (hw : SameJobs w d) (hq : d.queue = job :: jobs) :
    ∃ w', run (step crates) w (turnActs agent d job) = some w' ∧ w'.pc = .jobs left ∧
      w'.frames = [] ∧ SameJobs w' (d.turn agent job jobs) := by
  unfold SameJobs at hw
  rw [hq, List.map_cons] at hw
  obtain ⟨front, rest, hjobs, hfront, hrest⟩ := List.map_eq_cons_iff.mp hw
  obtain ⟨finished, state, hfinished⟩ : ∃ finished state,
      agent.isFinished d.state job.item = (finished, state) := ⟨_, _, rfl⟩
  cases finished with
  | false =>
    have hacts : turnActs agent d job = [.drainJobs false] := by simp only [turnActs, hfinished]
    have hturn : (d.turn agent job jobs).queue = jobs ++ [job] := by
      simp only [Draining.turn, hfinished, Fifo.Line.putBack]
    refine ⟨{ w with jobs := rest ++ [front], pc := .jobs left }, ?_, rfl, hf, ?_⟩
    · rw [hacts]
      exact run_one _ (step_putBack crates hpc hjobs)
    · show (rest ++ [front]).map Job.work = _
      rw [hturn, List.map_append, List.map_append, hrest, List.map_singleton, hfront]
      rfl
  | true =>
    obtain ⟨state', queued, error, hrun⟩ : ∃ state' queued error,
        agent.run state job.item = (state', queued, error) := ⟨_, _, _, rfl⟩
    have hacts : turnActs agent d job =
        .drainJobs true :: (queued.map (fun work => .guest (.enqueue work)) ++ [.evalOver error]) := by
      simp only [turnActs, hfinished, hrun, List.cons_append]
    have hturn : (d.turn agent job jobs).queue = jobs ++ Fifo.number d.arrived.length queued := by
      simp only [Draining.turn, hfinished, hrun, Fifo.Line.finish]
    let during : Worker J := { w with
      jobs := rest
      pc := .eval (.job left front.work)
      log := .ranJob front.origin w.dispatches :: w.log }
    let after : Worker J := { during with
      jobs := rest ++ queued.map fun work => ⟨work, w.dispatches⟩ }
    have hover : step crates after (.evalOver error) = some { after with pc := .jobs left } := by
      have hframes : after.frames = [] := hf
      have hafter : after.pc = .eval (.job left front.work) := rfl
      simp only [step, hframes, hafter, evalOver]
    refine ⟨{ after with pc := .jobs left }, ?_, rfl, hf, ?_⟩
    · rw [hacts, run_cons, step_runJob crates hpc hjobs]
      show run (step crates) during _ = _
      rw [run_append, enqueue_all crates (c := .job left front.work) rfl]
      exact run_one _ hover
    · have hworks : ∀ n : Int, (queued.map fun work => (⟨work, n⟩ : Job J)).map Job.work = queued :=
        fun n => (List.map_map).trans (List.map_id queued)
      unfold SameJobs
      rw [hturn]
      show (rest ++ _).map Job.work = _
      rw [List.map_append, List.map_append, hrest, Fifo.number_items, hworks]

/-- The machine takes the turns of the drain: it comes to the bindings when the drain ends well, and
ends the dispatch when it gives up. -/
theorem drainJobs_machine {w : Worker J} {d : Draining σ J} (left : Nat) (hpc : w.pc = .jobs left)
    (hf : w.frames = []) (hw : SameJobs w d) :
    ∃ w', run (step crates) w (drainActs agent left d) = some w' ∧
      SameJobs w' (d.loop agent left).2 ∧
      w'.pc = match (d.loop agent left).1 with
        | .ok () => .bindings
        | .error reason => .ended (.error reason) := by
  induction left generalizing w d with
  | zero =>
    rw [drainActs, Draining.loop]
    split
    · next hempty =>
      have hj : w.jobs = [] := hw.nil_iff.mpr (List.isEmpty_iff.mp hempty)
      exact ⟨_, run_one _ (step_drained_jobs crates hpc hj true), hw, rfl⟩
    · next hne =>
      have hj : w.jobs ≠ [] := fun hj => hne (List.isEmpty_iff.mpr (hw.nil_iff.mp hj))
      exact ⟨_, run_one _ (step_jobCap crates hpc hj true), rfl, rfl⟩
  | succ left ih =>
    cases hq : d.queue with
    | nil =>
      have hj : w.jobs = [] := hw.nil_iff.mpr hq
      have hacts : drainActs agent (left + 1) d = [.drainJobs true] := by rw [drainActs, hq]
      have hloop : d.loop agent (left + 1) = (.ok (), d) := by rw [Draining.loop, hq]
      rw [hacts, hloop]
      exact ⟨_, run_one _ (step_drained_jobs crates hpc hj true), hw, rfl⟩
    | cons job jobs =>
      have hacts : drainActs agent (left + 1) d =
          turnActs agent d job ++ drainActs agent left (d.turn agent job jobs) := by
        rw [drainActs, hq]
      have hloop : d.loop agent (left + 1) = (d.turn agent job jobs).loop agent left := by
        rw [Draining.loop, hq]
      obtain ⟨w₁, hrun, hpc₁, hf₁, hw₁⟩ := turn_machine agent crates hpc hf hw hq
      obtain ⟨w', hrun', hrest⟩ := ih hpc₁ hf₁ hw₁
      refine ⟨w', ?_, ?_⟩
      · rw [hacts, run_append, hrun]
        exact hrun'
      · rw [hloop]
        exact hrest

end Worker

end NovaRuntime
