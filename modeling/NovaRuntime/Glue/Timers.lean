import NovaRuntime.Glue.Runtime

/-!
# Timers over both sides

A timer lives in the host's list and in the glue's map.  `TimerView` is what the two sides hold of
timers, `Moves` all that a step of the runtime does to it, and the properties of timers are proved
of the moves.

* `Stopped`, `starts`, `sinceDrained`   what the log says of a handle;
* `Delivered`    what is promised of an entry of the log;
* `step_moves`   every step of a runtime is a move of its view.
-/

namespace NovaRuntime
open Lib

/-! ## reading the log -/

/-- a clear has named the handle after it was chosen -/
def Stopped (h : Nat) : List TimerNote → Prop
  | [] => False
  | .cleared id :: log => id = .ofNat h ∧ (∃ r, .minted h r ∈ log) ∨ Stopped h log
  | _ :: log => Stopped h log

def starts (h : Nat) : List TimerNote → Nat
  | [] => 0
  | .started k _ :: log => (if k = h then 1 else 0) + starts h log
  | _ :: log => starts h log

/-- the handles armed since a drain last ended -/
def sinceDrained : List TimerNote → List Nat
  | [] => []
  | .drained _ :: _ => []
  | .armed h _ _ :: log => h :: sinceDrained log
  | _ :: log => sinceDrained log

/-- A callback does not start once its handle is cleared, starts once if the timer does not repeat,
and starts for the `k`-th time no earlier than `k` delays after it was set.  When a drain ends in
Ok, every timer set before it that does not repeat has started or was cleared. -/
def Delivered : TimerNote → List TimerNote → Prop
  | .started h now, earlier => ¬ Stopped h earlier ∧
      (.minted h false ∈ earlier → starts h earlier = 0) ∧
      ∃ d since, .armed h d since ∈ earlier ∧ since + (starts h earlier + 1) * d ≤ now
  | .drained (.ok ()), earlier =>
    ∀ h ∈ sinceDrained earlier, .minted h false ∈ earlier → Stopped h earlier ∨ starts h earlier = 1
  | _, _ => True

theorem not_stopped {h : Nat} {log : List TimerNote} (hm : ∀ r, .minted h r ∉ log) :
    ¬ Stopped h log := by
  induction log with
  | nil => exact id
  | cons e log ih =>
    have ih := ih fun r hr => hm r (List.mem_cons_of_mem _ hr)
    cases e with
    | cleared id =>
      rintro (⟨-, r, hr⟩ | hs)
      · exact hm r (List.mem_cons_of_mem _ hr)
      · exact ih hs
    | _ => exact ih

theorem not_armed_since {h : Nat} {log : List TimerNote} (ha : ∀ d since, .armed h d since ∉ log) :
    h ∉ sinceDrained log := by
  induction log with
  | nil => simp [sinceDrained]
  | cons e log ih =>
    have ih := ih fun d since hmem => ha d since (List.mem_cons_of_mem _ hmem)
    cases e with
    | armed k d since =>
      rintro hmem
      rcases List.mem_cons.mp hmem with rfl | hmem
      · exact ha d since List.mem_cons_self
      · exact ih hmem
    | drained r => simp [sinceDrained]
    | _ => exact ih

theorem starts_of_not_armed {h : Nat} {log : List TimerNote} (hlog : Logged Delivered log)
    (ha : ∀ d since, .armed h d since ∉ log) : starts h log = 0 := by
  induction log with
  | nil => rfl
  | cons e log ih =>
    have ih := ih hlog.2 fun d since hmem => ha d since (List.mem_cons_of_mem _ hmem)
    cases e with
    | started k now =>
      obtain ⟨-, -, d, since, harmed, -⟩ := hlog.1
      have hne : k ≠ h := by
        rintro rfl
        exact ha d since (List.mem_cons_of_mem _ harmed)
      rw [starts, if_neg hne, ih]
    | _ => exact ih

theorem starts_started_self (h now : Nat) (log : List TimerNote) :
    starts h (.started h now :: log) = starts h log + 1 := by
  rw [starts, if_pos rfl, Nat.add_comm]

theorem starts_started_ne {h k : Nat} (hne : h ≠ k) (now : Nat) (log : List TimerNote) :
    starts h (.started k now :: log) = starts h log := by
  rw [starts, if_neg (Ne.symm hne), Nat.zero_add]

/-- a timer of the host and the entry of the log that armed it: the turns it has had fit in before
its next one -/
def Due (log : List TimerNote) (t : Timer) : Prop :=
  ∃ (h : Nat) (r : Bool) (d since : Nat), t.handle = .ofNat h ∧ .armed h d since ∈ log ∧
    t.period = (if r then some d else none) ∧ since + (starts h log + 1) * d ≤ t.due

theorem Due.cons {log : List TimerNote} {t : Timer} {e : TimerNote} (h : Due log t)
    (hs : ∀ k, starts k (e :: log) = starts k log) : Due (e :: log) t := by
  obtain ⟨k, r, d, since, hk, ha, hp, hle⟩ := h
  refine ⟨k, r, d, since, hk, List.mem_cons_of_mem _ ha, hp, ?_⟩
  rwa [hs k]

/-! ## the view -/

structure TimerView where
  /-- the host's list -/
  armed : List Timer
  /-- the timer the drain sleeps for -/
  taken : Option Timer
  now : Nat
  /-- the glue's map -/
  table : List (Nat × Bool)
  nextTimer : Nat
  /-- the timer functions that convert their delay -/
  opened : List (Nat × Bool)
  log : List TimerNote

namespace TimerView

/-- `__ow_run_timer` for a timer that is due -/
def fire (v : TimerView) (t : Timer) : TimerView :=
  { v with
    taken := none
    table := (runTimer v.table v.log t.handle v.now).1
    log := (runTimer v.table v.log t.handle v.now).2 }

/-- what a step can do to timers -/
inductive Moves (v : TimerView) : TimerView → Prop
  | idle (now) (hle : v.now ≤ now) : Moves v { v with now := now }
  | mint (r) : Moves v { v with
      table := v.table ++ [(v.nextTimer, r)]
      nextTimer := v.nextTimer + 1
      opened := (v.nextTimer, r) :: v.opened
      log := .minted v.nextTimer r :: v.log }
  | arm (h r rest d seq origin) (ht : v.taken = none) (ho : v.opened = (h, r) :: rest) :
      Moves v { v with
        armed := v.armed ++ [⟨.ofNat h, v.now + d, if r then some d else none, seq, origin⟩]
        opened := rest
        log := .armed h d v.now :: v.log }
  | abandon (h r rest) (ho : v.opened = (h, r) :: rest) : Moves v { v with opened := rest }
  | clear (id) (ht : v.taken = none) : Moves v { v with
      armed := v.armed.filter fun t => !F64.eq t.handle id
      table := v.table.filter fun e => F64.ofNat e.1 ≠ id
      log := .cleared id :: v.log }
  | take (pre t post next) (ht : v.taken = none) (ha : v.armed = pre ++ t :: post)
      (hn : rearm t = some next) :
      Moves v { v with armed := pre ++ next ++ post, taken := some t }
  | fire (t) (ht : v.taken = some t) (hle : t.due ≤ v.now) : Moves v (v.fire t)
  | fireLate (pre t post next) (ht : v.taken = none) (ha : v.armed = pre ++ t :: post)
      (hn : rearm t = some next) (hle : t.due ≤ v.now) :
      Moves v ({ v with armed := pre ++ next ++ post }.fire t)
  | drop (reason) : Moves v { v with armed := [], log := .drained (.error reason) :: v.log }
  | drained (r) (hr : r = .ok () → v.armed = [] ∧ v.taken = none) :
      Moves v { v with log := .drained r :: v.log }

end TimerView

def Frame.timer {S : Type} : Frame S → Option (Nat × Bool)
  | .schedule handle repeating => some (handle, repeating)
  | .call _ _ _ | .reaction _ _ _ => none

namespace Runtime
variable {S : Type} {crates : Crates} {wire : Kind → S → Option Text} {f f' : Runtime S}

def timerView (f : Runtime S) : TimerView where
  armed := f.worker.slots.timers
  taken := match f.worker.pc with
    | .sleeping t => some t
    | _ => none
  now := f.worker.now
  table := f.glue.timers
  nextTimer := f.glue.nextTimer
  opened := f.glue.frames.filterMap Frame.timer
  log := f.glue.timerLog

theorem moves_idle {now : Nat} (hle : f.worker.now ≤ now)
    (heq : f'.timerView = { f.timerView with now := now }) :
    TimerView.Moves f.timerView f'.timerView :=
  heq ▸ .idle now hle

theorem taken_eval {c : Cont (Work S)} (hpc : f.worker.pc = .eval c) :
    f.timerView.taken = none := by
  simp [timerView, hpc]

theorem host_moves {a : Act (Work S)} {w : Worker (Work S)} (hmay : f.hostMay a = true)
    (hw : Worker.step crates f.worker a = some w) :
    TimerView.Moves f.timerView (Runtime.timerView ⟨w, f.glue.follow crates f.worker w a⟩) := by
  cases Worker.step_cases hw with
  | tick d => exact moves_idle (Nat.le_add_right _ d) rfl
  | enqueue | respondOther | respondMatch | respondPayload | respondThrows | timerStart
  | timerClear | binding => cases hmay
  | drain _ _ hpc | startupThrew _ hpc | dispatcherThrew _ hpc | jobOver _ _ _ hpc
  | callbackOver _ _ hpc | noJobs _ _ hpc | putBack _ _ _ hpc | noBindings _ hpc
  | buildFailed _ hpc | built hpc | failed _ hpc | took hpc =>
    exact moves_idle le_rfl (by simp [timerView, Glue.follow, Glue.enter, hpc])
  | await _ _ _ hpc | dispatch _ _ hpc =>
    exact moves_idle le_rfl (by simp [timerView, Glue.follow, Glue.enter, hpc])
  | ready _ _ _ _ _ hpc | answered _ _ _ hpc =>
    exact moves_idle le_rfl (by simp [timerView, Glue.follow, Glue.enter, hpc])
  | refuse event _ hpc | abort hpc =>
    exact moves_idle le_rfl (by simp [timerView, Glue.follow, hpc])
  | runJob left job jobs hpc =>
    refine moves_idle le_rfl ?_
    cases job.work with
    | other => simp [timerView, Glue.follow, Glue.enter, hpc]
    | reaction n kind s =>
      simp [timerView, Glue.follow, Glue.enter, hpc, List.filterMap_cons, Frame.timer]
  | jobCap finished hpc =>
    have hmove := TimerView.Moves.drained (v := f.timerView) (.error .maxIterationsReached) (by simp)
    simpa [timerView, Glue.follow, Glue.enter, hpc] using hmove
  | elapsed p deadline hpc =>
    have hmove := TimerView.Moves.drained (v := f.timerView) (.error .wallClockTimeout) (by simp)
    simpa [timerView, Glue.follow, Glue.expire, Glue.enter, hpc] using hmove
  | noTimers hpc ht =>
    have hmove := TimerView.Moves.drained (v := f.timerView) (.ok ())
      (fun _ => ⟨ht, by simp [timerView, hpc]⟩)
    simpa [timerView, Glue.follow, Glue.enter, hpc] using hmove
  | overran pre t post next deadline hpc =>
    have hmove := TimerView.Moves.drop (v := f.timerView) .wallClockTimeout
    simpa [timerView, Glue.follow, Glue.enter, hpc] using hmove
  | sleep pre t post next hpc ht hn =>
    have hmove := TimerView.Moves.take (v := f.timerView) pre t post next
      (by simp [timerView, hpc]) (firstDue_spec ht).1 hn
    simpa [timerView, Glue.follow, Glue.enter, hpc] using hmove
  | fireLate pre t post next hpc ht hn hd hlt =>
    have hmove := TimerView.Moves.fireLate (v := f.timerView) pre t post next
      (by simp [timerView, hpc]) (firstDue_spec ht).1 hn (Nat.le_of_lt hlt)
    simpa [timerView, TimerView.fire, Glue.follow, Glue.enter, hpc] using hmove
  | wake t hpc hle =>
    have hmove := TimerView.Moves.fire (v := f.timerView) t (by simp [timerView, hpc]) hle
    simpa [timerView, TimerView.fire, Glue.follow, Glue.enter, hpc] using hmove

theorem native_timers {g : Guest (Work S)} {w w' : Worker (Work S)}
    (hw : Worker.step crates w (.guest g) = some w')
    (hg : ∀ h d r, g ≠ .timerStart h d r) (hg' : ∀ id, g ≠ .timerClear id) :
    w'.slots.timers = w.slots.timers := by
  cases Worker.step_cases hw with
  | timerStart h d r => exact absurd rfl (hg h d r)
  | timerClear id => exact absurd rfl (hg' id)
  | _ => rfl

theorem respond_timers {n : Int} {payload : Text} {w w' : Worker (Work S)}
    (hw : respond crates w n payload = some w') :
    w'.slots.timers = w.slots.timers := by
  obtain ⟨w₁, hid, hpay⟩ := Option.bind_eq_some_iff.mp hw
  have hts := native_timers hid (by simp) (by simp)
  split at hpay
  · exact (native_timers hpay (by simp) (by simp)).trans hts
  · cases hpay
    exact hts

theorem step_moves {a : GlueAct S} (h : step crates wire f a = some f') :
    TimerView.Moves f.timerView f'.timerView := by
  cases step_cases h with
  | host a w hmay hw => exact host_moves hmay hw
  | enqueue w hw =>
    obtain ⟨-, hpc, hnow⟩ := native_pc hw
    have hts := native_timers hw (by simp) (by simp)
    exact moves_idle le_rfl (by simp [timerView, hpc, hnow, hts])
  | schedule r => exact .mint r
  | scheduled handle r frames delay d w hf hd hw =>
    cases Worker.step_cases hw with
    | timerStart _ _ _ d' due c hpc hd' hdue =>
      have hmove := TimerView.Moves.arm (v := f.timerView) handle r
        (frames.filterMap Frame.timer) d f.worker.slots.timerSeq f.worker.dispatches
        (taken_eval hpc) (by simp [timerView, hf, Frame.timer])
      have hdd : d = d' := by simp [hd, hd']
      subst hdd
      rw [addDuration_eq hdue]
      exact hmove
  | scheduleThrows handle r frames hf =>
    exact .abandon handle r (frames.filterMap Frame.timer)
      (by simp [timerView, hf, Frame.timer])
  | cancel id w hw =>
    cases Worker.step_cases hw with
    | timerClear _ c hpc => exact .clear id (taken_eval hpc)
  | call kind name => exact moves_idle le_rfl rfl
  | called id kind name frames params w hf hw =>
    obtain ⟨-, hpc, hnow⟩ := native_pc hw
    have hts := native_timers hw (by simp) (by simp)
    exact moves_idle le_rfl
      (by simp [timerView, hpc, hnow, hts, hf, List.filterMap_cons, Frame.timer])
  | callThrows id kind name frames hf | silent n kind s frames hf =>
    exact moves_idle le_rfl (by simp [timerView, hf, List.filterMap_cons, Frame.timer])
  | settles n kind s w hn hw =>
    obtain ⟨-, hpc, hnow⟩ := native_pc hw
    have hts := native_timers hw (by simp) (by simp)
    exact moves_idle le_rfl (by simp [timerView, hpc, hnow, hts])
  | responded n kind s frames payload w hf hs hw =>
    obtain ⟨-, hpc, hnow⟩ := respond_pc hw
    have hts := respond_timers hw
    exact moves_idle le_rfl
      (by simp [timerView, hpc, hnow, hts, hf, List.filterMap_cons, Frame.timer])

end Runtime

end NovaRuntime
