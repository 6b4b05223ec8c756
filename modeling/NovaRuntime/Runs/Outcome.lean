import NovaRuntime.Host.Step

/-!
# The outcome of a dispatch is its own

`takeOutcome` reads one slot that every dispatch shares.  Over any run, what it reads for dispatch
`n` is what the last respond call naming `n` stored since dispatch `n` began.

* `lastPayload`   the payload of the last respond call for an id;
* `Window`        the log since the dispatch in flight began, and the slot beside it;
* `OwnTake`       what the log says below an entry `took`.
-/

namespace NovaRuntime
open Lib

/-- the payload of the last respond call that completed for `n` -/
def lastPayload (n : Int) : List Obs → Option Text
  | [] => none
  | .responded id payload :: log => if id = n then payload else lastPayload n log
  | _ :: log => lastPayload n log

/-- an entry that is no part of the story of the outcome slot -/
def Quiet : Obs → Prop
  | .began _ | .responded _ _ | .took _ _ _ => False
  | _ => True

theorem lastPayload_quiet {n : Int} {e : Obs} (he : Quiet e) (log : List Obs) :
    lastPayload n (e :: log) = lastPayload n log := by
  cases e <;> first | rfl | exact he.elim

/-! ## the window of a dispatch -/

/-- The log is a part with no beginning of a dispatch in it, after the beginning of `n`.  Every
response for `n` in that part stored its payload, and the slot holds the last of them. -/
structure Window (n : Int) (outcome : Option Text) (log window early : List Obs) : Prop where
  split : log = window ++ .began n :: early
  inside : ∀ m, .began m ∉ window
  once : .began n ∉ early
  stored : ∀ p, .responded n p ∈ window → p ≠ none
  slot : outcome = lastPayload n window

namespace Window
variable {n : Int} {outcome : Option Text} {log window early : List Obs} {e : Obs}

theorem start (h : .began n ∉ log) : Window n none (.began n :: log) [] log :=
  ⟨rfl, by simp, h, by simp, rfl⟩

theorem quiet (h : Window n outcome log window early) (he : Quiet e) :
    Window n outcome (e :: log) (e :: window) early where
  split := by rw [h.split, List.cons_append]
  inside := by
    intro m hm
    rcases List.mem_cons.mp hm with rfl | hm
    · exact he
    · exact h.inside m hm
  once := h.once
  stored := by
    intro p hp
    rcases List.mem_cons.mp hp with rfl | hp
    · exact he.elim
    · exact h.stored p hp
  slot := by rw [lastPayload_quiet he, ← h.slot]

theorem other {id : Int} {p : Option Text} (h : Window n outcome log window early)
    (hid : id ≠ n) :
    Window n outcome (.responded id p :: log) (.responded id p :: window) early where
  split := by rw [h.split, List.cons_append]
  inside := by
    intro m hm
    rcases List.mem_cons.mp hm with hm | hm
    · cases hm
    · exact h.inside m hm
  once := h.once
  stored := by
    intro q hq
    rcases List.mem_cons.mp hq with hq | hq
    · cases hq
      exact absurd rfl hid
    · exact h.stored q hq
  slot := by rw [lastPayload, if_neg hid, ← h.slot]

theorem store (h : Window n outcome log window early) (payload : Text) :
    Window n (some payload) (.responded n (some payload) :: log)
      (.responded n (some payload) :: window) early where
  split := by rw [h.split, List.cons_append]
  inside := by
    intro m hm
    rcases List.mem_cons.mp hm with hm | hm
    · cases hm
    · exact h.inside m hm
  once := h.once
  stored := by
    intro q hq
    rcases List.mem_cons.mp hq with hq | hq
    · cases hq
      exact Option.some_ne_none _
    · exact h.stored q hq
  slot := by rw [lastPayload, if_pos rfl]

end Window

/-! ## the invariant -/

/-- what is below an entry `took n got r`: the drain that just ended, and the window of `n`, whose
last payload is what was read -/
def OwnTake (n : Int) (got : Option Text) (r : Except TerminationReason Output)
    (earlier : List Obs) : Prop :=
  ∃ window early, earlier = .drained n (.ok ()) :: window ++ .began n :: early ∧
    (∀ m, .began m ∉ window) ∧ .began n ∉ early ∧
    (∀ p, .responded n p ∈ window → p ≠ none) ∧ got = lastPayload n window ∧
    (got = none → ∃ kind : Kind, r = .error (.exception (kind.name ++
      txt " handler did not settle: async host operations are not supported yet")))

/-- an entry about an outcome that was read is about its dispatch's own -/
def OwnEntry : Obs → List Obs → Prop
  | .took n got r, earlier => OwnTake n got r earlier
  | _, _ => True

/-- every outcome read so far was its dispatch's own -/
def OwnTakes (log : List Obs) : Prop := Logged OwnEntry log

theorem OwnTakes.quiet {log : List Obs} {e : Obs} (h : OwnTakes log) (he : Quiet e) :
    OwnTakes (e :: log) := by
  refine ⟨?_, h⟩
  cases e with
  | took n got r => exact he.elim
  | _ => trivial

namespace Worker
variable {J : Type} {crates : Crates} {w w' : Worker J}

/-- the dispatch in flight has its window -/
def HasWindow (w : Worker J) : Prop :=
  ∃ window early, Window w.dispatches w.slots.outcome w.log window early

structure Isolated (w : Worker J) : Prop where
  coherent : Coherent w
  begun : ∀ m, .began m ∈ w.log → m ≤ w.dispatches
  flying : w.kind ≠ .build → w.pc ≠ .idle → HasWindow w
  /-- a drain that ended is the last thing that happened -/
  ended : w.pc = .ended (.ok ()) → ∃ log, w.log = .drained w.dispatches (.ok ()) :: log
  takes : OwnTakes w.log

theorem take_did_not_settle (kind : Kind) (slots : HostSlots) (h : slots.outcome = none) :
    (take crates kind slots).1 = .error (.exception (kind.name ++
      txt " handler did not settle: async host operations are not supported yet")) := by
  cases kind <;> simp [take, HostSlots.takeOutcome, h, Except.map]

theorem step_begun {a : Act J} (hw : ∀ m, .began m ∈ w.log → m ≤ w.dispatches)
    (h : step crates w a = some w') : ∀ m, .began m ∈ w'.log → m ≤ w'.dispatches := by
  cases step_cases h with
  | dispatch event kind =>
    intro m hm
    rcases List.mem_cons.mp hm with hm | hm
    · cases hm
      exact le_refl _
    · exact le_of_lt (Int.lt_add_one_of_le (hw m hm))
  | ready reply rest p answer log hpc hb ha hlog | await rest p log hpc hb ha hlog =>
    intro m hm
    subst hlog
    split at hm <;> simp at hm <;> exact hw m hm
  | tick | enqueue | respondMatch | respondThrows | timerStart | timerClear | dispatcherThrew
  | jobOver | callbackOver | noJobs | putBack | noBindings | sleep | built
  | abort => exact hw
  | _ =>
    intro m hm
    simp at hm
    exact hw m hm

theorem step_flying {a : Act J} (hw : Isolated w) (h : step crates w a = some w') :
    w'.kind ≠ .build → w'.pc ≠ .idle → HasWindow w' := by
  have hquiet : ∀ e, Quiet e → w.kind ≠ .build → w.pc ≠ .idle →
      ∃ window early, Window w.dispatches w.slots.outcome (e :: w.log) window early := by
    intro e he hk hne
    obtain ⟨window, early, hwin⟩ := hw.flying hk hne
    exact ⟨e :: window, early, hwin.quiet he⟩
  have hpolled : ∀ (p : Pending) log, (log = if p.answer.asks then .invoked p.call :: w.log
      else w.log) → w.kind ≠ .build → w.pc ≠ .idle →
      ∃ window early, Window w.dispatches w.slots.outcome log window early := by
    intro p log hlog hk hne
    rw [hlog]
    split
    · exact hquiet _ trivial hk hne
    · exact hw.flying hk hne
  cases step_cases h with
  | tick | abort => exact hw.flying
  | enqueue _ _ hpc | respondMatch _ _ hpc | respondThrows _ _ _ hpc
  | timerStart _ _ _ _ _ _ hpc | timerClear _ _ hpc =>
    exact hw.flying
  | dispatcherThrew _ hpc | jobOver _ _ _ hpc | callbackOver _ _ hpc
  | noJobs _ _ hpc | putBack _ _ _ hpc | noBindings _ hpc | sleep _ _ _ _ hpc =>
    exact fun hk _ => hw.flying hk (by simp [hpc])
  | respondOther id c hpc hid =>
    intro hk hne
    obtain ⟨window, early, hwin⟩ := hw.flying hk (by simp [hpc])
    exact ⟨_, early, hwin.other (hw.coherent.slot ▸ hid)⟩
  | respondPayload payload id frames c hpc hf =>
    intro hk hne
    obtain ⟨window, early, hwin⟩ := hw.flying hk (by simp [hpc])
    have hid : id = w.dispatches := hw.coherent.frames id (by simp [hf])
    subst hid
    exact ⟨_, early, hwin.store payload⟩
  | binding _ _ _ _ _ _ hpc | drain _ _ hpc | jobCap _ hpc | runJob _ _ _ hpc | answered _ _ _ hpc
  | elapsed _ _ hpc | noTimers hpc | fireLate _ _ _ _ hpc | wake _ hpc =>
    exact fun hk _ => hquiet _ trivial hk (by simp [hpc])
  | startupThrew message hpc =>
    exact fun hk _ => absurd (hw.coherent.startup hpc) hk
  | ready reply rest p answer log hpc hb ha hlog =>
    intro hk hne
    obtain ⟨window, early, hwin⟩ := hpolled p log hlog hk (by simp [hpc])
    exact ⟨_, early, hwin.quiet trivial⟩
  | await rest p log hpc hb ha hlog =>
    exact fun hk hne => hpolled p log hlog hk (by simp [hpc])
  | overran pre t post next deadline hpc =>
    intro hk hne
    obtain ⟨window, early, hwin⟩ := hw.flying hk (by simp [hpc])
    exact ⟨_, early, (hwin.quiet (e := .overran t w.dispatches) trivial).quiet trivial⟩
  | refuse event reason hpc => exact fun _ hne => absurd hpc hne
  | dispatch event kind hpc =>
    intro _ _
    refine ⟨[], w.log, Window.start fun hm => ?_⟩
    have hle : w.dispatches + 1 ≤ w.dispatches := hw.begun _ hm
    omega
  | buildFailed reason hpc hk => exact fun hne _ => absurd hk hne
  | built hpc hk => exact fun hne _ => absurd hk hne
  | failed | took => exact fun _ hne => absurd rfl hne

theorem step_over {a : Act J} (hw : w.pc = .ended (.ok ()) →
      ∃ log, w.log = .drained w.dispatches (.ok ()) :: log)
    (h : step crates w a = some w') :
    w'.pc = .ended (.ok ()) → ∃ log, w'.log = .drained w'.dispatches (.ok ()) :: log := by
  cases step_cases h with
  | tick => exact hw
  | noTimers hpc ht => exact fun _ => ⟨w.log, rfl⟩
  | enqueue _ _ hpc | respondOther _ _ hpc | respondMatch _ _ hpc | respondPayload _ _ _ _ hpc
  | respondThrows _ _ _ hpc | timerStart _ _ _ _ _ _ hpc | timerClear _ _ hpc
  | binding _ _ _ _ _ _ hpc | refuse _ _ hpc | abort hpc => simp [hpc]
  | _ => simp

theorem step_takes {a : Act J} (hw : Isolated w) (h : step crates w a = some w') :
    OwnTakes w'.log := by
  have hpolled : ∀ (p : Pending) log, (log = if p.answer.asks then .invoked p.call :: w.log
      else w.log) → OwnTakes log := by
    intro p log hlog
    rw [hlog]
    split
    · exact hw.takes.quiet trivial
    · exact hw.takes
  cases step_cases h with
  | tick | enqueue | respondMatch | respondThrows | timerStart | timerClear | dispatcherThrew
  | jobOver | callbackOver | noJobs | putBack | noBindings | sleep | built
  | abort => exact hw.takes
  | respondOther | respondPayload | dispatch => exact ⟨trivial, hw.takes⟩
  | binding | drain | startupThrew | jobCap | runJob | answered | elapsed | noTimers | fireLate | wake
  | refuse | buildFailed | failed => exact hw.takes.quiet trivial
  | ready reply rest p answer log hpc hb ha hlog => exact (hpolled p log hlog).quiet trivial
  | await rest p log hpc hb ha hlog => exact hpolled p log hlog
  | overran pre t post next deadline hpc =>
    exact (hw.takes.quiet (e := .overran t w.dispatches) trivial).quiet trivial
  | took hpc hk =>
    refine ⟨?_, hw.takes⟩
    obtain ⟨window, early, hwin⟩ := hw.flying hk (by simp [hpc])
    obtain ⟨log, hlog⟩ := hw.ended hpc
    -- the end of the drain is the newest entry of the window
    cases window with
    | nil =>
      have hsplit := hwin.split
      rw [hlog] at hsplit
      cases hsplit
    | cons e window =>
      have hsplit := hwin.split
      rw [hlog, List.cons_append] at hsplit
      obtain ⟨rfl, -⟩ := List.cons.inj hsplit
      refine ⟨window, early, hwin.split, fun m hm => hwin.inside m (List.mem_cons_of_mem _ hm),
        hwin.once, fun p hp => hwin.stored p (List.mem_cons_of_mem _ hp), hwin.slot,
        fun hnone => ⟨w.kind, take_did_not_settle w.kind w.slots hnone⟩⟩

theorem Isolated.step {a : Act J} (hw : Isolated w) (h : step crates w a = some w') :
    Isolated w' :=
  ⟨hw.coherent.step h, step_begun hw.begun h, step_flying hw h, step_over hw.ended h,
    step_takes hw h⟩

theorem Isolated.build (ops : Bool) (ms now : Nat) : Isolated (build ops ms now : Worker J) where
  coherent := Coherent.build ops ms now
  begun := by simp [Worker.build]
  flying := fun hk => absurd rfl hk
  ended := by simp [Worker.build]
  takes := trivial

theorem Reached.isolated (h : Reached crates w) : Isolated w :=
  h.inv Isolated.build fun _ _ _ hw hs => hw.step hs

end Worker

end NovaRuntime
