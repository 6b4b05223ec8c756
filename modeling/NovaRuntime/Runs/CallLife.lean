import NovaRuntime.Runs.CallOrder

/-!
# The life of a binding call

A call is queued, the operations handler is asked for it if its answer asks, and then it is answered
or given up.  While the drain waits for an answer nothing else happens; and a timer fires, and a
drain ends well, only when no call waits.

* `CallLife`, `CallLife.next`   how far a call has come, and the entries that may come next;
* `CallLife.Fits`    what the worker says about it;
* `step_life`        an act of the worker only logs what may come next;
* `every_call_lives`   so does a run, for every call;
* `CallLife.Shows`   what the log says about a call;
* `calls_before_timers`   what every call has come to when a timer fires.
-/

namespace NovaRuntime
open Lib

inductive CallLife where
  | unmade
  /-- in the queue; `asks` if the operations handler is to be asked for the answer -/
  | queued (asks : Bool)
  /-- the drain waits for what the handler answers -/
  | asked
  | answered
  /-- the drain ended while it waited -/
  | givenUp
  deriving DecidableEq

/-- the call that an entry is about -/
def Obs.call : Obs → Option Nat
  | .called call _ | .invoked call => some call
  | .settled p _ _ _ _ => some p.call
  | _ => none

/-- an entry that comes only when no call waits -/
def Obs.comesLast : Obs → Bool
  | .fired _ _ _ _ | .overran _ _ | .took _ _ _ | .drained _ (.ok ()) => true
  | _ => false

namespace CallLife

/-- what an entry about this call makes of it -/
def own : CallLife → Obs → Option CallLife
  | .unmade, .called _ asks => some (.queued asks)
  | .queued true, .invoked _ => some .asked
  | .queued false, .settled _ _ _ _ _ => some .answered
  | .asked, .settled _ _ _ _ _ => some .answered
  | _, _ => none

/-- what any other entry makes of it -/
def other : CallLife → Obs → Option CallLife
  | .queued asks, e => if e.comesLast then none else some (.queued asks)
  | .asked, .drained _ (.error .wallClockTimeout) => some .givenUp
  | .asked, _ => none
  | life, _ => some life

def next (k : Nat) (life : CallLife) (e : Obs) : Option CallLife :=
  if e.call = some k then life.own e else life.other e

variable {k : Nat} {life : CallLife} {e : Obs}

theorem next_own (he : e.call = some k) : next k life e = life.own e := if_pos he

theorem next_other (he : e.call ≠ some k) : next k life e = life.other e := if_neg he

/-- An entry about nothing that concerns the call leaves it where it is. -/
theorem next_self (hasked : life ≠ .asked) (hcall : e.call ≠ some k)
    (hlast : e.comesLast = true → ∀ asks, life ≠ queued asks) : next k life e = some life := by
  rw [next_other hcall]
  cases life with
  | queued asks =>
    show (if e.comesLast then none else some (queued asks)) = _
    rw [if_neg fun hl => hlast hl asks rfl]
  | asked => exact absurd rfl hasked
  | unmade | answered | givenUp => rfl

theorem run_self {es : List Obs} (hasked : life ≠ .asked)
    (hes : ∀ e ∈ es, e.call ≠ some k ∧ (e.comesLast = true → ∀ asks, life ≠ queued asks)) :
    run (next k) life es = some life := by
  induction es with
  | nil => rfl
  | cons e es ih =>
    obtain ⟨hcall, hlast⟩ := hes e List.mem_cons_self
    rw [run_cons, next_self hasked hcall hlast]
    exact ih fun e he => hes e (List.mem_cons_of_mem _ he)

end CallLife

namespace Worker
variable {J : Type} {crates : Crates} {w w' : Worker J} {k : Nat} {life : CallLife}

/-- the drain waits for the answer of this call -/
def Awaits (w : Worker J) (k : Nat) : Prop := ∃ p, w.pc = .awaiting p ∧ p.call = k

/-- this call is in the queue -/
def Holds (w : Worker J) (k : Nat) : Prop := ∃ p ∈ w.slots.bindings, p.call = k

theorem not_awaits (h : ∀ p, w.pc ≠ .awaiting p) : ¬ w.Awaits k := fun ⟨p, hp, _⟩ => h p hp

end Worker

/-- what the worker says about a call that has come so far -/
def CallLife.Fits {J : Type} (k : Nat) (w : Worker J) : CallLife → Prop
  | .unmade => w.calls ≤ k ∧ ¬ w.Holds k ∧ ¬ w.Awaits k
  | .queued asks => (∃ p ∈ w.slots.bindings, p.call = k ∧ p.answer.asks = asks) ∧ ¬ w.Awaits k
  | .asked => k < w.calls ∧ ¬ w.Holds k ∧ w.Awaits k
  | .answered | .givenUp => k < w.calls ∧ ¬ w.Holds k ∧ ¬ w.Awaits k

/-- The worker logged only what may come next for the call, and shows where the call is now. -/
def CallLife.LivesOn {J : Type} (k : Nat) (w w' : Worker J) (life : CallLife) : Prop :=
  ∃ late life', w'.log = late ++ w.log ∧ run (next k) life late.reverse = some life' ∧
    life'.Fits k w'

namespace CallLife
variable {J : Type} {crates : Crates} {w w' : Worker J} {k : Nat} {life life' : CallLife} {e : Obs}

theorem Fits.congr (hb : w'.slots.bindings = w.slots.bindings) (hc : w'.calls = w.calls)
    (hpc : w'.Awaits k ↔ w.Awaits k) : life.Fits k w' ↔ life.Fits k w := by
  have hholds : w'.Holds k ↔ w.Holds k := by rw [Worker.Holds, Worker.Holds, hb]
  cases life with
  | queued asks => exact and_congr (by rw [hb]) (not_congr hpc)
  | unmade => exact and_congr (by rw [hc]) (and_congr (not_congr hholds) (not_congr hpc))
  | asked => exact and_congr (by rw [hc]) (and_congr (not_congr hholds) hpc)
  | answered | givenUp =>
    exact and_congr (by rw [hc]) (and_congr (not_congr hholds) (not_congr hpc))

theorem Fits.not_asked (h : life.Fits k w) (hpc : ¬ w.Awaits k) : life ≠ .asked := by
  rintro rfl
  exact hpc h.2.2

/-- A call is queued only while the queue holds it. -/
theorem Fits.not_queued (h : life.Fits k w) (hb : w.slots.bindings = []) (asks : Bool) :
    life ≠ .queued asks := by
  rintro rfl
  obtain ⟨p, hp, -⟩ := h.1
  rw [hb] at hp
  exact absurd hp List.not_mem_nil

theorem Fits.silent (h : life.Fits k w) (hlog : w'.log = w.log)
    (hb : w'.slots.bindings = w.slots.bindings) (hc : w'.calls = w.calls)
    (hpc : w'.Awaits k ↔ w.Awaits k) : life.LivesOn k w w' :=
  ⟨[], life, hlog, rfl, (Fits.congr hb hc hpc).mpr h⟩

/-- Nothing is logged about the call, and nothing that has to wait for it. -/
theorem Fits.bystands (late : List Obs) (h : life.Fits k w) (hlog : w'.log = late ++ w.log)
    (hlate : ∀ e ∈ late, e.call = none ∧ (e.comesLast = true → w.slots.bindings = []))
    (hb : w'.slots.bindings = w.slots.bindings) (hc : w'.calls = w.calls)
    (hpc : ∀ p, w.pc ≠ .awaiting p) (hpc' : ∀ p, w'.pc ≠ .awaiting p) : life.LivesOn k w w' := by
  have hidle : ¬ w.Awaits k := Worker.not_awaits hpc
  refine ⟨late, life, hlog, run_self (h.not_asked hidle) fun e he => ?_, ?_⟩
  · obtain ⟨hcall, hlast⟩ := hlate e (List.mem_reverse.mp he)
    exact ⟨by simp [hcall], fun hl => h.not_queued (hlast hl)⟩
  · exact (Fits.congr hb hc (iff_of_false (Worker.not_awaits hpc') hidle)).mpr h

/-! ## the calls that a step is about -/

theorem Fits.made {id : F64} {answer : Answer} (h : life.Fits k w) (hw : w.HasQueue)
    (hpc : ∀ p, w.pc ≠ .awaiting p)
    (hlog : w'.log = .called w.calls answer.asks :: w.log)
    (hb : w'.slots.bindings = w.slots.bindings ++ [⟨id, answer, w.calls, w.dispatches⟩])
    (hc : w'.calls = w.calls + 1) (hpc' : w'.pc = w.pc) : life.LivesOn k w w' := by
  have hidle : ¬ w.Awaits k := Worker.not_awaits hpc
  have hidle' : ¬ w'.Awaits k := Worker.not_awaits (hpc' ▸ hpc)
  have hholds : w'.Holds k ↔ w.Holds k ∨ w.calls = k := by
    simp [Worker.Holds, hb, or_and_right, exists_or]
  by_cases hk : w.calls = k
  · -- it is this one
    have hlife : life = .unmade := by
      cases life with
      | unmade => rfl
      | queued asks =>
        obtain ⟨p, hp, hpk, -⟩ := h.1
        exact absurd (hw.fresh p hp) (by omega)
      | asked | answered | givenUp => exact absurd h.1 (by omega)
    subst hlife
    refine ⟨[.called w.calls answer.asks], .queued answer.asks, hlog, run_one _ ?_, ?_, hidle'⟩
    · exact next_own (congrArg some hk)
    · exact ⟨_, hb ▸ List.mem_append_right _ List.mem_cons_self, hk, rfl⟩
  · refine ⟨[.called w.calls answer.asks], life, hlog, ?_, ?_⟩
    · refine run_one _ (next_self (h.not_asked hidle) ?_ ?_)
      · exact fun heq => hk (Option.some.inj heq)
      · exact fun hl => absurd hl Bool.false_ne_true
    · have hholds : w'.Holds k ↔ w.Holds k := hholds.trans (or_iff_left hk)
      cases life with
      | unmade =>
        have hle : w.calls ≤ k := h.1
        have hle' : w'.calls ≤ k := by omega
        exact ⟨hle', mt hholds.mp h.2.1, hidle'⟩
      | queued asks =>
        obtain ⟨p, hp, hpk⟩ := h.1
        exact ⟨⟨p, hb ▸ List.mem_append_left _ hp, hpk⟩, hidle'⟩
      | asked => exact absurd h.2.2 hidle
      | answered | givenUp =>
        have hlt : k < w.calls := h.1
        have hlt' : k < w'.calls := by omega
        exact ⟨hlt', mt hholds.mp h.2.1, hidle'⟩

/-- the call that is taken off the queue has waited there -/
theorem Fits.taken {rest : List Pending} {p : Pending} (h : life.Fits p.call w) (hw : w.HasQueue)
    (hb : w.slots.bindings = rest ++ [p]) : life = .queued p.answer.asks := by
  have hmem : p ∈ w.slots.bindings := hb ▸ List.mem_append_right _ List.mem_cons_self
  have hlt : p.call < w.calls := hw.fresh p hmem
  cases life with
  | unmade => exact absurd h.1 (by omega)
  | queued asks =>
    obtain ⟨q, hq, hqk, rfl⟩ := h.1
    rw [hb] at hq
    rcases List.mem_append.mp hq with hq | hq
    · have hw : Queued (rest ++ [p]) w.calls w.log := hb ▸ hw
      exact absurd hqk (Nat.ne_of_lt (hw.last_lt q hq))
    · rw [List.mem_singleton.mp hq]
  | asked | answered | givenUp => exact absurd ⟨p, hmem, rfl⟩ h.2.1

/-- the calls behind it in the queue stay where they are -/
theorem Fits.passed {rest : List Pending} {p : Pending} (h : life.Fits k w)
    (hasked : life ≠ .asked) (hk : p.call ≠ k) (hb : w.slots.bindings = rest ++ [p])
    (hb' : w'.slots.bindings = rest) (hc : w'.calls = w.calls) (hpc' : ¬ w'.Awaits k) :
    life.Fits k w' := by
  have hmem : ∀ q ∈ w.slots.bindings, q.call = k → q ∈ w'.slots.bindings := by
    intro q hq hqk
    rw [hb] at hq
    rcases List.mem_append.mp hq with hq | hq
    · exact hb' ▸ hq
    · rw [List.mem_singleton.mp hq] at hqk
      exact absurd hqk hk
  have hholds : ¬ w.Holds k → ¬ w'.Holds k := by
    rintro hno ⟨q, hq, hqk⟩
    exact hno ⟨q, hb ▸ List.mem_append_left _ (hb' ▸ hq), hqk⟩
  cases life with
  | unmade => exact ⟨hc.symm ▸ h.1, hholds h.2.1, hpc'⟩
  | queued asks =>
    obtain ⟨q, hq, hqk, hasks⟩ := h.1
    exact ⟨⟨q, hmem q hq hqk, hqk, hasks⟩, hpc'⟩
  | asked => exact absurd rfl hasked
  | answered | givenUp => exact ⟨hc.symm ▸ h.1, hholds h.2.1, hpc'⟩

theorem not_holds_last {rest : List Pending} {p : Pending} (hw : w.HasQueue)
    (hb : w.slots.bindings = rest ++ [p]) (hb' : w'.slots.bindings = rest) :
    ¬ w'.Holds p.call := by
  have hw : Queued (rest ++ [p]) w.calls w.log := hb ▸ hw
  rintro ⟨q, hq, hqk⟩
  exact Nat.ne_of_lt (hw.last_lt q (hb' ▸ hq)) hqk

/-- the last call is taken, and its answer is there at once -/
theorem Fits.settled {rest : List Pending} {p : Pending} {answer : Except Text Text}
    (h : life.Fits k w) (hw : w.HasQueue) (hpc : w.pc = .bindings)
    (hb : w.slots.bindings = rest ++ [p])
    (hlog : w'.log = .settled p answer w.dispatches w.now false ::
      if p.answer.asks then .invoked p.call :: w.log else w.log)
    (hb' : w'.slots.bindings = rest) (hc : w'.calls = w.calls)
    (hpc' : ∀ p, w'.pc ≠ .awaiting p) : life.LivesOn k w w' := by
  have hidle' : ¬ w'.Awaits k := Worker.not_awaits hpc'
  have hlog : w'.log = (.settled p answer w.dispatches w.now false ::
      if p.answer.asks then [.invoked p.call] else []) ++ w.log := by
    rw [hlog]
    split <;> rfl
  by_cases hk : p.call = k
  · subst hk
    obtain rfl := h.taken hw hb
    have hlt : p.call < w.calls := hw.fresh p (hb ▸ List.mem_append_right _ List.mem_cons_self)
    refine ⟨_, .answered, hlog, ?_, hc.symm ▸ hlt, not_holds_last hw hb hb', hidle'⟩
    cases p.answer.asks <;> simp [run, next, own, Obs.call]
  · have hasked := h.not_asked (Worker.not_awaits (by simp [hpc]))
    refine ⟨_, life, hlog, run_self hasked fun e he => ?_,
      h.passed hasked hk hb hb' hc hidle'⟩
    rcases List.mem_cons.mp (List.mem_reverse.mp he) with rfl | he
    · exact ⟨fun heq => hk (Option.some.inj heq), fun hl => absurd hl Bool.false_ne_true⟩
    · split at he
      · rw [List.mem_singleton.mp he]
        exact ⟨fun heq => hk (Option.some.inj heq), fun hl => absurd hl Bool.false_ne_true⟩
      · exact absurd he List.not_mem_nil

/-- the last call is taken, and the drain waits for its answer -/
theorem Fits.invoked {rest : List Pending} {p : Pending} (h : life.Fits k w) (hw : w.HasQueue)
    (hpc : w.pc = .bindings) (hb : w.slots.bindings = rest ++ [p])
    (hasks : p.answer.asks = true) (hlog : w'.log = .invoked p.call :: w.log)
    (hb' : w'.slots.bindings = rest) (hc : w'.calls = w.calls) (hpc' : w'.pc = .awaiting p) :
    life.LivesOn k w w' := by
  by_cases hk : p.call = k
  · subst hk
    obtain rfl := h.taken hw hb
    have hlt : p.call < w.calls := hw.fresh p (hb ▸ List.mem_append_right _ List.mem_cons_self)
    refine ⟨[.invoked p.call], .asked, hlog, run_one _ ?_, hc.symm ▸ hlt,
      not_holds_last hw hb hb', p, hpc', rfl⟩
    rw [next_own rfl, hasks]
    rfl
  · have hasked := h.not_asked (Worker.not_awaits (by simp [hpc]))
    have hidle' : ¬ w'.Awaits k := by
      rintro ⟨q, hq, hqk⟩
      rw [hpc', Pc.awaiting.injEq] at hq
      exact hk (hq ▸ hqk)
    refine ⟨[.invoked p.call], life, hlog, run_one _ (next_self hasked ?_ ?_),
      h.passed hasked hk hb hb' hc hidle'⟩
    · exact fun heq => hk (Option.some.inj heq)
    · exact fun hl => absurd hl Bool.false_ne_true

/-- The wait for an answer is over: its call is done with, and no other was concerned. -/
theorem Fits.waited {p : Pending} (done : CallLife) (h : life.Fits k w) (hpc : w.pc = .awaiting p)
    (hlog : w'.log = e :: w.log) (hcall : ∀ j, e.call = some j → j = p.call)
    (hlast : e.comesLast = false)
    (hdone : next p.call .asked e = some done) (hover : done = .answered ∨ done = .givenUp)
    (hb : w'.slots.bindings = w.slots.bindings) (hc : w'.calls = w.calls)
    (hpc' : ∀ p, w'.pc ≠ .awaiting p) : life.LivesOn k w w' := by
  have hidle' : ¬ w'.Awaits k := Worker.not_awaits hpc'
  by_cases hk : p.call = k
  · subst hk
    have hlife : life = .asked := by
      cases life with
      | asked => rfl
      | unmade => exact absurd ⟨p, hpc, rfl⟩ h.2.2
      | queued asks => exact absurd ⟨p, hpc, rfl⟩ h.2
      | answered | givenUp => exact absurd ⟨p, hpc, rfl⟩ h.2.2
    subst hlife
    have hholds : ¬ w'.Holds p.call := by
      rw [Worker.Holds, hb]
      exact h.2.1
    have hfits : p.call < w'.calls ∧ ¬ w'.Holds p.call ∧ ¬ w'.Awaits p.call :=
      ⟨hc.symm ▸ h.1, hholds, hidle'⟩
    refine ⟨[e], done, hlog, run_one _ hdone, ?_⟩
    rcases hover with rfl | rfl
    · exact hfits
    · exact hfits
  · have hidle : ¬ w.Awaits k := by
      rintro ⟨q, hq, hqk⟩
      rw [hpc, Pc.awaiting.injEq] at hq
      exact hk (hq ▸ hqk)
    refine ⟨[e], life, hlog, run_one _ (next_self (h.not_asked hidle) ?_ ?_),
      (Fits.congr hb hc (iff_of_false hidle' hidle)).mpr h⟩
    · exact fun heq => hk (hcall k heq).symm
    · exact fun hl => absurd (hlast.symm.trans hl) Bool.false_ne_true

end CallLife

namespace Worker
variable {J : Type} {crates : Crates} {w w' : Worker J} {k : Nat} {life : CallLife}

/-- A future that has no answer without the handler asks it. -/
theorem asks_of_poll {answer : Answer} (h : answer.poll crates none = none) :
    answer.asks = true := by
  cases answer with
  | ready => cases h
  | _ => rfl

/-- An act of the worker logs only what may come next in the life of a call. -/
theorem step_life {a : Act J} (hw : HasQueue w) (hd : Drained w) (hlife : life.Fits k w)
    (h : step crates w a = some w') : life.LivesOn k w w' := by
  cases step_cases h with
  | tick => exact hlife.silent rfl rfl rfl Iff.rfl
  | enqueue _ c hpc | respondMatch _ c hpc | respondThrows _ _ c hpc
  | timerStart _ _ _ _ _ c hpc | timerClear _ c hpc | dispatcherThrew _ hpc | jobOver _ _ _ hpc
  | callbackOver _ _ hpc | noJobs _ _ hpc | putBack _ _ _ hpc | noBindings _ hpc
  | sleep _ _ _ _ hpc | built hpc | abort hpc =>
    refine hlife.silent rfl rfl rfl (iff_of_false (not_awaits ?_) (not_awaits ?_)) <;> simp [hpc]
  | respondOther _ c hpc | respondPayload _ _ _ c hpc | drain _ _ hpc | startupThrew _ hpc
  | jobCap _ hpc | runJob _ _ _ hpc | refuse _ _ hpc | dispatch _ _ hpc | buildFailed _ hpc
  | failed _ hpc =>
    refine hlife.bystands [_] rfl ?_ rfl rfl ?_ ?_ <;> simp [hpc, Obs.call, Obs.comesLast]
  | binding id kind name params answer c hpc ha =>
    exact hlife.made hw (by simp [hpc]) rfl rfl rfl rfl
  | ready reply rest p answer log hpc hb ha hlog =>
    subst hlog
    exact hlife.settled hw hpc hb rfl rfl rfl (by simp)
  | await rest p log hpc hb ha hlog =>
    have hasks := asks_of_poll ha
    rw [if_pos hasks] at hlog
    exact hlife.invoked hw hpc hb hasks hlog rfl rfl rfl
  | answered reply p answer hpc ha =>
    refine hlife.waited .answered hpc rfl ?_ rfl ?_ (.inl rfl) rfl rfl (by simp)
    · rintro j ⟨⟩
      rfl
    · exact CallLife.next_own rfl
  | elapsed p deadline hpc =>
    refine hlife.waited .givenUp hpc rfl ?_ rfl ?_ (.inr rfl) rfl rfl (by simp)
    · rintro j ⟨⟩
    · exact CallLife.next_other (by simp [Obs.call])
  | noTimers hpc | fireLate _ _ _ _ hpc | wake _ hpc =>
    rw [Drained, hpc] at hd
    refine hlife.bystands [_] rfl ?_ rfl rfl ?_ ?_ <;> simp [hpc, Obs.call, hd.2]
  | overran _ _ _ _ _ hpc =>
    rw [Drained, hpc] at hd
    refine hlife.bystands [_, _] rfl ?_ rfl rfl ?_ ?_ <;> simp [hpc, Obs.call, hd.2]
  | took hpc =>
    rw [Drained, hpc] at hd
    refine hlife.bystands [_] rfl ?_ rfl rfl ?_ ?_ <;> simp [hpc, Obs.call, hd.2.2]

theorem reached_life (h : Reached crates w) (k : Nat) : HasQueue w ∧ Drained w ∧
    ∃ life, run (CallLife.next k) .unmade w.log.reverse = some life ∧ life.Fits k w := by
  refine h.inv (P := fun w => HasQueue w ∧ Drained w ∧
    ∃ life, run (CallLife.next k) .unmade w.log.reverse = some life ∧ life.Fits k w) ?_ ?_
  · refine fun ops ms now => ⟨HasQueue.build ops ms now, Drained.build ops ms now, .unmade, rfl,
      Nat.zero_le k, ?_, not_awaits fun p => by simp [Worker.build]⟩
    rintro ⟨p, hp, -⟩
    exact absurd hp List.not_mem_nil
  · rintro w a w' ⟨hw, hd, life, hlife, hfits⟩ hstep
    obtain ⟨late, life', hlog, hrun, hfits'⟩ := step_life hw hd hfits hstep
    refine ⟨step_hasQueue hw hstep, step_drained hd hstep, life', ?_, hfits'⟩
    rw [hlog, List.reverse_append, run_append, hlife]
    exact hrun

/-- Every binding call of every run goes through one life: it is queued, asked for if its answer
asks, and answered or given up; while the drain waits for it nothing else happens, and no timer fires
and no drain ends well while it is queued. -/
theorem every_call_lives (h : Reached crates w) (k : Nat) :
    ∃ life, run (CallLife.next k) .unmade w.log.reverse = some life ∧ life.Fits k w :=
  (reached_life h k).2.2

/-- a query that is answered after the drain has waited for it, and then a timer -/
def queryAndTimer : List (Act Unit) :=
  [.guest (.binding (.ofNat 1) (txt "query") (txt "DB") (txt "\x7b\"sql\":\"x\"\x7d")),
    .guest (.timerStart (.ofNat 1) .nan false), .evalOver none, .drainJobs true, .popBinding none,
    .answered (.database (.error [])), .evalOver none, .drainJobs true, .popBinding none,
    .nextTimer, .tick 2000000, .wake]

theorem every_call_lives_query : ∃ w : Worker Unit, Reached Crates.bare w ∧
    w.log.head?.any Obs.comesLast = true ∧ CallLife.answered.Fits 0 w := by
  obtain ⟨w, hrun, hw⟩ := (Option.any_eq_true _ _).mp (show (run (step Crates.bare)
      (Worker.build true 0 0) queryAndTimer).any (fun w => w.log.head?.any Obs.comesLast &&
        run (CallLife.next 0) .unmade w.log.reverse == some .answered) = true by decide +kernel)
  obtain ⟨hlast, hlife⟩ := (Bool.and_eq_true _ _).mp hw
  have hreached : Reached Crates.bare w := ⟨true, 0, 0, queryAndTimer, hrun⟩
  obtain ⟨life, hlife', hfits⟩ := every_call_lives hreached 0
  rw [eq_of_beq hlife, Option.some.injEq] at hlife'
  exact ⟨w, hreached, hlast, hlife' ▸ hfits⟩

end Worker

/-! ## read off the log -/

/-- the entries about a call, newest first -/
def about (k : Nat) (log : List Obs) : List Obs := log.filter fun e => e.call == some k

namespace CallLife
variable {k : Nat} {life life' : CallLife} {e : Obs} {log : List Obs}

/-- what the log says about a call that has come so far -/
def Shows (k : Nat) (log : List Obs) : CallLife → Prop
  | unmade => about k log = []
  | queued asks => about k log = [.called k asks]
  | asked => about k log = [.invoked k, .called k true]
  | answered => ∃ p answer n now waited, p.call = k ∧
      (about k log = [.settled p answer n now waited, .invoked k, .called k true] ∨
        about k log = [.settled p answer n now waited, .called k false])
  | givenUp => about k log = [.invoked k, .called k true] ∧
      ∃ n, .drained n (.error .wallClockTimeout) ∈ log

theorem about_own (he : e.call = some k) : about k (e :: log) = e :: about k log :=
  List.filter_cons_of_pos (by simp [he])

theorem about_other (he : e.call ≠ some k) : about k (e :: log) = about k log :=
  List.filter_cons_of_neg (by simp [he])

theorem shows_own (he : e.call = some k) (h : life.Shows k log) (hown : life.own e = some life') :
    life'.Shows k (e :: log) := by
  cases life with
  | unmade =>
    cases e with
    | called call asks =>
      cases hown
      cases he
      exact (about_own rfl).trans (congrArg _ h)
    | _ => cases hown
  | queued asks =>
    cases asks with
    | true =>
      cases e with
      | invoked call =>
        cases hown
        cases he
        exact (about_own rfl).trans (congrArg _ h)
      | _ => cases hown
    | false =>
      cases e with
      | settled p answer n now waited =>
        cases hown
        cases he
        exact ⟨p, answer, n, now, waited, rfl, .inr ((about_own rfl).trans (congrArg _ h))⟩
      | _ => cases hown
  | asked =>
    cases e with
    | settled p answer n now waited =>
      cases hown
      cases he
      exact ⟨p, answer, n, now, waited, rfl, .inl ((about_own rfl).trans (congrArg _ h))⟩
    | _ => cases hown
  | answered => cases hown
  | givenUp => cases hown

theorem shows_other (he : e.call ≠ some k) (h : life.Shows k log)
    (hother : life.other e = some life') : life'.Shows k (e :: log) := by
  have habout : about k (e :: log) = about k log := about_other he
  cases life with
  | unmade =>
    cases hother
    exact habout.trans h
  | queued asks =>
    obtain ⟨-, hlife⟩ := Option.ite_none_left_eq_some.mp hother
    cases hlife
    exact habout.trans h
  | asked =>
    unfold other at hother
    split at hother
    · contradiction
    · next n heq =>
      cases hother
      exact ⟨habout.trans h, n, List.mem_cons_self⟩
    · contradiction
    · contradiction
  | answered =>
    cases hother
    obtain ⟨p, answer, n, now, waited, hp, h⟩ := h
    exact ⟨p, answer, n, now, waited, hp, by rwa [habout]⟩
  | givenUp =>
    cases hother
    obtain ⟨h, n, hn⟩ := h
    exact ⟨habout.trans h, n, List.mem_cons_of_mem _ hn⟩

/-- How far a call has come can be read off the entries about it. -/
theorem shows_of_run (h : run (next k) unmade log.reverse = some life) : life.Shows k log := by
  induction log generalizing life with
  | nil =>
    cases h
    rfl
  | cons e log ih =>
    rw [List.reverse_cons] at h
    obtain ⟨m, hm, hnext⟩ := run_snoc_some _ h
    by_cases he : e.call = some k
    · exact shows_own he (ih hm) (next_own he ▸ hnext)
    · exact shows_other he (ih hm) (next_other he ▸ hnext)

end CallLife

namespace Worker
variable {J : Type} {crates : Crates} {w : Worker J} {k : Nat} {asks : Bool} {e : Obs}
  {late earlier : List Obs}

/-- When a timer fires or a drain ends well, every call that was made before has been answered,
exactly once, or given up by a drain that ran out of time while it waited. -/
theorem calls_before_timers (h : Reached crates w) (hlog : w.log = late ++ e :: earlier)
    (he : e.comesLast = true) (hcalled : .called k asks ∈ earlier) :
    CallLife.answered.Shows k earlier ∨ CallLife.givenUp.Shows k earlier := by
  obtain ⟨-, -, life, hrun, -⟩ := reached_life h k
  rw [hlog, List.reverse_append, List.reverse_cons, run_append] at hrun
  obtain ⟨now, hrun, -⟩ := Option.bind_eq_some_iff.mp hrun
  obtain ⟨before, hbefore, hnext⟩ := run_snoc_some _ hrun
  have hshows := CallLife.shows_of_run hbefore
  have hne : e.call ≠ some k := by
    cases e with
    | called | invoked | settled => exact absurd he Bool.false_ne_true
    | _ => simp [Obs.call]
  rw [CallLife.next_other hne] at hnext
  cases before with
  | unmade =>
    have hmem : .called k asks ∈ about k earlier :=
      List.mem_filter.mpr ⟨hcalled, by simp [Obs.call]⟩
    rw [show about k earlier = [] from hshows] at hmem
    exact absurd hmem List.not_mem_nil
  | queued asks =>
    obtain ⟨hlast, -⟩ := Option.ite_none_left_eq_some.mp hnext
    exact absurd he hlast
  | asked =>
    cases e with
    | drained n r => cases r <;> contradiction
    | _ => contradiction
  | answered => exact .inl hshows
  | givenUp => exact .inr hshows

end Worker

end NovaRuntime
