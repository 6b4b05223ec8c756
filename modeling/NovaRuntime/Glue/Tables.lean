import NovaRuntime.Glue.CallSettlement
import NovaRuntime.Glue.TimerDelivery

/-!
# The two halves of the timer and binding tables

A timer is an entry of the glue's map and one of the host's list, a binding call an entry of the
glue's map and one of the host's queue.

* `Matched`    the invariant of either view: the two sides name the same timers, or calls;
* `Clean`      the moves that keep it;
* `Agree`, `Tidy`   the same for a runtime, and the acts whose moves are clean.
-/

namespace NovaRuntime
open Lib

namespace TimerView

/-- Each entry of the map is a timer of the host or is about to be one, and each timer of the host
is an entry of the map. -/
structure Matched (v : TimerView) : Prop where
  held : ∀ h r, (h, r) ∈ v.table → (h, r) ∈ v.opened ∨
    ∃ t, (t ∈ v.armed ∨ v.taken = some t) ∧ t.handle = .ofNat h
  known : ∀ t, t ∈ v.armed ∨ v.taken = some t →
    ∃ h, (h, t.period.isSome) ∈ v.table ∧ t.handle = .ofNat h
  /-- an interval that is due is in the list again -/
  again : ∀ t, v.taken = some t → t.period.isSome = true → ∃ u ∈ v.armed, u.handle = t.handle

/-- The host is told of a timer exactly if the map still has it, and a drain that ends in an error
leaves the timers. -/
structure Clean (v v' : TimerView) : Prop where
  settled : ∀ e rest, v.opened = e :: rest → v'.opened = rest → (e ∈ v.table ↔ v'.armed ≠ v.armed)
  kept : ∀ reason, v'.log = .drained (.error reason) :: v.log → v'.armed = v.armed

namespace Matched
variable {v : TimerView}

theorem mint (h : Matched v) (r : Bool) : Matched { v with
    table := v.table ++ [(v.nextTimer, r)]
    nextTimer := v.nextTimer + 1
    opened := (v.nextTimer, r) :: v.opened
    log := .minted v.nextTimer r :: v.log } where
  held := by
    intro k r' hk
    rcases List.mem_append.mp hk with hk | hk
    · exact (h.held k r' hk).imp (List.mem_cons_of_mem _) id
    · cases List.mem_singleton.mp hk
      exact .inl List.mem_cons_self
  known := by
    intro t ht
    obtain ⟨k, hk, hh⟩ := h.known t ht
    exact ⟨k, List.mem_append_left _ hk, hh⟩
  again := h.again

theorem arm {k : Nat} {r : Bool} {rest : List (Nat × Bool)} (h : Matched v) (d seq : Nat)
    (origin : Int) (ht : v.taken = none) (ho : v.opened = (k, r) :: rest) (hk : (k, r) ∈ v.table) :
    Matched { v with
      armed := v.armed ++ [⟨.ofNat k, v.now + d, if r then some d else none, seq, origin⟩]
      opened := rest
      log := .armed k d v.now :: v.log } where
  held := by
    intro j r' hj
    rcases h.held j r' hj with hopen | ⟨t, hmem | htaken, hh⟩
    · rw [ho] at hopen
      rcases List.mem_cons.mp hopen with heq | hopen
      · cases heq
        exact .inr ⟨_, .inl (List.mem_append_right _ List.mem_cons_self), rfl⟩
      · exact .inl hopen
    · exact .inr ⟨t, .inl (List.mem_append_left _ hmem), hh⟩
    · exact .inr ⟨t, .inr htaken, hh⟩
  known := by
    rintro t (hmem | htaken)
    · rcases List.mem_append.mp hmem with hmem | hmem
      · exact h.known t (.inl hmem)
      · cases List.mem_singleton.mp hmem
        refine ⟨k, ?_, rfl⟩
        cases r <;> exact hk
    · exact h.known t (.inr htaken)
  again := by simp [ht]

theorem abandon {k : Nat} {r : Bool} {rest : List (Nat × Bool)} (h : Matched v)
    (ho : v.opened = (k, r) :: rest) (hk : (k, r) ∉ v.table) :
    Matched { v with opened := rest } where
  held := by
    intro j r' hj
    refine (h.held j r' hj).imp (fun hopen => ?_) id
    rw [ho] at hopen
    rcases List.mem_cons.mp hopen with heq | hopen
    · cases heq
      exact absurd hj hk
    · exact hopen
  known := h.known
  again := h.again

theorem clear (h : Matched v) (x : F64) (ht : v.taken = none) : Matched { v with
    armed := v.armed.filter fun t => !F64.eq t.handle x
    table := v.table.filter fun e => F64.ofNat e.1 ≠ x
    log := .cleared x :: v.log } := by
  have hkept : ∀ k, (!F64.eq (.ofNat k) x) = decide (F64.ofNat k ≠ x) := by
    intro k
    rw [Bool.eq_iff_iff, Bool.not_eq_true', ← Bool.not_eq_true, F64.eq_ofNat, decide_eq_true_eq]
    exact not_congr eq_comm
  exact {
    held := by
      intro k r hk
      obtain ⟨hk, hne⟩ := List.mem_filter.mp hk
      refine (h.held k r hk).imp id ?_
      rintro ⟨t, hmem | htaken, hh⟩
      · exact ⟨t, .inl (List.mem_filter.mpr ⟨hmem, by rw [hh, hkept]; exact hne⟩), hh⟩
      · rw [ht] at htaken
        cases htaken
    known := by
      rintro t (hmem | htaken)
      · obtain ⟨hmem, hne⟩ := List.mem_filter.mp hmem
        obtain ⟨k, hk, hh⟩ := h.known t (.inl hmem)
        rw [hh, hkept] at hne
        exact ⟨k, List.mem_filter.mpr ⟨hk, hne⟩, hh⟩
      · rw [ht] at htaken
        cases htaken
    again := by simp [ht] }

theorem take {pre post next : List Timer} {t : Timer} (h : Matched v) (ht : v.taken = none)
    (ha : v.armed = pre ++ t :: post) (hn : rearm t = some next) :
    Matched { v with armed := pre ++ next ++ post, taken := some t } := by
  have hkeep : ∀ u ∈ v.armed, u = t ∨ u ∈ pre ++ next ++ post := by
    intro u hu
    rw [ha] at hu
    simp only [List.mem_append, List.mem_cons] at hu ⊢
    tauto
  have hnew : ∀ u ∈ next, u.handle = t.handle ∧ u.period.isSome = t.period.isSome := by
    intro u hu
    rcases rearm_cases hn with ⟨-, rfl⟩ | ⟨d, -, rfl⟩
    · cases hu
    · cases List.mem_singleton.mp hu
      exact ⟨rfl, rfl⟩
  have htm : t ∈ v.armed := by simp [ha]
  exact {
    held := by
      intro k r hk
      refine (h.held k r hk).imp id ?_
      rintro ⟨u, hu | hu, hh⟩
      · rcases hkeep u hu with rfl | hu
        · exact ⟨u, .inr rfl, hh⟩
        · exact ⟨u, .inl hu, hh⟩
      · rw [ht] at hu
        cases hu
    known := by
      have hone := h.known t (.inl htm)
      rintro u (hu | hu)
      · simp only [List.mem_append] at hu
        rcases hu with (hu | hu) | hu
        · exact h.known u (.inl (by simp [ha, hu]))
        · rw [(hnew u hu).1, (hnew u hu).2]
          exact hone
        · exact h.known u (.inl (by simp [ha, hu]))
      · cases hu
        exact hone
    again := by
      intro u hu hp
      cases hu
      rcases rearm_cases hn with ⟨hnone, -⟩ | ⟨d, -, rfl⟩
      · rw [hnone] at hp
        cases hp
      · exact ⟨{ t with due := t.due + max d (fromMillis 1) }, by simp, rfl⟩ }

theorem fire {t : Timer} (h : Matched v) (hs : Sound v) (ht : v.taken = some t) :
    Matched (v.fire t) := by
  obtain ⟨k, hk, hh⟩ := h.known t (.inr ht)
  cases hf : v.table.find? fun e => F64.ofNat e.1 = t.handle with
  | none => exact absurd (decide_eq_true hh.symm) (List.find?_eq_none.mp hf _ hk)
  | some e =>
    obtain ⟨k', r⟩ := e
    obtain ⟨hk', hh'⟩ := Sound.found hf
    obtain rfl : k' = k := F64.ofNat_inj.mp (hh'.trans hh)
    have hr : r = t.period.isSome := hs.mintedOnce k' r _ (hs.table k' r hk').1 (hs.table k' _ hk).1
    have hkeep : ∀ j r', (j, r') ∈ v.table → j ≠ k' → (j, r') ∈ (v.fire t).table :=
      fun _ _ => Sound.mem_fire hf
    have hleft : ∀ j r', (j, r') ∈ (v.fire t).table → (j, r') ∈ v.table ∧ (r' = false → j ≠ k') :=
      fun _ _ => Sound.of_mem_fire hf hs
    rw [Sound.fire_eq hf] at hkeep hleft ⊢
    exact {
      held := by
        intro j r' hj
        obtain ⟨hjt, hne⟩ := hleft j r' hj
        refine (h.held j r' hjt).imp id ?_
        rintro ⟨u, hu | hu, huh⟩
        · exact ⟨u, .inl hu, huh⟩
        · -- the timer that is due: its entry is still there only if it repeats
          rw [ht] at hu
          cases hu
          obtain rfl : j = k' := F64.ofNat_inj.mp (huh.symm.trans hh)
          have hr' := hs.mintedOnce j r' _ (hs.table j r' hjt).1 (hs.table j _ hk).1
          cases hp : t.period.isSome with
          | false => exact absurd rfl (hne (hr'.trans hp))
          | true =>
            obtain ⟨u, hu, huh'⟩ := h.again t ht hp
            exact ⟨u, .inl hu, huh'.trans hh⟩
      known := by
        rintro u (hu | hu)
        · obtain ⟨j, hj, huh⟩ := h.known u (.inl hu)
          refine ⟨j, ?_, huh⟩
          by_cases hjk : j = k'
          · subst hjk
            obtain ⟨d, hp, -⟩ := hs.again t ht u hu (huh.trans hh.symm)
            show (j, _) ∈ if r then v.table else _
            rw [hr, hp]
            exact hj
          · exact hkeep j _ hj hjk
        · cases hu
      again := by simp }

theorem move {v' : TimerView} (h : Matched v) (hs : Sound v) (hc : Clean v v') (hm : Moves v v') :
    Matched v' := by
  cases hm with
  | idle => exact { h with }
  | mint r => exact h.mint r
  | arm k r rest d seq origin ht ho =>
    exact h.arm d seq origin ht ho ((hc.settled _ rest ho rfl).mpr (by simp))
  | abandon k r rest ho => exact h.abandon ho fun hk => (hc.settled _ rest ho rfl).mp hk rfl
  | clear id ht => exact h.clear id ht
  | take pre t post next ht ha hn => exact h.take ht ha hn
  | fire t ht => exact h.fire hs ht
  | fireLate pre t post next ht ha hn => exact (h.take ht ha hn).fire (hs.take ht ha hn) rfl
  | drop reason =>
    have hnil : [] = v.armed := hc.kept reason rfl
    rw [hnil]
    exact { h with }
  | drained r => exact { h with }

end Matched
end TimerView

namespace CallView

/-- Each entry of the map is a call of the queue or is about to be one. -/
def Matched (v : CallView) : Prop :=
  ∀ k ∈ v.table, k ∈ v.opened ∨ ∃ p, (p ∈ v.queue ∨ v.awaited = some p) ∧ p.id = .ofNat k

/-- A call that was opened reaches the queue, and one that was waited for leaves the map. -/
structure Clean (v v' : CallView) : Prop where
  asked : ∀ k rest, v.opened = k :: rest → v'.opened = rest → v'.queue ≠ v.queue
  answered : ∀ p, v.awaited = some p → v'.awaited = none → ∀ k ∈ v'.table, p.id ≠ .ofNat k

namespace Matched
variable {crates : Crates} {v : CallView}

theorem call (h : Matched v) : Matched { v with
    table := v.table ++ [v.next]
    next := v.next + 1
    opened := v.next :: v.opened
    log := .call v.next :: v.log } := by
  intro k hk
  rcases List.mem_append.mp hk with hk | hk
  · exact (h k hk).imp (List.mem_cons_of_mem _) id
  · cases List.mem_singleton.mp hk
    exact .inl List.mem_cons_self

theorem ask {k : Nat} {rest : List Nat} (h : Matched v) (answer : Answer) (call : Nat)
    (origin : Int) (ho : v.opened = k :: rest) : Matched { v with
      queue := v.queue ++ [⟨.ofNat k, answer, call, origin⟩]
      opened := rest
      log := .asked k answer :: v.log } := by
  intro j hj
  rcases h j hj with hopen | ⟨p, hp, hid⟩
  · rw [ho] at hopen
    rcases List.mem_cons.mp hopen with rfl | hopen
    · exact .inr ⟨_, .inl (List.mem_append_right _ List.mem_cons_self), rfl⟩
    · exact .inl hopen
  · exact .inr ⟨p, hp.imp (List.mem_append_left _) id, hid⟩

theorem await {rest : List Pending} {p : Pending} (h : Matched v) (ha : v.awaited = none)
    (hq : v.queue = rest ++ [p]) : Matched { v with queue := rest, awaited := some p } := by
  intro k hk
  refine (h k hk).imp id ?_
  rintro ⟨q, hmem | hmem, hid⟩
  · rw [hq] at hmem
    rcases List.mem_append.mp hmem with hmem | hmem
    · exact ⟨q, .inl hmem, hid⟩
    · cases List.mem_singleton.mp hmem
      exact ⟨p, .inr rfl, hid⟩
  · rw [ha] at hmem
    cases hmem

/-- the call that was waited for is gone from both sides -/
theorem release {p : Pending} {table : List Nat} {log : List CallNote} (h : Matched v)
    (ha : v.awaited = some p) (hsub : ∀ k ∈ table, k ∈ v.table)
    (hne : ∀ k ∈ table, p.id ≠ .ofNat k) :
    Matched { v with awaited := none, table := table, log := log } := by
  intro k hk
  refine (h k (hsub k hk)).imp id ?_
  rintro ⟨q, hmem | hmem, hid⟩
  · exact ⟨q, .inl hmem, hid⟩
  · obtain rfl : p = q := Option.some.inj (ha.symm.trans hmem)
    exact absurd hid (hne k hk)

theorem settleBinding_table {table : List Nat} {log : List CallNote} {id : F64}
    {answer : Except Text Text} {k : Nat} (hk : k ∈ (settleBinding crates table log id answer).1) :
    k ∈ table ∧ id ≠ .ofNat k := by
  unfold settleBinding at hk
  split at hk
  · next hf =>
    refine ⟨hk, fun heq => ?_⟩
    exact List.find?_eq_none.mp hf k hk (decide_eq_true heq.symm)
  · obtain ⟨hk, hne⟩ := List.mem_filter.mp hk
    exact ⟨hk, fun heq => of_decide_eq_true hne heq.symm⟩

theorem answered {p : Pending} (h : Matched v) (answer : Except Text Text)
    (ha : v.awaited = some p) : Matched ({ v with awaited := none }.settle crates p.id answer) :=
  h.release ha (fun _ hk => (settleBinding_table hk).1) fun _ hk => (settleBinding_table hk).2

theorem move {v' : CallView} (h : Matched v) (hc : Clean v v') (hm : Moves crates v v') :
    Matched v' := by
  cases hm with
  | idle => exact h
  | call => exact h.call
  | ask k rest answer call origin hr ha ho => exact h.ask answer call origin ho
  | throw k rest ho => exact absurd rfl (hc.asked k rest ho rfl)
  | await rest p ha hq => exact h.await ha hq
  | ready rest p reply answer ha hq hp =>
    have hready : Matched (settle crates { v with queue := rest, awaited := none } p.id answer) :=
      (h.await ha hq).answered answer rfl
    simpa [ha] using hready
  | answered p reply answer ha hp => exact h.answered answer ha
  | expire p reason ha => exact h.release ha (fun _ hk => hk) (hc.answered p ha rfl)
  | drained r hr => exact h

end Matched
end CallView

namespace Runtime
variable {S : Type} {crates : Crates} {wire : Kind → S → Option Text} {f f' : Runtime S}

/-- `Worker::build` or `exec` has returned. -/
def Returned (f : Runtime S) : Prop := f.worker.pc = .idle ∨ f.worker.pc = .dead

/-- The handles of the glue's map of timers are those of the host's list, and the ids of its map of
calls are those of the host's queue. -/
def Agree (f : Runtime S) : Prop :=
  (∀ x, (∃ e ∈ f.glue.timers, F64.ofNat e.1 = x) ↔ ∃ t ∈ f.worker.slots.timers, t.handle = x) ∧
    ∀ x, (∃ k ∈ f.glue.pending, F64.ofNat k = x) ↔ ∃ p ∈ f.worker.slots.bindings, p.id = x

/-- An act that leaves nothing behind on one side: a delay is converted without clearing its own
timer, and throws only if it has; parameters do not throw; a call is not given up, and no timer is
due after the deadline. -/
def Tidy (f : Runtime S) : GlueAct S → Prop
  | .scheduled _ => ∀ e ∈ f.glue.frames.head?.bind Frame.timer, e ∈ f.glue.timers
  | .scheduleThrows => ∀ e ∈ f.glue.frames.head?.bind Frame.timer, e ∉ f.glue.timers
  | .callThrows => False
  | .host .elapsed => False
  | .host .nextTimer => ∀ found ∈ firstDue f.worker.slots.timers, ∀ deadline ∈ f.worker.deadline,
      found.2.1.due ≤ deadline
  | _ => True

instance (f : Runtime S) (a : GlueAct S) : Decidable (f.Tidy a) := by
  unfold Tidy
  split <;> infer_instance

/-! ## the acts -/

theorem opened_ne {α : Type} {xs ys : List α} (h : ys = xs) (e : α) : xs ≠ e :: ys := by
  rw [h]
  exact fun heq => List.cons_ne_self _ _ heq.symm

/-- The host's acts open and close nothing but reactions. -/
theorem follow_filterMap {α : Type} {φ : Frame S → Option α}
    (hφ : ∀ n kind s, φ (.reaction n kind s) = none) (g : Glue S) (w w' : Worker (Work S))
    (a : Act (Work S)) : (g.follow crates w w' a).frames.filterMap φ = g.frames.filterMap φ := by
  have henter : ∀ g : Glue S, (g.enter crates w'.now w'.pc).frames.filterMap φ = g.frames.filterMap φ := by
    intro g
    unfold Glue.enter
    split
    · exact List.filterMap_cons_none (hφ _ _ _)
    all_goals rfl
  cases a with
  | elapsed =>
    rw [Glue.follow, henter]
    cases w.pc <;> rfl
  | exec event =>
    rw [Glue.follow]
    split <;> rfl
  | drainJobs | popBinding | answered | nextTimer | wake => exact henter g
  | _ => rfl

theorem runTimer_not_drained {table : List (Nat × Bool)} {log : List TimerNote} {handle : F64}
    {now : Nat} {r : Except TerminationReason Unit} :
    (runTimer table log handle now).2 ≠ .drained r :: log := by
  unfold runTimer
  split
  · exact opened_ne rfl _
  · simp

theorem timers_clean (ho : ∀ e, f.timerView.opened ≠ e :: f'.timerView.opened)
    (hk : ∀ reason, f'.timerView.log = .drained (.error reason) :: f.timerView.log →
      f'.timerView.armed = f.timerView.armed) : TimerView.Clean f.timerView f'.timerView where
  settled e _ hopen hrest := absurd (hrest ▸ hopen) (ho e)
  kept := hk

theorem host_timers_clean {a : Act (Work S)} {w : Worker (Work S)} (ht : f.Tidy (.host a))
    (hmay : f.hostMay a = true) (hw : Worker.step crates f.worker a = some w) :
    TimerView.Clean f.timerView (Runtime.timerView ⟨w, f.glue.follow crates f.worker w a⟩) := by
  refine timers_clean
    (fun e => opened_ne (follow_filterMap (fun _ _ _ => rfl) f.glue f.worker w a) e) ?_
  intro reason hlog
  cases Worker.step_cases hw with
  | timerStart | timerClear => cases hmay
  | overran pre t post next deadline hpc hfirst hn hd hlt =>
    exact absurd (ht _ hfirst deadline hd) (Nat.not_le_of_lt hlt)
  | sleep => exact absurd hlog (opened_ne rfl _)
  | fireLate => exact absurd hlog runTimer_not_drained
  | _ => rfl

theorem step_timers_clean {a : GlueAct S} (ht : f.Tidy a) (h : step crates wire f a = some f') :
    TimerView.Clean f.timerView f'.timerView := by
  cases step_cases h with
  | host a w hmay hw => exact host_timers_clean ht hmay hw
  | schedule r =>
    refine timers_clean (fun e heq => ?_) fun _ _ => rfl
    have hlen : f.timerView.opened.length = f.timerView.opened.length + 1 + 1 :=
      congrArg List.length heq
    omega
  | scheduled handle r frames delay d w hf hd hw =>
    cases Worker.step_cases hw with
    | timerStart =>
      refine ⟨fun e rest ho _ => iff_of_true ?_ (by simp [timerView]),
        fun _ hlog => by simp [timerView] at hlog⟩
      have he : e = (handle, r) := by
        simp only [timerView, hf, List.filterMap_cons, Frame.timer] at ho
        exact (List.cons.inj ho).1.symm
      exact ht e (by simp [hf, he, Frame.timer])
  | scheduleThrows handle r frames hf =>
    refine ⟨fun e rest ho _ => iff_of_false ?_ (by simp [timerView]), fun _ _ => rfl⟩
    have he : e = (handle, r) := by
      simp only [timerView, hf, List.filterMap_cons, Frame.timer] at ho
      exact (List.cons.inj ho).1.symm
    exact ht e (by simp [hf, he, Frame.timer])
  | cancel x w hw =>
    exact timers_clean (fun e => opened_ne rfl e) fun _ hlog => by simp [timerView] at hlog
  | enqueue w hw | settles n kind s w hn hw =>
    exact timers_clean (fun e => opened_ne rfl e) fun _ _ => native_timers hw (by simp) (by simp)
  | call kind name => exact timers_clean (fun e => opened_ne rfl e) fun _ _ => rfl
  | called id kind name frames params w hf hw =>
    refine timers_clean (fun e => opened_ne ?_ e) fun _ _ => native_timers hw (by simp) (by simp)
    simp [timerView, hf, List.filterMap_cons, Frame.timer]
  | callThrows id kind name frames hf => cases ht
  | silent n kind s frames hf =>
    refine timers_clean (fun e => opened_ne ?_ e) fun _ _ => rfl
    simp [timerView, hf, List.filterMap_cons, Frame.timer]
  | responded n kind s frames payload w hf hs hw =>
    refine timers_clean (fun e => opened_ne ?_ e) fun _ _ => respond_timers hw
    simp [timerView, hf, List.filterMap_cons, Frame.timer]

theorem calls_clean (ho : ∀ k, f.callView.opened ≠ k :: f'.callView.opened)
    (ha : ∀ p, f.callView.awaited = some p → f'.callView.awaited = none →
      ∀ k ∈ f'.callView.table, p.id ≠ .ofNat k) : CallView.Clean f.callView f'.callView where
  asked k _ hopen hrest := absurd (hrest ▸ hopen) (ho k)
  answered := ha

theorem pc_of_awaited {p : Pending} (h : f.callView.awaited = some p) :
    f.worker.pc = .awaiting p := by
  unfold callView at h
  dsimp only at h
  split at h
  · next hpc => rw [hpc, Option.some.inj h]
  · cases h

theorem host_calls_clean {a : Act (Work S)} {w : Worker (Work S)} (ht : f.Tidy (.host a))
    (hw : Worker.step crates f.worker a = some w) :
    CallView.Clean f.callView (Runtime.callView ⟨w, f.glue.follow crates f.worker w a⟩) := by
  refine calls_clean (fun k => opened_ne (follow_filterMap (fun _ _ _ => rfl) f.glue f.worker w a) k) ?_
  intro p ha hn
  have hpc := pc_of_awaited ha
  cases a with
  | answered reply =>
    rw [Worker.step, hpc] at hw
    obtain ⟨answer, hp, rfl⟩ := Option.map_eq_some_iff.mp hw
    exact fun k hk => (CallView.Matched.settleBinding_table hk).2
  | elapsed => cases ht
  | tick d =>
    cases hw
    rw [callView] at hn
    simp [hpc] at hn
  | _ => simp [Worker.step, hpc] at hw

theorem awaited_evaluating (he : f.evaluating = true) : f.callView.awaited = none := by
  unfold evaluating at he
  split at he
  · next c hpc => exact awaited_eval hpc
  · cases he

theorem step_calls_clean {a : GlueAct S} (hf : Calm f) (ht : f.Tidy a)
    (h : step crates wire f a = some f') : CallView.Clean f.callView f'.callView := by
  have hnone : f.callView.awaited = none → ∀ p, f.callView.awaited = some p →
      f'.callView.awaited = none → ∀ k ∈ f'.callView.table, p.id ≠ .ofNat k := by
    intro hn p hp
    rw [hn] at hp
    cases hp
  have hframe : ∀ {fr frames}, f.glue.frames = fr :: frames → f.callView.awaited = none :=
    fun hfr => awaited_eval (hf.eval hfr).choose_spec
  have hnative : ∀ {g w}, Worker.step crates f.worker (.guest g) = some w →
      f.callView.awaited = none :=
    fun hw => awaited_eval (native_pc hw).1.choose_spec
  cases step_cases h with
  | host a w hmay hw => exact host_calls_clean ht hw
  | enqueue w hw | settles n kind s w hn hw | cancel x w hw =>
    exact calls_clean (fun k => opened_ne rfl k) (hnone (hnative hw))
  | schedule r he => exact calls_clean (fun k => opened_ne rfl k) (hnone (awaited_evaluating he))
  | scheduled handle r frames delay d w hfr hd hw =>
    refine calls_clean (fun k => opened_ne ?_ k) (hnone (hnative hw))
    simp [callView, hfr, List.filterMap_cons, Frame.call?]
  | scheduleThrows handle r frames hfr | silent n kind s frames hfr
  | responded n kind s frames payload w hfr =>
    refine calls_clean (fun k => opened_ne ?_ k) (hnone (hframe hfr))
    simp [callView, hfr, List.filterMap_cons, Frame.call?]
  | call kind name he =>
    refine calls_clean (fun k heq => ?_) (hnone (awaited_evaluating he))
    have hlen : f.callView.opened.length = f.callView.opened.length + 1 + 1 :=
      congrArg List.length heq
    omega
  | called id kind name frames params w hfr hw =>
    refine ⟨fun k rest ho _ => ?_, hnone (hnative hw)⟩
    cases Worker.step_cases hw with
    | binding => simp [callView]
  | callThrows id kind name frames hfr => cases ht

/-! ## runs -/

theorem build_matched (ops : Bool) (ms now : Nat) :
    (build ops ms now : Runtime S).timerView.Matched ∧
      (build ops ms now : Runtime S).callView.Matched := by
  constructor
  · constructor <;>
      simp [timerView, build, Glue.default, Worker.build, HostSlots.default]
  · intro k hk
    cases hk

/-- When `Worker::build` or `exec` returns after a run of tidy acts, the glue's map of timers names
exactly the timers of the host's list, and its map of calls exactly the calls of the host's queue. -/
theorem tables_agree {ops : Bool} {ms now : Nat} {acts : List (GlueAct S)}
    (h : run (step crates wire) (build ops ms now) acts = some f)
    (ht : Meets (step crates wire) Tidy (build ops ms now) acts) (hr : f.Returned) : f.Agree := by
  let I : Runtime S → Prop := fun f => (Calm f ∧ Worker.Drained f.worker) ∧
    (f.timerView.Sound ∧ f.callView.Sound crates) ∧ f.timerView.Matched ∧ f.callView.Matched
  have hI : I f := by
    refine run_inv_of_meets (step crates wire) (P := I) ?_ ?_ ht h
    · rintro f a f' ⟨⟨hcalm, hdrained⟩, ⟨htimers, hcalls⟩, hmt, hmc⟩ ha hs
      have hcall := step_calls hcalm hdrained hs
      exact ⟨⟨hcalm.step hs, step_drained hdrained hs⟩,
        ⟨htimers.move (step_moves hs), hcalls.move hcall⟩,
        hmt.move htimers (step_timers_clean ha hs) (step_moves hs),
        hmc.move (step_calls_clean hcalm ha hs) hcall⟩
    · exact ⟨⟨Calm.build ops ms now, trivial⟩, ⟨build_sound ops ms now, build_calls ops ms now⟩,
        build_matched ops ms now⟩
  obtain ⟨⟨hcalm, -⟩, ⟨-, hsound⟩, hmt, hmc⟩ := hI
  have hframes : f.glue.frames = [] := hcalm fun c hpc => by rcases hr with hr | hr <;> simp [hr] at hpc
  have htaken : f.timerView.taken = none := by rcases hr with hr | hr <;> simp [timerView, hr]
  have hawaited : f.callView.awaited = none := by rcases hr with hr | hr <;> simp [callView, hr]
  refine ⟨fun x => ⟨?_, ?_⟩, fun x => ⟨?_, ?_⟩⟩
  · rintro ⟨⟨k, r⟩, hk, rfl⟩
    rcases hmt.held k r hk with hopen | ⟨t, hmem | hmem, hh⟩
    · simp [timerView, hframes] at hopen
    · exact ⟨t, hmem, hh⟩
    · rw [htaken] at hmem
      cases hmem
  · rintro ⟨t, hmem, rfl⟩
    obtain ⟨k, hk, hh⟩ := hmt.known t (.inl hmem)
    exact ⟨_, hk, hh.symm⟩
  · rintro ⟨k, hk, rfl⟩
    rcases hmc k hk with hopen | ⟨p, hmem | hmem, hid⟩
    · simp [callView, hframes] at hopen
    · exact ⟨p, hmem, hid⟩
    · rw [hawaited] at hmem
      cases hmem
  · rintro ⟨p, hmem, rfl⟩
    obtain ⟨k, hid, hk, -⟩ := hsound.waiting p (.inl hmem)
    exact ⟨k, hk, hid.symm⟩

/-- a script that sets an interval and makes a query, and then throws -/
def openedThenThrew : List (GlueAct Unit) :=
  [.host (.evalOver none), .host (.drainJobs true), .host (.popBinding none), .host .nextTimer,
    .host .finish, .host (.exec (.task (some ⟨[], none, .null, none, 0⟩))), .schedule true,
    .scheduled .nan, .call (txt "query") (txt "DB"), .called (txt "\x7b\"sql\":\"x\"\x7d"),
    .host (.evalOver (some [])), .host .finish]

theorem tables_agree_opened : ∃ f : Runtime Unit,
    run (step Crates.bare fun _ _ => none) (build true 0 0) openedThenThrew = some f ∧
      f.glue.timers = [(1, true)] ∧ f.glue.pending = [1] ∧ f.Agree := by
  obtain ⟨f, hrun, htimers, hpending, hidle⟩ : ∃ f : Runtime Unit,
      run (step Crates.bare fun _ _ => none) (build true 0 0) openedThenThrew = some f ∧
        f.glue.timers = [(1, true)] ∧ f.glue.pending = [1] ∧ f.worker.pc = .idle :=
    ⟨_, rfl, rfl, rfl, rfl⟩
  exact ⟨f, hrun, htimers, hpending, tables_agree hrun (by decide +kernel) (.inl hidle)⟩

/-- `setTimeout` with a delay whose conversion throws -/
theorem a_timer_that_failed_to_start_stays : ¬ ∀ f : Runtime Unit,
    Reached Crates.bare (fun _ _ => none) f → f.Returned → f.Agree := by
  intro hall
  obtain ⟨f, hrun, hheld, hlost, hidle⟩ : ∃ f : Runtime Unit,
      run (step Crates.bare fun _ _ => none) (build true 0 0) [.schedule false, .scheduleThrows,
        .host (.evalOver none), .host (.drainJobs true), .host (.popBinding none),
        .host .nextTimer, .host .finish] = some f ∧
        f.glue.timers = [(1, false)] ∧ f.worker.slots.timers = [] ∧ f.worker.pc = .idle :=
    ⟨_, rfl, rfl, rfl, rfl⟩
  have hagree := (hall f ⟨true, 0, 0, _, hrun⟩ (.inl hidle)).1 (.ofNat 1)
  rw [hheld, hlost] at hagree
  simp at hagree

end Runtime

end NovaRuntime
