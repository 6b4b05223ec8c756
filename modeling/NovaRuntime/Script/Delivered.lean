import NovaRuntime.Glue.SettlementOrder
import NovaRuntime.Script.Delivery

/-!
# A settled handler reaches the host

The runtime with the real glue: a handler ends as `Handled`, and the reaction to its dispatch
responds with `dispatchText`.  `Delivered` is what the host should find when the drain has ended.
-/

namespace NovaRuntime
open Lib

namespace Runtime

/-- The host was responded to once, after the promise settled, and `take_outcome` will decode what
is in the slot. -/
def Delivered (limit : Option Nat) (f : Runtime Handled) (handled : Handled) : Prop :=
  ∃ payload, notes f.worker.dispatches f.glue.settleLog =
      [.responded f.worker.dispatches payload, .finished f.worker.dispatches handled] ∧
    f.worker.slots.outcome = some (decodeLossy payload) ∧
    Decodes limit f.worker.kind (decodeLossy payload)

variable {crates : Crates} {headersToWire : JsVal → Js (List (JsVal × JsVal))}
  {f : Runtime Handled}

/-- When a drain has ended in Ok and the promise of its dispatch settled, the outcome is delivered
exactly when the end of the handler is a deliverable one. -/
theorem settled_handler_is_delivered_iff {handled : Handled}
    (h : Reached crates (dispatchText headersToWire) f) (hl : crates.limit = none)
    (hn : f.worker.dispatches < 2 ^ 53) (hpc : f.worker.pc = .ended (.ok ()))
    (hs : .finished f.worker.dispatches handled ∈ f.glue.settleLog) :
    Delivered crates.limit f handled ↔ Deliverable headersToWire f.worker.kind handled := by
  obtain ⟨hlog, hslot⟩ := reaction_of_settled h hn hpc hs
  rw [← dispatchText_decodes_iff, Delivered, hl, hlog, hslot]
  cases dispatchText headersToWire f.worker.kind handled with
  | none => simp [reactionNote]
  | some payload => simp [reactionNote]

/-- the crates of a run, without serde's limit -/
def deepCrates : Crates := { Crates.bare with limit := none }

/-- a run of one task whose handler ends so -/
def taskRun (handled : Handled) : List (GlueAct Handled) :=
  [.host (.evalOver none), .host (.drainJobs true), .host (.popBinding none), .host .nextTimer,
    .host .finish, .host (.exec (.task (some ⟨[], none, .null, none, 1⟩))),
    .settles 1 .task handled, .host (.evalOver none), .host (.drainJobs true), .reacted,
    .host (.evalOver none), .host (.drainJobs true), .host (.popBinding none), .host .nextTimer]

/-- a task that returns null -/
theorem settled_handler_is_delivered_null : ∃ f : Runtime Handled,
    Reached deepCrates (dispatchText fun _ => .ok []) f ∧
      Delivered none f (.ended true (.ok .null)) := by
  obtain ⟨f, payload, hrun, hn, hpc, hkind, hlog⟩ : ∃ (f : Runtime Handled) (payload : Text),
      run (step deepCrates (dispatchText fun _ => .ok [])) (build false 0 0)
        (taskRun (.ended true (.ok .null))) = some f ∧
      f.worker.dispatches = 1 ∧ f.worker.pc = .ended (.ok ()) ∧ f.worker.kind = .task ∧
      f.glue.settleLog = [.drained (.ok ()), .responded 1 payload,
        .finished 1 (.ended true (.ok .null)), .drained (.ok ())] :=
    ⟨_, _, rfl, rfl, rfl, rfl, rfl⟩
  have hreached : Reached deepCrates (dispatchText fun _ => .ok []) f := ⟨false, 0, 0, _, hrun⟩
  refine ⟨f, hreached, (settled_handler_is_delivered_iff hreached rfl ?_ hpc ?_).mpr ?_⟩
  · rw [hn]
    norm_num
  · simp [hn, hlog]
  · rw [hkind]
    exact ⟨.null false, rfl⟩

/-- A task that returns a BigInt: its promise settles and the host is never told. -/
theorem a_bigint_is_not_delivered : ¬ ∀ (f : Runtime Handled) (handled : Handled),
    Reached deepCrates (dispatchText fun _ => .ok []) f → f.worker.pc = .ended (.ok ()) →
      .finished f.worker.dispatches handled ∈ f.glue.settleLog → Delivered none f handled := by
  intro hall
  obtain ⟨f, hrun, hn, hpc, hlog, hslot⟩ : ∃ f : Runtime Handled,
      run (step deepCrates (dispatchText fun _ => .ok [])) (build false 0 0)
        (taskRun (.ended true (.ok (.bigint 1 false false .undefined)))) = some f ∧
      f.worker.dispatches = 1 ∧ f.worker.pc = .ended (.ok ()) ∧
      f.glue.settleLog = [.drained (.ok ()), .silent 1,
        .finished 1 (.ended true (.ok (.bigint 1 false false .undefined))), .drained (.ok ())] ∧
      f.worker.slots.outcome = none :=
    ⟨_, rfl, rfl, rfl, rfl, rfl⟩
  obtain ⟨payload, -, hsome, -⟩ := hall f _ ⟨false, 0, 0, _, hrun⟩ hpc (by simp [hn, hlog]; rfl)
  rw [hslot] at hsome
  cases hsome

end Runtime

end NovaRuntime
