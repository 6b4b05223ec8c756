import NovaRuntime.Script.Delivered
import NovaRuntime.Script.TaskData

/-!
# A task that returns its payload

The whole way of `event.payload`: into the dispatcher's literal, through the handler, into the
response and out of `take_outcome`.

* `echo`            the result of `handle_task` for a handler that returns `event.payload`;
* `echo_eq_iff`     it is the payload exactly when it has no member `success`, and the two levels
                    around it fit serde's limit;
* `echo_of_run`     every drain that ends after such a handler has settled leaves `echo`.
-/

namespace NovaRuntime
open Lib

/-- what `take_outcome` gives for a task after this text, if there is one, was responded -/
def received (limit : Option Nat) (serdeError : Text → Text) (slots : HostSlots)
    (text : Option Text) : Except TerminationReason TaskResult :=
  (HostSlots.takeOutcome limit serdeError Kind.task.name decodeTaskResult
    { slots with outcome := text.map decodeLossy }).1

section
variable (limit : Option Nat) (serdeError : Text → Text) (slots : HostSlots)
  (headersToWire : JsVal → Js (List (JsVal × JsVal))) (listeners : Bool) (init : TaskInit)

/-- the result of a task whose handler returns `event.payload` -/
def echo : Option (Except TerminationReason TaskResult) :=
  (taskPayload init).map fun payload =>
    received limit serdeError slots (dispatchText headersToWire .task (.ended listeners payload))

end

/-- `data`, where null is the same as nothing -/
def payloadData : Json → Option Json
  | .null => none
  | p => some p

/-- an object with a member of this name -/
def HasMember (key : Text) : Json → Prop
  | .obj ms => ∃ m ∈ ms, m.1 = key
  | _ => False

theorem decodeOption_payloadData (data : Option Json) :
    decodeOption (fun d => some (toValue d)) data = some ((data.map toValue).bind payloadData) := by
  cases data with
  | none => rfl
  | some j => cases j <;> rfl

theorem eq_of_payloadData {p d : Json} (h : payloadData p = some d) : d = p := by
  cases p with
  | null => cases h
  | _ => exact (Option.some.inj h).symm

theorem depth_le_depthMembers {ms : List (Text × Json)} {m : Text × Json} (h : m ∈ ms) :
    depth m.2 ≤ depthMembers ms := by
  induction ms with
  | nil => cases h
  | cons m' ms ih =>
    rcases List.mem_cons.mp h with rfl | h
    · exact le_max_left _ _
    · exact (ih h).trans (le_max_right _ _)

/-! ## what the host receives -/

theorem within_taskTree {limit : Option Nat} {success : Bool} {t : Json} :
    within limit (taskTree success (some t) none) = limit.all fun n => depth t + 2 ≤ n := by
  have hdepth : depth (taskTree success (some t) none) = depth t + 2 := by
    simp only [taskTree, optional, List.append_nil, depth, depthMembers]
    omega
  cases limit with
  | none => rfl
  | some n => rw [within, hdepth, Option.all_some]

section
variable {limit : Option Nat} {serdeError : Text → Text} {slots : HostSlots}

/-- What a task wrote is read in full, or refused for its depth. -/
theorem received_taskTree {success : Bool} {data : Option Json} {message : Option Text}
    (hd : ∀ x, data = some x → Json.ScalarTree x) (hm : ∀ s, message = some s → Scalars s) :
    (received limit serdeError slots (some (Json.print (taskTree success
        (data.map (Json.map encode)) ((message.map encode).map .str))))).toOption =
      if within limit (taskTree success data (message.map .str)) then
        some ⟨success, (data.map toValue).bind payloadData, message⟩
      else none := by
  have herror : ∀ x, message.map Json.str = some x → Json.ScalarTree x := by
    intro x hx
    obtain ⟨s, hs, rfl⟩ := Option.map_eq_some_iff.mp hx
    exact hm s hs
  have hscalar : Json.ScalarTree (taskTree success data (message.map .str)) :=
    scalar_taskTree hd herror
  have htree : taskTree success (data.map (Json.map encode)) ((message.map encode).map .str) =
      Json.map encode (taskTree success data (message.map .str)) := by
    rw [map_taskTree]
    cases message <;> rfl
  have hmessage : decodeOption decodeString (message.map .str) = some message := by
    cases message <;> rfl
  rw [htree, received, HostSlots.takeOutcome]
  cases hl : within limit (taskTree success data (message.map .str)) with
  | true =>
    simp only [Option.map_some, fromStr_print hscalar hl, Option.bind_some, decode_taskTree,
      decodeOption_payloadData, hmessage]
    rfl
  | false =>
    simp only [Option.map_some, fromStr_deep hscalar hl, Option.bind_none]
    rfl

theorem received_outcome {r : TaskOutcome} {data : Option Json} {message : Option Text}
    (hd : ∀ x, data = some x → Json.ScalarTree x) (hm : ∀ s, message = some s → Scalars s)
    (hdata : serialize false r.data = some (data.map (Json.map encode)))
    (herror : serialize false r.error = some ((message.map encode).map .str)) :
    (received limit serdeError slots (settleText (.ok r.toJs))).toOption =
      if within limit (taskTree r.success data (message.map .str)) then
        some ⟨r.success, (data.map toValue).bind payloadData, message⟩
      else none := by
  rw [settleText, stringify_taskOutcome, hdata, herror]
  exact received_taskTree hd hm

end

/-! ## what `toTaskResult` makes of a payload -/

theorem member_undefined_or_mem (key : Text) (ps : List (JsString × JsVal)) :
    JsVal.member key ps = .undefined ∨ ∃ m ∈ ps, JsVal.member key ps = m.2 := by
  induction ps with
  | nil => exact .inl rfl
  | cons m ps ih =>
    rw [JsVal.member]
    split
    · exact .inr ⟨m, List.mem_cons_self, rfl⟩
    · rcases ih with h | ⟨m', hm', h⟩
      · exact .inl h
      · exact .inr ⟨m', List.mem_cons_of_mem _ hm', h⟩

section
variable {ms : List (Text × Json)} (hs : ∀ m ∈ ms, Scalars m.1) (hnd : (ms.map Prod.fst).Nodup)
include hs hnd

theorem member_parsed (key : Text) :
    JsVal.member key (payloadMembers ms) = .undefined ∨
      ∃ m ∈ ms, JsVal.member key (payloadMembers ms) =
        ofJson (Json.map encode m.2) := by
  rcases member_undefined_or_mem key (payloadMembers ms) with
    h | ⟨m, hm, h⟩
  · exact .inl h
  · obtain ⟨m', hm', rfl⟩ := List.mem_map.mp ((payloadMembers_perm hs hnd).mem_iff.mp hm)
    exact .inr ⟨m', hm', h⟩

theorem hasSuccess_parsed :
    ((payloadMembers ms).any
      fun m => m.1.units = txt "success") = true ↔ HasMember (txt "success") (.obj ms) := by
  have hkey : ∀ m ∈ ms, (JsString.ofUnits (encode m.1)).units = txt "success" ↔
      m.1 = txt "success" := by
    intro m hm
    rw [units_ofUnits_encode (hs m hm)]
    exact encode_injective (t := txt "success") (hs m hm) (by decide)
  rw [(payloadMembers_perm hs hnd).any_eq, List.any_eq_true, HasMember]
  constructor
  · rintro ⟨m, hm, heq⟩
    obtain ⟨m', hm', rfl⟩ := List.mem_map.mp hm
    exact ⟨m', hm', (hkey m' hm').mp (of_decide_eq_true heq)⟩
  · rintro ⟨m, hm, heq⟩
    exact ⟨_, List.mem_map_of_mem hm, decide_eq_true ((hkey m hm).mpr heq)⟩

/-- A result-looking payload is taken apart: what becomes its data was one of its members. -/
theorem toTaskResult_success (h : HasMember (txt "success") (.obj ms)) :
    ∃ r, toTaskResult (ofJson (Json.map encode (.obj ms))) = .ok r ∧
      (r.data = .undefined ∨ ∃ m ∈ ms, r.data = ofJson (Json.map encode m.2)) ∧
      (r.error = .undefined ∨ ∃ s, r.error = .str s) := by
  have herror : ∃ e, errorText (JsVal.member (txt "error")
      (payloadMembers ms)) = .ok e ∧
      (e = .undefined ∨ ∃ s, e = .str s) := by
    rcases member_parsed hs hnd (txt "error") with h | ⟨m, -, h⟩
    · exact ⟨.undefined, by rw [h]; rfl, .inl rfl⟩
    · rw [h]
      cases Json.map encode m.2 with
      | null => exact ⟨.undefined, rfl, .inl rfl⟩
      | bool | num | str | arr | obj => exact ⟨_, rfl, .inr ⟨_, rfl⟩⟩
  obtain ⟨e, he, herr⟩ := herror
  refine ⟨⟨!(JsVal.member (txt "success") (payloadMembers ms)).isFalse, _, e⟩, ?_,
    member_parsed hs hnd (txt "data"), herr⟩
  rw [ofJson_obj, JsVal.plainObject, toTaskResult]
  simp only [Bool.false_eq_true, ↓reduceIte, (hasSuccess_parsed hs hnd).mpr h]
  simp only [JsVal.get, JsVal.ask, JsVal.readMember, Bool.false_eq_true, ↓reduceIte, bind,
    Except.bind, he]
  rfl

end

theorem toTaskResult_plain {p : Json} (hp : Payload p) (h : ¬ HasMember (txt "success") p) :
    toTaskResult (ofJson (Json.map encode p)) =
      .ok ⟨true, ofJson (Json.map encode p), .undefined⟩ := by
  cases p with
  | obj ms =>
    have hkeys : ∀ m ∈ ms, Scalars m.1 := fun m hm => (payload_members ms hp.2 m hm).1
    have hno := Bool.eq_false_iff.mpr fun hyes => h ((hasSuccess_parsed hkeys hp.1.nodup).mp hyes)
    rw [ofJson_obj, JsVal.plainObject, toTaskResult]
    simp only [Bool.false_eq_true, ↓reduceIte, hno]
  | _ => rfl

theorem data_written {ms : List (Text × Json)} (hp : Payload (.obj ms)) {v : JsVal}
    (h : v = .undefined ∨ ∃ m ∈ ms, v = ofJson (Json.map encode m.2)) :
    ∃ data : Option Json, serialize false v = some (data.map (Json.map encode)) ∧
      ∀ x, data = some x → Json.ScalarTree x ∧ ∃ m ∈ ms, toValue x = m.2 := by
  rcases h with rfl | ⟨m, hm, rfl⟩
  · exact ⟨none, rfl, by simp⟩
  · obtain ⟨t, ht, hvalue⟩ := payload_crosses (payload_members ms hp.2 m hm).2
    refine ⟨some t, ht.written, fun x hx => ?_⟩
    cases hx
    exact ⟨ht.scalar, m, hm, hvalue⟩

theorem message_written {v : JsVal} (h : v = .undefined ∨ ∃ s, v = .str s) :
    ∃ message : Option Text, serialize false v = some ((message.map encode).map .str) ∧
      ∀ s, message = some s → Scalars s := by
  rcases h with rfl | ⟨s, rfl⟩
  · exact ⟨none, rfl, by simp⟩
  · obtain ⟨t, ht, heq⟩ := s.toWellFormed.encoded
    refine ⟨some t, ?_, by simpa using ht⟩
    rw [serialize, ← heq]
    rfl

/-! ## the payload that comes back -/

section
variable {limit : Option Nat} {serdeError : Text → Text} {slots : HostSlots}
  {headersToWire : JsVal → Js (List (JsVal × JsVal))} {listeners : Bool} {init : TaskInit}

theorem dispatchText_task {v : JsVal} {r : TaskOutcome} (h : toTaskResult v = .ok r) :
    dispatchText headersToWire .task (.ended listeners (.ok v)) = settleText (.ok r.toJs) := by
  have hbind : (Except.ok v : Js JsVal).bind toTaskResult = .ok r := h
  rw [dispatchText, settled, dispatchTask, hbind]
  rfl

theorem echo_of_toTaskResult {r : TaskOutcome}
    (h : toTaskResult (ofJson (Json.map encode (init.payload.getD .null))) = .ok r) :
    echo limit serdeError slots headersToWire listeners init =
      some (received limit serdeError slots (settleText (.ok r.toJs))) := by
  rw [echo, taskPayload_eq, Option.map_some, dispatchText_task h]

variable {p : Json} (hp : Payload p) (hinit : init.payload.getD .null = p)
include hp hinit

/-- Without a member `success`, the payload comes back if the two levels around it can be read. -/
theorem echo_plain (hno : ¬ HasMember (txt "success") p) :
    (echo limit serdeError slots headersToWire listeners init).bind Except.toOption =
      if limit.all fun n => depth p + 2 ≤ n then some ⟨true, payloadData p, none⟩ else none := by
  subst hinit
  obtain ⟨t, ht, hvalue⟩ := payload_crosses hp
  have hscalar : ∀ x, some t = some x → Json.ScalarTree x := by simpa using ht.scalar
  have hmessage : ∀ s, (none : Option Text) = some s → Scalars s := by simp
  rw [echo_of_toTaskResult (toTaskResult_plain hp hno), Option.bind_some,
    received_outcome hscalar hmessage ht.written rfl]
  rw [Option.map_none, within_taskTree, ht.depth_eq, Option.map_some, hvalue, Option.bind_some]

theorem echo_success (hyes : HasMember (txt "success") p) {r : TaskResult}
    (h : (echo limit serdeError slots headersToWire listeners init).bind Except.toOption = some r) :
    ∀ d, r.data = some d → depth d < depth p := by
  cases p with
  | obj ms =>
    have hkeys : ∀ m ∈ ms, Scalars m.1 := fun m hm => (payload_members ms hp.2 m hm).1
    obtain ⟨o, ho, hdata, herror⟩ := toTaskResult_success hkeys hp.1.nodup hyes
    obtain ⟨data, hwritten, hx⟩ := data_written hp hdata
    obtain ⟨message, hmessage, hs⟩ := message_written herror
    rw [echo_of_toTaskResult (by rw [hinit]; exact ho), Option.bind_some,
      received_outcome (fun x h => (hx x h).1) hs hwritten hmessage] at h
    split at h
    · intro d hd
      cases h
      obtain ⟨v, hv, hd⟩ := Option.bind_eq_some_iff.mp hd
      obtain ⟨x, hsome, rfl⟩ := Option.map_eq_some_iff.mp hv
      obtain ⟨-, m, hm, hval⟩ := hx x hsome
      rw [eq_of_payloadData hd, hval, depth]
      have hmember := depth_le_depthMembers hm
      omega
    · cases h
  | _ => exact hyes.elim

end

/-- The payload comes back, and nothing of it is lost, exactly for these payloads. -/
theorem echo_eq_iff {limit : Option Nat} {serdeError : Text → Text} {slots : HostSlots}
    {headersToWire : JsVal → Js (List (JsVal × JsVal))} {listeners : Bool} {init : TaskInit}
    {p : Json} (hp : Payload p) (hinit : init.payload.getD .null = p) :
    echo limit serdeError slots headersToWire listeners init =
        some (.ok ⟨true, payloadData p, none⟩) ↔
      ¬ HasMember (txt "success") p ∧ limit.all (fun n => depth p + 2 ≤ n) = true := by
  have hok : ∀ (x : Option (Except TerminationReason TaskResult)) r,
      x = some (.ok r) ↔ x.bind Except.toOption = some r := by
    intro x r
    rcases x with _ | (_ | _) <;> simp [Except.toOption]
  rw [hok]
  by_cases hsuccess : HasMember (txt "success") p
  · refine iff_of_false (fun h => ?_) fun h => h.1 hsuccess
    have hpay : payloadData p = some p := by
      cases p with
      | obj => rfl
      | _ => exact hsuccess.elim
    exact lt_irrefl _ (echo_success hp hinit hsuccess h p hpay)
  · rw [echo_plain hp hinit hsuccess]
    constructor
    · intro h
      split at h
      · next hl => exact ⟨hsuccess, hl⟩
      · cases h
    · exact fun h => if_pos h.2

/-- a task with this payload -/
def TaskInit.ofPayload (p : Json) : TaskInit := ⟨txt "t", some p, .null, none, 1⟩

/-- `echo` where nothing but the payload matters -/
def echoed (p : Json) : Option (Except TerminationReason TaskResult) :=
  echo (some recursionLimit) (fun _ => []) (.default false) (fun _ => .ok []) true (.ofPayload p)

/-- a payload with an array and a member `__proto__` -/
def nestedPayload : Json :=
  .obj [(txt "__proto__", .null), (txt "a", .arr [.num (NumLit.ofInt 1), .null])]

theorem echo_eq_iff_nested : echoed nestedPayload = some (.ok ⟨true, some nestedPayload, none⟩) := by
  refine (echo_eq_iff (p := nestedPayload) ?_ rfl).mpr ⟨?_, by decide⟩
  · refine ⟨?_, by decide, trivial, by decide, ⟨⟨1, by decide, rfl⟩, trivial, trivial⟩, trivial⟩
    exact List.pairwise_pair.mpr (by decide)
  · simp only [nestedPayload, HasMember, List.mem_cons, List.not_mem_nil, or_false,
      exists_eq_or_imp, exists_eq_left]
    decide

/-- a success without data -/
def isEmptySuccess : Except TerminationReason TaskResult → Bool
  | .ok ⟨true, none, none⟩ => true
  | _ => false

/-- A payload whose `success` is a string is taken for a result, and lost. -/
theorem a_result_looking_payload_is_lost : ¬ ∀ p, Payload p → depth p ≤ recursionLimit →
    (∀ ms b, p = .obj ms → (txt "success", .bool b) ∉ ms) →
    echoed p = some (.ok ⟨true, payloadData p, none⟩) := by
  intro hall
  have hlost : (echoed (.obj [(txt "success", .str (txt "yes"))])).any isEmptySuccess = true := by
    decide +kernel
  rw [hall (.obj [(txt "success", .str (txt "yes"))])] at hlost
  · cases hlost
  · exact ⟨List.pairwise_singleton _ _, by decide, (by decide : Scalars (txt "yes")), trivial⟩
  · decide
  · rintro ms b heq
    cases heq
    simp

namespace Runtime

/-- A drain that ends in Ok after such a handler has settled leaves for `take_outcome` what `echo`
says. -/
theorem echo_of_run {crates : Crates} {headersToWire : JsVal → Js (List (JsVal × JsVal))}
    {f : Runtime Handled} {listeners : Bool} {init : TaskInit} {payload : Js JsVal}
    (h : Reached crates (dispatchText headersToWire) f) (hn : f.worker.dispatches < 2 ^ 53)
    (hpc : f.worker.pc = .ended (.ok ())) (hk : f.worker.kind = .task)
    (hpay : taskPayload init = some payload)
    (hs : .finished f.worker.dispatches (.ended listeners payload) ∈ f.glue.settleLog) :
    some (f.worker.slots.takeOutcome crates.limit crates.serdeError Kind.task.name
        decodeTaskResult).1 =
      echo crates.limit crates.serdeError f.worker.slots headersToWire listeners init := by
  obtain ⟨-, hslot⟩ := reaction_of_settled h hn hpc hs
  rw [hk] at hslot
  rw [echo, hpay, Option.map_some, received, ← hslot]

end Runtime

end NovaRuntime
