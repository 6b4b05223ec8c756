import NovaRuntime.Script.Literals
import NovaRuntime.Script.Outcome

/-!
# The handlers whose end reaches the host

* `Describable`   an error that `settle` can turn into a message;
* `TextOrNothing` a value that is written as a string or left out, as `TaskResult.error` must be;
* `Deliverable`   the end of a handler after which the host reads an outcome;
* `dispatchText_decodes_iff`   the reaction responds with what the host reads, exactly for these.
-/

namespace NovaRuntime
open Lib

/-! ## errors -/

/-- `String(value)` does not throw -/
def HasText : JsVal → Prop
  | .object _ throws _ => throws .toText = false
  | _ => True

/-- The message of a failed dispatch can be made: the checks of the error do not throw, and its
stack, or the error where it has none, has a text. -/
def Describable : JsVal → Prop
  | .object shape throws result =>
    throws .instanceofError = false ∧
      (shape.isError = true → throws (.get (txt "stack")) = false) ∧
      if shape.isError = true ∧ (result (.get (txt "stack"))).truthy = true then
        throws (.getAgain (txt "stack")) = false ∧ HasText (result (.getAgain (txt "stack")))
      else throws .toText = false
  | _ => True

theorem wireText_ok {v : JsVal} : (∃ s, wireText v = .ok s) ↔ HasText v := by
  cases v with
  | object shape throws result =>
    cases ht : throws .toText <;> simp [wireText, JsVal.toText, HasText, ht, Except.map]
  | _ => exact iff_of_true ⟨_, rfl⟩ trivial

theorem failureMessage_primitive {e : JsVal}
    (h : ∀ shape throws result, e ≠ .object shape throws result) :
    failureMessage e = wireText e := by
  cases e with
  | object shape throws result => exact absurd rfl (h shape throws result)
  | _ => rfl

theorem failureMessage_ok {e : JsVal} : (∃ s, failureMessage e = .ok s) ↔ Describable e := by
  cases e with
  | object shape throws result =>
    have hself : (∃ s, wireText (.object shape throws result) = .ok s) ↔ throws .toText = false :=
      wireText_ok
    cases hi : throws .instanceofError with
    | true => simp [failureMessage, Describable, JsVal.instanceofError, hi, bind, Except.bind]
    | false =>
      cases he : shape.isError with
      | false =>
        simpa [failureMessage, Describable, JsVal.instanceofError, hi, he, bind, Except.bind] using
          hself
      | true =>
        cases hs : throws (.get (txt "stack")) with
        | true =>
          simp [failureMessage, Describable, JsVal.instanceofError, JsVal.get, JsVal.ask, hi, he, hs,
            bind, Except.bind]
        | false =>
          cases htruthy : (result (.get (txt "stack"))).truthy with
          | false =>
            simpa [failureMessage, Describable, JsVal.instanceofError, JsVal.get, JsVal.ask, hi, he,
              hs, htruthy, bind, Except.bind] using hself
          | true =>
            rw [Describable, if_pos ⟨he, htruthy⟩, ← wireText_ok]
            cases ha : throws (.getAgain (txt "stack")) <;>
              simp [failureMessage, JsVal.instanceofError, JsVal.get, JsVal.getAgain, JsVal.ask, hi,
                he, hs, ha, htruthy, bind, Except.bind]
  | _ =>
    rw [failureMessage_primitive (by simp)]
    exact iff_of_true (wireText_ok.mpr trivial) trivial

/-! ## values -/

/-- written as a string or null, or left out -/
def JsVal.isTextOrNothing : JsVal → Bool
  | .undefined | .null | .str _ | .symbol _ | .num .nan | .num (.inf _) => true
  | .object shape _ _ => shape.callable
  | .bool _ | .num (.fin _) | .bigint _ _ _ _ => false

/-- what `TaskResult.error` takes -/
def TextOrNothing (v : JsVal) : Prop := v.afterToJSON.any JsVal.isTextOrNothing = true

def Deliverable (headersToWire : JsVal → Js (List (JsVal × JsVal))) (kind : Kind)
    (handled : Handled) : Prop :=
  match kind with
  | .task =>
    match dispatchTask handled with
    | .ok r => Serialises false r.data ∧ TextOrNothing r.error
    | .error e => Describable e
  | .build | .fetch =>
    match dispatchFetch headersToWire handled with
    | .ok _ => True
    | .error e => Describable e

/-- whether `take_outcome` of this kind reads an outcome in this text -/
def Decodes (limit : Option Nat) (kind : Kind) (text : Text) : Prop :=
  match kind with
  | .task => ((fromStr limit text).bind (decodeDispatchOutcome decodeTaskResult)).isSome
  | .build | .fetch =>
    ((fromStr limit text).bind (decodeDispatchOutcome decodeDispatchResponse)).isSome

/-- a tree that serde reads as an optional string, or no tree -/
def OptionalText (j : Option Json) : Prop := j = none ∨ j = some .null ∨ ∃ s, j = some (.str s)

/-- once `toJSON` was asked, the kind of a value decides whether it is written as a string -/
theorem serialize_optionalText_asked {v : JsVal} :
    (∃ j, serialize true v = some j ∧ OptionalText j) ↔ v.isTextOrNothing = true := by
  cases v with
  | undefined | symbol => exact iff_of_true ⟨_, rfl, .inl rfl⟩ rfl
  | null => exact iff_of_true ⟨_, rfl, .inr (.inl rfl)⟩ rfl
  | bool b => simp [serialize, OptionalText, JsVal.isTextOrNothing]
  | num x =>
    cases x with
    | fin q => simp [serialize, OptionalText, JsVal.isTextOrNothing]
    | nan | inf => exact iff_of_true ⟨_, rfl, .inr (.inl rfl)⟩ rfl
  | str s => exact iff_of_true ⟨_, rfl, .inr (.inr ⟨_, rfl⟩)⟩ rfl
  | bigint n toJSON throws result => simp [serialize, JsVal.isTextOrNothing]
  | object shape throws result =>
    rw [JsVal.isTextOrNothing]
    cases hc : shape.callable with
    | true => exact iff_of_true ⟨none, by simp [serialize, hc], .inl rfl⟩ rfl
    | false =>
      refine iff_of_false ?_ (by simp)
      rintro ⟨j, hj, ht⟩
      cases written_of_serialize hj with
      | function hc' =>
        rw [hc] at hc'
        cases hc'
      | array | members => simp [OptionalText] at ht

theorem serialize_optionalText {v : JsVal} :
    (∃ j, serialize false v = some j ∧ OptionalText j) ↔ TextOrNothing v := by
  rw [serialize_afterToJSON, TextOrNothing]
  cases v.afterToJSON with
  | none => simp
  | some w => exact serialize_optionalText_asked

/-! ## what is responded, and what the host reads -/

/-- a member that is there if the value was not left out -/
def optional (key : Text) : Option Json → List (Text × Json)
  | some j => [(key, j)]
  | none => []

theorem stringify_value (v : JsVal) : stringify (.plainObject [(.lit "value", v)]) =
    (serialize false v).map fun j => Json.print (.obj (optional (txt "value") j)) := by
  have hname : IsName (.lit "value") := ⟨by decide, by decide⟩
  rw [stringify, serialize_names (by simp) (by simpa using hname), List.mapM_cons, List.mapM_nil]
  cases serialize false v with
  | none => rfl
  | some j => cases j <;> rfl

theorem serialize_taskOutcome (r : TaskOutcome) : serialize false r.toJs =
    (serialize false r.data).bind fun d => (serialize false r.error).map fun e =>
      some (.obj ((txt "success", .bool r.success) ::
        (optional (txt "data") d ++ optional (txt "error") e))) := by
  have hnames : ∀ m ∈ [(JsString.lit "success", JsVal.bool r.success), (.lit "data", r.data),
      (.lit "error", r.error)], IsName m.1 := by
    simp only [List.forall_mem_cons]
    exact ⟨⟨by decide, by decide⟩, ⟨by decide, by decide⟩,
      ⟨by decide, by decide⟩, by simp⟩
  rw [TaskOutcome.toJs, serialize_names (by simp; decide) hnames]
  simp only [List.mapM_cons, List.mapM_nil]
  cases serialize false r.data with
  | none => rfl
  | some d =>
    cases serialize false r.error with
    | none => rfl
    | some e => cases d <;> cases e <;> rfl

/-- the payload of a task with these members -/
def taskTree (success : Bool) (data error : Option Json) : Json :=
  .obj [(txt "value", .obj ((txt "success", .bool success) ::
    (optional (txt "data") data ++ optional (txt "error") error)))]

theorem stringify_taskOutcome (r : TaskOutcome) :
    stringify (.plainObject [(.lit "value", r.toJs)]) =
      (serialize false r.data).bind fun d => (serialize false r.error).map fun e =>
        Json.print (taskTree r.success d e) := by
  rw [stringify_value, serialize_taskOutcome]
  cases serialize false r.data with
  | none => rfl
  | some d => cases serialize false r.error <;> rfl

/-- the trees of `data` and `error`, as scalar values -/
theorem WireTree.option {j : Option Json} (h : ∀ x, j = some x → WireTree x) :
    ∃ t : Option Json, (∀ x, t = some x → Json.ScalarTree x) ∧ t.map (Json.map encode) = j := by
  cases j with
  | none => exact ⟨none, by simp, rfl⟩
  | some x =>
    obtain ⟨t, ht, rfl⟩ := h x rfl
    exact ⟨some t, by simpa using ht, rfl⟩

theorem scalarMembers_optional {key : Text} {t : Option Json} (hk : Scalars key)
    (ht : ∀ x, t = some x → Json.ScalarTree x) (ms : List (Text × Json))
    (hms : Json.ScalarMembers ms) : Json.ScalarMembers (optional key t ++ ms) := by
  cases t with
  | none => exact hms
  | some x => exact ⟨hk, ht x rfl, hms⟩

theorem scalar_taskTree {success : Bool} {data error : Option Json}
    (hd : ∀ x, data = some x → Json.ScalarTree x) (he : ∀ x, error = some x → Json.ScalarTree x) :
    Json.ScalarTree (taskTree success data error) := by
  refine ⟨by decide, ⟨by decide, trivial, ?_⟩, trivial⟩
  refine scalarMembers_optional (by decide) hd _ ?_
  have herror := scalarMembers_optional (by decide : Scalars (txt "error")) he [] trivial
  rwa [List.append_nil] at herror

theorem map_taskTree (success : Bool) (data error : Option Json) :
    Json.map encode (taskTree success data error) =
      taskTree success (data.map (Json.map encode)) (error.map (Json.map encode)) := by
  cases data <;> cases error <;> rfl

theorem decode_taskResult (success : Bool) (data error : Option Json) :
    decodeTaskResult (.obj ((txt "success", .bool success) ::
        (optional (txt "data") data ++ optional (txt "error") error))) =
      (decodeOption (fun d => some (toValue d)) data).bind fun d =>
        (decodeOption decodeString error).map fun message => ⟨success, d, message⟩ := by
  have hfields : fields [txt "success", txt "data", txt "error"] []
      (.obj ((txt "success", .bool success) ::
        (optional (txt "data") data ++ optional (txt "error") error))) =
      some [some (.bool success), data, error] := by
    cases data <;> cases error <;> rfl
  rw [decodeTaskResult, hfields]
  dsimp only
  cases decodeOption (fun d => some (toValue d)) data with
  | none => rfl
  | some d => cases decodeOption decodeString error <;> rfl

/-- The host reads a task result exactly when `error` is an optional string. -/
theorem decode_taskTree (success : Bool) (data error : Option Json) :
    decodeDispatchOutcome decodeTaskResult (taskTree success data error) =
      (decodeOption (fun d => some (toValue d)) data).bind fun d =>
        (decodeOption decodeString error).map fun message => .value ⟨success, d, message⟩ := by
  have hvalue : ∀ x, fields [txt "value"] [] (.obj [(txt "value", x)]) = some [some x] :=
    fun _ => rfl
  have herror : ∀ x, decodeDispatchOutcome.errorVariant (T := TaskResult) (.obj [(txt "value", x)]) =
      none := fun _ => rfl
  rw [taskTree, decodeDispatchOutcome, hvalue]
  simp only [decode_taskResult, herror]
  cases decodeOption (fun d => some (toValue d)) data with
  | none => rfl
  | some d => cases decodeOption decodeString error <;> rfl

theorem decodeOption_value (data : Option Json) :
    ∃ d, decodeOption (fun d => some (toValue d)) data = some d := by
  unfold decodeOption
  split <;> simp

theorem decodeOption_string_isSome {error : Option Json} :
    (decodeOption decodeString error).isSome ↔ OptionalText error := by
  cases error with
  | none => exact iff_of_true rfl (.inl rfl)
  | some j => cases j <;> simp [decodeOption, decodeString, OptionalText]

theorem OptionalText.encoded {error : Option Json} :
    OptionalText (error.map (Json.map encode)) ↔ OptionalText error := by
  cases error with
  | none => exact iff_of_true (.inl rfl) (.inl rfl)
  | some j => cases j <;> simp [OptionalText, Json.map]

/-- A task's reaction responds with what the host reads, exactly when its data is serialised and
its error is an optional string. -/
theorem task_decodes_iff (r : TaskOutcome) :
    (∃ payload, settleText (.ok r.toJs) = some payload ∧
        Decodes none .task (decodeLossy payload)) ↔
      Serialises false r.data ∧ TextOrNothing r.error := by
  rw [settleText, stringify_taskOutcome, ← serialize_isSome_iff, ← serialize_optionalText]
  cases hd : serialize false r.data with
  | none => simp
  | some d =>
    cases he : serialize false r.error with
    | none => simp
    | some e =>
      obtain ⟨td, htd, rfl⟩ :=
        WireTree.option (j := d) fun x hx => serialize_wire (hd.trans (congrArg some hx))
      obtain ⟨te, hte, rfl⟩ :=
        WireTree.option (j := e) fun x hx => serialize_wire (he.trans (congrArg some hx))
      obtain ⟨data, hdata⟩ := decodeOption_value td
      have hread : fromStr none (decodeLossy (Json.print (Json.map encode (taskTree r.success td te)))) =
          some (taskTree r.success td te) := fromStr_print (scalar_taskTree htd hte) rfl
      simp only [Option.bind_some, Option.map_some, Option.some.injEq, exists_eq_left', Decodes,
        ← map_taskTree, hread, decode_taskTree, hdata, Option.isSome_map,
        decodeOption_string_isSome, Option.isSome_some, true_and, OptionalText.encoded]

/-! ## responses and failures -/

/-- the scalar values of a text that crosses -/
def WireText.text (s : WireText) : Text := decodeLossy s.units

theorem WireText.scalars_text (s : WireText) : Scalars s.text := by
  obtain ⟨t, ht, heq⟩ := s.encoded
  rw [WireText.text, ← heq, decodeLossy_encode ht]
  exact ht

theorem WireText.encode_text (s : WireText) : encode s.text = s.units := by
  obtain ⟨t, ht, heq⟩ := s.encoded
  rw [WireText.text, ← heq, decodeLossy_encode ht]

theorem failure_read {limit : Option Nat} (hl : limit.all (4 ≤ ·) = true) (message : WireText) :
    fromStr limit (decodeLossy (Json.print (.obj [(txt "error", .str message.units)]))) =
      some (.obj [(txt "error", .str message.text)]) := by
  have hmap : Json.obj [(txt "error", .str message.units)] =
      Json.map encode (.obj [(txt "error", .str message.text)]) := by
    rw [← message.encode_text]
    rfl
  have hscalar : Json.ScalarTree (.obj [(txt "error", .str message.text)]) :=
    ⟨by decide, message.scalars_text, trivial⟩
  have hdepth : depth (.obj [(txt "error", .str message.text)]) ≤ 4 := by
    show 1 + max 0 0 ≤ 4
    omega
  rw [hmap, fromStr_print hscalar (within_of_depth hl hdepth)]

theorem failure_decodes (kind : Kind) (message : WireText) :
    Decodes none kind (decodeLossy (Json.print (.obj [(txt "error", .str message.units)]))) := by
  cases kind <;> rw [Decodes, failure_read rfl] <;> rfl

/-- the payload of a fetch with this response -/
def responseTree (r : WireResponse) (text : WireText → Text) : Json :=
  .obj [(txt "value", .obj [(txt "status", .num (NumLit.ofInt r.status)),
    (txt "headers", .arr (r.headers.map fun h => .arr [.str (text h.1), .str (text h.2)])),
    (txt "body", .str (text r.body))])]

theorem serialize_wireText (s : WireText) :
    serialize false (.str s.toJs) = some (some (.str s.units)) := by
  have hwf : Lib.toWellFormed s.units = s.units := by
    rw [← s.encode_text, toWellFormed_encode s.scalars_text]
  rw [serialize]
  exact congrArg (fun t => some (some (Json.str t))) hwf

theorem serialize_status {n : Nat} (h : n ≤ 599) :
    serialize false (.num (.ofNat n)) = some (some (.num (NumLit.ofInt n))) := by
  rw [F64.ofNat, serialize, numberToString, if_pos]
  · simp
  · simp only [Rat.den_natCast, Rat.num_natCast, true_and]
    omega

theorem mapM_eq_map {α β : Type} {f : α → Option β} {g : α → β} (h : ∀ x, f x = some (g x))
    (xs : List α) : xs.mapM f = some (xs.map g) := by
  induction xs with
  | nil => rfl
  | cons x xs ih =>
    rw [List.mapM_cons, h, ih]
    rfl

theorem serialize_headers (headers : List (WireText × WireText)) :
    serialize false (.plainArray (headers.map fun h =>
        .plainArray [.str h.1.toJs, .str h.2.toJs])) =
      some (some (.arr (headers.map fun h => .arr [.str h.1.units, .str h.2.units]))) := by
  have hpair : ∀ h : WireText × WireText,
      serialize false (.plainArray [.str h.1.toJs, .str h.2.toJs]) =
        some (some (.arr [.str h.1.units, .str h.2.units])) := by
    intro h
    rw [serialize_plainArray, List.mapM_cons, List.mapM_cons, List.mapM_nil, serialize_wireText,
      serialize_wireText]
    rfl
  rw [serialize_plainArray, List.mapM_map,
    mapM_eq_map (g := fun h : WireText × WireText => Json.arr [.str h.1.units, .str h.2.units])]
  · rfl
  · intro h
    simp only [Function.comp_apply, hpair, Option.map_some, Option.getD_some]

theorem stringify_response (r : WireResponse) :
    stringify (.plainObject [(.lit "value", r.toJs)]) =
      some (Json.print (responseTree r WireText.units)) := by
  have hnames : ∀ m ∈ [(JsString.lit "status", JsVal.num (.ofNat r.status)),
      (.lit "headers", .plainArray (r.headers.map fun h =>
        .plainArray [.str h.1.toJs, .str h.2.toJs])),
      (.lit "body", .str r.body.toJs)], IsName m.1 := by
    simp only [List.forall_mem_cons]
    exact ⟨⟨by decide, by decide⟩, ⟨by decide, by decide⟩,
      ⟨by decide, by decide⟩, by simp⟩
  rw [stringify_value, WireResponse.toJs, serialize_names (by simp; decide) hnames]
  simp only [List.mapM_cons, List.mapM_nil, serialize_status r.inRange.2, serialize_headers,
    serialize_wireText]
  rfl

theorem mapItems_headers (headers : List (WireText × WireText)) :
    Json.mapItems encode (headers.map fun h => .arr [.str h.1.text, .str h.2.text]) =
      headers.map fun h => .arr [.str h.1.units, .str h.2.units] := by
  induction headers with
  | nil => rfl
  | cons h headers ih =>
    rw [List.map_cons, List.map_cons, Json.mapItems, ih, ← h.1.encode_text, ← h.2.encode_text]
    rfl

theorem scalarItems_headers (headers : List (WireText × WireText)) :
    Json.ScalarItems (headers.map fun h => .arr [.str h.1.text, .str h.2.text]) := by
  induction headers with
  | nil => trivial
  | cons h headers ih => exact ⟨⟨h.1.scalars_text, h.2.scalars_text, trivial⟩, ih⟩

theorem decode_response (r : WireResponse) :
    decodeDispatchResponse (.obj [(txt "status", .num (NumLit.ofInt r.status)),
        (txt "headers", .arr (r.headers.map fun h => .arr [.str h.1.text, .str h.2.text])),
        (txt "body", .str r.body.text)]) =
      some ⟨r.status, r.headers.map fun h => (h.1.text, h.2.text), r.body.text⟩ := by
  have hstatus : decodeNat (2 ^ 16) (.num (NumLit.ofInt r.status)) = some r.status := by
    have hlt : r.status < 2 ^ 16 := by
      have hr := r.inRange.2
      omega
    have hsign : decide ((r.status : Int) < 0) = false := decide_eq_false (by omega)
    rw [NumLit.ofInt, hsign, decodeNat, Int.natAbs_natCast, if_pos hlt]
  have hheaders : decodeVec decodeHeader
      (.arr (r.headers.map fun h => .arr [.str h.1.text, .str h.2.text])) =
      some (r.headers.map fun h => (h.1.text, h.2.text)) := by
    rw [decodeVec, List.mapM_map, mapM_eq_map (g := fun h : WireText × WireText =>
      (h.1.text, h.2.text))]
    exact fun h => rfl
  have hfields : fields [txt "status", txt "headers", txt "body"] []
      (.obj [(txt "status", .num (NumLit.ofInt r.status)),
        (txt "headers", .arr (r.headers.map fun h => .arr [.str h.1.text, .str h.2.text])),
        (txt "body", .str r.body.text)]) =
      some [some (.num (NumLit.ofInt r.status)),
        some (.arr (r.headers.map fun h => .arr [.str h.1.text, .str h.2.text])),
        some (.str r.body.text)] := rfl
  rw [decodeDispatchResponse, hfields]
  dsimp only
  rw [hstatus, hheaders]
  rfl

theorem encode_responseTree (r : WireResponse) :
    Json.map encode (responseTree r WireText.text) = responseTree r WireText.units := by
  simp only [responseTree, Json.map, Json.mapMembers, mapItems_headers, r.body.encode_text]
  rfl

theorem scalar_responseTree (r : WireResponse) :
    Json.ScalarTree (responseTree r WireText.text) :=
  ⟨by decide, ⟨by decide, trivial, by decide, scalarItems_headers r.headers, by decide,
    r.body.scalars_text, trivial⟩, trivial⟩

theorem depth_headers (headers : List (WireText × WireText)) :
    depthItems (headers.map fun h => .arr [.str h.1.text, .str h.2.text]) ≤ 1 := by
  induction headers with
  | nil => exact Nat.zero_le 1
  | cons h headers ih => exact max_le le_rfl ih

theorem response_read {limit : Option Nat} (hl : limit.all (4 ≤ ·) = true) (r : WireResponse) :
    fromStr limit (decodeLossy (Json.print (responseTree r WireText.units))) =
      some (responseTree r WireText.text) := by
  have hdepth : depth (responseTree r WireText.text) ≤ 4 := by
    have hheaders := depth_headers r.headers
    simp only [responseTree, depth, depthMembers]
    omega
  rw [← encode_responseTree]
  exact fromStr_print (scalar_responseTree r) (within_of_depth hl hdepth)

theorem decode_responseTree (r : WireResponse) :
    decodeDispatchOutcome decodeDispatchResponse (responseTree r WireText.text) =
      some (.value ⟨r.status, r.headers.map fun h => (h.1.text, h.2.text), r.body.text⟩) := by
  have hvalue : ∀ x, fields [txt "value"] [] (.obj [(txt "value", x)]) = some [some x] :=
    fun _ => rfl
  rw [responseTree, decodeDispatchOutcome, hvalue]
  dsimp only
  rw [decode_response]

theorem response_decodes (r : WireResponse) (kind : Kind) (hk : kind ≠ .task) :
    ∃ payload, settleText (.ok r.toJs) = some payload ∧
      Decodes none kind (decodeLossy payload) := by
  refine ⟨_, stringify_response r, ?_⟩
  cases kind with
  | task => exact absurd rfl hk
  | build | fetch =>
    rw [Decodes, response_read rfl, Option.bind_some, decode_responseTree]
    rfl

theorem failure_decodes_iff (kind : Kind) (e : JsVal) :
    (∃ payload, settleText (.error e) = some payload ∧ Decodes none kind (decodeLossy payload)) ↔
      Describable e := by
  rw [← failureMessage_ok, settleText]
  cases failureMessage e with
  | error _ => simp
  | ok message => exact iff_of_true ⟨_, rfl, failure_decodes kind message⟩ ⟨message, rfl⟩

/-- The reaction responds with what the host reads, exactly for these ends of a handler. -/
theorem dispatchText_decodes_iff (headersToWire : JsVal → Js (List (JsVal × JsVal))) (kind : Kind)
    (handled : Handled) :
    (∃ payload, dispatchText headersToWire kind handled = some payload ∧
        Decodes none kind (decodeLossy payload)) ↔ Deliverable headersToWire kind handled := by
  unfold dispatchText settled Deliverable
  cases kind with
  | task =>
    dsimp only
    cases dispatchTask handled with
    | ok r => exact task_decodes_iff r
    | error e => exact failure_decodes_iff .task e
  | build | fetch =>
    dsimp only
    cases dispatchFetch headersToWire handled with
    | ok r => exact iff_of_true (response_decodes r _ (by simp)) trivial
    | error e => exact failure_decodes_iff _ e

end NovaRuntime
