import NovaRuntime.Script.Literals
import NovaRuntime.Host.Worker

/-!
# The event of a task on its way in (`worker.rs`, `bootstrap.js`)

`dispatch` writes the event as JSON, writes that text as a string literal of the dispatcher script,
and the dispatcher reads the literal with `JSON.parse`.

* `ofJson`          what `JSON.parse` makes of a tree;
* `taskEvent`       the event that `handle_task` writes;
* `dispatchLiteral`, `literalValue`   the literal, and what the engine reads in it;
* `taskPayload`     `event.payload`, as the handler gets it.
-/

namespace NovaRuntime
open Lib

/-- a string of the engine from code units -/
def JsString.ofUnits (units : Text) : JsString where
  units := units.map (· % 0x10000)
  small := by
    intro c hc
    obtain ⟨u, -, rfl⟩ := List.mem_map.mp hc
    exact Nat.mod_lt u (by norm_num)

theorem JsString.units_ofUnits {units : Text} (h : ∀ c ∈ units, c < 0x10000) :
    (JsString.ofUnits units).units = units := by
  refine (List.map_congr_left fun c hc => ?_).trans (List.map_id _)
  exact Nat.mod_eq_of_lt (h c hc)

/-- the members that `JSON.parse` gives an object: the last of those with one key -/
def parsedMembers (ms : List (Text × JsVal)) : List (JsString × JsVal) :=
  (ownOrder (ms.foldl (fun acc m => assign m.1 m.2 acc) [])).map fun m =>
    (JsString.ofUnits m.1, m.2)

mutual
/-- the value of a tree that `JSON.parse` read -/
def ofJson : Json → JsVal
  | .null => .null
  | .bool b => .bool b
  | .num n => .num (numberOf n)
  | .str s => .str (.ofUnits s)
  | .arr xs => .plainArray (ofItems xs)
  | .obj ms => .plainObject (parsedMembers (ofMembers ms))
def ofItems : List Json → List JsVal
  | [] => []
  | x :: xs => ofJson x :: ofItems xs
def ofMembers : List (Text × Json) → List (Text × JsVal)
  | [] => []
  | (k, x) :: ms => (k, ofJson x) :: ofMembers ms
end

def jsonParse (text : Text) : Option JsVal := (Json.parse text).map ofJson

/-- the event that `handle_task` writes -/
def taskEvent (init : TaskInit) : Json :=
  .obj (toMap [(txt "taskId", .str init.taskId), (txt "payload", init.payload.getD .null),
    (txt "source", init.source), (txt "attempt", .num (NumLit.ofInt init.attempt)),
    (txt "scheduledTime", (init.schedule.map fun t => .num (NumLit.ofInt t)).getD .null)])

/-- the JSON text of an event, quoted once more -/
def dispatchLiteral (event : Json) : Text := Json.quote (Json.print event)

/-- the value of a string literal, whose escapes are those of JSON -/
def literalValue (literal : Text) : Option Text :=
  match Json.eat [34] literal with
  | none => none
  | some r =>
    match Json.stringBody r with
    | some (units, []) => some units
    | _ => none

/-- `event.payload` in `__ow_dispatch_task` -/
def taskPayload (init : TaskInit) : Option (Js JsVal) :=
  ((literalValue (encode (dispatchLiteral (taskEvent init)))).bind jsonParse).map fun event =>
    event.get (txt "payload")

theorem literalValue_dispatchLiteral (event : Json) :
    literalValue (encode (dispatchLiteral event)) = some (encode (Json.print event)) := by
  have hbody := Json.stringBody_quoted (encode (Json.print event)) []
  rw [dispatchLiteral, ← Json.quote_encode, literalValue, Json.quote]
  simp only [Json.eat, ↓reduceIte, hbody]

theorem parsedMembers_nodup {ms : List (Text × JsVal)} (h : (ms.map Prod.fst).Nodup) :
    parsedMembers ms = (ownOrder ms).map fun m => (JsString.ofUnits m.1, m.2) := by
  rw [parsedMembers, foldl_assign (by simpa using h), List.nil_append]

theorem ofMembers_eq (ms : List (Text × Json)) :
    ofMembers ms = ms.map fun m => (m.1, ofJson m.2) := by
  induction ms with
  | nil => rfl
  | cons m ms ih => rw [ofMembers, ih, List.map_cons]

theorem taskEvent_eq (init : TaskInit) : taskEvent init =
    .obj [(txt "attempt", .num (NumLit.ofInt init.attempt)),
      (txt "payload", init.payload.getD .null),
      (txt "scheduledTime", (init.schedule.map fun t => .num (NumLit.ofInt t)).getD .null),
      (txt "source", init.source), (txt "taskId", .str init.taskId)] :=
  rfl

/-- The handler gets the payload that the embedder gave. -/
theorem taskPayload_eq (init : TaskInit) :
    taskPayload init = some (.ok (ofJson (Json.map encode (init.payload.getD .null)))) := by
  have hparse : jsonParse (encode (Json.print (taskEvent init))) =
      some (ofJson (Json.map encode (taskEvent init))) := by
    rw [jsonParse, ← Json.print_map_encode, Json.parse_print, Option.map_some]
  have hmembers : ∀ a p t s i : JsVal, parsedMembers [(txt "attempt", a), (txt "payload", p),
      (txt "scheduledTime", t), (txt "source", s), (txt "taskId", i)] =
      [(.ofUnits (txt "attempt"), a), (.ofUnits (txt "payload"), p),
        (.ofUnits (txt "scheduledTime"), t), (.ofUnits (txt "source"), s),
        (.ofUnits (txt "taskId"), i)] := by
    intro a p t s i
    have hkeys : [txt "attempt", txt "payload", txt "scheduledTime", txt "source",
        txt "taskId"].Nodup := by decide
    rw [parsedMembers_nodup (by exact hkeys), ownOrder_names]
    · rfl
    · simp only [List.forall_mem_cons]
      exact ⟨by decide, by decide, by decide, by decide, by decide, by simp⟩
  rw [taskPayload, literalValue_dispatchLiteral, Option.bind_some, hparse, Option.map_some,
    taskEvent_eq]
  refine congrArg some ?_
  simp only [Json.map, Json.mapMembers, ofJson, ofMembers]
  exact congrArg (fun ms => JsVal.get (txt "payload") (.plainObject ms)) (hmembers _ _ _ _ _)

end NovaRuntime
