import NovaRuntime.Lib.EcmaScript
import NovaRuntime.Script.TaskData

/-!
# The scripts that the worker writes (`worker.rs`)

`dispatch` and `settle_binding` write a script that calls a function of the glue, with the data as a
string literal.

* `displayF64`     how Rust writes a number into a script;
* `dispatchSource`, `settleSource`   the two scripts;
* `scripts_are_one_call`   each of them is that one call, whose last argument is the data, and the
                   argument of a dispatch is the event for `JSON.parse`.
-/

namespace NovaRuntime
open Lib

/-- the function of the glue that is called for an event -/
def dispatcher : Kind → Text
  | .task => txt "__ow_dispatch_task"
  | .build | .fetch => txt "__ow_dispatch"

def displayDigits (q : ℚ) : NumLit :=
  if q = 0 then ⟨false, 0, none, none⟩
  else
    let (s, n, k) := shortest q
    if k ≤ n then ⟨false, s * 10 ^ (n - k).toNat, none, none⟩
    else if 0 < n then
      ⟨false, s / 10 ^ (k - n.toNat),
        some (numberToString.padded (k - n.toNat) (s % 10 ^ (k - n.toNat))), none⟩
    else ⟨false, 0, some (numberToString.padded (k + n.natAbs) s), none⟩

/-- `Display` of an `f64`, as the expression that it is in a script -/
def displayF64 : F64 → EcmaScript.Arg
  | .nan => ⟨false, .name (txt "NaN")⟩
  | .inf neg => ⟨neg, .name (txt "inf")⟩
  | .fin q => ⟨decide (q < 0), .num (displayDigits |q|)⟩

def dispatchSource (kind : Kind) (dispatches : Int) (event : Json) : Text :=
  dispatcher kind ++ (txt "(" ++ (Json.numText (NumLit.ofInt dispatches) ++
    (txt ", " ++ (dispatchLiteral event ++ txt ");"))))

/-- whether a call succeeded, and its answer or the message -/
def answerParts : Except Text Text → Bool × Text
  | .ok payload => (true, payload)
  | .error message => (false, message)

def settleSource (id : F64) (answer : Except Text Text) : Text :=
  let (ok, payload) := answerParts answer
  txt "__ow_settle_binding(" ++ ((displayF64 id).text ++
    (txt ", " ++ ((if ok then txt "true" else txt "false") ++
      (txt ", " ++ (Json.quote payload ++ txt ");")))))

/-! ## the calls they are -/

def intArg (i : Int) : EcmaScript.Arg := ⟨decide (i < 0), .num ⟨false, i.natAbs, none, none⟩⟩

def dispatchCall (kind : Kind) (dispatches : Int) (data : Text) : EcmaScript.Call :=
  ⟨dispatcher kind, [intArg dispatches, ⟨false, .str data⟩]⟩

def settleCall (id : F64) (ok : Bool) (data : Text) : EcmaScript.Call :=
  ⟨txt "__ow_settle_binding", [displayF64 id, ⟨false, .bool ok⟩, ⟨false, .str data⟩]⟩

theorem intArg_text (i : Int) : (intArg i).text = Json.numText (NumLit.ofInt i) := rfl

theorem displayDigits_neg (q : ℚ) : (displayDigits q).neg = false := by
  unfold displayDigits
  dsimp only
  split_ifs <;> rfl

theorem displayF64_wellFormed (x : F64) : (displayF64 x).primary.WellFormed := by
  cases x with
  | nan => exact ⟨⟨78, txt "aN", by decide, by decide, by decide⟩, by decide, by decide⟩
  | inf neg => exact ⟨⟨105, txt "nf", by decide, by decide, by decide⟩, by decide, by decide⟩
  | fin q => exact displayDigits_neg |q|

theorem dispatchSource_eq (kind : Kind) (n : Int) (event : Json) :
    dispatchSource kind n event = (dispatchCall kind n (Json.print event)).text := by
  simp only [dispatchSource, dispatchCall, EcmaScript.Call.text, EcmaScript.argsText,
    EcmaScript.Arg.text, EcmaScript.Primary.text, ← intArg_text, dispatchLiteral, txt]
  simp [List.append_assoc]

theorem settleSource_eq (id : F64) (answer : Except Text Text) :
    settleSource id answer = (settleCall id (answerParts answer).1 (answerParts answer).2).text := by
  cases answer <;>
  · simp only [settleSource, settleCall, answerParts, EcmaScript.Call.text, EcmaScript.argsText,
      EcmaScript.Arg.text, EcmaScript.Primary.text, txt]
    simp [List.append_assoc]

theorem dispatchCall_wellFormed (kind : Kind) (n : Int) (data : Text) :
    (dispatchCall kind n data).WellFormed := by
  have hname : EcmaScript.IsName (dispatcher kind) := by
    refine ⟨95, (dispatcher kind).tail, ?_⟩
    cases kind <;> decide
  refine ⟨hname, fun a ha => ?_⟩
  simp only [dispatchCall, List.mem_cons, List.not_mem_nil, or_false] at ha
  rcases ha with rfl | rfl
  · rfl
  · trivial

theorem settleCall_wellFormed (id : F64) (ok : Bool) (data : Text) :
    (settleCall id ok data).WellFormed := by
  have hname : EcmaScript.IsName (txt "__ow_settle_binding") :=
    ⟨95, txt "_ow_settle_binding", by decide⟩
  refine ⟨hname, fun a ha => ?_⟩
  simp only [settleCall, List.mem_cons, List.not_mem_nil, or_false] at ha
  rcases ha with rfl | rfl | rfl
  · exact displayF64_wellFormed id
  · trivial
  · trivial

/-- For every event, answer and message: the script of `dispatch` is one call, whose last argument
is a string literal with the JSON text of the event, and `JSON.parse` makes the event of it, with
its numbers as doubles; the script of `settle_binding` is one call, whose last argument is a string
literal with the answer. -/
theorem scripts_are_one_call (kind : Kind) (n : Int) (event : Json) (id : F64)
    (answer : Except Text Text) :
    EcmaScript.script (dispatchSource kind n event) =
        some [dispatchCall kind n (encode (Json.print event))] ∧
      jsonParse (encode (Json.print event)) = some (ofJson (Json.map encode event)) ∧
      EcmaScript.script (settleSource id answer) =
        some [settleCall id (answerParts answer).1 (encode (answerParts answer).2)] := by
  refine ⟨?_, ?_, ?_⟩
  · rw [dispatchSource_eq, EcmaScript.script_text (dispatchCall_wellFormed kind n _)]
    rfl
  · rw [jsonParse, ← Json.print_map_encode, Json.parse_print, Option.map_some]
  · rw [settleSource_eq, EcmaScript.script_text (settleCall_wellFormed id _ _)]
    cases id <;> rfl

/-- the payload 2 ^ 53 + 1 of a task -/
theorem a_large_number_is_rounded : ¬ ∀ (init : TaskInit) (n : NumLit),
    init.payload = some (.num n) →
      taskPayload init = some (.ok (.num (.fin (NumLit.toRat n)))) := by
  intro hall
  let n : NumLit := NumLit.ofInt (2 ^ 53 + 1)
  have hexact := hall ⟨[], some (.num n), .null, none, 0⟩ n rfl
  rw [taskPayload_eq] at hexact
  have hnum : numberOf n = .fin (NumLit.toRat n) := by
    injection hexact with hexact
    injection hexact with hexact
    injection hexact
  revert hnum
  decide +kernel

end NovaRuntime
