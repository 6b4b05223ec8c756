import NovaRuntime.Host.Number
import NovaRuntime.Host.Serde

/-!
# Binding calls on the host (`bindings.rs`)

A binding call is answered by a lazy future.  `Answer` is that future before it is first polled:
the operation the handler will be asked for, or an answer that needs no handler.  `answer` builds
it from the arguments of `__ow_native_binding`, `Answer.poll` is what polling gives.

`Crates` holds what the code takes from crates that are not part of this repository, `JsonReader`
the engine's `JSON.parse`, which is one of them.
-/

namespace NovaRuntime
open Lib

/-! ## the engine's `JSON.parse` -/

def F64.finite : F64 → Bool
  | .fin _ => true
  | .nan | .inf _ => false

mutual
/-- every number is one that a double holds -/
def finite : Json → Bool
  | .num n => (numberOf n).finite
  | .arr xs => finiteItems xs
  | .obj ms => finiteMembers ms
  | .null | .bool _ | .str _ => true
def finiteItems : List Json → Bool
  | [] => true
  | x :: xs => finite x && finiteItems xs
def finiteMembers : List (Text × Json) → Bool
  | [] => true
  | (_, x) :: ms => finite x && finiteMembers ms
end

mutual
theorem finite_map (f : Text → Text) : ∀ j : Json, finite (Json.map f j) = finite j
  | .null | .bool _ | .num _ | .str _ => rfl
  | .arr xs => finite_mapItems f xs
  | .obj ms => finite_mapMembers f ms
theorem finite_mapItems (f : Text → Text) : ∀ xs : List Json,
    finiteItems (Json.mapItems f xs) = finiteItems xs
  | [] => rfl
  | x :: xs => congrArg₂ and (finite_map f x) (finite_mapItems f xs)
theorem finite_mapMembers (f : Text → Text) : ∀ ms : List (Text × Json),
    finiteMembers (Json.mapMembers f ms) = finiteMembers ms
  | [] => rfl
  | (_, x) :: ms => congrArg₂ and (finite_map f x) (finite_mapMembers f ms)
end

/-- It reads JSON and nothing else, but may refuse a number that no double holds, an escape that
names half of a surrogate pair, and what is nested too deep.  serde_json prints neither of the first
two, and three levels for a response. -/
structure JsonReader where
  parse : Text → Option Json
  /-- how deep it reads at least -/
  limit : Option Nat
  sound : ∀ s j, parse s = some j → Json.parse s = some j
  reads : ∀ j, finite j = true → within limit j = true →
    parse (encode (Json.print j)) = some (Json.map encode j)
  deep : ∀ n ∈ limit, 3 ≤ n

/-- a reader that refuses all it may at any depth; what serde_json prints escapes no surrogate -/
def JsonReader.strict : JsonReader where
  parse s := (Json.parse s).filter fun j => finite j && ((serdeTree j).isSome || Json.print j == s)
  limit := none
  sound _ _ h := (Option.filter_eq_some_iff.mp h).1
  reads j hj _ := by
    rw [← Json.print_map_encode, Json.parse_print]
    simp [Option.filter, finite_map, hj]
  deep _ h := by cases h

example : JsonReader.strict.parse (txt "[1e400]") = none := by decide +kernel
example : (JsonReader.strict.parse (txt "[\"\\ud83d\\ude00\"]")).isSome = true := by decide +kernel
example : JsonReader.strict.parse (txt "[\"\\ud800\"]") = none := by decide +kernel

/-! ## the crates -/

structure Crates where
  engine : JsonReader
  /-- the cargo feature `invoke` -/
  invoke : Bool
  /-- how deep `serde_json::from_str` reads -/
  limit : Option Nat
  /-- `SqlParam::deserialize` -/
  sqlParam : Json → Option Json
  /-- the message of serde_json's error for a text it refuses -/
  serdeError : Text → Text
  base64Encode : List UInt8 → Text
  base64Decode : Text → Except Text (List UInt8)

/-- the crates of a run that refuses no text and has no body or query parameter cross -/
def Crates.bare : Crates :=
  { engine := .strict
    invoke := true
    limit := some 127
    sqlParam := fun _ => none
    serdeError := fun _ => []
    base64Encode := fun _ => []
    base64Decode := fun _ => .ok [] }

inductive HttpMethod where
  | get | post | put | delete | patch | head | options
  deriving DecidableEq

def HttpMethod.parse (s : Text) : Option HttpMethod :=
  if s = txt "GET" then some .get
  else if s = txt "POST" then some .post
  else if s = txt "PUT" then some .put
  else if s = txt "DELETE" then some .delete
  else if s = txt "PATCH" then some .patch
  else if s = txt "HEAD" then some .head
  else if s = txt "OPTIONS" then some .options
  else none

inductive RequestBody where
  | none
  | bytes (b : List UInt8)
  | stream

structure HttpRequest where
  method : HttpMethod
  url : Text
  headers : List (Text × Text)
  body : RequestBody

structure DatabaseOp where
  sql : Text
  params : List Json

structure FetchParams where
  url : Text
  method : Option Text
  headers : Option (List (Text × Text))
  body : Option Text
  bodyBase64 : Option Text

def decodeStringMap : Json → Option (List (Text × Text))
  | .obj ms => (toMap ms).mapM fun m => (decodeString m.2).map fun v => (m.1, v)
  | _ => none

def decodeFetchParams (j : Json) : Option FetchParams :=
  match fields [txt "url"] [txt "method", txt "headers", txt "body", txt "bodyBase64"] j with
  | some [some url, method, headers, body, bodyBase64] => do
    return ⟨← decodeString url, ← decodeOption decodeString method,
      ← decodeOption decodeStringMap headers, ← decodeOption decodeString body,
      ← decodeOption decodeString bodyBase64⟩
  | _ => none

def decodeQueryParams (crates : Crates) (j : Json) : Option DatabaseOp :=
  match fields [txt "sql"] [txt "params"] j with
  | some [some sql, params] => do
    return ⟨← decodeString sql, ← match params with
      | none => some []
      | some ps => decodeVec crates.sqlParam ps⟩
  | _ => none

def decodeInvokeParams (j : Json) : Option (Text × Json) :=
  match fields [txt "command"] [txt "args"] j with
  | some [some command, args] => do
    return (← decodeString command, toValue (args.getD .null))
  | _ => none

/-- the future behind a call -/
inductive Answer where
  /-- ready without the operations handler -/
  | ready (answer : Except Text Text)
  | bindingFetch (name : Text) (request : HttpRequest)
  | httpFetch (request : HttpRequest)
  | bindingDatabase (name : Text) (op : DatabaseOp)
  | bindingInvoke (name command : Text) (args : Json)

def HttpMethod.parseOrDefault (method : Option Text) : HttpMethod :=
  (HttpMethod.parse (method.getD (txt "GET"))).getD .get

/-- the bytes of a Rust string; `String::into` for a request body -/
def utf8Bytes (s : Text) : List UInt8 :=
  s.flatMap fun c => (String.singleton (Char.ofNat c)).toUTF8.toList

def bindingFetch (crates : Crates) (name params : Text) : Answer :=
  match (fromStr crates.limit params).bind decodeFetchParams with
  | none => .ready (.error (txt "bad fetch parameters: " ++ crates.serdeError params))
  | some p => .bindingFetch name
      { method := HttpMethod.parseOrDefault p.method
        url := p.url
        headers := p.headers.getD []
        body := match p.body with
          | some body => .bytes (utf8Bytes body)
          | none => .none }

def httpFetch (crates : Crates) (params : Text) : Answer :=
  match (fromStr crates.limit params).bind decodeFetchParams with
  | none => .ready (.error (txt "bad fetch parameters: " ++ crates.serdeError params))
  | some p =>
    let request (body : RequestBody) : HttpRequest :=
      { method := HttpMethod.parseOrDefault p.method
        url := p.url
        headers := p.headers.getD []
        body := body }
    match p.bodyBase64 with
    | none => .httpFetch (request .none)
    | some body =>
      match crates.base64Decode body with
      | .error e => .ready (.error (txt "bad request body: " ++ e))
      | .ok bytes => .httpFetch (request (.bytes bytes))

def bindingQuery (crates : Crates) (name params : Text) : Answer :=
  match (fromStr crates.limit params).bind (decodeQueryParams crates) with
  | none => .ready (.error (txt "bad query parameters: " ++ crates.serdeError params))
  | some op => .bindingDatabase name op

def bindingInvoke (crates : Crates) (name params : Text) : Answer :=
  match (fromStr crates.limit params).bind decodeInvokeParams with
  | none => .ready (.error (txt "bad invoke parameters: " ++ crates.serdeError params))
  | some (command, args) => .bindingInvoke name command args

def answer (crates : Crates) (kind name params : Text) : Answer :=
  if kind = txt "fetch" then bindingFetch crates name params
  else if kind = txt "http" then httpFetch crates params
  else if kind = txt "query" then bindingQuery crates name params
  else if kind = txt "invoke" ∧ crates.invoke = true then bindingInvoke crates name params
  else .ready (.error (txt "'" ++ kind ++ txt "' is not a binding call this runtime makes"))

/-! ## what the operations handler gives -/

inductive ResponseBody where
  | none
  | bytes (b : List UInt8)
  | stream (chunks : List (Except Text (List UInt8)))

structure HttpResponse where
  status : Nat
  headers : List (Text × Text)
  body : ResponseBody

inductive DatabaseResult where
  | rows (rows : Text)
  /-- a cell that `serde_json::to_value` refuses is `none` -/
  | table (columns : List Text) (rows : List (List (Option Json)))
  | error (message : Text)

inductive InvokeResult where
  | value (value : Json)
  | error (message : Text)

inductive Reply where
  | response (r : Except Text HttpResponse)
  | database (r : DatabaseResult)
  | invoke (r : InvokeResult)

def collectChunks : List (Except Text (List UInt8)) → Except Text (List UInt8)
  | [] => .ok []
  | .error e :: _ => .error e
  | .ok chunk :: rest => (collectChunks rest).map (chunk ++ ·)

def collect : ResponseBody → Except Text (List UInt8)
  | .none => .ok []
  | .bytes b => .ok b
  | .stream chunks => collectChunks chunks

/-- the tree both fetch paths answer with -/
def responseJson (status : Nat) (headers : List (Text × Text)) (body : Text) : Json :=
  .obj (toMap [(txt "status", .num (NumLit.ofInt status)),
    (txt "headers", .arr (headers.map fun h => .arr [.str h.1, .str h.2])),
    (txt "body", .str body)])

section
variable (status : Nat) (headers : List (Text × Text)) (body : Text)

theorem responseJson_eq : responseJson status headers body =
    .obj [(txt "body", .str body),
      (txt "headers", .arr (headers.map fun h => .arr [.str h.1, .str h.2])),
      (txt "status", .num (NumLit.ofInt status))] :=
  rfl

theorem headers_plain (headers : List (Text × Text)) :
    finiteItems (headers.map fun h => .arr [.str h.1, .str h.2]) = true ∧
      depthItems (headers.map fun h => .arr [.str h.1, .str h.2]) ≤ 1 := by
  induction headers with
  | nil => exact ⟨rfl, Nat.zero_le 1⟩
  | cons h headers ih =>
    refine ⟨ih.1, ?_⟩
    rw [List.map_cons, depthItems]
    exact max_le le_rfl ih.2

theorem JsonReader.reads_response (engine : JsonReader) (hstatus : status < 2 ^ 53) :
    engine.parse (encode (Json.print (responseJson status headers body))) =
      some (Json.map encode (responseJson status headers body)) := by
  obtain ⟨hfinite, hdepth⟩ := headers_plain headers
  refine engine.reads _ ?_ ?_
  · rw [responseJson_eq]
    simp only [finite, finiteMembers, numberOf_ofInt (i := status) (by omega), hfinite]
    rfl
  · have hthree : depth (responseJson status headers body) ≤ 3 := by
      rw [responseJson_eq]
      simp only [depth, depthMembers]
      omega
    unfold within
    split
    · rfl
    · next n hn => exact decide_eq_true (le_trans hthree (engine.deep n hn))

end

def fetchAnswer (crates : Crates) : Except Text HttpResponse → Except Text Text
  | .error e => .error e
  | .ok response => (collect response.body).map fun body =>
      Json.print (responseJson response.status response.headers (crates.base64Encode body))

def rowJson (columns : List Text) (row : List (Option Json)) : Json :=
  .obj (toMap ((columns.zip row).map fun c => (c.1, c.2.getD .null)))

def databaseAnswer : DatabaseResult → Except Text Text
  | .rows rows => .ok (txt "\x7b\"rows\":" ++ rows ++ txt "\x7d")
  | .table columns rows =>
    .ok (Json.print (.obj [(txt "rows", .arr (rows.map (rowJson columns)))]))
  | .error message => .error message

def invokeAnswer : InvokeResult → Except Text Text
  | .value value => .ok (Json.print value)
  | .error message => .error message

/-- The answer of a future that is polled: at once, or from what the operations handler gives;
`none` while the handler has given nothing, or if it is asked for something else. -/
def Answer.poll (crates : Crates) : Answer → Option Reply → Option (Except Text Text)
  | .ready a, _ => some a
  | .bindingFetch _ _, some (.response r) => some (fetchAnswer crates r)
  | .httpFetch _, some (.response r) => some (fetchAnswer crates r)
  | .bindingDatabase _ _, some (.database r) => some (databaseAnswer r)
  | .bindingInvoke _ _ _, some (.invoke r) => some (invokeAnswer r)
  | _, _ => none

/-- polling this future calls the operations handler -/
def Answer.asks : Answer → Bool
  | .ready _ => false
  | _ => true

end NovaRuntime
