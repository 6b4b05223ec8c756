import NovaRuntime.Glue.Runtime
import NovaRuntime.Script.Fetch
import NovaRuntime.Script.PlainData

/-!
# Invoking a command and querying a database (`bindings.js`, `bindings.rs`)

`env.NAME.invoke(command, args)` and `env.NAME.query(sql, params)`: the text that crosses, what the
host reads in it, and what the promise makes of the answer.

* `invoke`, `query`   the two functions, up to the future that the host waits for;
* `invoked`, `queried`   the end of their promises;
* `Readable`        what `JSON.parse` reads of what serde_json prints;
* `invoke_echo`     the handler gets the arguments, and the guest what the handler gives;
* `lastCell`        of two columns of one name, a row keeps the last;
* `query_arrives`   so do the statement, its parameters and the rows.
-/

namespace NovaRuntime
namespace EnvBindings
open Lib

/-! ## the two functions -/

section
variable (crates : Crates) (ops : Bool) (name : Text)

/-- `call(kind, name, method, params)`: the future, unless serialising the parameters throws.  The
name is a literal that the host wrote, and `params` an object literal. -/
def call (kind : Text) (params : JsVal) : Option Answer :=
  (stringifyPlain params).map fun text =>
    HostSlots.bindingAnswer crates ops kind (decodeLossy (encode name)) (decodeLossy text)

/-- `invoke(command, args)` -/
def invoke (command args : JsVal) : Js (Option Answer) :=
  match command with
  | .str command => .ok (call crates ops name (txt "invoke") (.plainObject
      [(.lit "command", .str command), (.lit "args", args)]))
  | _ => .error (.typeError (.lit "invoke: the command is not a string"))

/-- `query(sql, params)` -/
def query (sql params : JsVal) : Js (Option Answer) := do
  let sql ← sql.toText
  return call crates ops name (txt "query") (.plainObject
    [(.lit "sql", .str sql), (.lit "params", if params.truthy then params else .plainArray [])])

end

/-- what `then` makes of an answer; `none` where the promise never settles -/
def ended (crates : Crates) (resolve : JsVal → Js JsVal) (answer : Except Text Text) :
    Option (Js JsVal) :=
  match answerOutcome crates answer with
  | some (.resolved tree) => some (resolve (ofJson tree))
  | some (.rejected message) => some (.error (.error (.lit "Error") (.ofUnits message)))
  | _ => none

section
variable (crates : Crates) (future : Answer) (reply : Reply)

/-- the promise of `invoke` -/
def invoked : Option (Js JsVal) := (future.poll crates (some reply)).bind (ended crates .ok)

/-- the promise of `query`, whose answer has the rows as a member -/
def queried : Option (Js JsVal) :=
  (future.poll crates (some reply)).bind (ended crates fun answer => answer.get (txt "rows"))

end

/-! ## the parameters -/

/-- the parameters of a call, as a tree -/
def params (head tail : String) (s : Text) (p : Json) : Json :=
  .obj [(txt head, .str s), (txt tail, p)]

/-- The engine reads what serde_json prints of this tree: its numbers are doubles, and it is not
nested too deep. -/
def Readable (crates : Crates) (j : Json) : Prop :=
  finite j = true ∧ within crates.engine.limit j = true

theorem ended_print {crates : Crates} (resolve : JsVal → Js JsVal) {j : Json}
    (h : Readable crates j) :
    ended crates resolve (.ok (Json.print j)) = some (resolve (ofJson (Json.map encode j))) := by
  rw [ended, answerOutcome, crates.engine.reads j h.1 h.2]
  rfl

section
variable {head tail : String} {s : Text} {p t : Json}

theorem params_plain {v : JsVal} (hhead : txt head ≠ txt tail)
    (hv : serializePlain false v = some (some (Json.map encode t))) :
    serializePlain false (.plainObject [(.lit head, .str (.ofUnits (encode s))), (.lit tail, v)]) =
      some (some (.obj [(encode (txt head), .str (JsString.ofUnits (encode s)).units),
        (encode (txt tail), Json.map encode t)])) := by
  have hnd : ([(JsString.lit head, JsVal.str (.ofUnits (encode s))), (.lit tail, v)].map
      fun m => m.1.units).Nodup := by
    have hne : encode (txt head) ≠ encode (txt tail) :=
      fun h => hhead ((encode_injective (scalars_txt head) (scalars_txt tail)).mp h)
    simpa [JsString.lit] using hne
  rw [plainObject_plain hnd, List.mapM_cons, List.mapM_cons, hv]
  rfl

/-- What crosses is read back by the host, down to the limit. -/
theorem params_read (limit : Option Nat) {v : JsVal} (hhead : txt head ≠ txt tail) (hs : Scalars s)
    (hv : serializePlain false v = some (some (Json.map encode t))) (ht : Json.ScalarTree t) :
    ∃ text, stringifyPlain (.plainObject [(.lit head, .str (.ofUnits (encode s))), (.lit tail, v)]) =
        some text ∧
      fromStr limit (decodeLossy text) =
        if within limit (params head tail s t) then some (params head tail s t) else none := by
  have htree : Json.ScalarTree (params head tail s t) :=
    ⟨scalars_txt head, hs, scalars_txt tail, ht, trivial⟩
  have hmap : Json.obj [(encode (txt head), .str (JsString.ofUnits (encode s)).units),
      (encode (txt tail), Json.map encode t)] = Json.map encode (params head tail s t) := by
    rw [units_ofUnits_encode hs]
    rfl
  have hwire : WireTree (Json.map encode (params head tail s t)) := ⟨_, htree, rfl⟩
  refine ⟨Json.print (Json.map encode (params head tail s t)), ?_, ?_⟩
  · rw [stringifyPlain, params_plain hhead hv, hmap, Option.bind_some, Option.map_some,
      hwire.jsonText]
  · split
    · next hl => exact fromStr_print htree hl
    · next hl => exact fromStr_deep htree (Bool.eq_false_iff.mpr hl)

theorem within_params {limit : Option Nat} (h : depth t = depth p) :
    within limit (params head tail s t) = within limit (params head tail s p) := by
  have hdepth : depth (params head tail s t) = depth (params head tail s p) := by
    show 1 + max 0 (max (depth t) 0) = 1 + max 0 (max (depth p) 0)
    rw [h]
  unfold within
  rw [hdepth]

end

/-! ## a command -/

theorem decode_invokeParams (command : Text) (t : Json) :
    decodeInvokeParams (params "command" "args" command t) = some (command, toValue t) := rfl

/-- The host asks the handler for the command, or answers that it read no parameters. -/
theorem invoke_eq (crates : Crates) (hinvoke : crates.invoke = true) {name command : Text}
    (hname : Scalars name) (hcommand : Scalars command) {p : Json} (hp : Data p) :
    ∃ refusal, invoke crates true name (.str (.ofUnits (encode command)))
        (ofJson (Json.map encode p)) = .ok (some (
      if within crates.limit (params "command" "args" command p) then
        .bindingInvoke name command (toValue p)
      else .ready (.error (txt "bad invoke parameters: " ++ refusal)))) := by
  obtain ⟨t, ht⟩ := data_crosses plainly_serializePlain p hp
  obtain ⟨text, htext, hread⟩ := params_read crates.limit
    (show txt "command" ≠ txt "args" by decide) hcommand ht.written ht.scalar
  have hanswer : HostSlots.bindingAnswer crates true (txt "invoke") (decodeLossy (encode name))
      (decodeLossy text) = bindingInvoke crates name (decodeLossy text) := by
    rw [HostSlots.bindingAnswer, if_pos rfl, answer, if_neg (by decide), if_neg (by decide),
      if_neg (by decide), if_pos ⟨rfl, hinvoke⟩, decodeLossy_encode hname]
  refine ⟨crates.serdeError (decodeLossy text), ?_⟩
  rw [invoke, call, htext, Option.map_some, hanswer, bindingInvoke, hread, within_params ht.depth_eq]
  cases within crates.limit (params "command" "args" command p) with
  | true =>
    rw [if_pos rfl, if_pos rfl, Option.bind_some, decode_invokeParams, ht.value]
  | false => rfl

/-- The arguments of a command reach the handler as they are, and what it gives reaches the guest.
Only what is nested deeper than `serde_json` or the engine reads does not. -/
theorem invoke_echo (crates : Crates) (hinvoke : crates.invoke = true) (name command : Text)
    (hname : Scalars name) (hcommand : Scalars command) (p : Json) (hp : Data p) :
    ∃ future, invoke crates true name (.str (.ofUnits (encode command)))
        (ofJson (Json.map encode p)) = .ok (some future) ∧
      (within crates.limit (params "command" "args" command p) = true →
        future = .bindingInvoke name command (toValue p) ∧
        (∀ v, Readable crates v →
          invoked crates future (.invoke (.value v)) = some (.ok (ofJson (Json.map encode v)))) ∧
        ∀ m, invoked crates future (.invoke (.error m)) =
          some (.error (.error (.lit "Error") (.ofUnits (encode m))))) ∧
      (within crates.limit (params "command" "args" command p) = false →
        ∃ refusal, ∀ reply, invoked crates future reply = some (.error (.error (.lit "Error")
          (.ofUnits (encode (txt "bad invoke parameters: " ++ refusal)))))) := by
  obtain ⟨refusal, h⟩ := invoke_eq crates hinvoke hname hcommand hp
  refine ⟨_, h, fun hl => ?_, fun hl => ?_⟩
  · rw [if_pos hl]
    refine ⟨rfl, fun v hv => ?_, fun m => rfl⟩
    rw [invoked, Answer.poll, invokeAnswer, Option.bind_some, ended_print .ok hv]
  · rw [if_neg (by rw [hl]; decide)]
    exact ⟨refusal, fun reply => by cases reply <;> rfl⟩

/-- arguments with a member before one that sorts ahead of it -/
def sampleArgs : Json :=
  .obj [(txt "xs", .arr [.str (txt "é"), .bool true]), (txt "__proto__", .num (NumLit.ofInt 1))]

theorem sampleArgs_data : Data sampleArgs :=
  ⟨by decide, scalars_txt "xs", ⟨scalars_txt "é", trivial, trivial⟩, scalars_txt "__proto__",
    data_ofInt (by decide), trivial⟩

theorem invoke_echo_sample : ∃ future,
    invoke .bare true (txt "JOBS") (.str (.ofUnits (encode (txt "sum"))))
        (ofJson (Json.map encode sampleArgs)) = .ok (some future) ∧
      future = .bindingInvoke (txt "JOBS") (txt "sum") (.obj [(txt "__proto__", .num (NumLit.ofInt 1)),
        (txt "xs", .arr [.str (txt "é"), .bool true])]) ∧
      invoked .bare future (.invoke (.value sampleArgs)) =
        some (.ok (ofJson (Json.map encode sampleArgs))) := by
  obtain ⟨future, hfuture, harrives, -⟩ := invoke_echo .bare rfl (txt "JOBS") (txt "sum")
    (scalars_txt "JOBS") (scalars_txt "sum") sampleArgs sampleArgs_data
  obtain ⟨hasked, hvalue, -⟩ := harrives rfl
  exact ⟨future, hfuture, hasked, hvalue sampleArgs ⟨by decide +kernel, rfl⟩⟩

/-! ## rows -/

theorem lookup_cons_if {α : Type} (k : Text) (m : Text × α) (ms : List (Text × α)) :
    (m :: ms).lookup k = if k = m.1 then some m.2 else ms.lookup k := by
  by_cases h : k = m.1
  · rw [if_pos h, List.lookup_cons, beq_iff_eq.mpr h]
  · rw [if_neg h, List.lookup_cons, beq_eq_false_iff_ne.mpr h]

theorem lookup_insertMember (k k' : Text) (v : Json) (ms : List (Text × Json)) :
    (insertMember k v ms).lookup k' = if k' = k then some v else ms.lookup k' := by
  induction ms with
  | nil => exact lookup_cons_if k' (k, v) []
  | cons m ms ih =>
    rw [insertMember, lookup_cons_if k' m ms]
    by_cases hlt : k < m.1
    · rw [if_pos hlt, lookup_cons_if, lookup_cons_if]
    · rw [if_neg hlt]
      by_cases heq : k = m.1
      · rw [if_pos heq, lookup_cons_if, ← heq]
        by_cases h : k' = k
        · rw [if_pos h, if_pos h]
        · rw [if_neg h, if_neg h, if_neg h]
      · rw [if_neg heq, lookup_cons_if, ih]
        by_cases h : k' = m.1
        · have hne : k' ≠ k := fun hk => heq (hk.symm.trans h)
          rw [if_pos h, if_neg hne, if_pos h]
        · rw [if_neg h, if_neg h]

theorem lookup_toMap (k : Text) (ms : List (Text × Json)) :
    (toMap ms).lookup k = ms.reverse.lookup k := by
  induction ms using List.reverseRecOn with
  | nil => rfl
  | append_singleton ms m ih =>
    have hlast : toMap (ms ++ [m]) = insertMember m.1 m.2 (toMap ms) := by
      rw [toMap, List.foldl_append]
      rfl
    rw [hlast, lookup_insertMember, ih, List.reverse_append, List.reverse_singleton,
      List.singleton_append, lookup_cons_if]

/-- the cell of a row under this column -/
def lastCell (columns : List Text) (row : List (Option Json)) (column : Text) : Option (Option Json) :=
  (columns.zip row).reverse.lookup column

/-- the value of a cell, as the guest gets it -/
def cellValue : Option (Option Json) → JsVal
  | none => .undefined
  | some cell => ofJson (Json.map encode (cell.getD .null))

theorem member_payloadMembers {ms : List (Text × Json)} (hs : ∀ m ∈ ms, Scalars m.1)
    (hk : KeySorted ms) {k : Text} (hkey : Scalars k) :
    JsVal.member (encode k) (payloadMembers ms) = cellValue ((ms.lookup k).map some) := by
  have hperm := payloadMembers_perm hs hk.nodup
  cases h : ms.lookup k with
  | none =>
    refine member_not_mem fun m hm heq => ?_
    obtain ⟨m', hm', rfl⟩ := List.mem_map.mp (hperm.mem_iff.mp hm)
    rw [units_ofUnits_encode (hs m' hm'), encode_injective (hs m' hm') hkey] at heq
    exact bne_iff_ne.mp (List.lookup_eq_none_iff.mp h m' hm') heq.symm
  | some v =>
    obtain ⟨before, after, hcut, -⟩ := List.lookup_eq_some_iff.mp h
    have hmem : (k, v) ∈ ms := hcut ▸ List.mem_append_right _ List.mem_cons_self
    have hpayload : (JsString.ofUnits (encode k), ofJson (Json.map encode v)) ∈ payloadMembers ms :=
      hperm.mem_iff.mpr (List.mem_map.mpr ⟨_, hmem, rfl⟩)
    have hget := member_of_mem (nodup_payloadMembers hs hk.nodup) hpayload
    rwa [units_ofUnits_encode hkey] at hget

theorem lookup_map_snd {α β : Type} (f : α → β) (k : Text) (ms : List (Text × α)) :
    (ms.map fun m => (m.1, f m.2)).lookup k = (ms.lookup k).map f := by
  induction ms with
  | nil => rfl
  | cons m ms ih =>
    rw [List.map_cons, lookup_cons_if, lookup_cons_if, ih]
    split_ifs <;> rfl

/-- A member of a row is the last cell of its column. -/
theorem rowJson_get {columns : List Text} (hc : ∀ c ∈ columns, Scalars c)
    (row : List (Option Json)) {column : Text} (hcolumn : Scalars column) :
    (ofJson (Json.map encode (rowJson columns row))).get (encode column) =
      .ok (cellValue (lastCell columns row column)) := by
  have hnames : ∀ m ∈ toMap ((columns.zip row).map fun c => (c.1, c.2.getD .null)), Scalars m.1 := by
    intro m hm
    obtain ⟨c, hmem, rfl⟩ := List.mem_map.mp (mem_toMap hm)
    exact hc c.1 (List.of_mem_zip hmem).1
  rw [rowJson, ofJson_obj]
  show Except.ok (JsVal.member (encode column) _) = _
  rw [member_payloadMembers hnames (toMap_sorted _) hcolumn, lookup_toMap, ← List.map_reverse,
    lookup_map_snd (fun cell : Option Json => cell.getD .null), lastCell]
  cases (columns.zip row).reverse.lookup column <;> rfl

/-- the text that the host makes of rows that are JSON already -/
theorem rows_text (j : Json) : txt "\x7b\"rows\":" ++ Json.print j ++ txt "\x7d" =
    Json.print (.obj [(txt "rows", j)]) := by
  have hopen : txt "\x7b\"rows\":" = 123 :: (Json.quote (txt "rows") ++ [58]) := by decide
  rw [hopen, Json.print, Json.printMembers, List.cons_append, List.cons_append, List.append_assoc,
    List.append_assoc]
  rfl

theorem get_rows (j : Json) :
    (ofJson (Json.map encode (.obj [(txt "rows", j)]))).get (txt "rows") =
      .ok (ofJson (Json.map encode j)) := rfl

/-! ## a statement -/

theorem decode_queryParams (crates : Crates) (s : Text) (ts : List Json) :
    decodeQueryParams crates (params "sql" "params" s (.arr ts)) =
      (ts.mapM crates.sqlParam).map fun ps => ⟨s, ps⟩ := by
  show (ts.mapM crates.sqlParam).bind (fun ps => some (DatabaseOp.mk s ps)) = _
  cases ts.mapM crates.sqlParam <;> rfl

theorem mapM_crosses {crates : Crates}
    (hparam : ∀ t t', toValue t = toValue t' → crates.sqlParam t = crates.sqlParam t')
    {xs ts : List Json} (h : List.Forall₂ (Crosses (serializePlain false)) xs ts) :
    ts.mapM crates.sqlParam = xs.mapM crates.sqlParam := by
  induction h with
  | nil => rfl
  | cons hx _ ih => rw [List.mapM_cons, List.mapM_cons, ih, hparam _ _ hx.value]

/-- the operation that the handler is asked for, if the host reads the parameters -/
def readQuery (crates : Crates) (s : Text) (xs : List Json) : Option DatabaseOp :=
  if within crates.limit (params "sql" "params" s (.arr xs)) then
    (xs.mapM crates.sqlParam).map fun ps => ⟨s, ps⟩
  else none

theorem query_eq (crates : Crates)
    (hparam : ∀ t t', toValue t = toValue t' → crates.sqlParam t = crates.sqlParam t')
    {name s : Text} (hname : Scalars name) (hs : Scalars s) {xs : List Json} (hxs : DataItems xs)
    {sql ps : JsVal} (hsql : sql.toText = .ok (.ofUnits (encode s)))
    (hps : ps = ofJson (Json.map encode (.arr xs)) ∨ ps.truthy = false ∧ xs = []) :
    ∃ refusal, query crates true name sql ps = .ok (some (match readQuery crates s xs with
      | some op => .bindingDatabase name op
      | none => .ready (.error (txt "bad query parameters: " ++ refusal)))) := by
  have hgiven : (if ps.truthy then ps else .plainArray []) = ofJson (Json.map encode (.arr xs)) := by
    obtain rfl | ⟨hfalsy, rfl⟩ := hps
    · rfl
    · rw [hfalsy]
      rfl
  obtain ⟨ts, hts⟩ := items_cross plainly_serializePlain xs hxs
  have ht := crosses_arr plainly_serializePlain hts
  obtain ⟨text, htext, hread⟩ := params_read crates.limit
    (show txt "sql" ≠ txt "params" by decide) hs ht.written ht.scalar
  have hanswer : HostSlots.bindingAnswer crates true (txt "query") (decodeLossy (encode name))
      (decodeLossy text) = bindingQuery crates name (decodeLossy text) := by
    rw [HostSlots.bindingAnswer, if_pos rfl, answer, if_neg (by decide), if_neg (by decide),
      if_pos rfl, decodeLossy_encode hname]
  have hop : (fromStr crates.limit (decodeLossy text)).bind (decodeQueryParams crates) =
      readQuery crates s xs := by
    rw [hread, within_params ht.depth_eq, readQuery]
    split_ifs with hl
    · rw [Option.bind_some, decode_queryParams, mapM_crosses hparam hts]
    · rfl
  refine ⟨crates.serdeError (decodeLossy text), ?_⟩
  show (sql.toText >>= fun sql => Except.ok (call crates true name (txt "query") (.plainObject
    [(.lit "sql", .str sql), (.lit "params", if ps.truthy then ps else .plainArray [])]))) = _
  rw [hsql, hgiven]
  show Except.ok (call crates true name (txt "query") _) = _
  rw [call, htext, Option.map_some, hanswer, bindingQuery, hop]
  cases readQuery crates s xs <;> rfl

/-- the rows of a table, as the guest reads them: cell by cell, by the names of the columns -/
def Shows (columns : List Text) (rows : List (List (Option Json))) (table : List JsVal) : Prop :=
  List.Forall₂ (fun row shown => ∀ column, Scalars column →
    shown.get (encode column) = .ok (cellValue (lastCell columns row column))) rows table

theorem shows_rows {columns : List Text} (hc : ∀ c ∈ columns, Scalars c)
    (rows : List (List (Option Json))) :
    ∃ table, ofJson (Json.map encode (.arr (rows.map (rowJson columns)))) = .plainArray table ∧
      Shows columns rows table := by
  refine ⟨ofItems (Json.mapItems encode (rows.map (rowJson columns))), rfl, ?_⟩
  induction rows with
  | nil => exact .nil
  | cons row rows ih => exact .cons (fun column hcolumn => rowJson_get hc row hcolumn) ih

/-- the answer to a query with a table -/
def tableJson (columns : List Text) (rows : List (List (Option Json))) : Json :=
  .obj [(txt "rows", .arr (rows.map (rowJson columns)))]

/-- A statement and its parameters reach the handler as they are, and the rows it gives reach the
guest, as JSON or as a table of cells.  Of a text the guest gets what the engine reads in it, and
where that is nothing the promise stays pending. -/
theorem query_arrives (crates : Crates)
    (hparam : ∀ t t', toValue t = toValue t' → crates.sqlParam t = crates.sqlParam t')
    (name s : Text) (hname : Scalars name) (hs : Scalars s) (xs : List Json) (hxs : DataItems xs)
    (sql ps : JsVal) (hsql : sql.toText = .ok (.ofUnits (encode s)))
    (hps : ps = ofJson (Json.map encode (.arr xs)) ∨ ps.truthy = false ∧ xs = []) :
    ∃ future, query crates true name sql ps = .ok (some future) ∧
      (∀ op, readQuery crates s xs = some op →
        future = .bindingDatabase name op ∧
        (∀ j, Readable crates (.obj [(txt "rows", j)]) →
          queried crates future (.database (.rows (Json.print j))) =
            some (.ok (ofJson (Json.map encode j)))) ∧
        (∀ rows, queried crates future (.database (.rows rows)) =
          (crates.engine.parse (encode (txt "\x7b\"rows\":" ++ rows ++ txt "\x7d"))).map fun answer =>
            (ofJson answer).get (txt "rows")) ∧
        (∀ columns rows, (∀ c ∈ columns, Scalars c) → Readable crates (tableJson columns rows) →
          ∃ table, queried crates future (.database (.table columns rows)) =
            some (.ok (.plainArray table)) ∧ Shows columns rows table) ∧
        ∀ m, queried crates future (.database (.error m)) =
          some (.error (.error (.lit "Error") (.ofUnits (encode m))))) ∧
      (readQuery crates s xs = none → ∃ refusal, ∀ reply, queried crates future reply =
        some (.error (.error (.lit "Error")
          (.ofUnits (encode (txt "bad query parameters: " ++ refusal)))))) := by
  obtain ⟨refusal, h⟩ := query_eq crates hparam hname hs hxs hsql hps
  refine ⟨_, h, fun op hop => ?_, fun hop => ?_⟩
  · rw [hop]
    refine ⟨rfl, fun j hj => ?_, fun rows => ?_, fun columns rows hc ht => ?_, fun m => rfl⟩
    · rw [queried, Answer.poll, databaseAnswer, rows_text, Option.bind_some, ended_print _ hj, get_rows]
    · rw [queried, Answer.poll, databaseAnswer, Option.bind_some, ended, answerOutcome]
      cases crates.engine.parse (encode (txt "\x7b\"rows\":" ++ rows ++ txt "\x7d")) <;> rfl
    · obtain ⟨table, htable, hshows⟩ := shows_rows hc rows
      refine ⟨table, ?_, hshows⟩
      have hended := ended_print (fun answer => answer.get (txt "rows")) ht
      rw [tableJson, get_rows, htable] at hended
      exact hended
  · rw [hop]
    exact ⟨refusal, fun reply => by cases reply <;> rfl⟩

/-- a crate that takes any parameter but an array or an object -/
def scalarCrates : Crates :=
  { Crates.bare with
    sqlParam := fun j =>
      match j with
      | .arr _ | .obj _ => none
      | j => some j }

theorem scalarCrates_sqlParam (t t' : Json) (h : toValue t = toValue t') :
    scalarCrates.sqlParam t = scalarCrates.sqlParam t' := by
  cases t <;> cases t' <;> first | exact congrArg some h | rfl | cases h

/-- a table of which two columns have one name, with a row that is short of a cell -/
def sampleTable : List (List (Option Json)) :=
  [[some (.str (txt "a")), some .null, some (.bool true)], [some (.str (txt "b")), none]]

theorem query_arrives_sample : ∃ future table,
    query scalarCrates true (txt "DB") (.str (.ofUnits (encode (txt "select $1"))))
        (ofJson (Json.map encode (.arr [.str (txt "é")]))) = .ok (some future) ∧
      future = .bindingDatabase (txt "DB") ⟨txt "select $1", [.str (txt "é")]⟩ ∧
      queried scalarCrates future (.database (.table [txt "id", txt "v", txt "id"] sampleTable)) =
        some (.ok (.plainArray table)) ∧
      Shows [txt "id", txt "v", txt "id"] sampleTable table := by
  obtain ⟨future, hfuture, harrives, -⟩ := query_arrives scalarCrates scalarCrates_sqlParam
    (txt "DB") (txt "select $1") (scalars_txt "DB") (scalars_txt "select $1") [.str (txt "é")]
    ⟨scalars_txt "é", trivial⟩ (.str (.ofUnits (encode (txt "select $1")))) _ rfl (.inl rfl)
  obtain ⟨hasked, -, -, htable, -⟩ := harrives _ rfl
  obtain ⟨table, hqueried, hshows⟩ := htable [txt "id", txt "v", txt "id"] sampleTable
    (by simp [scalars_txt]) ⟨by decide, rfl⟩
  exact ⟨future, table, hfuture, hasked, hqueried, hshows⟩

end EnvBindings
end NovaRuntime
