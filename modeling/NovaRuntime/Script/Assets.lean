import NovaRuntime.Lib.Url
import NovaRuntime.Script.Fetch

/-!
# The URLs that an assets binding asks for (`bindings.js`)

The guest's argument is taken as a `Request` if it passes for one, and is resolved against
`http://localhost/` otherwise.  Only the second way parses anything.

* `Written`   what `JSON.stringify` makes of a value;
* `View`      what the glue reads of a request object;
* `Input`     an argument of `fetch`, as far as the glue asks;
* `resolve`   the parser of the web surface, which gives a record that is well formed;
* `Clean`     the arguments that lead to no dot segment.

`assets_urls_clean` says which arguments hand a dot segment to the host.
-/

namespace NovaRuntime
namespace Assets
open Lib

/-- What `JSON.stringify` makes of a value, or nothing if it leaves it out.  A text with a lone
surrogate is written with an escape that serde refuses; here it throws at once. -/
def Written : Type := { j : Option Json // ∀ x, j = some x → Json.ScalarTree x }

/-- a text of the host -/
def ScalarText : Type := { t : Text // Scalars t }

def ScalarText.written (t : ScalarText) : Written :=
  ⟨some (.str t.1), fun x hx => by
    cases hx
    exact t.2⟩

/-- `url`, `method` and `headers` of an object -/
structure View where
  url : Written
  method : Written
  headers : List (ScalarText × Written)

/-- an argument of the binding's `fetch`; what throws rejects the promise or throws in the guest -/
inductive Input where
  /-- an object that is `instanceof Request`, with what is read of it -/
  | request (view : Js View)
  /-- any other value, with what `String` makes of it, and `init` -/
  | other (text : Js JsString) (method : Js Written) (headers : Js (List (ScalarText × ScalarText)))

/-- a URL record of the surface -/
structure Record where
  parts : Url.Parts
  valid : parts.Valid
  scalars : Scalars parts.href

/-- `new URL(text, 'http://localhost/')` -/
def newUrl (resolve : Text → Option Record) (text : JsString) : Js Record :=
  match resolve (decodeLossy text.units) with
  | some record => .ok record
  | none => .error (.typeError (.lit "Invalid URL"))

/-- `request` in the binding's `fetch` -/
def Input.view (resolve : Text → Option Record) : Input → Js View
  | .request view => view
  | .other text method headers => do
    let record ← newUrl resolve (← text)
    let method ← method
    let headers ← headers
    return ⟨ScalarText.written ⟨record.parts.href, record.scalars⟩, method,
      headers.map fun h => (h.1, h.2.written)⟩

def View.tree (view : View) : Json :=
  requestTree view.url.1 view.method.1 (view.headers.map fun h => (h.1.1, h.2.1)) none

/-- the parameters of the call -/
def params (resolve : Text → Option Record) (input : Input) : Js Text :=
  (input.view resolve).map fun view => crossed view.tree

/-- The host can read the parameters that are made of this object. -/
def View.Readable (crates : Crates) (view : View) : Prop :=
  ∃ p, (fromStr crates.limit (crossed view.tree)).bind decodeFetchParams = some p

/-- The url of a `Request` has no dot segment if the host can read it.  A URL that was resolved does
not keep its path as it was written, with a dot segment in it, nor is its path guarded by one. -/
def Clean (crates : Crates) (resolve : Text → Option Record) : Input → Prop
  | .request given => ∀ view, given = .ok view → view.Readable crates →
      ∀ url, view.url.1 = some (.str url) → ¬ Url.Dotted url
  | .other text method headers => ∀ s record, text = .ok s →
      resolve (decodeLossy s.units) = some record →
      (∃ view, (Input.other text method headers).view resolve = .ok view ∧ view.Readable crates) →
        (∀ t, record.parts.path = .opaquePath t →
          ∀ segment ∈ Url.segmentsOf t, Url.isDot segment = false) ∧
        ¬ (record.parts.authority = none ∧ ∃ s ss, record.parts.path = .segments ([] :: s :: ss))

section
variable {crates : Crates} {resolve : Text → Option Record} {view : View}

theorem View.scalar_tree (view : View) : Json.ScalarTree view.tree := by
  refine scalar_requestTree view.url.2 view.method.2 ?_ (by simp)
  intro h hh
  obtain ⟨e, -, rfl⟩ := List.mem_map.mp hh
  exact ⟨e.1.2, e.2.2⟩

theorem fromStr_crossed {j : Json} (h : Json.ScalarTree j) {limit : Option Nat} {j' : Json}
    (hread : fromStr limit (crossed j) = some j') : j' = j := by
  cases hw : within limit j with
  | true =>
    rw [crossed, fromStr_print h hw] at hread
    exact (Option.some.inj hread).symm
  | false =>
    rw [crossed, fromStr_deep h hw] at hread
    cases hread

/-- The host's url is a string of the object. -/
theorem View.url_of_read {p : FetchParams}
    (h : (fromStr crates.limit (crossed view.tree)).bind decodeFetchParams = some p) :
    view.url.1 = some (.str p.url) := by
  obtain ⟨j, hj, hp⟩ := Option.bind_eq_some_iff.mp h
  rw [fromStr_crossed view.scalar_tree hj, View.tree, decode_requestTree] at hp
  obtain ⟨x, hx, hp⟩ := Option.bind_eq_some_iff.mp hp
  obtain ⟨url, hurl, hp⟩ := Option.bind_eq_some_iff.mp hp
  obtain ⟨method, -, hp⟩ := Option.bind_eq_some_iff.mp hp
  obtain ⟨headers, -, rfl⟩ := Option.map_eq_some_iff.mp hp
  rw [hx]
  cases x with
  | str s => exact congrArg (fun t => some (Json.str t)) (Option.some.inj hurl)
  | _ => cases hurl

/-- The handler is asked exactly when the host can read the parameters, and for their url. -/
theorem answer_crossed {name bound : Text} {asked : HttpRequest}
    (h : answer crates (txt "fetch") name (crossed view.tree) = .bindingFetch bound asked) :
    view.Readable crates ∧ view.url.1 = some (.str asked.url) := by
  have hfetch : answer crates (txt "fetch") name (crossed view.tree) =
      bindingFetch crates name (crossed view.tree) := rfl
  rw [hfetch, bindingFetch] at h
  cases hp : (fromStr crates.limit (crossed view.tree)).bind decodeFetchParams with
  | none =>
    rw [hp] at h
    cases h
  | some p =>
    rw [hp] at h
    cases h
    exact ⟨⟨p, hp⟩, View.url_of_read hp⟩

theorem answer_of_readable (name : Text) (h : view.Readable crates) :
    ∃ asked, answer crates (txt "fetch") name (crossed view.tree) = .bindingFetch name asked ∧
      view.url.1 = some (.str asked.url) := by
  obtain ⟨p, hp⟩ := h
  show ∃ asked, bindingFetch crates name (crossed view.tree) = .bindingFetch name asked ∧ _
  rw [bindingFetch, hp]
  exact ⟨_, rfl, View.url_of_read hp⟩

theorem view_other {text : Js JsString} {method : Js Written}
    {headers : Js (List (ScalarText × ScalarText))}
    (h : (Input.other text method headers).view resolve = .ok view) :
    ∃ s record, text = .ok s ∧ resolve (decodeLossy s.units) = some record ∧
      view.url.1 = some (.str record.parts.href) := by
  obtain ⟨s, hs, h⟩ := bind_ok.mp h
  obtain ⟨record, hrecord, h⟩ := bind_ok.mp h
  obtain ⟨m, -, h⟩ := bind_ok.mp h
  obtain ⟨hs', -, h⟩ := bind_ok.mp h
  cases pure_ok.mp h
  refine ⟨s, record, hs, ?_, rfl⟩
  unfold newUrl at hrecord
  split at hrecord
  · next hresolve =>
    cases hrecord
    exact hresolve
  · cases hrecord

/-- What reaches the host is the url of a view that it can read. -/
theorem undotted_iff {name : Text} {input : Input} :
    (∀ text bound asked, params resolve input = .ok text →
      answer crates (txt "fetch") name text = .bindingFetch bound asked →
        ¬ Url.Dotted asked.url) ↔
      ∀ view, input.view resolve = .ok view → view.Readable crates →
        ∀ url, view.url.1 = some (.str url) → ¬ Url.Dotted url := by
  constructor
  · intro hall view hview hread url hurl
    obtain ⟨asked, hasked, hurl'⟩ := answer_of_readable name hread
    have hparams : params resolve input = .ok (crossed view.tree) := by
      rw [params, hview]
      rfl
    cases hurl.symm.trans hurl'
    exact hall _ _ asked hparams hasked
  · intro hall text bound asked htext hasked
    cases hview : input.view resolve with
    | error e =>
      rw [params, hview] at htext
      cases htext
    | ok view =>
      rw [params, hview] at htext
      cases htext
      obtain ⟨hread, hurl⟩ := answer_crossed hasked
      exact hall view hview hread asked.url hurl

/-- A resolved URL has no dot segment unless its path was kept, or is guarded by one. -/
theorem undotted_record (record : Record) : ¬ Url.Dotted record.parts.href ↔
    (∀ t, record.parts.path = .opaquePath t →
      ∀ segment ∈ Url.segmentsOf t, Url.isDot segment = false) ∧
    ¬ (record.parts.authority = none ∧ ∃ s ss, record.parts.path = .segments ([] :: s :: ss)) := by
  rw [Url.dotted_href_iff record.valid, not_or]
  refine and_congr_left fun _ => ?_
  simp only [not_exists, not_and, Bool.not_eq_true]

end

/-- No dot segment reaches the host exactly for the arguments that are clean. -/
theorem assets_urls_clean (crates : Crates) (resolve : Text → Option Record) (name : Text)
    (input : Input) :
    (∀ text bound asked, params resolve input = .ok text →
      answer crates (txt "fetch") name text = .bindingFetch bound asked →
        ¬ Url.Dotted asked.url) ↔ Clean crates resolve input := by
  rw [undotted_iff]
  cases input with
  | request given => exact Iff.rfl
  | other text method headers =>
    constructor
    · rintro hall s record hs hrecord ⟨view, hview, hread⟩
      obtain ⟨s', record', hs', hrecord', hurl⟩ := view_other hview
      cases hs.symm.trans hs'
      cases hrecord.symm.trans hrecord'
      exact (undotted_record record).mp (hall view hview hread _ hurl)
    · intro hclean view hview hread url hurl
      obtain ⟨s, record, hs, hrecord, hhref⟩ := view_other hview
      cases hhref.symm.trans hurl
      exact (undotted_record record).mpr (hclean s record hs hrecord ⟨view, hview, hread⟩)

/-! ## dot segments that reach the host -/

/-- what a `GET` for this url looks like, without headers -/
def getView (url : Text) (h : Scalars url) : View :=
  ⟨ScalarText.written ⟨url, h⟩, ScalarText.written ⟨txt "GET", scalars_txt _⟩, []⟩

theorem getView_readable {url : Text} (h : Scalars url) :
    (getView url h).Readable Crates.standard := by
  refine ⟨⟨url, some (txt "GET"), some [], none, none⟩, ?_⟩
  rw [crossed, fromStr_print (getView url h).scalar_tree rfl, Option.bind_some, View.tree,
    decode_requestTree]
  rfl

/-- an object that passes for a `Request` and has a `url` of its own -/
def forgedRequest : Input :=
  .request (.ok (getView (txt "http://localhost/../secret.txt") (scalars_txt _)))

/-- the record of `x:a/../b` -/
def keptRecord : Record where
  parts := ⟨txt "x", none, .opaquePath (txt "a/../b"), none, none⟩
  valid := ⟨by decide, by simp, rfl, by decide, by decide⟩
  scalars := by decide

/-- the parser, for this input -/
def keepsPath (text : Text) : Option Record :=
  if text = txt "x:a/../b" then some keptRecord else none

def opaqueInput : Input :=
  .other (.ok (.lit "x:a/../b")) (.ok (ScalarText.written ⟨txt "GET", scalars_txt _⟩)) (.ok [])

theorem get_reaches (resolve : Text → Option Record) (input : Input) {url : Text} (h : Scalars url)
    (hview : input.view resolve = .ok (getView url h)) :
    ∃ text asked, params resolve input = .ok text ∧
      answer Crates.standard (txt "fetch") (txt "ASSETS") text =
        .bindingFetch (txt "ASSETS") asked ∧ asked.url = url := by
  obtain ⟨asked, hasked, hurl⟩ :=
    answer_of_readable (txt "ASSETS") (getView_readable h)
  refine ⟨crossed (getView url h).tree, asked, ?_, hasked, ?_⟩
  · rw [params, hview]
    rfl
  · cases hurl
    rfl

theorem dot_segments_reach_the_host :
    (∃ text asked, params keepsPath forgedRequest = .ok text ∧
      answer Crates.standard (txt "fetch") (txt "ASSETS") text =
        .bindingFetch (txt "ASSETS") asked ∧
      asked.url = txt "http://localhost/../secret.txt" ∧ Url.Dotted asked.url) ∧
    ∃ text asked, params keepsPath opaqueInput = .ok text ∧
      answer Crates.standard (txt "fetch") (txt "ASSETS") text =
        .bindingFetch (txt "ASSETS") asked ∧
      asked.url = txt "x:a/../b" ∧ Url.Dotted asked.url := by
  constructor
  · obtain ⟨text, asked, htext, hasked, hurl⟩ := get_reaches keepsPath forgedRequest
      (scalars_txt "http://localhost/../secret.txt") rfl
    exact ⟨text, asked, htext, hasked, hurl, hurl ▸ by decide⟩
  · obtain ⟨text, asked, htext, hasked, hurl⟩ := get_reaches keepsPath opaqueInput
      (scalars_txt "x:a/../b") rfl
    exact ⟨text, asked, htext, hasked, hurl, hurl ▸ by decide⟩

end Assets
end NovaRuntime
