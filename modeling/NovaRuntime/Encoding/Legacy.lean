import NovaRuntime.Encoding.Spelling
import NovaRuntime.Encoding.Streaming
import NovaRuntime.Lib.Transducer

/-!
# `TextDecoder` for any label (`encoding.js`, `encoding.rs`)

A label that is not one of UTF-8's goes to the host, which decodes each chunk on its own.

* `LabelledDecoder`   a decoder for either kind of label, made by `construct`;
* `decodeLegacy`      the call of the native, and the exception for its `false`;
* `result`            what chunks give that are decoded one after the other;
* `pieces_iff`        when chunks are decoded like the whole, where characters are spelled;
* `construct_cases`   what the constructor makes;
* `seamless_iff`      which decoders can be given their bytes in any chunks.
-/

namespace NovaRuntime
open Lib

/-- what the class takes from the engine and the host -/
structure Encodings where
  /-- `String.prototype.toLowerCase` -/
  lower : JsString → JsString
  /-- `Encoding::for_label` -/
  forLabel : Text → Option Encoding

def utf8Labels : List Text :=
  [txt "unicode-1-1-utf-8", txt "unicode11utf8", txt "unicode20utf8", txt "utf-8", txt "utf8",
    txt "x-unicode20utf8"]

/-- `String.prototype.trim` -/
def JsString.trim (s : JsString) : JsString where
  units := ((s.units.dropWhile isJsSpace).reverse.dropWhile isJsSpace).reverse
  small := by
    intro c hc
    have hback := (List.dropWhile_suffix _).subset (List.mem_reverse.mp hc)
    exact s.small c ((List.dropWhile_suffix _).subset (List.mem_reverse.mp hback))

/-- a `TextDecoder`; one with `#legacy` set keeps nothing else between calls -/
inductive LabelledDecoder where
  | utf8 (d : TextDecoder)
  | legacy (name : JsVal) (fatal ignoreBOM : Bool)

/-- `toHex` as an argument of the native -/
def EncodingJs.hexArg (bytes : List UInt8) : JsVal :=
  .str ⟨EncodingJs.toHex bytes, by rw [encoding_toHex]; exact (JsString.hex bytes).small⟩

namespace LabelledDecoder

def js {α : Type} (x : Js α) : Native α := ExceptT.mk (some x)

/-- `String(label === undefined ? 'utf-8' : label)` -/
def labelText : JsVal → Js JsString
  | .undefined => .ok (.lit "utf-8")
  | label => label.toText

/-- `fatal` and `ignoreBOM` of the options -/
def flags (options : JsVal) : Js (Bool × Bool) := do
  let options := if options.truthy then options else .plainObject []
  let fatal ← options.get (txt "fatal")
  let ignoreBOM ← options.get (txt "ignoreBOM")
  return (fatal.truthy, ignoreBOM.truthy)

section
variable (encodings : Encodings)

/-- the label that is looked up -/
def normal (text : JsString) : JsString := encodings.lower text.trim

/-- what `#legacy` is set to -/
def legacyName (encoding : JsString) : Native (Option JsVal) :=
  if utf8Labels.contains encoding.units then return none
  else do
    let name ← nativeEncoding encodings.forLabel (.str (.lit "name")) (.str encoding)
      .undefined .undefined .undefined
    if name.isNull then
      throw (.error (.lit "RangeError") ((JsString.lit "unsupported encoding: ").append encoding))
    else return some name

/-- `new TextDecoder(label, options)` -/
def construct (label options : JsVal) : Native LabelledDecoder := do
  let text ← js (labelText label)
  let legacy ← legacyName encodings (normal encodings text)
  let (fatal, ignoreBOM) ← js (flags options)
  match legacy with
  | none => return .utf8 (.utf8 fatal ignoreBOM)
  | some name => return .legacy name fatal ignoreBOM

def decodeLegacy (name : JsVal) (fatal ignoreBOM : Bool) (bytes : List UInt8) : Native JsVal := do
  let text ← nativeEncoding encodings.forLabel (.str (.lit "decode")) name
    (EncodingJs.hexArg bytes) (.bool fatal) (.bool ignoreBOM)
  if text.isFalse then
    let name ← js name.toText
    throw (.typeError (((JsString.lit "decode: malformed ").append name).append (.lit " sequence")))
  else return text

/-- the text of a decoder for UTF-8, or its exception -/
def settle (result : Except Text Text) : Native JsVal :=
  js (match result with
    | .ok text => .ok (.str (.ofUnits text))
    | .error message => .error (.typeError (.ofUnits message)))

/-- `decode`, with the decoder after it -/
def decode (input : Input) (stream : Bool) : LabelledDecoder → Native JsVal × LabelledDecoder
  | .utf8 d =>
    (settle (d.decode input stream).1, .utf8 (d.decode input stream).2)
  | .legacy name fatal ignoreBOM =>
    (match toBytes input with
      | none => throw (.typeError (.lit "decode expects an ArrayBuffer or a view of one"))
      | some bytes => decodeLegacy encodings name fatal ignoreBOM (bytes.map UInt8.ofNat),
      .legacy name fatal ignoreBOM)

/-- a call for each chunk, with its `stream` -/
def results (d : LabelledDecoder) : List (Chunk × Bool) → List (Native JsVal)
  | [] => []
  | (chunk, stream) :: rest =>
    (d.decode encodings chunk.input stream).1 ::
      results (d.decode encodings chunk.input stream).2 rest

/-- the text that a call returns -/
def returned (call : Native JsVal) : Option Text :=
  match call.run with
  | some (.ok (.str s)) => some s.units
  | _ => none

/-- the text of all chunks, if no call throws -/
def result (d : LabelledDecoder) (chunks : List (Chunk × Bool)) : Option Text :=
  ((d.results encodings chunks).mapM returned).map List.flatten

end

end LabelledDecoder

def Chunk.octets (chunk : Chunk) : List UInt8 := chunk.bytes.map UInt8.ofNat

def octets (chunks : List (Chunk × Bool)) : List UInt8 := chunks.flatMap fun chunk => chunk.1.octets

namespace LabelledDecoder
variable {encodings : Encodings} {encoding : Encoding}

/-- the label stands for an encoding that is not UTF-8's, and so does the encoding's name -/
structure Names (encodings : Encodings) (label : JsVal) (encoding : Encoding) : Prop where
  label : ∃ text, labelText label = .ok text ∧
    utf8Labels.contains (normal encodings text).units = false ∧
    encodings.forLabel (NovaRuntime.trim (decodeLossy (normal encodings text).units)) = some encoding
  name : encodings.forLabel (NovaRuntime.trim (decodeLossy encoding.name.units)) = some encoding

/-! ## the host's part -/

theorem arg_str (s : JsString) : Native.arg (.str s) = ExceptT.mk (some (.ok (decodeLossy s.units))) :=
  rfl

theorem nativeEncoding_name {text : JsString} {hex fatal ignoreBom : JsVal}
    (h : encodings.forLabel (NovaRuntime.trim (decodeLossy text.units)) = some encoding) :
    nativeEncoding encodings.forLabel (.str (.lit "name")) (.str text) hex fatal ignoreBom =
      pure (.str encoding.name) := by
  rw [nativeEncoding, Native.bind_ok (arg_str _), Native.bind_ok (arg_str _), h]
  rfl

theorem legacyName_eq {text : JsString} (hutf8 : utf8Labels.contains text.units = false)
    (h : encodings.forLabel (NovaRuntime.trim (decodeLossy text.units)) = some encoding) :
    legacyName encodings text = pure (some (.str encoding.name)) := by
  rw [legacyName, hutf8, nativeEncoding_name h]
  rfl

theorem construct_eq {label options : JsVal} {fatal ignoreBOM : Bool}
    (h : Names encodings label encoding) (hflags : flags options = .ok (fatal, ignoreBOM)) :
    construct encodings label options = pure (.legacy (.str encoding.name) fatal ignoreBOM) := by
  obtain ⟨text, htext, hutf8, hlabel⟩ := h.label
  rw [construct, Native.bind_ok (congrArg js htext), Native.bind_ok (legacyName_eq hutf8 hlabel),
    Native.bind_ok (congrArg js hflags)]

theorem arg_hexArg (bytes : List UInt8) :
    Native.arg (EncodingJs.hexArg bytes) =
      ExceptT.mk (some (.ok (decodeLossy (EncodingJs.toHex bytes)))) := rfl

/-- What a chunk comes to: the text that the host makes of it, or an exception. -/
theorem returned_decodeLegacy
    (h : encodings.forLabel (NovaRuntime.trim (decodeLossy encoding.name.units)) = some encoding)
    (fatal ignoreBOM : Bool) (bytes : List UInt8) :
    returned (decodeLegacy encodings (.str encoding.name) fatal ignoreBOM bytes) =
      encoding.read fatal ignoreBOM bytes := by
  have hnative : nativeEncoding encodings.forLabel (.str (.lit "decode")) (.str encoding.name)
      (EncodingJs.hexArg bytes) (.bool fatal) (.bool ignoreBOM) =
        pure ((if fatal then encoding.decodeFatal (encoding.withoutBom ignoreBOM bytes)
          else some (encoding.decode (encoding.withoutBom ignoreBOM bytes))).elim
            (.bool false) .str) := by
    rw [nativeEncoding, Native.bind_ok (arg_str _), Native.bind_ok (arg_str _), h]
    dsimp only
    rw [if_neg (by decide), Native.bind_ok (arg_hexArg bytes),
      Native.bind_ok (Native.orPanic_some (roundTrips bytes).encoding)]
    dsimp only [JsVal.isTrue]
    cases fatal with
    | false => rfl
    | true => cases encoding.decodeFatal (encoding.withoutBom ignoreBOM bytes) <;> rfl
  rw [decodeLegacy, hnative, Encoding.read]
  cases (if fatal then encoding.decodeFatal (encoding.withoutBom ignoreBOM bytes)
    else some (encoding.decode (encoding.withoutBom ignoreBOM bytes))) <;> rfl

theorem result_legacy
    (h : encodings.forLabel (NovaRuntime.trim (decodeLossy encoding.name.units)) = some encoding)
    (fatal ignoreBOM : Bool) (chunks : List (Chunk × Bool)) :
    (legacy (.str encoding.name) fatal ignoreBOM).result encodings chunks =
      ((chunks.map fun chunk => chunk.1.octets).mapM (encoding.read fatal ignoreBOM)).map
        List.flatten := by
  have hresults :
      ((legacy (.str encoding.name) fatal ignoreBOM).results encodings chunks).mapM returned =
      (chunks.map fun chunk => chunk.1.octets).mapM (encoding.read fatal ignoreBOM) := by
    induction chunks with
    | nil => rfl
    | cons chunk chunks ih =>
      have hone : returned ((legacy (.str encoding.name) fatal ignoreBOM).decode encodings
          chunk.1.input chunk.2).1 = encoding.read fatal ignoreBOM chunk.1.octets := by
        rw [decode, chunk.1.isBytes]
        exact returned_decodeLegacy h fatal ignoreBOM chunk.1.octets
      rw [results, List.mapM_cons, hone, List.map_cons, List.mapM_cons]
      show (_ >>= fun _ =>
        (results encodings (legacy (.str encoding.name) fatal ignoreBOM) chunks).mapM returned >>= _) = _
      rw [ih]
  rw [result, hresults]

theorem octets_eq (chunks : List (Chunk × Bool)) :
    octets chunks = (chunks.map fun chunk => chunk.1.octets).flatten := rfl

theorem result_single
    (h : encodings.forLabel (NovaRuntime.trim (decodeLossy encoding.name.units)) = some encoding)
    (fatal ignoreBOM : Bool) (chunk : Chunk × Bool) :
    (legacy (.str encoding.name) fatal ignoreBOM).result encodings [chunk] =
      encoding.read fatal ignoreBOM chunk.1.octets := by
  rw [result_legacy h, List.map_cons, List.map_nil, List.mapM_cons]
  show ((encoding.read fatal ignoreBOM chunk.1.octets).bind fun text => some [text]).map _ = _
  cases encoding.read fatal ignoreBOM chunk.1.octets with
  | none => rfl
  | some text => exact congrArg some List.flatten_singleton

/-- In an encoding that has a word for each character, chunks give the text that their bytes give in
one call exactly if no character is cut, and none but the first that is not empty begins with a byte
order mark that the decoder drops.  Without `fatal`, this is about bytes with nothing to replace. -/
theorem pieces_iff {α : Type} {code : PrefixCode α UInt8} {text : α → JsString} {mark : Option α}
    {label options : JsVal} {fatal ignoreBOM : Bool} (hnames : Names encodings label encoding)
    (hflags : flags options = .ok (fatal, ignoreBOM)) (h : encoding.Spells code text mark)
    (chunks : List (Chunk × Bool)) (whole : Chunk × Bool) (hwhole : whole.1.octets = octets chunks)
    (hclean : fatal = false → encoding.Clean (octets chunks)) :
    ∃ d, construct encodings label options = pure d ∧
      ((∃ out, d.result encodings chunks = some out ∧ d.result encodings [whole] = some out) ↔
        (∀ chunk ∈ chunks, code.Spelled chunk.1.octets) ∧
          (ignoreBOM = true ∨ ∀ before chunk after, chunks = before ++ chunk :: after →
            octets before ≠ [] → ¬encoding.StartsMarked chunk.1.octets)) := by
  refine ⟨_, construct_eq hnames hflags, ?_⟩
  rw [result_legacy hnames.name, result_single hnames.name, hwhole, octets_eq,
    Encoding.read_pieces_iff h fatal ignoreBOM _ hclean]
  refine and_congr List.forall_mem_map (or_congr_right ?_)
  constructor
  · intro hbytes before chunk after heq hne
    have hbefore : (before.map fun chunk => chunk.1.octets).flatten ≠ [] := hne
    refine hbytes _ _ (after.map fun chunk => chunk.1.octets) ?_ hbefore
    rw [heq, List.map_append, List.map_cons]
  · intro hchunks before x after heq hne
    obtain ⟨before, rest, rfl, rfl, hrest⟩ := List.map_eq_append_iff.mp heq
    obtain ⟨chunk, after, rfl, rfl, rfl⟩ := List.map_eq_cons_iff.mp hrest
    exact hchunks before chunk after rfl hne

def asciiLower (c : Nat) : Nat := if 65 ≤ c ∧ c ≤ 90 then c + 32 else c

/-- lower case, and labels, as far as ASCII and UTF-16 go -/
def utf16Labels : Encodings where
  lower s := .ofUnits (s.units.map asciiLower)
  forLabel text :=
    if text.map asciiLower = txt "utf-16le" then some (utf16 false)
    else if text.map asciiLower = txt "utf-16be" then some (utf16 true)
    else none

theorem utf16Labels_le {text : Text} (h : text.map asciiLower = txt "utf-16le") :
    utf16Labels.forLabel text = some (utf16 false) := if_pos h

theorem utf16Labels_names : Names utf16Labels (.str (.lit " UTF-16le")) (utf16 false) where
  label := ⟨_, rfl, by decide, utf16Labels_le (by decide)⟩
  name := utf16Labels_le (by decide)

theorem pieces_iff_pair :
    ∃ d, construct utf16Labels (.str (.lit " UTF-16le")) .undefined = pure d ∧
      ∃ out, d.result utf16Labels
          [(.ofBytes [0xFF, 0xFE, 0x41, 0x00], true), (.ofBytes [0x3D, 0xD8, 0x00, 0xDE], false)] =
            some out ∧
        d.result utf16Labels
          [(.ofBytes [0xFF, 0xFE, 0x41, 0x00, 0x3D, 0xD8, 0x00, 0xDE], false)] = some out := by
  have hflags : flags .undefined = .ok (false, false) := rfl
  have hclean : (utf16 false).Clean (octets
      [(.ofBytes [0xFF, 0xFE, 0x41, 0x00], true), (.ofBytes [0x3D, 0xD8, 0x00, 0xDE], false)]) :=
    ⟨.ofUnits [0xFEFF, 0x41, 0xD83D, 0xDE00], by decide, by decide⟩
  obtain ⟨d, hd, hiff⟩ := pieces_iff utf16Labels_names hflags (utf16_spells false)
    [(.ofBytes [0xFF, 0xFE, 0x41, 0x00], true), (.ofBytes [0x3D, 0xD8, 0x00, 0xDE], false)]
    (.ofBytes [0xFF, 0xFE, 0x41, 0x00, 0x3D, 0xD8, 0x00, 0xDE], false) rfl fun _ => hclean
  refine ⟨d, hd, hiff.mpr ⟨?_, .inr ?_⟩⟩
  · intro chunk hchunk
    rcases List.mem_pair.mp hchunk with rfl | rfl
    · exact ⟨[byteOrderMark, ⟨0x41, .inl (by norm_num)⟩], by decide⟩
    · exact ⟨[⟨0x1F600, .inr ⟨by norm_num, by norm_num⟩⟩], by decide⟩
  · rintro before chunk after heq hne ⟨-, hbegins⟩
    rcases before with - | ⟨first, - | ⟨second, before⟩⟩
    · exact hne rfl
    · cases heq
      exact absurd hbegins (by decide)
    · cases before <;> cases heq

/-! ## any cut -/

/-- what the host's encodings do: a name is a label, and no bytes are no text -/
structure Lawful (encodings : Encodings) : Prop where
  name (text : Text) (encoding : Encoding) (h : encodings.forLabel text = some encoding) :
    encodings.forLabel (NovaRuntime.trim (decodeLossy encoding.name.units)) = some encoding
  empty (text : Text) (encoding : Encoding) (h : encodings.forLabel text = some encoding)
    (fatal ignoreBOM : Bool) : encoding.read fatal ignoreBOM [] = some []

/-- chunks, with `stream` set but for the last -/
def streamed (chunks : List Chunk) (last : Chunk) : List (Chunk × Bool) :=
  chunks.map (fun chunk => (chunk, true)) ++ [(last, false)]

/-- a stream gives the same text, or throws, wherever its bytes are cut -/
def Seamless (encodings : Encodings) (d : LabelledDecoder) : Prop :=
  ∀ chunks last chunks' last', TextDecoder.allBytes chunks last = TextDecoder.allBytes chunks' last' →
    d.result encodings (streamed chunks last) = d.result encodings (streamed chunks' last')

/-- every byte is decoded on its own -/
def Bytewise (encodings : Encodings) (d : LabelledDecoder) : Prop :=
  ∃ table : UInt8 → Option Text, ∀ last : Chunk,
    d.result encodings (streamed [] last) = (last.octets.mapM table).map List.flatten

theorem legacyName_cases {text : JsString} {name : JsVal}
    (h : (legacyName encodings text).run = some (.ok (some name))) :
    ∃ encoding, encodings.forLabel (NovaRuntime.trim (decodeLossy text.units)) = some encoding ∧
      name = .str encoding.name := by
  unfold legacyName at h
  split at h
  · cases h
  · cases hfound : encodings.forLabel (NovaRuntime.trim (decodeLossy text.units)) with
    | none =>
      rw [nativeEncoding, Native.bind_ok (arg_str _), Native.bind_ok (arg_str _), hfound] at h
      cases h
    | some encoding =>
      rw [nativeEncoding_name hfound] at h
      cases h
      exact ⟨encoding, rfl, rfl⟩

theorem construct_cases {label options : JsVal} {d : LabelledDecoder}
    (h : construct encodings label options = pure d) :
    ∃ fatal ignoreBOM, d = .utf8 (.utf8 fatal ignoreBOM) ∨
      ∃ text encoding, encodings.forLabel text = some encoding ∧
        d = .legacy (.str encoding.name) fatal ignoreBOM := by
  have hrun : (construct encodings label options).run = some (.ok d) := by rw [h]; rfl
  obtain ⟨text, -, hrun⟩ := Native.bind_ok_cases hrun
  obtain ⟨legacy, hlegacy, hrun⟩ := Native.bind_ok_cases hrun
  obtain ⟨⟨fatal, ignoreBOM⟩, -, hrun⟩ := Native.bind_ok_cases hrun
  refine ⟨fatal, ignoreBOM, ?_⟩
  cases legacy with
  | none =>
    cases hrun
    exact .inl rfl
  | some name =>
    cases hrun
    obtain ⟨encoding, hfound, rfl⟩ := legacyName_cases hlegacy
    exact .inr ⟨_, encoding, hfound, rfl⟩

/-! ### labels of UTF-8 -/

theorem results_utf8 (d : TextDecoder) (chunks : List Chunk) (last : Chunk) :
    (utf8 d).results encodings (streamed chunks last) = (d.decodeAll chunks last).map settle := by
  induction chunks generalizing d with
  | nil => rfl
  | cons chunk chunks ih =>
    show settle (d.decode chunk.input true).1 ::
      (utf8 (d.decode chunk.input true).2).results encodings (streamed chunks last) = _
    rw [ih]
    rfl

theorem mapM_settle (results : List (Except Text Text)) (out : Text) :
    ((results.map settle).mapM returned).map List.flatten = some out ↔
      ∃ text, TextDecoder.Returned results text ∧ out = text.map (· % 0x10000) := by
  constructor
  · intro h
    obtain ⟨outs, houts, rfl⟩ := Option.map_eq_some_iff.mp h
    have htexts : ∃ texts : List Text, results = texts.map .ok ∧
        outs = texts.map fun text => text.map (· % 0x10000) := by
      clear h
      induction results generalizing outs with
      | nil =>
        cases houts
        exact ⟨[], rfl, rfl⟩
      | cons result results ih =>
        rw [List.map_cons, List.mapM_cons] at houts
        obtain ⟨out, hout, houts⟩ := Option.bind_eq_some_iff.mp houts
        obtain ⟨outs', houts', hcons⟩ := Option.bind_eq_some_iff.mp houts
        obtain ⟨texts, rfl, rfl⟩ := ih outs' houts'
        cases hcons
        cases result with
        | error message => cases hout
        | ok text =>
          cases hout
          exact ⟨text :: texts, rfl, rfl⟩
    obtain ⟨texts, rfl, rfl⟩ := htexts
    exact ⟨texts.flatten, ⟨texts, rfl, rfl⟩, List.map_flatten.symm⟩
  · rintro ⟨text, ⟨texts, rfl, rfl⟩, rfl⟩
    have hcalls : (returned ∘ settle ∘ Except.ok : Text → Option Text) =
        fun text => some (text.map (· % 0x10000)) := rfl
    rw [List.map_map, List.mapM_map, hcalls]
    exact (congrArg (Option.map List.flatten) List.mapM_pure).trans
      (congrArg some List.map_flatten.symm)

theorem result_utf8 (d : TextDecoder) (chunks : List Chunk) (last : Chunk) (out : Text) :
    (utf8 d).result encodings (streamed chunks last) = some out ↔
      ∃ text, TextDecoder.Returned (d.decodeAll chunks last) text ∧ out = text.map (· % 0x10000) := by
  rw [result, results_utf8]
  exact mapM_settle (d.decodeAll chunks last) out

theorem seamless_utf8 (fatal ignoreBOM : Bool) :
    Seamless encodings (.utf8 (.utf8 fatal ignoreBOM)) := by
  intro chunks last chunks' last' hbytes
  refine Option.ext fun out => ?_
  rw [result_utf8, result_utf8]
  refine exists_congr fun text => and_congr_left fun _ => ?_
  rw [TextDecoder.decodeAll_once, hbytes, ← TextDecoder.decodeAll_once]

/-! ### the other labels -/

theorem octets_ofBytes (x : List UInt8) : (Chunk.ofBytes (x.map UInt8.toNat)).octets = x := by
  show (x.map UInt8.toNat).map UInt8.ofNat = x
  rw [List.map_map]
  have hback : UInt8.ofNat ∘ UInt8.toNat = id := funext fun b => UInt8.ofNat_toNat
  rw [hback, List.map_id]

theorem octets_streamed (chunks : List Chunk) (last : Chunk) :
    (streamed chunks last).map (fun chunk => chunk.1.octets) =
      chunks.map Chunk.octets ++ [last.octets] := by
  rw [streamed, List.map_append, List.map_map]
  rfl

theorem flatten_octets (chunks : List Chunk) (last : Chunk) :
    (chunks.map Chunk.octets ++ [last.octets]).flatten =
      (TextDecoder.allBytes chunks last).map UInt8.ofNat := by
  rw [List.flatten_append, List.flatten_singleton, TextDecoder.allBytes, List.map_append,
    List.map_flatMap]
  rfl

def chunksOf (xs : List (List UInt8)) : List Chunk := xs.map fun x => .ofBytes (x.map UInt8.toNat)

theorem octets_chunksOf (xs : List (List UInt8)) : (chunksOf xs).map Chunk.octets = xs := by
  rw [chunksOf, List.map_map]
  exact (List.map_congr_left fun x _ => octets_ofBytes x).trans (List.map_id xs)

theorem allBytes_chunksOf (xs : List (List UInt8)) :
    TextDecoder.allBytes (chunksOf xs) .none = xs.flatten.map UInt8.toNat := by
  show (xs.map _).flatMap Chunk.bytes ++ [] = _
  rw [List.append_nil, List.flatMap_map, List.map_flatten]
  rfl

theorem seamless_legacy {text : Text} (hlawful : Lawful encodings)
    (h : encodings.forLabel text = some encoding) (fatal ignoreBOM : Bool) :
    Seamless encodings (.legacy (.str encoding.name) fatal ignoreBOM) ↔
      Bytewise encodings (.legacy (.str encoding.name) fatal ignoreBOM) := by
  have hempty := hlawful.empty text encoding h fatal ignoreBOM
  have hresult : ∀ chunks last,
      (legacy (.str encoding.name) fatal ignoreBOM).result encodings (streamed chunks last) =
        (Transducer.ofPiece (encoding.read fatal ignoreBOM)).result
          (chunks.map Chunk.octets ++ [last.octets]) := by
    intro chunks last
    rw [result_legacy (hlawful.name text encoding h), Transducer.ofPiece_result, octets_streamed]
  have hseamless : Seamless encodings (.legacy (.str encoding.name) fatal ignoreBOM) ↔
      (Transducer.ofPiece (encoding.read fatal ignoreBOM)).Seamless := by
    constructor
    · intro hchunks xs ys heq
      have hsame := hchunks (chunksOf xs) .none (chunksOf ys) .none
        (by rw [allBytes_chunksOf, allBytes_chunksOf, heq])
      rw [hresult, hresult, octets_chunksOf, octets_chunksOf] at hsame
      rwa [← Transducer.ofPiece_append_nil hempty xs, ← Transducer.ofPiece_append_nil hempty ys]
    · intro hpieces chunks last chunks' last' hbytes
      rw [hresult, hresult]
      refine hpieces _ _ ?_
      rw [flatten_octets, hbytes, flatten_octets]
  have hsingle : ∀ last,
      (legacy (.str encoding.name) fatal ignoreBOM).result encodings (streamed [] last) =
        encoding.read fatal ignoreBOM last.octets := by
    intro last
    rw [hresult]
    exact Transducer.ofPiece_single last.octets
  rw [hseamless, Transducer.ofPiece_seamless_iff]
  refine exists_congr fun table => ?_
  constructor
  · intro hbytes last
    rw [hsingle]
    exact hbytes last.octets
  · intro hchunks x
    have hone := hchunks (.ofBytes (x.map UInt8.toNat))
    rwa [hsingle, octets_ofBytes] at hone

/-- A stream comes to the same wherever it is cut exactly if the label is one of UTF-8's, or the
host decodes every byte on its own. -/
theorem seamless_iff (hlawful : Lawful encodings) {label options : JsVal} {d : LabelledDecoder}
    (hd : construct encodings label options = pure d) :
    Seamless encodings d ↔ (∃ decoder, d = .utf8 decoder) ∨ Bytewise encodings d := by
  obtain ⟨fatal, ignoreBOM, rfl | ⟨text, encoding, hfound, rfl⟩⟩ := construct_cases hd
  · exact iff_of_true (seamless_utf8 fatal ignoreBOM) (.inl ⟨_, rfl⟩)
  · rw [seamless_legacy hlawful hfound]
    refine (or_iff_right ?_).symm
    rintro ⟨decoder, hdecoder⟩
    cases hdecoder

theorem utf16Labels_cases {text : Text} (h : utf16Labels.forLabel text = some encoding) :
    ∃ big, encoding = utf16 big := by
  unfold utf16Labels at h
  dsimp only at h
  split at h
  · exact ⟨false, (Option.some.inj h).symm⟩
  · split at h
    · exact ⟨true, (Option.some.inj h).symm⟩
    · cases h

theorem utf16Labels_lawful : Lawful utf16Labels where
  name text encoding h := by
    obtain ⟨big, rfl⟩ := utf16Labels_cases h
    cases big with
    | false => exact utf16Labels_le (by decide)
    | true => rfl
  empty text encoding h fatal ignoreBOM := by
    obtain ⟨big, rfl⟩ := utf16Labels_cases h
    cases big <;> cases fatal <;> cases ignoreBOM <;> decide

/-- UTF-16 is not seamless: half of a code unit is refused. -/
theorem seamless_iff_utf16 :
    ∃ d, construct utf16Labels (.str (.lit " UTF-16le"))
        (.plainObject [(.lit "fatal", .bool true)]) = pure d ∧ ¬Seamless utf16Labels d := by
  have hflags : flags (.plainObject [(.lit "fatal", .bool true)]) = .ok (true, false) := rfl
  have hd := construct_eq utf16Labels_names hflags
  refine ⟨_, hd, fun hcut => ?_⟩
  rcases (seamless_iff utf16Labels_lawful hd).mp hcut with ⟨decoder, hdecoder⟩ | ⟨table, htable⟩
  · cases hdecoder
  · have hhalf := htable (.ofBytes [0x41])
    have hunit := htable (.ofBytes [0x41, 0x00])
    rw [streamed, List.map_nil, List.nil_append, result_single utf16Labels_names.name] at hhalf hunit
    have hnone : (utf16 false).read true false (Chunk.ofBytes [0x41]).octets = none := by decide
    have hsome : (utf16 false).read true false (Chunk.ofBytes [0x41, 0x00]).octets = some [0x41] := by
      decide
    rw [hnone] at hhalf
    rw [hsome] at hunit
    cases htext : table 0x41 with
    | none =>
      have hpair : [(0x41 : UInt8), 0x00].mapM table = none := by rw [List.mapM_cons, htext]; rfl
      rw [show (Chunk.ofBytes [0x41, 0x00]).octets = [0x41, 0x00] from rfl, hpair] at hunit
      cases hunit
    | some text =>
      have hone : [(0x41 : UInt8)].mapM table = some [text] := by rw [List.mapM_cons, htext]; rfl
      rw [show (Chunk.ofBytes [0x41]).octets = [0x41] from rfl, hone] at hhalf
      cases hhalf

end LabelledDecoder

end NovaRuntime
