import NovaRuntime.Lib.Text

/-!
# `TextDecoder` for UTF-8 (`encoding.js`)

* `toBytes`      the bytes of the first argument of `decode`;
* `TextDecoder`  a decoder whose label is one of UTF-8's, with the state it keeps between calls;
* `decodeByte`   one turn of the loop of `decode`, and the turn after `i--` where there is one;
* `points`       the loop, and what follows it when no further chunk is announced;
* `decode`       the call.

A decoder with `fatal` throws in the middle of a call; `Except.error` holds what the object is then.
-/

namespace NovaRuntime
open Lib

inductive Input where
  | undefined
  | view (buffer : List Nat) (byteOffset byteLength : Nat)
  | arrayBuffer (content : List Nat)
  | other

def toBytes : Input → Option (List Nat)
  | .undefined => some []
  | .view buffer byteOffset byteLength => some ((buffer.drop byteOffset).take byteLength)
  | .arrayBuffer content => some content
  | .other => none

/-- an argument that has bytes -/
structure Chunk where
  input : Input
  bytes : List Nat
  isBytes : toBytes input = some bytes

def Chunk.ofBytes (bytes : List Nat) : Chunk := ⟨.arrayBuffer bytes, bytes, rfl⟩

/-- the call without an argument -/
def Chunk.none : Chunk := ⟨.undefined, [], rfl⟩

structure TextDecoder where
  fatal : Bool
  ignoreBOM : Bool
  bomSeen : Bool
  needed : Nat
  seen : Nat
  codePoint : Nat
  lower : Nat
  upper : Nat

namespace TextDecoder

def utf8 (fatal ignoreBOM : Bool) : TextDecoder where
  fatal := fatal
  ignoreBOM := ignoreBOM
  bomSeen := false
  needed := 0
  seen := 0
  codePoint := 0
  lower := 0x80
  upper := 0xbf

def start (d : TextDecoder) (needed codePoint : Nat) : TextDecoder :=
  { d with needed, seen := 0, codePoint }

def reset (d : TextDecoder) : TextDecoder :=
  { d with needed := 0, seen := 0, codePoint := 0, lower := 0x80, upper := 0xbf }

/-- the replacement to push, unless the decoder throws -/
def malformed (d : TextDecoder) : Except TextDecoder (List Nat × TextDecoder) :=
  if d.fatal then .error d else .ok ([replacement], d)

/-- a byte outside of any sequence -/
def lead (d : TextDecoder) (byte : Nat) : Except TextDecoder (List Nat × TextDecoder) :=
  if byte ≤ 0x7f then .ok ([byte], d)
  else if 0xc2 ≤ byte ∧ byte ≤ 0xdf then .ok ([], d.start 1 (byte &&& 0x1f))
  else if 0xe0 ≤ byte ∧ byte ≤ 0xef then
    .ok ([], { d.start 2 (byte &&& 0x0f) with
      lower := if byte = 0xe0 then 0xa0 else 0x80
      upper := if byte = 0xed then 0x9f else 0xbf })
  else if 0xf0 ≤ byte ∧ byte ≤ 0xf4 then
    .ok ([], { d.start 3 (byte &&& 0x07) with
      lower := if byte = 0xf0 then 0x90 else 0x80
      upper := if byte = 0xf4 then 0x8f else 0xbf })
  else d.malformed

/-- a byte in its range inside of a sequence -/
def follow (d : TextDecoder) (byte : Nat) : List Nat × TextDecoder :=
  let codePoint := d.codePoint <<< 6 ||| byte &&& 0x3f
  let seen := d.seen + 1
  if seen = d.needed then ([codePoint], d.reset)
  else ([], { d with lower := 0x80, upper := 0xbf, codePoint, seen })

/-- one byte of the loop, with the points it pushes; the offending byte of a broken sequence is
taken once more, outside of it -/
def decodeByte (d : TextDecoder) (byte : Nat) : Except TextDecoder (List Nat × TextDecoder) :=
  if d.needed = 0 then d.lead byte
  else if byte < d.lower ∨ d.upper < byte then
    d.reset.malformed.bind fun (broken, d) =>
      (d.lead byte).map fun (points, d) => (broken ++ points, d)
  else .ok (d.follow byte)

def decodeBytes (d : TextDecoder) : List Nat → Except TextDecoder (List Nat × TextDecoder)
  | [] => .ok ([], d)
  | byte :: rest =>
    (d.decodeByte byte).bind fun (points, d) =>
      (d.decodeBytes rest).map fun (more, d) => (points ++ more, d)

/-- a sequence that is still open when no further chunk is announced -/
def flush (d : TextDecoder) : Except TextDecoder (List Nat × TextDecoder) :=
  if d.needed ≠ 0 then d.reset.malformed else .ok ([], d)

def points (d : TextDecoder) (bytes : List Nat) (stream : Bool) :
    Except TextDecoder (List Nat × TextDecoder) :=
  (d.decodeBytes bytes).bind fun (points, d) =>
    if stream then .ok (points, d)
    else d.flush.map fun (more, d) => (points ++ more, d)

/-- the byte order mark that the first point may be -/
def dropBom (d : TextDecoder) (points : List Nat) : List Nat × TextDecoder :=
  if d.ignoreBOM = false ∧ d.bomSeen = false ∧ 0 < points.length then
    (if points.head? = some 0xfeff then points.tail else points, { d with bomSeen := true })
  else (points, d)

def textOf (points : List Nat) : Text :=
  (List.range ((points.length + 1023) / 1024)).flatMap fun i =>
    encode ((points.drop (i * 1024)).take 1024)

def decode (d : TextDecoder) (input : Input) (stream : Bool) : Except Text Text × TextDecoder :=
  match toBytes input with
  | none => (.error (txt "decode expects an ArrayBuffer or a view of one"), d)
  | some bytes =>
    match d.points bytes stream with
    | .error d => (.error (txt "decode: malformed UTF-8 sequence"), d)
    | .ok (points, d) =>
      let (points, d) := d.dropBom points
      (.ok (textOf points), if stream then d else { d with bomSeen := false })

/-- a call for each chunk with `stream` set, and a last one without -/
def decodeAll (d : TextDecoder) : List Chunk → Chunk → List (Except Text Text)
  | [], last => [(d.decode last.input false).1]
  | chunk :: chunks, last =>
    (d.decode chunk.input true).1 :: decodeAll (d.decode chunk.input true).2 chunks last

theorem textOf_eq (points : List Nat) : textOf points = encode points := by
  have hslices : ∀ n, ((List.range n).flatMap fun i =>
      encode ((points.drop (i * 1024)).take 1024)) = encode (points.take (n * 1024)) := by
    intro n
    induction n with
    | zero => simp [encode]
    | succ n ih =>
      rw [List.range_succ, List.flatMap_append, ih, List.flatMap_singleton, Nat.succ_mul,
        List.take_add]
      exact (List.flatMap_append).symm
  rw [textOf, hslices, List.take_of_length_le (by omega)]

end TextDecoder

example : TextDecoder.decodeAll (.utf8 false false)
    [.ofBytes [0xef, 0xbb], .none, .ofBytes [0xbf, 0xf0, 0x9f], .ofBytes [0x98]]
    (.ofBytes [0x80, 0xe2, 0x82]) =
    [.ok [], .ok [], .ok [], .ok [], .ok [0xd83d, 0xde00, 0xfffd]] := rfl

end NovaRuntime
