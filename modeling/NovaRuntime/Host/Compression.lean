import NovaRuntime.Host.Number

/-!
# Compression codecs on the host (`compression.rs`)

The guest holds only the id of a codec.  `nativeCompression` is `__ow_native_compression` once its
arguments are converted; a converted argument that throws leaves everything as it was.

* `Flate`     the six writers of the flate2 crate;
* `Codec`     one writer, with `push` and `finish`;
* `Codecs`    the codecs that are open, and the counter of ids.

The result of `nativeCompression` is `none` where the counter overflows in a build that checks it.
-/

namespace NovaRuntime
open Lib

inductive CodecKind where
  | zlibEncode | rawEncode | gzipEncode | zlibDecode | rawDecode | gzipDecode
  deriving DecidableEq

/-- the writers of flate2, by the state they keep -/
structure Flate (W : Type) where
  new : CodecKind → W
  /-- `write_all`, and what it wrote so far, which is taken out -/
  write : CodecKind → W → List UInt8 → Option (List UInt8 × W)
  finish : CodecKind → W → Option (List UInt8)

structure Codec (W : Type) where
  kind : CodecKind
  writer : W

namespace Codec
variable {W : Type} (flate : Flate W)

/-- the three formats, in both directions -/
def kindOf (format : Text) (decompress : Bool) : Option CodecKind :=
  if format = txt "deflate" then some (if decompress then .zlibDecode else .zlibEncode)
  else if format = txt "deflate-raw" then some (if decompress then .rawDecode else .rawEncode)
  else if format = txt "gzip" then some (if decompress then .gzipDecode else .gzipEncode)
  else none

def new (format : Text) (decompress : Bool) : Option (Codec W) :=
  (kindOf format decompress).map fun kind => ⟨kind, flate.new kind⟩

def push (codec : Codec W) (bytes : List UInt8) : Option (List UInt8 × Codec W) :=
  (flate.write codec.kind codec.writer bytes).map fun p => (p.1, ⟨codec.kind, p.2⟩)

def finish (codec : Codec W) : Option (List UInt8) := flate.finish codec.kind codec.writer

end Codec

/-- the codecs one worker has open -/
structure Codecs (W : Type) where
  /-- the field `open` -/
  entries : UInt32 → Option (Codec W)
  next : UInt32

def Codecs.default {W : Type} : Codecs W := ⟨fun _ => none, 0⟩

/-- the bytes of the buffer from `offset` for `length`; `none` if the value is no buffer or the
range is not inside it -/
def bytesOf (buffer : Option (List UInt8)) (offset length : UInt32) : Option (List UInt8) :=
  buffer.bind fun bytes =>
    if offset.toNat + length.toNat ≤ bytes.length then
      some ((bytes.drop offset.toNat).take length.toNat)
    else none

inductive CompressionCall where
  | start (format : Text) (decompress : Bool)
  | push (id : F64) (payload : Option (List UInt8)) (offset length : F64)
  | finish (id : F64)
  | drop (id : F64)
  /-- an operation of another name -/
  | other

inductive CompressionAnswer where
  | undefined
  | null
  | id (id : UInt32)
  | buffer (bytes : List UInt8)

namespace Codecs
variable {W : Type} (flate : Flate W)

def nativeCompression (overflowChecks : Bool) (codecs : Codecs W) :
    CompressionCall → Option (Codecs W × CompressionAnswer)
  | .start format decompress =>
    match Codec.new flate format decompress with
    | none => some (codecs, .null)
    | some codec =>
      if overflowChecks = true ∧ codecs.next.toNat + 1 = UInt32.size then none
      else
        let id := codecs.next + 1
        some (⟨Function.update codecs.entries id (some codec), id⟩, .id id)
  | .push id payload offset length =>
    match bytesOf payload offset.toUint32 length.toUint32 with
    | none => some (codecs, .null)
    | some input =>
      match (codecs.entries id.toUint32).map fun codec => codec.push flate input with
      | some (some (out, codec)) =>
        some ({ codecs with entries := Function.update codecs.entries id.toUint32 (some codec) },
          .buffer out)
      | some none =>
        some ({ codecs with entries := Function.update codecs.entries id.toUint32 none }, .null)
      | none => some (codecs, .null)
  | .finish id =>
    some ({ codecs with entries := Function.update codecs.entries id.toUint32 none },
      match (codecs.entries id.toUint32).map fun codec => codec.finish flate with
      | some (some out) => .buffer out
      | _ => .null)
  | .drop id =>
    some ({ codecs with entries := Function.update codecs.entries id.toUint32 none }, .undefined)
  | .other => some (codecs, .null)

end Codecs

end NovaRuntime
