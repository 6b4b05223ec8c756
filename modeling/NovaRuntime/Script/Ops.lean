import NovaRuntime.Host.Compression
import NovaRuntime.Script.Value

/-!
# The ops of Compression Streams (`ops.js`)

The web surface, which is a package, drives a codec through four ops.  Each of them is one call of
the native, and throws where that answers `null`.

* `TypedArray`, `StreamChunk`   the bytes that a stream is given;
* `OpsCall.native`     the call of the native that an op makes;
* `OpsCall.settle`     what the op gives for its answer;
* `bytesOf_native`     the native gets the bytes of a chunk.
-/

namespace NovaRuntime
open Lib

structure TypedArray where
  buffer : List UInt8
  byteOffset : Nat
  byteLength : Nat
  inside : byteOffset + byteLength ≤ buffer.length
  small : buffer.length < 2 ^ 32

/-- the bytes that a typed array shows -/
def TypedArray.bytes (v : TypedArray) : List UInt8 := (v.buffer.drop v.byteOffset).take v.byteLength

/-- what a stream is given: a typed array, or a buffer, over which the op makes one -/
inductive StreamChunk where
  | view (v : TypedArray)
  | buffer (b : List UInt8) (small : b.length < 2 ^ 32)

/-- `ArrayBuffer.isView(chunk) ? chunk : new Uint8Array(chunk)` -/
def StreamChunk.toView : StreamChunk → TypedArray
  | .view v => v
  | .buffer b small => ⟨b, 0, b.length, by rw [Nat.zero_add], small⟩

def StreamChunk.bytes (chunk : StreamChunk) : List UInt8 := chunk.toView.bytes

inductive OpsCall where
  | compressionStart (format : JsString) (decompress : Bool)
  | compressionPush (id : F64) (chunk : StreamChunk)
  | compressionFinish (id : F64)
  | compressionDrop (id : F64)

/-- what an op gives; bytes are a `Uint8Array` -/
inductive OpsValue where
  | undefined
  | id (id : UInt32)
  | bytes (b : List UInt8)

namespace OpsCall

def native : OpsCall → CompressionCall
  | .compressionStart format decompress => .start (decodeLossy format.units) decompress
  | .compressionPush id chunk =>
    .push id (some chunk.toView.buffer) (.ofNat chunk.toView.byteOffset)
      (.ofNat chunk.toView.byteLength)
  | .compressionFinish id => .finish id
  | .compressionDrop id => .drop id

/-- what is thrown where the native answers `null` -/
def message : OpsCall → JsString
  | .compressionStart format _ =>
    ((JsString.lit "Unsupported compression format: '").append format).append (.lit "'")
  | _ => .lit "The compressed data is not valid"

/-- the value that an op makes of an answer other than `null` -/
def value : CompressionAnswer → OpsValue
  | .id id => .id id
  | .buffer bytes => .bytes bytes
  | .undefined | .null => .undefined

def settle (op : OpsCall) (answer : CompressionAnswer) : Js OpsValue :=
  match op, answer with
  | .compressionDrop _, _ => .ok .undefined
  | op, .null => .error (.typeError op.message)
  | _, answer => .ok (value answer)

end OpsCall

/-! ## the bytes that cross -/

theorem toUint32_toNat {n : Nat} (h : n < 2 ^ 32) : (F64.ofNat n).toUint32.toNat = n := by
  rw [F64.toUint32_ofNat, UInt32.toNat_ofNat']
  exact Nat.mod_eq_of_lt h

/-- The native gets the bytes of a chunk, wherever they are in their buffer. -/
theorem StreamChunk.bytesOf_native (chunk : StreamChunk) :
    bytesOf (some chunk.toView.buffer) (F64.ofNat chunk.toView.byteOffset).toUint32
      (F64.ofNat chunk.toView.byteLength).toUint32 = some chunk.bytes := by
  have hinside := chunk.toView.inside
  have hsmall := chunk.toView.small
  have hoffset : (F64.ofNat chunk.toView.byteOffset).toUint32.toNat = chunk.toView.byteOffset :=
    toUint32_toNat (by omega)
  have hlength : (F64.ofNat chunk.toView.byteLength).toUint32.toNat = chunk.toView.byteLength :=
    toUint32_toNat (by omega)
  rw [bytesOf, Option.bind_some, hoffset, hlength, if_pos hinside]
  rfl

end NovaRuntime
