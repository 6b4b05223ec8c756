import NovaRuntime.Lib.Transducer
import NovaRuntime.Runs.Compression
import NovaRuntime.Script.Ops

/-!
# One compression stream piped into another

Any number of streams are driven at once, by ops in any order.  Of two of them, one compresses some
chunks and the other decompresses what that gave, cut in any way.

* `Flate.stream`, `Flate.Lawful`   the writers as transducers, and what the crate promises of them;
* `Since`      a part of the log in which an id names the codec of one start;
* `Fed`, `Streamed`   what a stream is pushed before it is finished, and what it gives;
* `entries_served`    a stream is answered as if there were no other;
* `decompressed_is_compressed`   what is decompressed is what was compressed.
-/

namespace NovaRuntime
open Lib

variable {W : Type}

/-- a writer of the crate, by what is written to it -/
def Flate.stream (flate : Flate W) (kind : CodecKind) : Transducer W UInt8 UInt8 where
  start := flate.new kind
  push := flate.write kind
  finish := flate.finish kind

/-- What the crate promises of a format: it compresses everything, and takes back what it
compressed, however that is cut. -/
structure Flate.Lawful (flate : Flate W) : Prop where
  compresses {format : Text} {kind : CodecKind} (h : Codec.kindOf format false = some kind)
    (pieces : List (List UInt8)) : ((flate.stream kind).result pieces).isSome
  undoes {format : Text} {kind back : CodecKind} (h : Codec.kindOf format false = some kind)
    (hback : Codec.kindOf format true = some back) : (flate.stream kind).Undoes (flate.stream back)

/-- the entries about `i`, oldest first -/
def entriesOf (i : UInt32) (log : List CompressionEntry) : List CompressionEntry :=
  (log.filter fun e => e.named = some i).reverse

/-- a part of the log that follows a start, and in which its id is not given out again -/
structure Since (log : List CompressionEntry) (format : Text) (decompress : Bool) (i : UInt32)
    (late : List CompressionEntry) : Prop where
  part : ∃ later earlier, log = later ++ (late ++ (.start format decompress, .id i) :: earlier)
  kept : ∀ e ∈ late, e.2 ≠ .id i

/-- the calls of a stream that is pushed these pieces, and finished -/
inductive Fed : List CompressionCall → List (List UInt8) → Prop
  | finish (id : F64) (after : List CompressionCall) :
      Fed ((OpsCall.compressionFinish id).native :: after) []
  | push (id : F64) (chunk : StreamChunk) {calls : List CompressionCall} {pieces : List (List UInt8)}
      (h : Fed calls pieces) :
      Fed ((OpsCall.compressionPush id chunk).native :: calls) (chunk.bytes :: pieces)

/-- The same, with answers for which no op throws, and the bytes that each of them gives. -/
inductive Streamed : List CompressionEntry → List (List UInt8) → List (List UInt8) → Prop
  | finish (id : F64) {answer : CompressionAnswer} {out : List UInt8}
      (after : List CompressionEntry)
      (ok : (OpsCall.compressionFinish id).settle answer = .ok (.bytes out)) :
      Streamed (((OpsCall.compressionFinish id).native, answer) :: after) [] [out]
  | push (id : F64) (chunk : StreamChunk) {answer : CompressionAnswer} {out : List UInt8}
      {entries : List CompressionEntry} {pieces outs : List (List UInt8)}
      (ok : (OpsCall.compressionPush id chunk).settle answer = .ok (.bytes out))
      (h : Streamed entries pieces outs) :
      Streamed (((OpsCall.compressionPush id chunk).native, answer) :: entries)
        (chunk.bytes :: pieces) (out :: outs)

/-! ## one codec -/

/-- the answers that a slot gives when there is no other -/
def Codec.serves (flate : Flate W) :
    Option (Codec W) → List CompressionCall → List CompressionEntry
  | _, [] => []
  | slot, call :: calls =>
    (call, (Codec.serve flate slot call).2) :: serves flate (Codec.serve flate slot call).1 calls

section codec
variable {flate : Flate W} {kind : CodecKind} {w : W}

theorem Codec.serve_push (id : F64) (chunk : StreamChunk) {out : List UInt8} {w' : W}
    (h : (flate.stream kind).push w chunk.bytes = some (out, w')) :
    Codec.serve flate (some ⟨kind, w⟩) (OpsCall.compressionPush id chunk).native =
      (some ⟨kind, w'⟩, .buffer out) := by
  have hwrite : flate.write kind w chunk.bytes = some (out, w') := h
  have hpush : Codec.push flate ⟨kind, w⟩ chunk.bytes = some (out, ⟨kind, w'⟩) := by
    rw [Codec.push, hwrite, Option.map_some]
  rw [OpsCall.native, Codec.serve, chunk.bytesOf_native]
  dsimp only
  rw [Option.bind_some, hpush]

theorem Codec.serve_finish (id : F64) {out : List UInt8}
    (h : (flate.stream kind).finish w = some out) :
    Codec.serve flate (some ⟨kind, w⟩) (.finish id) = (none, .buffer out) := by
  have hfinish : Codec.finish flate ⟨kind, w⟩ = some out := h
  rw [Codec.serve, Option.bind_some, hfinish]

/-- A codec that is fed answers what its writer gives. -/
theorem Fed.streamed {calls : List CompressionCall} {pieces outs : List (List UInt8)}
    (h : Fed calls pieces) (houts : (flate.stream kind).pieces w pieces = some outs) :
    Streamed (Codec.serves flate (some ⟨kind, w⟩) calls) pieces outs := by
  induction h generalizing w outs with
  | finish id after =>
    rw [Transducer.pieces_nil] at houts
    obtain ⟨out, hout, rfl⟩ := Option.map_eq_some_iff.mp houts
    rw [OpsCall.native, Codec.serves, Codec.serve_finish id hout]
    exact .finish id _ rfl
  | push id chunk _ ih =>
    obtain ⟨out, w', rest, hpush, hrest, rfl⟩ := Transducer.pieces_cons_some houts
    rw [Codec.serves, Codec.serve_push id chunk hpush]
    exact .push id chunk rfl (ih hrest)

end codec

/-! ## among others -/

theorem entriesOf_append (i : UInt32) (late earlier : List CompressionEntry) :
    entriesOf i (late ++ earlier) = entriesOf i earlier ++ entriesOf i late := by
  simp [entriesOf]

theorem entriesOf_one (i : UInt32) (e : CompressionEntry) :
    entriesOf i [e] = if e.named = some i then [e] else [] := by
  unfold entriesOf
  split <;> simp_all

namespace Compressing
variable {flate : Flate W} {overflowChecks : Bool} {s t : Compressing W}

/-- From any point of a run on, until its id is given out again, a slot answers as if it were the only
one. -/
theorem entries_served {es : List CompressionCall} {late : List CompressionEntry} {i : UInt32}
    (h : run (step flate overflowChecks) s es = some t) (ht : t.log = late ++ s.log)
    (hlate : ∀ e ∈ late, e.2 ≠ .id i) :
    entriesOf i late = Codec.serves flate (s.codecs.entries i) (callsOf i late) := by
  induction es generalizing s late with
  | nil =>
    rw [run_nil, Option.some.injEq] at h
    subst h
    obtain rfl := List.self_eq_append_left.mp ht
    rfl
  | cons call es ih =>
    obtain ⟨s', h1, h2⟩ := run_cons_some _ h
    obtain ⟨late', hlog'⟩ := run_log _ step_log h2
    obtain ⟨e, hlog⟩ := step_log _ _ _ h1
    have hcut : late ++ s.log = late' ++ [e] ++ s.log := by
      rw [← ht, hlog', hlog, List.append_assoc]
      rfl
    obtain rfl := List.append_cancel_right hcut
    have hrest := ih h2 hlog' fun x hx => hlate x (List.mem_append_left _ hx)
    have he := hlate e (List.mem_append_right _ List.mem_cons_self)
    rw [entriesOf_append, callsOf_append, entriesOf_one, callsOf_one, hrest]
    obtain ⟨format, decompress, codec, rfl, -, rfl⟩ | ⟨j, hj, rfl⟩ | ⟨hnone, -, rfl⟩ :=
      step_cases h1
    · obtain rfl := (List.cons.inj hlog).1
      have hne : s.codecs.next + 1 ≠ i := fun hi => he (congrArg CompressionAnswer.id hi)
      have hnamed : ¬CompressionEntry.named (.start format decompress, .id (s.codecs.next + 1)) =
        some i := fun hn => hne (Option.some.inj hn)
      rw [if_neg hnamed, if_neg hnamed]
      show Codec.serves flate ((s.codecs.set _ _).entries i) _ = _
      rw [Codecs.set_of_ne _ _ (Ne.symm hne)]
      rfl
    · obtain rfl := (List.cons.inj hlog).1
      rw [CompressionEntry.named_of_not_id (Codec.serve_ne_id _ _), hj]
      by_cases hi : j = i
      · subst hi
        rw [if_pos rfl, if_pos rfl, Codecs.set_same]
        rfl
      · rw [if_neg fun hn => hi (Option.some.inj hn), if_neg fun hn => hi (Option.some.inj hn),
          Codecs.set_of_ne _ _ (Ne.symm hi)]
        rfl
    · obtain rfl := (List.cons.inj hlog).1
      have hid : ∀ k, CompressionAnswer.null ≠ .id k := nofun
      rw [CompressionEntry.named_of_not_id hid, hnone]
      rfl

theorem since_served {es : List CompressionCall} {format : Text} {decompress : Bool} {i : UInt32}
    {late : List CompressionEntry} (h : run (step flate overflowChecks) start es = some t)
    (hsince : Since t.log format decompress i late) :
    ∃ kind, Codec.kindOf format decompress = some kind ∧
      entriesOf i late = Codec.serves flate (some ⟨kind, flate.new kind⟩) (callsOf i late) := by
  obtain ⟨later, earlier, hlog⟩ := hsince.part
  obtain ⟨es₁, -, m, hm, hmlog, -⟩ := run_split_log _ step_log rfl h hlog
  obtain ⟨es₂, es₃, n, hn, hnlog, hnm⟩ := run_split_log _ step_log rfl hm hmlog
  obtain ⟨codec, hnew, hcodec⟩ := (kept_run hn).newest _ _ _ _ hnlog
  obtain ⟨kind, hkind, rfl⟩ := Option.map_eq_some_iff.mp hnew
  refine ⟨kind, hkind, ?_⟩
  rw [entries_served hnm (by rw [hmlog, hnlog]) hsince.kept, hcodec]

/-- In a run of ops of any streams, in any order: a stream that compresses some chunks throws nowhere,
and a stream of the same format that is pushed what it gave, cut in any way, throws nowhere and gives
the bytes of these chunks. -/
theorem decompressed_is_compressed (flate : Flate W) (hflate : flate.Lawful) (overflowChecks : Bool)
    (ops : List OpsCall) (t : Compressing W)
    (h : run (step flate overflowChecks) start (ops.map OpsCall.native) = some t)
    (format : Text) (i : UInt32) (late : List CompressionEntry) (pieces : List (List UInt8))
    (hsince : Since t.log format false i late) (hfed : Fed (callsOf i late) pieces) :
    ∃ outs, Streamed (entriesOf i late) pieces outs ∧
      ∀ j lateJ cut, Since t.log format true j lateJ → Fed (callsOf j lateJ) cut →
        cut.flatten = outs.flatten →
          ∃ back, Streamed (entriesOf j lateJ) cut back ∧ back.flatten = pieces.flatten := by
  obtain ⟨kind, hkind, hserved⟩ := since_served h hsince
  obtain ⟨out, hout⟩ := Option.isSome_iff_exists.mp (hflate.compresses hkind pieces)
  obtain ⟨outs, houts, hflat⟩ := Transducer.result_some hout
  refine ⟨outs, by rw [hserved]; exact hfed.streamed houts, ?_⟩
  intro j lateJ cut hsinceJ hfedJ hcut
  obtain ⟨back, hback, hservedJ⟩ := since_served h hsinceJ
  have hresult := (hflate.undoes hkind hback).result hout (hcut.trans hflat)
  obtain ⟨given, hgiven, hwhole⟩ := Transducer.result_some hresult
  exact ⟨given, by rw [hservedJ]; exact hfedJ.streamed hgiven, hwhole⟩

/-! ## at a known text -/

/-- what the crate makes of one letter without a wrapper; any other text is kept behind a mark -/
def packed : List UInt8 → List UInt8
  | [0x61] => [0x4b, 0x04, 0x00]
  | bytes => 1 :: bytes

def unpacked : List UInt8 → Option (List UInt8)
  | [0x4b, 0x04, 0x00] => some [0x61]
  | 1 :: bytes => some bytes
  | _ => none

theorem unpacked_packed (bytes : List UInt8) : unpacked (packed bytes) = some bytes := by
  unfold packed
  split
  · rfl
  · cases bytes <;> rfl

/-- writers that hold everything back until they are finished -/
def sampleFlate : Flate (List UInt8) where
  new _ := []
  write _ held bytes := some ([], held ++ bytes)
  finish kind held :=
    match kind with
    | .zlibEncode | .rawEncode | .gzipEncode => some (packed held)
    | .zlibDecode | .rawDecode | .gzipDecode => unpacked held

theorem sampleFlate_result (kind : CodecKind) (pieces : List (List UInt8)) :
    (sampleFlate.stream kind).result pieces = sampleFlate.finish kind pieces.flatten := by
  have hadditive : (sampleFlate.stream kind).Additive := by
    constructor
    · intro held
      show some (([] : List UInt8), held ++ []) = some ([], held)
      rw [List.append_nil]
    · intro held x y
      show some (([] : List UInt8), held ++ (x ++ y)) = some ([], held ++ x ++ y)
      rw [List.append_assoc]
  rw [hadditive.result_eq]
  show (sampleFlate.finish kind ([] ++ pieces.flatten)).map ([] ++ ·) = _
  rw [List.nil_append]
  exact Option.map_id'

theorem sampleFlate_compresses {format : Text} {kind : CodecKind}
    (h : Codec.kindOf format false = some kind) (held : List UInt8) :
    sampleFlate.finish kind held = some (packed held) := by
  simp only [Codec.kindOf, Bool.false_eq_true, if_false] at h
  split_ifs at h <;> cases h <;> rfl

theorem sampleFlate_decompresses {format : Text} {kind : CodecKind}
    (h : Codec.kindOf format true = some kind) (held : List UInt8) :
    sampleFlate.finish kind held = unpacked held := by
  simp only [Codec.kindOf, if_true] at h
  split_ifs at h <;> cases h <;> rfl

theorem sampleFlate_lawful : sampleFlate.Lawful where
  compresses h pieces := by
    rw [sampleFlate_result, sampleFlate_compresses h]
    rfl
  undoes h hback := by
    refine ⟨fun xs ys hflat => ?_, fun xs out hout => ?_⟩
    · rw [sampleFlate_result, sampleFlate_result, hflat]
    · rw [sampleFlate_result, sampleFlate_compresses h] at hout
      cases hout
      rw [sampleFlate_result, sampleFlate_decompresses hback, List.flatten_singleton,
        unpacked_packed]

/-- two streams, of which the second is pushed in two pieces what the first gave at its end -/
def piped : List OpsCall :=
  [.compressionStart (.lit "deflate-raw") false,
    .compressionPush (.ofNat 1) (.view ⟨[7, 0x61, 8], 1, 1, by decide, by decide⟩),
    .compressionStart (.lit "deflate-raw") true, .compressionFinish (.ofNat 1),
    .compressionPush (.ofNat 2) (.buffer [0x4b] (by decide)),
    .compressionPush (.ofNat 2) (.buffer [0x04, 0x00] (by decide)), .compressionFinish (.ofNat 2)]

/-- that an answer is not this id -/
def isOther (i : UInt32) : CompressionAnswer → Bool
  | .id j => j != i
  | _ => true

theorem ne_id_of_isOther {i : UInt32} {answer : CompressionAnswer}
    (h : isOther i answer = true) : answer ≠ .id i := by
  rintro rfl
  exact absurd rfl (bne_iff_ne.mp h)

theorem decompressed_is_compressed_letter :
    ∃ t, run (step sampleFlate false) start (piped.map OpsCall.native) = some t ∧
      ∃ outs, Streamed (entriesOf 1 (t.log.take 6)) [[0x61]] outs ∧
        ∀ j lateJ cut, Since t.log (txt "deflate-raw") true j lateJ → Fed (callsOf j lateJ) cut →
          cut.flatten = outs.flatten →
            ∃ back, Streamed (entriesOf j lateJ) cut back ∧ back.flatten = [[0x61]].flatten := by
  refine ⟨_, rfl, ?_⟩
  refine decompressed_is_compressed sampleFlate sampleFlate_lawful false piped _ rfl
    (txt "deflate-raw") 1 _ [[0x61]] ⟨⟨[], [], rfl⟩, fun e he => ?_⟩ ?_
  · have hall : ∀ l : List CompressionEntry, l.all (fun e => isOther 1 e.2) = true → e ∈ l →
        e.2 ≠ .id 1 := fun l hl hmem => ne_id_of_isOther (List.all_eq_true.mp hl e hmem)
    exact hall _ rfl he
  · exact .push (.ofNat 1) (.view ⟨[7, 0x61, 8], 1, 1, by decide, by decide⟩) (.finish (.ofNat 1) [])

end Compressing
end NovaRuntime
