import NovaRuntime.Lib.Run
import NovaRuntime.Host.Compression

/-!
# Compression streams side by side

A run of calls, in any order and with any arguments.  The log alone says which codec a call is
about: the one that the newest `start` answering its id made.

* `opened`     whether a log leaves an id open;
* `age`        how many codecs were started since an id was given out;
* `alone`      what one codec writes for its own calls, with no other codec around;
* `Apart`      what the calls of a run keep apart;
* `Spaced`     no codec is open whose own start is 2 ^ 32 starts back.
-/

namespace NovaRuntime
open Lib

abbrev CompressionEntry := CompressionCall × CompressionAnswer

structure Compressing (W : Type) where
  codecs : Codecs W
  log : List CompressionEntry

namespace CompressionCall

/-- the id a call names -/
def target : CompressionCall → Option UInt32
  | .push id _ _ _ | .finish id | .drop id => some id.toUint32
  | .start _ _ | .other => none

/-- the bytes a push brings; `none` for a range that is not inside the buffer -/
def input : CompressionCall → Option (List UInt8)
  | .push _ payload offset length => bytesOf payload offset.toUint32 length.toUint32
  | _ => none

end CompressionCall

namespace CompressionEntry

/-- the id an entry is about: the one a start answers, or the one the call names -/
def named (e : CompressionEntry) : Option UInt32 :=
  match e.2 with
  | .id i => some i
  | _ => e.1.target

def failed (e : CompressionEntry) : Bool := e.1.input.isSome && e.2 matches .null

def ends (e : CompressionEntry) : Bool :=
  match e.1 with
  | .finish _ | .drop _ => true
  | _ => e.failed

/-- the bytes of the answer -/
def bytes (e : CompressionEntry) : List UInt8 :=
  match e.2 with
  | .buffer out => out
  | _ => []

end CompressionEntry

/-- whether a codec is open under `i` after the calls of a log -/
def opened (i : UInt32) : List CompressionEntry → Bool
  | [] => false
  | e :: log =>
    if e.2 matches .id _ then decide (e.named = some i) || opened i log
    else if e.named = some i ∧ e.ends then false
    else opened i log

/-- the starts since `i` was given out -/
def age (i : UInt32) : List CompressionEntry → Nat
  | [] => 0
  | e :: log =>
    match e.2 with
    | .id j => if j = i then 0 else age i log + 1
    | _ => age i log

/-- the calls about `i`, oldest first -/
def callsOf (i : UInt32) (log : List CompressionEntry) : List CompressionCall :=
  ((log.filter fun e => e.named = some i).map Prod.fst).reverse

/-- the bytes answered about `i`, oldest first -/
def written (i : UInt32) (log : List CompressionEntry) : List UInt8 :=
  ((log.filter fun e => e.named = some i).map CompressionEntry.bytes).reverse.flatten

variable {W : Type} (flate : Flate W) (overflowChecks : Bool)

/-- what a codec writes for its calls when there is no other codec -/
def Codec.alone : Codec W → List CompressionCall → List UInt8
  | _, [] => []
  | codec, .push _ payload offset length :: calls =>
    match bytesOf payload offset.toUint32 length.toUint32 with
    | none => alone codec calls
    | some input =>
      match codec.push flate input with
      | some (out, codec) => out ++ alone codec calls
      | none => []
  | codec, .finish _ :: _ => (codec.finish flate).getD []
  | _, .drop _ :: _ => []
  | codec, _ :: calls => alone codec calls

namespace Compressing

def start : Compressing W := ⟨.default, []⟩

def step (s : Compressing W) (call : CompressionCall) : Option (Compressing W) :=
  (s.codecs.nativeCompression flate overflowChecks call).map fun r => ⟨r.1, (call, r.2) :: s.log⟩

def answer (s : Compressing W) (call : CompressionCall) : Option CompressionAnswer :=
  (s.codecs.nativeCompression flate overflowChecks call).map Prod.snd

/-- The codecs of a run do not get in each other's way. -/
structure Apart (s : Compressing W) : Prop where
  /-- an id is given out only when no codec is open under it -/
  ids : Logged (fun e earlier => ∀ i, e.2 = .id i → opened i earlier = false) s.log
  /-- a call changes no codec but the one it names, or makes -/
  others : ∀ call s' e i, s.step flate overflowChecks call = some s' → s'.log = e :: s.log →
    e.named ≠ some i → s'.codecs.entries i = s.codecs.entries i
  /-- a push whose range is outside the buffer changes nothing -/
  outside : ∀ id payload offset length,
    bytesOf payload offset.toUint32 length.toUint32 = none →
      s.codecs.nativeCompression flate overflowChecks (.push id payload offset length) =
        some (s.codecs, .null)
  /-- from its start on, a codec writes what its own calls make it write -/
  outputs : ∀ later late earlier format decompress i,
    s.log = later ++ (late ++ (.start format decompress, .id i) :: earlier) →
      (∀ e ∈ late, e.2 ≠ .id i) →
        ∃ codec, Codec.new flate format decompress = some codec ∧
          written i late = codec.alone flate (callsOf i late)
  /-- an id that is closed answers like one never opened -/
  closed : ∀ i call, opened i s.log = false → call.target = some i →
    s.answer flate overflowChecks call = start.answer flate overflowChecks call

/-- no codec is started while one is open that was itself started `2 ^ 32` starts before -/
def Spaced (s : Compressing W) : CompressionCall → Prop
  | .start format decompress =>
    Codec.kindOf format decompress ≠ none → ∀ i, opened i s.log = true → age i s.log + 1 ≠ 2 ^ 32
  | _ => True

end Compressing

/-! ## one call on the codec it names -/

/-- what a call does to the codec it names, if one is open -/
def Codec.serve (slot : Option (Codec W)) : CompressionCall → Option (Codec W) × CompressionAnswer
  | .push _ payload offset length =>
    match bytesOf payload offset.toUint32 length.toUint32 with
    | none => (slot, .null)
    | some input =>
      match slot.bind fun codec => codec.push flate input with
      | some (out, codec) => (some codec, .buffer out)
      | none => (none, .null)
  | .finish _ =>
    match slot.bind fun codec => codec.finish flate with
    | some out => (none, .buffer out)
    | none => (none, .null)
  | .drop _ => (none, .undefined)
  | _ => (slot, .null)

/-- `codecs` with another codec, or none, under `i` -/
def Codecs.set (codecs : Codecs W) (i : UInt32) (slot : Option (Codec W)) : Codecs W :=
  { codecs with entries := Function.update codecs.entries i slot }

theorem Codecs.set_self (codecs : Codecs W) (i : UInt32) :
    codecs.set i (codecs.entries i) = codecs := by
  rw [Codecs.set, Function.update_eq_self]

theorem Codecs.set_same (codecs : Codecs W) (i : UInt32) (slot : Option (Codec W)) :
    (codecs.set i slot).entries i = slot :=
  Function.update_self _ _ _

theorem Codecs.set_of_ne (codecs : Codecs W) {i j : UInt32} (slot : Option (Codec W))
    (h : j ≠ i) : (codecs.set i slot).entries j = codecs.entries j :=
  Function.update_of_ne h _ _

section calls
variable {flate overflowChecks} {codecs codecs' : Codecs W} {call : CompressionCall}
  {answer : CompressionAnswer} {i : UInt32}

/-- A call that names an id works on that slot alone. -/
theorem Codecs.native_target (h : call.target = some i) :
    codecs.nativeCompression flate overflowChecks call =
      some (codecs.set i (Codec.serve flate (codecs.entries i) call).1,
        (Codec.serve flate (codecs.entries i) call).2) := by
  cases call with
  | start => cases h
  | other => cases h
  | push id payload offset length =>
    cases h
    simp only [nativeCompression, Codec.serve]
    cases bytesOf payload offset.toUint32 length.toUint32 with
    | none => rw [set_self]
    | some input =>
      cases hslot : codecs.entries id.toUint32 with
      | none => simp only [Option.map_none, Option.bind_none]; rw [← hslot, set_self]
      | some codec =>
        simp only [Option.map_some, Option.bind_some]
        cases codec.push flate input <;> rfl
  | finish id =>
    cases h
    simp only [nativeCompression, Codec.serve]
    cases codecs.entries id.toUint32 with
    | none => rfl
    | some codec => simp only [Option.map_some, Option.bind_some]; cases codec.finish flate <;> rfl
  | drop id =>
    cases h
    rfl

/-- what a call does: it starts a codec under the next id, or works on the codec it names, or does
nothing -/
theorem Codecs.native_cases
    (h : codecs.nativeCompression flate overflowChecks call = some (codecs', answer)) :
    (∃ format decompress codec, call = .start format decompress ∧
        Codec.new flate format decompress = some codec ∧ answer = .id (codecs.next + 1) ∧
        codecs' = { codecs.set (codecs.next + 1) (some codec) with next := codecs.next + 1 }) ∨
      (∃ i, call.target = some i ∧
        codecs' = codecs.set i (Codec.serve flate (codecs.entries i) call).1 ∧
        answer = (Codec.serve flate (codecs.entries i) call).2) ∨
      (call.target = none ∧ (∀ format decompress, call = .start format decompress →
        Codec.kindOf format decompress = none) ∧ codecs' = codecs ∧ answer = .null) := by
  cases htarget : call.target with
  | some i =>
    rw [native_target htarget] at h
    cases h
    exact .inr (.inl ⟨i, rfl, rfl, rfl⟩)
  | none =>
    cases call with
    | push => cases htarget
    | finish => cases htarget
    | drop => cases htarget
    | other =>
      cases h
      exact .inr (.inr ⟨rfl, nofun, rfl, rfl⟩)
    | start format decompress =>
      simp only [nativeCompression] at h
      cases hnew : Codec.new flate format decompress with
      | none =>
        rw [hnew] at h
        cases h
        refine .inr (.inr ⟨rfl, fun _ _ hcall => ?_, rfl, rfl⟩)
        cases hcall
        exact Option.map_eq_none_iff.mp hnew
      | some codec =>
        simp only [hnew] at h
        split at h
        · cases h
        · cases h
          exact .inl ⟨format, decompress, codec, rfl, hnew, rfl, rfl⟩

/-- the answer of a call to a slot is never an id -/
theorem Codec.serve_ne_id (slot : Option (Codec W)) (call : CompressionCall) (j : UInt32) :
    (Codec.serve flate slot call).2 ≠ .id j := by
  unfold Codec.serve
  repeat' split
  all_goals exact nofun

/-- A call leaves a codec in its slot exactly when one was there and the call does not end it. -/
theorem Codec.serve_isSome (slot : Option (Codec W)) (h : call.target = some i) :
    (Codec.serve flate slot call).1.isSome =
      (slot.isSome && !CompressionEntry.ends (call, (Codec.serve flate slot call).2)) := by
  cases call with
  | start => cases h
  | other => cases h
  | drop => simp [Codec.serve, CompressionEntry.ends]
  | finish id =>
    unfold Codec.serve
    cases slot.bind fun codec => codec.finish flate <;> simp [CompressionEntry.ends]
  | push id payload offset length =>
    unfold Codec.serve
    cases hinput : bytesOf payload offset.toUint32 length.toUint32 with
    | none => simp [CompressionEntry.ends, CompressionEntry.failed, CompressionCall.input, hinput]
    | some input =>
      cases slot with
      | none => simp [hinput]
      | some codec =>
        cases hpush : codec.push flate input <;>
          simp [CompressionEntry.ends, CompressionEntry.failed, CompressionCall.input, hinput, hpush]

/-- The first call of a codec is served, and the rest goes on with what it leaves. -/
theorem Codec.alone_cons (codec : Codec W) (calls : List CompressionCall)
    (h : call.target = some i) :
    codec.alone flate (call :: calls) =
      CompressionEntry.bytes (call, (Codec.serve flate (some codec) call).2) ++
        ((Codec.serve flate (some codec) call).1.elim []
          fun codec => codec.alone flate calls) := by
  cases call with
  | start => cases h
  | other => cases h
  | drop => rfl
  | finish id =>
    simp only [Codec.alone, Codec.serve, Option.bind_some]
    cases codec.finish flate <;> simp [CompressionEntry.bytes]
  | push id payload offset length =>
    simp only [Codec.alone, Codec.serve, Option.bind_some]
    cases bytesOf payload offset.toUint32 length.toUint32 with
    | none => rfl
    | some input => cases hpush : codec.push flate input <;> simp [CompressionEntry.bytes, hpush]

theorem Codec.serve_none (flate : Flate W) (h : call.target = some i) :
    (Codec.serve flate (none : Option (Codec W)) call).1 = none ∧
      CompressionEntry.bytes (call, (Codec.serve flate (none : Option (Codec W)) call).2) = [] := by
  cases call with
  | start => cases h
  | other => cases h
  | drop => exact ⟨rfl, rfl⟩
  | finish => exact ⟨rfl, rfl⟩
  | push id payload offset length =>
    unfold Codec.serve
    cases hinput : bytesOf payload offset.toUint32 length.toUint32 <;>
      simp [CompressionEntry.bytes, hinput]

end calls

/-! ## the log -/

section log
variable {i j : UInt32} {call : CompressionCall} {answer : CompressionAnswer}
  {log : List CompressionEntry}

theorem opened_started :
    opened i ((call, .id j) :: log) = (decide (j = i) || opened i log) := by
  simp [opened, CompressionEntry.named]

theorem CompressionEntry.named_of_not_id (h : ∀ k, answer ≠ .id k) :
    CompressionEntry.named (call, answer) = call.target := by
  cases answer with
  | id k => exact absurd rfl (h k)
  | _ => rfl

theorem opened_served (h : ∀ k, answer ≠ .id k) :
    opened i ((call, answer) :: log) =
      if call.target = some i ∧ CompressionEntry.ends (call, answer) then false
      else opened i log := by
  rw [opened, CompressionEntry.named_of_not_id h]
  cases answer with
  | id k => exact absurd rfl (h k)
  | _ => rfl

theorem age_started : age i ((call, .id j) :: log) = if j = i then 0 else age i log + 1 := rfl

theorem age_served (h : ∀ k, answer ≠ .id k) : age i ((call, answer) :: log) = age i log := by
  cases answer with
  | id k => exact absurd rfl (h k)
  | _ => rfl

theorem callsOf_append (late earlier : List CompressionEntry) :
    callsOf i (late ++ earlier) = callsOf i earlier ++ callsOf i late := by
  simp [callsOf]

theorem written_append (late earlier : List CompressionEntry) :
    written i (late ++ earlier) = written i earlier ++ written i late := by
  simp [written]

theorem callsOf_one (e : CompressionEntry) :
    callsOf i [e] = if e.named = some i then [e.1] else [] := by
  unfold callsOf
  split <;> simp_all

theorem written_one (e : CompressionEntry) :
    written i [e] = if e.named = some i then e.bytes else [] := by
  unfold written
  split <;> simp_all

end log

/-! ## one step -/

namespace Compressing
variable {flate overflowChecks} {s s' t : Compressing W} {call : CompressionCall}

theorem step_cases (h : s.step flate overflowChecks call = some s') :
    (∃ format decompress codec, call = .start format decompress ∧
        Codec.new flate format decompress = some codec ∧
        s' = ⟨{ s.codecs.set (s.codecs.next + 1) (some codec) with next := s.codecs.next + 1 },
          (call, .id (s.codecs.next + 1)) :: s.log⟩) ∨
      (∃ i, call.target = some i ∧
        s' = ⟨s.codecs.set i (Codec.serve flate (s.codecs.entries i) call).1,
          (call, (Codec.serve flate (s.codecs.entries i) call).2) :: s.log⟩) ∨
      (call.target = none ∧ (∀ format decompress, call = .start format decompress →
        Codec.kindOf format decompress = none) ∧ s' = ⟨s.codecs, (call, .null) :: s.log⟩) := by
  obtain ⟨⟨codecs, answer⟩, hcall, rfl⟩ := Option.map_eq_some_iff.mp h
  obtain ⟨format, decompress, codec, rfl, hnew, rfl, rfl⟩ | ⟨i, hi, rfl, rfl⟩ |
    ⟨htarget, hstart, rfl, rfl⟩ := Codecs.native_cases hcall
  · exact .inl ⟨format, decompress, codec, rfl, hnew, rfl⟩
  · exact .inr (.inl ⟨i, hi, rfl⟩)
  · exact .inr (.inr ⟨htarget, hstart, rfl⟩)

theorem step_log (s : Compressing W) (call : CompressionCall) (s' : Compressing W)
    (h : s.step flate overflowChecks call = some s') : ∃ e, s'.log = e :: s.log := by
  obtain ⟨r, -, rfl⟩ := Option.map_eq_some_iff.mp h
  exact ⟨(call, r.2), rfl⟩

/-- what holds after every run: the map of codecs is what the log leaves open, and ids count the
starts -/
structure Kept (flate : Flate W) (s : Compressing W) : Prop where
  entries : ∀ i, (s.codecs.entries i).isSome = opened i s.log
  ages : ∀ i, opened i s.log = true →
    age i s.log < 2 ^ 32 ∧ (i.toNat + age i s.log) % 2 ^ 32 = s.codecs.next.toNat
  newest : ∀ format decompress i earlier, s.log = (.start format decompress, .id i) :: earlier →
    ∃ codec, Codec.new flate format decompress = some codec ∧ s.codecs.entries i = some codec

theorem kept_start : Kept flate (start : Compressing W) where
  entries _ := rfl
  ages _ h := by cases h
  newest _ _ _ _ h := by cases h

/-- an id under which a codec is open comes round exactly `2 ^ 32` starts after it was given out -/
theorem Kept.comes_round (hk : Kept flate s) {i : UInt32} (hi : opened i s.log = true) :
    i = s.codecs.next + 1 ↔ age i s.log + 1 = 2 ^ 32 := by
  obtain ⟨hlt, hmod⟩ := hk.ages i hi
  rw [← UInt32.toNat_inj, UInt32.toNat_add]
  have hi' := i.toNat_lt
  have hn := s.codecs.next.toNat_lt
  simp only [UInt32.reduceToNat]
  omega

theorem Kept.ages_started (hk : Kept flate s) {i : UInt32}
    (hi : opened i ((call, .id (s.codecs.next + 1)) :: s.log) = true) :
    age i ((call, .id (s.codecs.next + 1)) :: s.log) < 2 ^ 32 ∧
      (i.toNat + age i ((call, .id (s.codecs.next + 1)) :: s.log)) % 2 ^ 32 =
        (s.codecs.next + 1).toNat := by
  rw [opened_started, Bool.or_eq_true, decide_eq_true_eq] at hi
  rw [age_started]
  split
  · next hne =>
    subst hne
    refine ⟨by decide, ?_⟩
    rw [Nat.add_zero]
    exact Nat.mod_eq_of_lt (UInt32.toNat_lt _)
  · next hne =>
    have hopen := hi.resolve_left hne
    obtain ⟨hlt, hmod⟩ := hk.ages i hopen
    have hround := mt (hk.comes_round hopen).mpr (Ne.symm hne)
    refine ⟨by omega, ?_⟩
    rw [UInt32.toNat_add]
    simp only [UInt32.reduceToNat]
    omega

theorem Kept.ages_served (hk : Kept flate s) {answer : CompressionAnswer}
    (hid : ∀ k, answer ≠ .id k) {i : UInt32} (hi : opened i ((call, answer) :: s.log) = true) :
    age i ((call, answer) :: s.log) < 2 ^ 32 ∧
      (i.toNat + age i ((call, answer) :: s.log)) % 2 ^ 32 = s.codecs.next.toNat := by
  rw [opened_served hid] at hi
  rw [age_served hid]
  split at hi
  · cases hi
  · exact hk.ages i hi

theorem Kept.step (hk : Kept flate s) (h : s.step flate overflowChecks call = some s') :
    Kept flate s' := by
  obtain ⟨format, decompress, codec, rfl, hnew, rfl⟩ | ⟨j, hj, rfl⟩ | ⟨hnone, -, rfl⟩ :=
    step_cases h
  · refine ⟨fun i => ?_, fun i hi => hk.ages_started hi, fun format' decompress' i earlier heq => ?_⟩
    · show ((s.codecs.set _ _).entries i).isSome = _
      rw [opened_started]
      by_cases hi : i = s.codecs.next + 1
      · subst hi
        simp [Codecs.set_same]
      · rw [Codecs.set_of_ne _ _ hi, hk.entries i]
        simp [Ne.symm hi]
    · simp only [List.cons.injEq, Prod.mk.injEq, CompressionCall.start.injEq,
        CompressionAnswer.id.injEq] at heq
      obtain ⟨⟨⟨rfl, rfl⟩, rfl⟩, rfl⟩ := heq
      exact ⟨codec, hnew, Codecs.set_same _ _ _⟩
  · have hid : ∀ k, (Codec.serve flate (s.codecs.entries j) call).2 ≠ .id k :=
      Codec.serve_ne_id _ _
    refine ⟨fun i => ?_, fun i hi => hk.ages_served hid hi,
      fun format' decompress' i earlier heq => ?_⟩
    · show ((s.codecs.set _ _).entries i).isSome = _
      rw [opened_served hid, hj]
      by_cases hi : i = j
      · subst hi
        rw [Codecs.set_same, Codec.serve_isSome _ hj, hk.entries i]
        cases CompressionEntry.ends _ <;> simp
      · rw [Codecs.set_of_ne _ _ hi, hk.entries i, if_neg]
        exact fun hji => hi (Option.some.inj hji.1).symm
    · exact absurd (congrArg Prod.snd (List.cons.inj heq).1) (hid i)
  · have hid : ∀ k, CompressionAnswer.null ≠ .id k := nofun
    refine ⟨fun i => ?_, fun i hi => hk.ages_served hid hi,
      fun format' decompress' i earlier heq => ?_⟩
    · rw [opened_served hid, hnone]
      exact hk.entries i
    · cases (congrArg Prod.snd (List.cons.inj heq).1)

/-- From any point of a run on, until its id is given out again, a codec writes what its own calls
make it write. -/
theorem written_alone {es : List CompressionCall} {late : List CompressionEntry} {i : UInt32}
    (h : run (step flate overflowChecks) s es = some t) (ht : t.log = late ++ s.log)
    (hlate : ∀ e ∈ late, e.2 ≠ .id i) :
    written i late =
      (s.codecs.entries i).elim [] fun codec => codec.alone flate (callsOf i late) := by
  induction es generalizing s late with
  | nil =>
    rw [run_nil, Option.some.injEq] at h
    subst h
    obtain rfl := List.self_eq_append_left.mp ht
    cases s.codecs.entries i <;> rfl
  | cons call es ih =>
    obtain ⟨s', h1, h2⟩ := run_cons_some _ h
    obtain ⟨late', hlog'⟩ := run_log _ step_log h2
    obtain ⟨e, hlog⟩ := step_log _ _ _ h1
    have hcut : late ++ s.log = late' ++ [e] ++ s.log := by
      rw [← ht, hlog', hlog, List.append_assoc]
      rfl
    obtain rfl := List.append_cancel_right hcut
    have hrest := ih h2 hlog' fun x hx => hlate x (List.mem_append_left _ hx)
    have he := hlate e (List.mem_append_right _ List.mem_cons_self)
    rw [written_append, callsOf_append, written_one, callsOf_one, hrest]
    obtain ⟨format, decompress, codec, rfl, -, rfl⟩ | ⟨j, hj, rfl⟩ | ⟨hnone, -, rfl⟩ :=
      step_cases h1
    · obtain rfl := (List.cons.inj hlog).1
      have hne : s.codecs.next + 1 ≠ i := fun hi => he (congrArg CompressionAnswer.id hi)
      have hnamed : ¬CompressionEntry.named (.start format decompress, .id (s.codecs.next + 1)) =
        some i := fun hn => hne (Option.some.inj hn)
      rw [if_neg hnamed, if_neg hnamed]
      show ((s.codecs.set _ _).entries i).elim _ _ = _
      rw [Codecs.set_of_ne _ _ (Ne.symm hne)]
      rfl
    · obtain rfl := (List.cons.inj hlog).1
      rw [CompressionEntry.named_of_not_id (Codec.serve_ne_id _ _), hj]
      by_cases hi : j = i
      · subst hi
        rw [if_pos rfl, if_pos rfl, Codecs.set_same]
        cases s.codecs.entries j with
        | none =>
          obtain ⟨hslot, hbytes⟩ := Codec.serve_none flate hj
          rw [hbytes, hslot]
          rfl
        | some codec => exact (Codec.alone_cons codec _ hj).symm
      · rw [if_neg fun hn => hi (Option.some.inj hn), if_neg fun hn => hi (Option.some.inj hn),
          Codecs.set_of_ne _ _ (Ne.symm hi)]
        rfl
    · obtain rfl := (List.cons.inj hlog).1
      have hid : ∀ k, CompressionAnswer.null ≠ .id k := nofun
      rw [CompressionEntry.named_of_not_id hid, hnone]
      rfl

/-! ## a run -/

/-- every id that was given out was closed then -/
def IdsFresh : List CompressionEntry → Prop :=
  Logged fun e earlier => ∀ i, e.2 = .id i → opened i earlier = false

/-- A step gives out an open id exactly when a codec is open whose start is a full round back. -/
theorem fresh_step (hk : Kept flate s) (h : s.step flate overflowChecks call = some s') :
    IdsFresh s'.log ↔ IdsFresh s.log ∧ Spaced s call := by
  rw [and_comm]
  obtain ⟨format, decompress, codec, rfl, hnew, rfl⟩ | ⟨j, hj, rfl⟩ | ⟨hnone, hstart, rfl⟩ :=
    step_cases h
  · refine and_congr_left fun _ => ⟨fun hfresh _ i hi hage => ?_, fun hspaced i hid => ?_⟩
    · obtain rfl := (hk.comes_round hi).mpr hage
      exact Bool.false_ne_true ((hfresh _ rfl).symm.trans hi)
    · cases hid
      have hkind : Codec.kindOf format decompress ≠ none := fun hkind => by
        simp [Codec.new, hkind] at hnew
      by_contra hopen
      rw [Bool.not_eq_false] at hopen
      exact hspaced hkind _ hopen ((hk.comes_round hopen).mp rfl)
  · refine and_congr_left fun _ => iff_of_true (fun i hid => ?_) ?_
    · exact absurd hid (Codec.serve_ne_id _ _ i)
    · cases call with
      | start => cases hj
      | _ => trivial
  · refine and_congr_left fun _ => iff_of_true (fun i hid => ?_) ?_
    · cases hid
    · cases call with
      | start format decompress => exact fun hkind => absurd (hstart _ _ rfl) hkind
      | _ => trivial

theorem kept_run {es : List CompressionCall}
    (h : run (step flate overflowChecks) start es = some t) : Kept flate t :=
  run_inv _ (fun _ _ _ hk hstep => hk.step hstep) kept_start h

/-- Apart from the ids given out, codecs never touch each other. -/
theorem apart_iff {es : List CompressionCall}
    (h : run (step flate overflowChecks) start es = some t) :
    Apart flate overflowChecks t ↔ IdsFresh t.log := by
  refine ⟨Apart.ids, fun hids => ⟨hids, ?_, ?_, ?_, ?_⟩⟩
  · intro call s' e i hstep hlog hne
    obtain ⟨format, decompress, codec, rfl, -, rfl⟩ | ⟨j, hj, rfl⟩ | ⟨hnone, -, rfl⟩ :=
      step_cases hstep
    · obtain rfl := (List.cons.inj hlog).1
      exact Codecs.set_of_ne _ _ fun hi => hne (congrArg some hi.symm)
    · obtain rfl := (List.cons.inj hlog).1
      rw [CompressionEntry.named_of_not_id (Codec.serve_ne_id _ _), hj] at hne
      exact Codecs.set_of_ne _ _ fun hi => hne (congrArg some hi.symm)
    · rfl
  · intro id payload offset length hout
    simp only [Codecs.nativeCompression, hout]
  · intro later late earlier format decompress i hlog hlate
    obtain ⟨es₁, -, m, hm, hmlog, -⟩ := run_split_log _ step_log rfl h hlog
    obtain ⟨es₂, es₃, n, hn, hnlog, hnm⟩ := run_split_log _ step_log rfl hm hmlog
    obtain ⟨codec, hnew, hcodec⟩ := (kept_run hn).newest _ _ _ _ hnlog
    refine ⟨codec, hnew, ?_⟩
    rw [written_alone hnm (by rw [hmlog, hnlog]) hlate, hcodec]
    rfl
  · intro i call hclosed htarget
    have hnone : t.codecs.entries i = none := by
      rw [← Option.not_isSome_iff_eq_none, (kept_run h).entries i, hclosed]
      exact Bool.false_ne_true
    unfold answer
    rw [Codecs.native_target htarget, Codecs.native_target htarget, hnone]
    rfl

/-- In a run of calls of any kind, in any order and with any arguments, the codecs are kept apart
exactly when no codec is started while one is open that was started `2 ^ 32` starts before. -/
theorem codecs_apart (flate : Flate W) (overflowChecks : Bool) (es : List CompressionCall)
    (t : Compressing W) (h : run (step flate overflowChecks) start es = some t) :
    Apart flate overflowChecks t ↔ Meets (step flate overflowChecks) Spaced start es := by
  rw [apart_iff h]
  exact run_iff_meets _ (A := fun _ _ => True) (fun _ _ _ hk _ hstep => hk.step hstep)
    (fun _ _ _ hk _ hstep => fresh_step hk hstep) kept_start trivial
    (meets_of_forall _ (fun _ _ => trivial) _ _) h

def copying : Flate Unit where
  new _ := ()
  write _ _ bytes := some (bytes, ())
  finish _ _ := some []

theorem codecs_apart_pushed :
    ∃ t, run (step copying false) start
        [.start (txt "gzip") false, .push (.ofNat 1) (some [7, 8]) (.ofNat 1) (.ofNat 1),
          .finish (.ofNat 1)] = some t ∧
      (Apart copying false t ↔ Meets (step copying false) Spaced start
        [.start (txt "gzip") false, .push (.ofNat 1) (some [7, 8]) (.ofNat 1) (.ofNat 1),
          .finish (.ofNat 1)]) :=
  ⟨_, rfl, codecs_apart copying false _ _ rfl⟩

/-! ## a full round -/

/-- a codec that is started and dropped at once -/
def round (n : Nat) : List CompressionCall :=
  [.start (txt "gzip") false, .drop (.ofNat n)]

/-- one codec that stays open, `n` that come and go, and one more -/
def fullRound (n : Nat) : List CompressionCall :=
  .start (txt "gzip") false :: (List.range n).flatMap (fun k => round ((k + 2) % 2 ^ 32)) ++
    [.start (txt "gzip") false]

theorem step_gzip (s : Compressing Unit) :
    s.step copying false (.start (txt "gzip") false) =
      some ⟨{ s.codecs.set (s.codecs.next + 1) (some ⟨.gzipEncode, ()⟩) with
          next := s.codecs.next + 1 },
        (.start (txt "gzip") false, .id (s.codecs.next + 1)) :: s.log⟩ := rfl

theorem step_drop (s : Compressing Unit) (id : F64) :
    s.step copying false (.drop id) =
      some ⟨s.codecs.set id.toUint32 none, (.drop id, .undefined) :: s.log⟩ := rfl

/-- One codec that comes and goes leaves the others open. -/
theorem round_run {s : Compressing Unit} {n : Nat} {i : UInt32}
    (hi : i ≠ s.codecs.next + 1) (hn : UInt32.ofNat n = s.codecs.next + 1)
    (hopen : opened i s.log = true) :
    ∃ t, run (step copying false) s (round n) = some t ∧ t.codecs.next = s.codecs.next + 1 ∧
      opened i t.log = true := by
  refine ⟨_, by rw [round, run_cons, step_gzip, Option.bind_some]; exact run_one _ (step_drop _ _),
    rfl, ?_⟩
  have hid : ∀ k, CompressionAnswer.undefined ≠ .id k := nofun
  have htarget : (CompressionCall.drop (.ofNat n)).target ≠ some i := by
    rw [CompressionCall.target, F64.toUint32_ofNat, hn]
    exact fun h => hi (Option.some.inj h).symm
  rw [opened_served hid, if_neg fun h => htarget h.1, opened_started, hopen, Bool.or_true]

/-- Ids come round after `2 ^ 32` starts, and no sooner. -/
theorem rounds_run (n : Nat) (hn : n < 2 ^ 32) :
    ∃ t, run (step copying false) start
        (.start (txt "gzip") false ::
          (List.range n).flatMap fun k => round ((k + 2) % 2 ^ 32)) = some t ∧
      t.codecs.next = UInt32.ofNat (n + 1) ∧ opened 1 t.log = true := by
  induction n with
  | zero => exact ⟨_, rfl, rfl, rfl⟩
  | succ n ih =>
    obtain ⟨m, hm, hnext, hopen⟩ := ih (by omega)
    have hsucc : m.codecs.next + 1 = UInt32.ofNat (n + 2) := by
      rw [hnext]
      exact (UInt32.ofNat_add (n + 1) 1).symm
    have hne : (1 : UInt32) ≠ m.codecs.next + 1 := by
      rw [hsucc, ne_eq, ← UInt32.toNat_inj, UInt32.toNat_ofNat', UInt32.toNat_one]
      omega
    have hid : UInt32.ofNat ((n + 2) % 2 ^ 32) = m.codecs.next + 1 :=
      UInt32.ofNat_mod_size.trans hsucc.symm
    obtain ⟨t, ht, hnext', hopen'⟩ := round_run hne hid hopen
    refine ⟨t, ?_, hnext'.trans hsucc, hopen'⟩
    rw [List.range_succ, List.flatMap_append, ← List.cons_append, run_append, hm]
    simpa using ht

/-- In a build that does not check the counter, a codec that stays open loses its id to the one
that is started `2 ^ 32` starts later. -/
theorem an_open_codec_loses_its_id :
    ∃ t, run (step copying false) start (fullRound (2 ^ 32 - 1)) = some t ∧
      ¬Apart copying false t := by
  obtain ⟨m, hm, hnext, hopen⟩ := rounds_run (2 ^ 32 - 1) (by decide)
  refine ⟨_, by rw [fullRound, run_snoc, hm]; exact step_gzip m, fun hapart => ?_⟩
  have hfresh := hapart.ids.1 1 (by rw [hnext]; rfl)
  exact Bool.false_ne_true (hfresh.symm.trans hopen)

end Compressing

end NovaRuntime
