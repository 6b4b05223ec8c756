import NovaRuntime.Host.Bindings

/-!
# The host slots (`worker.rs`)

What the `__ow_native_*` builtins read and write, and the functions of the drain that touch the
same state.

* `nativeRespondId`, `nativeRespondPayload`   `native_respond`, before and after the payload's
  conversion, during which the guest may run;
* `nativeTimerStart`, `nativeTimerClear`, `nextTimer`   the timer list;
* `nativeBinding`, `popBinding`   the calls waiting for an answer;
* `takeOutcome`   what a dispatch that drained hands to its caller.

A function whose result is an `Option` panics where it gives `none`.

`Timer.origin`, `Pending.origin` and `Pending.call` are ghost fields: the dispatch in flight when
the entry was made, and how many binding calls had been made before it.  No function here reads
them.
-/

namespace NovaRuntime
open Lib

structure Timer where
  handle : F64
  /-- the field `at` -/
  due : Nat
  period : Option Nat
  seq : Nat
  origin : Int
  deriving DecidableEq

structure Pending where
  id : F64
  answer : Answer
  call : Nat
  origin : Int

structure HostSlots where
  dispatch : Int
  outcome : Option Text
  /-- whether the embedder gave an operations handler -/
  ops : Bool
  timers : List Timer
  timerSeq : Nat
  bindings : List Pending

/-- a fresh worker's slots -/
def HostSlots.default (ops : Bool) : HostSlots :=
  { dispatch := 0, outcome := none, ops := ops, timers := [], timerSeq := 0, bindings := [] }

inductive TerminationReason where
  | aborted
  | wallClockTimeout
  | maxIterationsReached
  | exception (message : Text)
  | other (message : Text)
  | initializationError (message : Text)
  deriving DecidableEq

/-! ## the timer list -/

/-- the order `min_by_key` compares timers in -/
def Timer.before (t u : Timer) : Bool := t.due < u.due || t.due = u.due && t.seq ≤ u.seq

/-- the list around its first least timer: `enumerate().min_by_key(..)` and the index it found -/
def firstDue : List Timer → Option (List Timer × Timer × List Timer)
  | [] => none
  | t :: ts =>
    match firstDue ts with
    | none => some ([], t, ts)
    | some (pre, u, post) =>
      if Timer.before t u then some ([], t, ts) else some (t :: pre, u, post)

/-- what stays in the list of the timer that is due: nothing, or its next turn -/
def rearm (t : Timer) : Option (List Timer) :=
  match t.period with
  | none => some []
  | some period => (addDuration t.due (max period (fromMillis 1))).map fun due =>
      [{ t with due := due }]

namespace HostSlots

/-! ## respond -/

/-- `native_respond` once argument 0 is a number: whether the call goes on to its payload -/
def nativeRespondId (s : HostSlots) (id : F64) : Bool := decide (id.intoI64 = s.dispatch)

/-- `native_respond` once the payload is a string -/
def nativeRespondPayload (s : HostSlots) (payload : Text) : HostSlots :=
  { s with outcome := some payload }

def beginDispatch (s : HostSlots) (n : Int) : HostSlots :=
  { s with dispatch := n, outcome := none }

/-! ## timers -/

/-- the delay `native_timer_start` makes of its argument; a delay that is not a number, or is
negative, means now -/
def delayOf : F64 → Option Nat
  | .fin q => if 0 < q then fromSecsF64 (roundF64 (q / 1000)) else some 0
  | .nan | .inf _ => some 0

def nativeTimerStart (s : HostSlots) (now : Nat) (origin : Int) (handle delay : F64)
    (repeating : Bool) : Option HostSlots :=
  (delayOf delay).bind fun d => (addDuration now d).map fun due =>
    { s with
      timerSeq := s.timerSeq + 1
      timers := s.timers ++
        [⟨handle, due, if repeating then some d else none, s.timerSeq, origin⟩] }

def nativeTimerClear (s : HostSlots) (handle : F64) : HostSlots :=
  { s with timers := s.timers.filter fun t => !F64.eq t.handle handle }

/-- `next_timer`: the timer due first, out of the list or armed again -/
def nextTimer (s : HostSlots) : Option (Option Timer × HostSlots) :=
  match firstDue s.timers with
  | none => some (none, s)
  | some (pre, t, post) =>
    (rearm t).map fun next => (some t, { s with timers := pre ++ next ++ post })

/-! ## bindings -/

/-- the future that answers a call, with or without an operations handler -/
def bindingAnswer (crates : Crates) (ops : Bool) (kind name params : Text) : Answer :=
  if ops then answer crates kind name params
  else .ready (.error (txt "no operations handler is wired"))

def nativeBinding (crates : Crates) (s : HostSlots) (call : Nat) (origin : Int) (id : F64)
    (kind name params : Text) : HostSlots :=
  { s with bindings := s.bindings ++
      [⟨id, bindingAnswer crates s.ops kind name params, call, origin⟩] }

def popBinding (s : HostSlots) : Option (Pending × HostSlots) :=
  s.bindings.getLast?.map fun p => (p, { s with bindings := s.bindings.dropLast })

/-! ## the outcome -/

/-- What a handler of this kind left in the slot; the slot is empty afterwards.  A kind's name and
the decoder of its values are the parameters of `take_outcome`. -/
def takeOutcome {T : Type} (limit : Option Nat) (serdeError : Text → Text) (kind : Text)
    (decode : Json → Option T) (s : HostSlots) : Except TerminationReason T × HostSlots :=
  (match s.outcome with
   | none => .error (.exception (kind ++
       txt " handler did not settle: async host operations are not supported yet"))
   | some payload =>
     match (fromStr limit payload).bind (decodeDispatchOutcome decode) with
     | none => .error (.other (txt "invalid dispatch payload: " ++ serdeError payload))
     | some (.value value) => .ok value
     | some (.error error) => .error (.exception error),
   { s with outcome := none })

end HostSlots

/-! ## facts -/

theorem firstDue_eq_none {ts : List Timer} : firstDue ts = none ↔ ts = [] := by
  cases ts with
  | nil => simp [firstDue]
  | cons t ts =>
    simp only [firstDue, reduceCtorEq, iff_false]
    split
    · simp
    · split <;> simp

theorem Timer.before_trans {t u v : Timer} (h : Timer.before t u = true)
    (h' : Timer.before u v = true) : Timer.before t v = true := by
  simp only [Timer.before, Bool.or_eq_true, Bool.and_eq_true, decide_eq_true_eq] at *
  omega

theorem Timer.before_of_not {t u : Timer} (h : ¬ Timer.before t u = true) :
    Timer.before u t = true := by
  simp only [Timer.before, Bool.or_eq_true, Bool.and_eq_true, decide_eq_true_eq] at *
  omega

/-- `firstDue` splits the list, and nothing in it comes before the timer it finds. -/
theorem firstDue_spec {ts pre post : List Timer} {t : Timer}
    (h : firstDue ts = some (pre, t, post)) :
    ts = pre ++ t :: post ∧ ∀ u ∈ ts, Timer.before t u = true := by
  have hrefl : ∀ t : Timer, Timer.before t t = true := by
    intro t
    simp [Timer.before]
  induction ts generalizing pre t post with
  | nil => cases h
  | cons x xs ih =>
    rw [firstDue] at h
    cases hf : firstDue xs with
    | none =>
      rw [hf] at h
      cases h
      have hxs : xs = [] := firstDue_eq_none.mp hf
      subst hxs
      exact ⟨rfl, fun u hu => by rw [List.mem_singleton.mp hu]; exact hrefl x⟩
    | some p =>
      obtain ⟨pre', u, post'⟩ := p
      obtain ⟨heq, hmin⟩ := ih hf
      rw [hf] at h
      by_cases hb : Timer.before x u = true
      · simp only [hb, ↓reduceIte, Option.some.injEq, Prod.mk.injEq] at h
        obtain ⟨rfl, rfl, rfl⟩ := h
        refine ⟨rfl, fun v hv => ?_⟩
        rcases List.mem_cons.mp hv with rfl | hv
        · exact hrefl _
        · exact Timer.before_trans hb (hmin v hv)
      · simp only [hb, Bool.false_eq_true, ↓reduceIte, Option.some.injEq, Prod.mk.injEq] at h
        obtain ⟨rfl, rfl, rfl⟩ := h
        refine ⟨by rw [heq]; rfl, fun v hv => ?_⟩
        rcases List.mem_cons.mp hv with rfl | hv
        · exact Timer.before_of_not hb
        · exact hmin v hv

theorem rearm_cases {t : Timer} {next : List Timer} (h : rearm t = some next) :
    t.period = none ∧ next = [] ∨ ∃ period, t.period = some period ∧
      next = [{ t with due := t.due + max period (fromMillis 1) }] := by
  unfold rearm at h
  cases hp : t.period with
  | none =>
    rw [hp] at h
    cases h
    exact .inl ⟨rfl, rfl⟩
  | some period =>
    rw [hp] at h
    obtain ⟨due, hdue, rfl⟩ := Option.map_eq_some_iff.mp h
    exact .inr ⟨period, rfl, by rw [addDuration_eq hdue]⟩

end NovaRuntime
