import Mathlib.Logic.Function.Basic

/-!
# Promises, and waiting for all of some

A promise settles once.  `Promise.all` waits for a list of promises: it is decided when the first of
them rejects, or when the last of them fulfils.

* `Table`        how far each promise is; `settle`, one of them settles;
* `Keeps`        a table and a later one;
* `AllDecided`   `Promise.all` of these is decided;
* `settled_of_all`   if none of them has rejected, they all have settled then.
-/

namespace Lib
namespace Promises
variable {ι : Type*}

inductive Settlement where
  | pending
  | fulfilled
  | rejected
  deriving DecidableEq

abbrev Table (ι : Type*) := ι → Settlement

def Settled (t : Table ι) (p : ι) : Prop := t p ≠ .pending

instance (t : Table ι) (p : ι) : Decidable (Settled t p) := inferInstanceAs (Decidable (¬ _ = _))

/-- no promise that has settled changes -/
def Keeps (t t' : Table ι) : Prop := ∀ p, Settled t p → t' p = t p

theorem Keeps.settled {t t' : Table ι} (h : Keeps t t') {p : ι} (hp : Settled t p) : Settled t' p := by
  rw [Settled, h p hp]
  exact hp

section
variable [DecidableEq ι]

/-- a promise fulfils or rejects, unless it has before -/
def settle (t : Table ι) (p : ι) (fulfils : Bool) : Table ι :=
  if t p = .pending then Function.update t p (if fulfils then .fulfilled else .rejected) else t

theorem keeps_settle (t : Table ι) (p : ι) (fulfils : Bool) : Keeps t (settle t p fulfils) := by
  intro q hq
  unfold settle
  split
  · next hp =>
    have hne : q ≠ p := by
      rintro rfl
      exact hq hp
    rw [Function.update_of_ne hne]
  · rfl

end

/-- `Promise.all` of these has rejected, or can fulfil -/
def AllDecided (t : Table ι) (ps : List ι) : Prop :=
  (∀ p ∈ ps, t p = .fulfilled) ∨ ∃ p ∈ ps, t p = .rejected

instance (t : Table ι) (ps : List ι) : Decidable (AllDecided t ps) :=
  inferInstanceAs (Decidable (_ ∨ _))

theorem settled_of_all {t : Table ι} {ps : List ι} (h : AllDecided t ps)
    (hno : ∀ p ∈ ps, t p ≠ .rejected) : ∀ p ∈ ps, Settled t p := by
  intro p hp
  rcases h with hall | ⟨q, hq, hr⟩
  · rw [Settled, hall p hp]
    decide
  · exact absurd hr (hno q hq)

end Promises
end Lib
