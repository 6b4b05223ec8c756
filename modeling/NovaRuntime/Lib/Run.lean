import Mathlib.Data.List.Induction

/-!
# Runs of a partial step machine

A machine is a partial step function `step : σ → ε → Option σ`: `step s e = none` when the event
`e` cannot happen in the state `s`.  A run is a list of events; everything here is about the state
a run ends in.

* `run`             the state after a list of events;
* `Meets G`         every step of the run is taken in a state that `G` allows;
* `run_log`, `run_split_log`   a machine that logs its steps;
* `run_inv`, `run_inv_of_meets`   an invariant kept by each (allowed) step holds after a run;
* `meets_of_meets`, `meets_of_inv`    an invariant carries what is allowed over a run;
* `Always P`        `P` holds in every state of the run;
* `always_iff_meets`   if a step keeps `P` exactly when `G` allows it, a run always has `P` exactly
                    when all its steps are allowed;
* `run_iff_meets`   if each step keeps a property exactly when `G` allows it, a run keeps it
                    exactly when all its steps are allowed;
* `Logged P`       `P` holds of every entry of a log and the entries before it;
* `run_refine`      a step-by-step simulation carries a run of one machine over to another.
-/

namespace Lib
variable {σ τ ε δ : Type*}

/-- the state after the events of a run, if the machine can take them all -/
def run (step : σ → ε → Option σ) : σ → List ε → Option σ
  | s, [] => some s
  | s, e :: es => (step s e).bind fun s' => run step s' es

/-- every event of the run happens in a state that `G` allows it in -/
def Meets (step : σ → ε → Option σ) (G : σ → ε → Prop) : σ → List ε → Prop
  | _, [] => True
  | s, e :: es => G s e ∧ ∀ s', step s e = some s' → Meets step G s' es

/-- `P` holds in every state of the run -/
def Always (step : σ → ε → Option σ) (P : σ → Prop) : σ → List ε → Prop
  | s, [] => P s
  | s, e :: es => P s ∧ ∀ s', step s e = some s' → Always step P s' es

instance Meets.decidable (step : σ → ε → Option σ) (G : σ → ε → Prop) [∀ s e, Decidable (G s e)] :
    (s : σ) → (es : List ε) → Decidable (Meets step G s es)
  | _, [] => inferInstanceAs (Decidable True)
  | s, e :: es =>
    match h : step s e with
    | none => decidable_of_iff (G s e) (by simp [Meets, h])
    | some s' =>
      have := Meets.decidable step G s' es
      decidable_of_iff (G s e ∧ Meets step G s' es) (by simp [Meets, h])

/-- `P` holds of every entry of a log, which is newest first, and the entries before it -/
def Logged (P : ε → List ε → Prop) : List ε → Prop
  | [] => True
  | e :: log => P e log ∧ Logged P log

theorem Logged.split {P : ε → List ε → Prop} {late earlier : List ε} {e : ε}
    (h : Logged P (late ++ e :: earlier)) : P e earlier := by
  induction late with
  | nil => exact h.1
  | cons _ late ih => exact ih h.2

section
variable (step : σ → ε → Option σ)

theorem run_nil (s : σ) : run step s [] = some s := rfl

theorem run_cons (s : σ) (e : ε) (es : List ε) :
    run step s (e :: es) = (step s e).bind fun s' => run step s' es := rfl

theorem run_one {s t : σ} {e : ε} (h : step s e = some t) : run step s [e] = some t := by
  rw [run_cons, h]
  rfl

theorem run_cons_some {s t : σ} {e : ε} {es : List ε} (h : run step s (e :: es) = some t) :
    ∃ s', step s e = some s' ∧ run step s' es = some t := by
  rw [run_cons] at h
  exact Option.bind_eq_some_iff.mp h

theorem run_append (s : σ) (a b : List ε) :
    run step s (a ++ b) = (run step s a).bind fun s' => run step s' b := by
  induction a generalizing s with
  | nil => rfl
  | cons e es ih =>
    rw [List.cons_append, run_cons, run_cons, Option.bind_assoc]
    congr 1
    funext s'
    exact ih s'

theorem run_snoc (s : σ) (es : List ε) (e : ε) :
    run step s (es ++ [e]) = (run step s es).bind fun s' => step s' e := by
  rw [run_append]
  congr 1
  funext s'
  rw [run_cons]
  cases step s' e <;> rfl

theorem run_snoc_some {s t : σ} {es : List ε} {e : ε} (h : run step s (es ++ [e]) = some t) :
    ∃ m, run step s es = some m ∧ step m e = some t := by
  rw [run_snoc] at h
  exact Option.bind_eq_some_iff.mp h

theorem meets_of_forall {G : σ → ε → Prop} (hg : ∀ s e, G s e) (s : σ) (es : List ε) :
    Meets step G s es := by
  induction es generalizing s with
  | nil => trivial
  | cons e es ih => exact ⟨hg s e, fun s' _ => ih s'⟩

theorem meets_append (G : σ → ε → Prop) (s : σ) (a b : List ε) :
    Meets step G s (a ++ b) ↔
      Meets step G s a ∧ ∀ s', run step s a = some s' → Meets step G s' b := by
  induction a generalizing s with
  | nil => simp [Meets, run_nil]
  | cons e es ih =>
    simp only [List.cons_append, Meets, run_cons, ih, and_assoc, Option.bind_eq_some_iff]
    constructor
    · rintro ⟨hg, h⟩
      exact ⟨hg, fun s' hs => (h s' hs).1, fun s'' ⟨s', hs, hr⟩ => (h s' hs).2 s'' hr⟩
    · rintro ⟨hg, h1, h2⟩
      exact ⟨hg, fun s' hs => ⟨h1 s' hs, fun s'' hr => h2 s'' ⟨s', hs, hr⟩⟩⟩

theorem meets_snoc (G : σ → ε → Prop) {s m : σ} {es : List ε} (e : ε)
    (h : run step s es = some m) :
    Meets step G s (es ++ [e]) ↔ Meets step G s es ∧ G m e := by
  rw [meets_append]
  refine and_congr_right fun _ => ⟨fun hb => (hb m h).1, fun hg s' hs => ?_⟩
  rw [h, Option.some.injEq] at hs
  subst hs
  exact ⟨hg, fun _ _ => trivial⟩

/-- If an invariant of the steps that `G` allows makes each of them one that `G'` allows, a run of
the first is one of the second. -/
theorem meets_of_meets {G G' : σ → ε → Prop} {I : σ → Prop}
    (hstep : ∀ s e s', I s → G s e → step s e = some s' → I s')
    (hallow : ∀ s e, I s → G s e → G' s e) {s : σ} {es : List ε} (hs : I s)
    (h : Meets step G s es) : Meets step G' s es := by
  induction es generalizing s with
  | nil => trivial
  | cons e es ih =>
    exact ⟨hallow s e hs h.1, fun s' hs' => ih (hstep s e s' hs h.1 hs') (h.2 s' hs')⟩

theorem meets_of_inv {G G' : σ → ε → Prop} {I : σ → Prop}
    (hstep : ∀ s e s', I s → step s e = some s' → I s')
    (hallow : ∀ s e, I s → G s e → G' s e) {s : σ} {es : List ε} (hs : I s)
    (h : Meets step G s es) : Meets step G' s es :=
  meets_of_meets step (fun s e s' hi _ hs => hstep s e s' hi hs) hallow hs h

theorem meets_congr {G G' : σ → ε → Prop} (hg : ∀ s e, G s e ↔ G' s e) (s : σ) (es : List ε) :
    Meets step G s es ↔ Meets step G' s es :=
  ⟨meets_of_inv step (I := fun _ => True) (fun _ _ _ _ _ => trivial) (fun s e _ => (hg s e).mp)
      trivial,
    meets_of_inv step (I := fun _ => True) (fun _ _ _ _ _ => trivial) (fun s e _ => (hg s e).mpr)
      trivial⟩

/-- A run of a machine whose steps log one entry each only adds to the log. -/
theorem run_log {log : σ → List δ}
    (hlog : ∀ s e s', step s e = some s' → ∃ x, log s' = x :: log s) {s t : σ} {es : List ε}
    (h : run step s es = some t) : ∃ late, log t = late ++ log s := by
  induction es generalizing s with
  | nil =>
    rw [run_nil, Option.some.injEq] at h
    exact ⟨[], h ▸ rfl⟩
  | cons e es ih =>
    obtain ⟨s', h1, h2⟩ := run_cons_some step h
    obtain ⟨x, hx⟩ := hlog s e s' h1
    obtain ⟨late, hlate⟩ := ih h2
    exact ⟨late ++ [x], by rw [hlate, hx, List.append_assoc]; rfl⟩

/-- Such a run, from the empty log, passes through every part of its log. -/
theorem run_split_log {log : σ → List δ}
    (hlog : ∀ s e s', step s e = some s' → ∃ x, log s' = x :: log s) {s t : σ} {es : List ε}
    {late earlier : List δ} (hs : log s = []) (h : run step s es = some t)
    (ht : log t = late ++ earlier) :
    ∃ es₁ es₂ m, run step s es₁ = some m ∧ log m = earlier ∧ run step m es₂ = some t := by
  induction es using List.reverseRecOn generalizing t late with
  | nil =>
    obtain rfl : s = t := by rwa [run_nil, Option.some.injEq] at h
    rw [hs] at ht
    exact ⟨[], [], s, rfl, hs.trans (List.append_eq_nil_iff.mp ht.symm).2.symm, rfl⟩
  | append_singleton es e ih =>
    cases late with
    | nil => exact ⟨es ++ [e], [], t, h, ht, rfl⟩
    | cons y late =>
      obtain ⟨m, h1, h2⟩ := run_snoc_some step h
      obtain ⟨x, hx⟩ := hlog m e t h2
      rw [hx, List.cons_append, List.cons.injEq] at ht
      obtain ⟨es₁, es₂, k, hk, hlk, hkm⟩ := ih h1 ht.2
      refine ⟨es₁, es₂ ++ [e], k, hk, hlk, ?_⟩
      rw [run_snoc, hkm]
      exact h2

/-- an invariant kept by every allowed step holds after every run of allowed steps -/
theorem run_inv_of_meets {G : σ → ε → Prop} {P : σ → Prop}
    (hstep : ∀ s e s', P s → G s e → step s e = some s' → P s')
    {s t : σ} {es : List ε} (hs : P s) (hg : Meets step G s es) (h : run step s es = some t) :
    P t := by
  induction es generalizing s with
  | nil =>
    rw [run_nil, Option.some.injEq] at h
    exact h ▸ hs
  | cons e es ih =>
    obtain ⟨s', h1, h2⟩ := run_cons_some step h
    exact ih (hstep s e s' hs hg.1 h1) (hg.2 s' h1) h2

/-- an invariant kept by every step holds after every run -/
theorem run_inv {P : σ → Prop} (hstep : ∀ s e s', P s → step s e = some s' → P s')
    {s t : σ} {es : List ε} (hs : P s) (h : run step s es = some t) : P t := by
  induction es generalizing s with
  | nil =>
    rw [run_nil, Option.some.injEq] at h
    exact h ▸ hs
  | cons e es ih =>
    obtain ⟨s', h1, h2⟩ := run_cons_some step h
    exact ih (hstep s e s' hs h1) h2

/-- Each step of a kind is paid for out of what the state holds; a step of another kind may bring
in `price`. -/
theorem run_pays {I : σ → Prop} {G : ε → Prop} {rank : σ → Nat} {pays earns : ε → Bool} {price : Nat}
    (hI : ∀ s e s', I s → G e → step s e = some s' → I s')
    (hrank : ∀ s e s', I s → G e → step s e = some s' →
      (if pays e then 1 else 0) + rank s' ≤ rank s + if earns e then price else 0)
    {s t : σ} {es : List ε} (hs : I s) (hg : ∀ e ∈ es, G e) (h : run step s es = some t) :
    I t ∧ es.countP pays + rank t ≤ rank s + price * es.countP earns := by
  induction es generalizing s with
  | nil =>
    rw [run_nil, Option.some.injEq] at h
    subst h
    refine ⟨hs, Nat.le_of_eq ?_⟩
    rw [List.countP_nil, List.countP_nil, Nat.mul_zero, Nat.zero_add, Nat.add_zero]
  | cons e es ih =>
    obtain ⟨s', h1, h2⟩ := run_cons_some step h
    have he := hg e List.mem_cons_self
    have hstep := hrank s e s' hs he h1
    obtain ⟨ht, hrest⟩ := ih (hI s e s' hs he h1) (fun x hx => hg x (List.mem_cons_of_mem e hx)) h2
    have hprice : price * (es.countP earns + if earns e then 1 else 0) =
        price * es.countP earns + if earns e then price else 0 := by
      rw [Nat.mul_add]
      split <;> omega
    refine ⟨ht, ?_⟩
    rw [List.countP_cons, List.countP_cons, hprice]
    omega

/-- If a step from a state with `P` leads to a state with `P` exactly when `G` allows it, a run
always has `P` exactly when all its steps are allowed. -/
theorem always_iff_meets {G : σ → ε → Prop} {I P : σ → Prop}
    (hI : ∀ s e s', I s → P s → step s e = some s' → I s')
    (hP : ∀ s e s', I s → P s → step s e = some s' → (P s' ↔ G s e))
    {s t : σ} {es : List ε} (hs : I s) (hp : P s) (h : run step s es = some t) :
    Always step P s es ↔ Meets step G s es := by
  induction es generalizing s with
  | nil => exact iff_of_true hp trivial
  | cons e es ih =>
    obtain ⟨s', h1, h2⟩ := run_cons_some step h
    have hstep := hP s e s' hs hp h1
    constructor
    · rintro ⟨-, hall⟩
      have htail := hall s' h1
      have hp' : P s' := by cases es <;> first | exact htail | exact htail.1
      refine ⟨hstep.mp hp', fun s'' h1' => ?_⟩
      rw [h1, Option.some.injEq] at h1'
      subst h1'
      exact (ih (hI s e s' hs hp h1) hp' h2).mp htail
    · rintro ⟨hg, hall⟩
      have hp' : P s' := hstep.mpr hg
      refine ⟨hp, fun s'' h1' => ?_⟩
      rw [h1, Option.some.injEq] at h1'
      subst h1'
      exact (ih (hI s e s' hs hp h1) hp' h2).mpr (hall s' h1)

/-- A property that each step keeps exactly when `G` allows the step is kept by a run exactly
when all its steps are allowed.  `A` restricts the runs looked at, `I` is the invariant the
equivalence of one step needs. -/
theorem run_iff_meets {A G : σ → ε → Prop} {I Q : σ → Prop}
    (hI : ∀ s e s', I s → A s e → step s e = some s' → I s')
    (hQ : ∀ s e s', I s → A s e → step s e = some s' → (Q s' ↔ Q s ∧ G s e))
    {s t : σ} {es : List ε} (hs : I s) (hq : Q s) (ha : Meets step A s es)
    (h : run step s es = some t) : Q t ↔ Meets step G s es := by
  suffices hall : I t ∧ (Q t ↔ Meets step G s es) from hall.2
  induction es using List.reverseRecOn generalizing t with
  | nil =>
    rw [run_nil, Option.some.injEq] at h
    subst h
    exact ⟨hs, iff_of_true hq trivial⟩
  | append_singleton es e ih =>
    obtain ⟨m, h1, h2⟩ := run_snoc_some step h
    rw [meets_snoc step A e h1] at ha
    obtain ⟨him, hqm⟩ := ih ha.1 h1
    refine ⟨hI m e t him ha.2 h2, ?_⟩
    rw [hQ m e t him ha.2 h2, hqm, meets_snoc step G e h1]

end

/-- A step of one machine that is a run of another (on the image of the state) makes every run
of the first a run of the second. -/
theorem run_refine {step : σ → ε → Option σ} {step' : τ → δ → Option τ} (f : σ → τ)
    (hstep : ∀ s e s', step s e = some s' → ∃ ds, run step' (f s) ds = some (f s'))
    {s t : σ} {es : List ε} (h : run step s es = some t) :
    ∃ ds, run step' (f s) ds = some (f t) := by
  induction es generalizing s with
  | nil =>
    rw [run_nil, Option.some.injEq] at h
    exact ⟨[], h ▸ rfl⟩
  | cons e es ih =>
    obtain ⟨s', h1, h2⟩ := run_cons_some step h
    obtain ⟨ds, hds⟩ := hstep s e s' h1
    obtain ⟨ds', hds'⟩ := ih h2
    refine ⟨ds ++ ds', ?_⟩
    rw [run_append, hds]
    exact hds'

end Lib
