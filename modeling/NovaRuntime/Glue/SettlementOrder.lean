import NovaRuntime.Glue.Settlements

/-!
# A dispatch that settled has had its reaction

When a drain ends in Ok and the promise of its dispatch has settled, the reaction has run exactly
once: it responded, and the slot holds its payload, or it threw, and the slot is empty.

* `Stage`   how far the promise of the dispatch in flight is;
* `Sound`   the invariant of a view, kept by each of its moves.
-/

namespace NovaRuntime
open Lib

variable {S : Type}

def SettleNote.about : SettleNote S → Option Int
  | .finished n _ | .responded n _ | .silent n => some n
  | .drained _ => none

def notes (n : Int) (log : List (SettleNote S)) : List (SettleNote S) :=
  log.filter fun e => e.about = some n

/-- what the reaction of dispatch `n` leaves in the log -/
def reactionNote (n : Int) : Option Text → SettleNote S
  | some payload => .responded n payload
  | none => .silent n

/-- the reactions of dispatch `n` -/
def ownReactions (n : Int) (reactions : List (Int × Kind × S)) : List (Int × Kind × S) :=
  reactions.filter fun r => r.1 = n

theorem ownReactions_cons_self (n : Int) (kind : Kind) (s : S) (rs : List (Int × Kind × S)) :
    ownReactions n ((n, kind, s) :: rs) = (n, kind, s) :: ownReactions n rs := by
  simp [ownReactions]

theorem ownReactions_cons_other {m n : Int} (h : m ≠ n) (kind : Kind) (s : S)
    (rs : List (Int × Kind × S)) : ownReactions n ((m, kind, s) :: rs) = ownReactions n rs := by
  simp [ownReactions, h]

section
variable {n : Int} {e : SettleNote S} {log : List (SettleNote S)}

theorem notes_cons_self (he : e.about = some n) : notes n (e :: log) = e :: notes n log := by
  simp [notes, he]

theorem notes_cons_other (he : e.about ≠ some n) : notes n (e :: log) = notes n log := by
  simp [notes, he]

theorem mem_notes (he : e.about = some n) : e ∈ notes n log ↔ e ∈ log := by
  simp [notes, he]

end

/-- Dispatch numbers that JavaScript holds exactly keep responses apart. -/
theorem answers_iff {n m : Int} (hn : 1 ≤ n) (hnm : n ≤ m) (hm : m < 2 ^ 53) :
    answers n m = true ↔ n = m := by
  have hround : roundF64 (n : ℚ) = .fin n := by
    rw [roundF64, if_pos]
    refine ⟨Rat.den_intCast n, ?_⟩
    rw [Rat.num_intCast]
    omega
  have hint : (F64.fin (n : ℚ)).intoI64 = n := by
    have htrunc : F64.trunc (n : ℚ) = n := by
      rw [F64.trunc, if_pos (by exact_mod_cast le_trans zero_le_one hn)]
      exact Rat.floor_intCast n
    rw [F64.intoI64, htrunc]
    omega
  rw [answers, hround, hint, decide_eq_true_eq]

namespace SettleView

/-- the reactions of the dispatch in flight -/
def own (v : SettleView S) : List (Int × Kind × S) := ownReactions v.dispatches v.reactions

/-- how far the promise of the dispatch in flight is -/
inductive Stage (wire : Kind → S → Option Text) (v : SettleView S) : Prop
  | waiting (hr : v.own.Perm []) (hlog : notes v.dispatches v.log = []) (ho : v.outcome = none)
  | queued (s) (hrun : ∀ p ∈ v.running, p.1 ≠ v.dispatches)
      (hr : v.own.Perm [(v.dispatches, v.kind, s)])
      (hlog : notes v.dispatches v.log = [.finished v.dispatches s]) (ho : v.outcome = none)
  | reacted (s) (hrun : ∀ p ∈ v.running, p.1 ≠ v.dispatches) (hr : v.own.Perm [])
      (hlog : notes v.dispatches v.log =
        [reactionNote v.dispatches (wire v.kind s), .finished v.dispatches s])
      (ho : v.outcome = (wire v.kind s).map decodeLossy)

/-- a move about another dispatch leaves the stage as it was -/
theorem Stage.frame {wire : Kind → S → Option Text} {v v' : SettleView S} (h : Stage wire v)
    (hd : v'.dispatches = v.dispatches) (hk : v'.kind = v.kind) (ho : v'.outcome = v.outcome)
    (hrun : v'.running ⊆ v.running) (hr : v'.own.Perm v.own)
    (hlog : notes v.dispatches v'.log = notes v.dispatches v.log) : Stage wire v' := by
  cases h with
  | waiting hr' hlog' ho' =>
    exact .waiting (hr.trans hr') (by rw [hd, hlog, hlog']) (ho.trans ho')
  | queued s hrun' hr' hlog' ho' =>
    refine .queued s (fun p hp => ?_) ?_ (by rw [hd, hlog, hlog']) (ho.trans ho')
    · rw [hd]
      exact hrun' p (hrun hp)
    · rw [hd, hk]
      exact hr.trans hr'
  | reacted s hrun' hr' hlog' ho' =>
    refine .reacted s (fun p hp => ?_) (hr.trans hr') ?_ ?_
    · rw [hd]
      exact hrun' p (hrun hp)
    · rw [hd, hk, hlog, hlog']
    · rw [ho, hk, ho']

theorem not_running_erase {running : List (Int × Kind)} {n : Int} {kind : Kind}
    (honce : (running.map Prod.fst).Nodup) (hn : (n, kind) ∈ running) :
    ∀ p ∈ running.erase (n, kind), p.1 ≠ n := by
  have hperm := (List.perm_cons_erase hn).map Prod.fst
  have hnd := hperm.nodup_iff.mp honce
  intro p hp heq
  exact (List.nodup_cons.mp hnd).1 (List.mem_map.mpr ⟨p, hp, heq⟩)

structure Sound (wire : Kind → S → Option Text) (v : SettleView S) : Prop where
  nonneg : 0 ≤ v.dispatches
  run : ∀ p ∈ v.running, 1 ≤ p.1 ∧ p.1 ≤ v.dispatches
  once : (v.running.map Prod.fst).Nodup
  own : ∀ p ∈ v.running, p.1 = v.dispatches → p.2 = v.kind
  known : ∀ r ∈ v.reactions, 1 ≤ r.1 ∧ r.1 ≤ v.dispatches
  logged : ∀ e ∈ v.log, ∀ n, e.about = some n → n ≤ v.dispatches
  stage : v.live = true → v.dispatches < 2 ^ 53 → Stage wire v

namespace Sound
variable {wire : Kind → S → Option Text} {v : SettleView S}

theorem logged_cons (h : Sound wire v) {e : SettleNote S}
    (he : ∀ n, e.about = some n → n ≤ v.dispatches) :
    ∀ e' ∈ e :: v.log, ∀ n, e'.about = some n → n ≤ v.dispatches := by
  intro e' he' n hn
  rcases List.mem_cons.mp he' with rfl | he'
  · exact he n hn
  · exact h.logged e' he' n hn

theorem idle (h : Sound wire v) {reactions : List (Int × Kind × S)}
    (hp : reactions.Perm v.reactions) : Sound wire { v with reactions := reactions } where
  nonneg := h.nonneg
  run := h.run
  once := h.once
  own := h.own
  known := fun r hr => h.known r (hp.mem_iff.mp hr)
  logged := h.logged
  stage := fun hl hn =>
    (h.stage hl hn).frame rfl rfl rfl (List.Subset.refl _) (hp.filter _) rfl

theorem dispatch (h : Sound wire v) (kind : Kind) : Sound wire { v with
    dispatches := v.dispatches + 1
    kind := kind
    outcome := none
    live := true
    running := (v.dispatches + 1, kind) :: v.running } where
  nonneg := by
    have hn := h.nonneg
    show (0 : Int) ≤ v.dispatches + 1
    omega
  run := by
    intro p hp
    have hn := h.nonneg
    rcases List.mem_cons.mp hp with rfl | hp
    · exact ⟨show (1 : Int) ≤ v.dispatches + 1 by omega, le_refl _⟩
    · obtain ⟨h1, h2⟩ := h.run p hp
      exact ⟨h1, show p.1 ≤ v.dispatches + 1 by omega⟩
  once := by
    refine List.nodup_cons.mpr ⟨fun hmem => ?_, h.once⟩
    obtain ⟨p, hp, heq⟩ := List.mem_map.mp hmem
    have hle := (h.run p hp).2
    omega
  own := by
    intro p hp heq
    rcases List.mem_cons.mp hp with rfl | hp
    · rfl
    · have hle := (h.run p hp).2
      have heq : p.1 = v.dispatches + 1 := heq
      omega
  known := by
    intro r hr
    obtain ⟨h1, h2⟩ := h.known r hr
    exact ⟨h1, show r.1 ≤ v.dispatches + 1 by omega⟩
  logged := by
    intro e he n hn
    have hle := h.logged e he n hn
    show n ≤ v.dispatches + 1
    omega
  stage := by
    intro _ _
    refine .waiting (List.Perm.of_eq (List.filter_eq_nil_iff.mpr fun r hr heq => ?_)) ?_ rfl
    · have hle := (h.known r hr).2
      have heq : r.1 = v.dispatches + 1 := of_decide_eq_true heq
      omega
    · refine List.filter_eq_nil_iff.mpr fun e he habout => ?_
      have hle := h.logged e he _ (of_decide_eq_true habout)
      exact absurd hle (by show ¬ v.dispatches + 1 ≤ v.dispatches; omega)

theorem finish (h : Sound wire v) {n : Int} {kind : Kind} {s : S}
    {reactions : List (Int × Kind × S)} (hn : (n, kind) ∈ v.running)
    (hp : reactions.Perm ((n, kind, s) :: v.reactions)) : Sound wire { v with
      running := v.running.erase (n, kind)
      reactions := reactions
      log := .finished n s :: v.log } where
  nonneg := h.nonneg
  run := fun p hp => h.run p (List.mem_of_mem_erase hp)
  once := h.once.sublist ((List.erase_sublist).map _)
  own := fun p hp => h.own p (List.mem_of_mem_erase hp)
  known := by
    intro r hr
    rcases List.mem_cons.mp (hp.mem_iff.mp hr) with rfl | hr
    · exact h.run _ hn
    · exact h.known r hr
  logged := h.logged_cons fun m hm => by
    cases hm
    exact (h.run _ hn).2
  stage := by
    intro hl hlt
    by_cases hnd : n = v.dispatches
    · obtain rfl : kind = v.kind := h.own _ hn hnd
      have hrun : ∃ p ∈ v.running, p.1 = v.dispatches := ⟨_, hn, hnd⟩
      cases h.stage hl hlt with
      | waiting hr hlog ho =>
        refine .queued s (fun p hp => ?_) ?_ ?_ ho
        · exact hnd ▸ not_running_erase h.once hn p hp
        · subst hnd
          refine (hp.filter _).trans ?_
          exact List.Perm.trans (List.Perm.of_eq (ownReactions_cons_self ..)) (hr.cons _)
        · subst hnd
          exact (notes_cons_self rfl).trans (congrArg _ hlog)
      | queued s hrun' | reacted s hrun' =>
        obtain ⟨p, hp, heq⟩ := hrun
        exact absurd heq (hrun' p hp)
    · refine (h.stage hl hlt).frame rfl rfl rfl List.erase_subset ?_ ?_
      · exact (hp.filter _).trans (List.Perm.of_eq (ownReactions_cons_other hnd ..))
      · exact notes_cons_other (by simpa [SettleNote.about] using hnd)

/-- a reaction ran: it wrote `note`, and the slot if that is a response for the dispatch in flight -/
theorem react (h : Sound wire v) {n : Int} {kind : Kind} {s : S}
    {reactions : List (Int × Kind × S)} (outcome : Option Text)
    (hp : ((n, kind, s) :: reactions).Perm v.reactions)
    (ho : v.dispatches < 2 ^ 53 → (n = v.dispatches → v.outcome = none) → outcome =
      if n = v.dispatches then (wire kind s).map decodeLossy else v.outcome) :
    Sound wire { v with
      outcome := outcome
      reactions := reactions
      log := reactionNote n (wire kind s) :: v.log } := by
  have hknown := h.known _ (hp.mem_iff.mp List.mem_cons_self)
  have habout : (reactionNote n (wire kind s) : SettleNote S).about = some n := by
    cases wire kind s <;> rfl
  exact {
    nonneg := h.nonneg
    run := h.run
    once := h.once
    own := h.own
    known := fun r hr => h.known r (hp.mem_iff.mp (List.mem_cons_of_mem _ hr))
    logged := h.logged_cons fun m hm => by
      rw [habout, Option.some.injEq] at hm
      exact hm ▸ hknown.2
    stage := by
      intro hl hlt
      by_cases hnd : n = v.dispatches
      · subst hnd
        have hperm : (ownReactions v.dispatches ((v.dispatches, kind, s) :: reactions)).Perm v.own :=
          hp.filter _
        rw [ownReactions_cons_self] at hperm
        cases h.stage hl hlt with
        | waiting hr hlog hout | reacted s' hrun hr hlog hout =>
          exact absurd (hperm.trans hr).length_eq (by simp)
        | queued s' hrun hr hlog hout =>
          have hsing := List.perm_singleton.mp (hperm.trans hr)
          simp only [List.cons.injEq, Prod.mk.injEq, true_and] at hsing
          obtain ⟨⟨rfl, rfl⟩, hnil⟩ := hsing
          refine .reacted s hrun (List.Perm.of_eq hnil) ?_ ?_
          · exact (notes_cons_self habout).trans (congrArg _ hlog)
          · exact (ho hlt fun _ => hout).trans (if_pos rfl)
      · refine (h.stage hl hlt).frame rfl rfl ?_ (List.Subset.refl _) ?_ ?_
        · exact (ho hlt fun heq => absurd heq hnd).trans (if_neg hnd)
        · exact (List.Perm.of_eq (ownReactions_cons_other hnd ..).symm).trans (hp.filter _)
        · refine notes_cons_other ?_
          rw [habout]
          simpa using hnd }

theorem drained (h : Sound wire v) : Sound wire { v with log := .drained (.ok ()) :: v.log } where
  nonneg := h.nonneg
  run := h.run
  once := h.once
  own := h.own
  known := h.known
  logged := h.logged_cons (by simp [SettleNote.about])
  stage := fun hl hn => (h.stage hl hn).frame rfl rfl rfl (List.Subset.refl _) (List.Perm.refl _)
    (notes_cons_other (by simp [SettleNote.about]))

theorem ends (h : Sound wire v) {outcome : Option Text} {reactions : List (Int × Kind × S)}
    {log : List (SettleNote S)} (hr : reactions ⊆ v.reactions)
    (hlog : log = v.log ∨ ∃ r, log = .drained r :: v.log) : Sound wire { v with
      outcome := outcome, live := false, reactions := reactions, log := log } where
  nonneg := h.nonneg
  run := h.run
  once := h.once
  own := h.own
  known := fun r hm => h.known r (hr hm)
  logged := by
    rcases hlog with rfl | ⟨r, rfl⟩
    · exact h.logged
    · exact h.logged_cons (by simp [SettleNote.about])
  stage := by simp

theorem move {v' : SettleView S} (h : Sound wire v) (hm : Moves wire v v') : Sound wire v' := by
  cases hm with
  | idle reactions hp => exact h.idle hp
  | dispatch kind => exact h.dispatch kind
  | finish n kind s reactions hn hp => exact h.finish hn hp
  | silent n kind s reactions hp hs =>
    have hreact := h.react v.outcome hp fun hlt hempty => ?_
    · rwa [hs] at hreact
    · rw [hs]
      split
      · next heq => exact hempty heq
      · rfl
  | respond n kind s payload reactions hp hs =>
    have hreact := h.react (if answers n v.dispatches then some (decodeLossy payload)
      else v.outcome) hp fun hlt _ => ?_
    · rwa [hs] at hreact
    · have hknown := h.known _ (hp.mem_iff.mp List.mem_cons_self)
      simp only [answers_iff hknown.1 hknown.2 hlt, hs, Option.map_some]
  | drained => exact h.drained
  | ends outcome reactions log hr hlog => exact h.ends hr hlog

end Sound
end SettleView

namespace Runtime
variable {crates : Crates} {wire : Kind → S → Option Text} {f : Runtime S}

theorem build_settles (ops : Bool) (ms now : Nat) :
    (build ops ms now : Runtime S).settleView.Sound wire where
  nonneg := le_refl _
  run := by simp [settleView, build, Glue.default]
  once := List.nodup_nil
  own := by simp [settleView, build, Glue.default]
  known := by simp [settleView, reactions, build, Glue.default, Worker.build]
  logged := by simp [settleView, build, Glue.default]
  stage := fun _ _ => .waiting (List.Perm.refl _) rfl rfl

theorem Reached.settles (h : Reached crates wire f) :
    f.settleView.Sound wire ∧ Worker.Drained f.worker ∧ Calm f := by
  have hinv : f.settleView.Sound wire ∧ Worker.Coherent f.worker ∧ Worker.Drained f.worker ∧
      Calm f :=
    h.inv (P := fun f => f.settleView.Sound wire ∧ Worker.Coherent f.worker ∧
        Worker.Drained f.worker ∧ Calm f)
      (fun ops ms now => ⟨build_settles ops ms now, Worker.Coherent.build ops ms now, trivial,
        Calm.build ops ms now⟩)
      (fun _ _ _ hf h => ⟨hf.1.move (step_settles hf.2.1 h), step_coherent hf.2.1 h,
        step_drained hf.2.2.1 h, hf.2.2.2.step h⟩)
  exact ⟨hinv.1, hinv.2.2⟩

/-- When a drain has ended in Ok and the promise of its dispatch settled, the reaction ran once:
it responded and the slot holds its payload, or it threw and the slot is empty. -/
theorem reaction_of_settled {s : S} (h : Reached crates wire f)
    (hn : f.worker.dispatches < 2 ^ 53) (hpc : f.worker.pc = .ended (.ok ()))
    (hs : .finished f.worker.dispatches s ∈ f.glue.settleLog) :
    notes f.worker.dispatches f.glue.settleLog =
        [reactionNote f.worker.dispatches (wire f.worker.kind s),
          .finished f.worker.dispatches s] ∧
      f.worker.slots.outcome = (wire f.worker.kind s).map decodeLossy := by
  obtain ⟨hsound, hdrained, hcalm⟩ := h.settles
  have hjobs : f.worker.jobs = [] := by
    rw [Worker.Drained, hpc] at hdrained
    exact hdrained.1
  have hframes : f.glue.frames = [] := hcalm (by simp [hpc])
  have hmem : _ ∈ notes f.worker.dispatches f.glue.settleLog := (mem_notes rfl).mpr hs
  have hlive : f.settleView.live = true := by simp [Runtime.settleView, hpc, Pc.live]
  cases hsound.stage hlive hn with
  | waiting hr hlog ho =>
    have hlog : notes f.worker.dispatches f.glue.settleLog = [] := hlog
    rw [hlog] at hmem
    cases hmem
  | queued s' hrun hr hlog ho =>
    have hnil : f.settleView.own = [] := by
      simp [SettleView.own, ownReactions, settleView, reactions, hjobs, hframes]
    rw [hnil] at hr
    exact absurd hr.length_eq (by simp)
  | reacted s' hrun hr hlog ho =>
    have hlog : notes f.worker.dispatches f.glue.settleLog = [reactionNote f.worker.dispatches
      (wire f.worker.kind s'), .finished f.worker.dispatches s'] := hlog
    rw [hlog] at hmem
    have heq : s = s' := by
      cases hw : wire f.worker.kind s' <;> simpa [hw, reactionNote] using hmem
    exact ⟨heq ▸ hlog, heq ▸ ho⟩

end Runtime

end NovaRuntime
