import NovaRuntime.Glue.Calls

/-!
# A binding call is settled once, by its own answer

When a drain ends in Ok, every call it did not give up on has the history `OwnSettlement` exactly
when `JSON.parse` reads what it was answered with.

* `poll_read`   which answers it reads: all but rows that the database hands over as a text;
* `Sound`       the invariant of a call view, kept by each of its moves.
-/

namespace NovaRuntime
open Lib

/-- the history of a call whose promise was settled once, with what its own future gave or with what
its executor threw -/
inductive OwnSettlement (crates : Crates) (k : Nat) : List CallNote → Prop
  | thrown : OwnSettlement crates k [.settled k .thrown, .call k]
  | answered (future reply answer outcome) (hp : future.poll crates reply = some answer)
      (ho : answerOutcome crates answer = some outcome) :
      OwnSettlement crates k
        [.settled k outcome, .answered (.ofNat k) answer, .asked k future, .call k]

theorem OwnSettlement.settled {crates : Crates} {k : Nat} {h : List CallNote}
    (hown : OwnSettlement crates k h) : ∃ outcome, .settled k outcome ∈ h := by
  cases hown with
  | thrown => exact ⟨_, List.mem_cons_self⟩
  | answered future reply answer outcome => exact ⟨_, List.mem_cons_self⟩

/-- When a drain ends in Ok, a call made before it is settled once and by its own answer exactly
when the engine reads the answer, unless a drain before it gave up on the call. -/
def Settles (crates : Crates) : CallNote → List CallNote → Prop
  | .drained (.ok ()), earlier => ∀ k, .call k ∈ earlier → .expired (.ofNat k) ∉ earlier →
    (OwnSettlement crates k (history k earlier) ↔
      ∀ payload, .answered (.ofNat k) (.ok payload) ∈ earlier →
        (crates.engine.parse (encode payload)).isSome)
  | _, _ => True

/-- the same for every answer -/
def SettlesAll (crates : Crates) : CallNote → List CallNote → Prop
  | .drained (.ok ()), earlier => ∀ k, .call k ∈ earlier → .expired (.ofNat k) ∉ earlier →
    OwnSettlement crates k (history k earlier)
  | _, _ => True

/-! ## the answers that can be handed over -/

theorem fetchAnswer_printed {crates : Crates} {r : Except Text HttpResponse} {payload : Text}
    (h : fetchAnswer crates r = .ok payload) : ∃ j, payload = Json.print j := by
  cases r with
  | error e => cases h
  | ok response =>
    rw [fetchAnswer] at h
    cases hbody : collect response.body with
    | error e =>
      rw [hbody] at h
      cases h
    | ok body =>
      rw [hbody] at h
      exact ⟨_, (Except.ok.inj h).symm⟩

/-- But for rows that the handler gives as a text, the engine reads what serde_json printed, unless it
is nested too deep. -/
theorem poll_read {crates : Crates} {future : Answer} {reply : Option Reply} {payload : Text}
    (hf : ReadyIsError future) (hp : future.poll crates reply = some (.ok payload)) :
    (∃ rows, reply = some (.database (.rows rows))) ∨ ∃ j, payload = Json.print j ∧
      (finite j = true → within crates.engine.limit j = true →
        (crates.engine.parse (encode payload)).isSome) := by
  have hprinted : ∀ {text : Text} (j : Json), Json.print j = text → ∃ j, text = Json.print j ∧
      (finite j = true → within crates.engine.limit j = true →
        (crates.engine.parse (encode text)).isSome) := by
    rintro _ j rfl
    refine ⟨j, rfl, fun hj hl => ?_⟩
    rw [crates.engine.reads j hj hl]
    rfl
  unfold Answer.poll at hp
  split at hp
  · obtain ⟨e, he⟩ := hf _ rfl
    rw [he] at hp
    cases hp
  · obtain ⟨j, hj⟩ := fetchAnswer_printed (Option.some.inj hp)
    exact .inr (hprinted j hj.symm)
  · obtain ⟨j, hj⟩ := fetchAnswer_printed (Option.some.inj hp)
    exact .inr (hprinted j hj.symm)
  · next r =>
    cases r with
    | rows rows => exact .inl ⟨rows, rfl⟩
    | table columns rows => exact .inr (hprinted _ (Except.ok.inj (Option.some.inj hp)))
    | error message => cases hp
  · next r =>
    cases r with
    | value value => exact .inr (hprinted _ (Except.ok.inj (Option.some.inj hp)))
    | error message => cases hp
  · cases hp

/-! ## histories -/

/-- the histories of a call that is over -/
def IsOver (crates : Crates) (k : Nat) (h : List CallNote) : Prop :=
  h = [.settled k .thrown, .call k] ∨ ∃ future reply answer, ReadyIsError future ∧
    future.poll crates reply = some answer ∧
    h = settlement crates k answer ++ [.answered (.ofNat k) answer, .asked k future, .call k]

theorem outcome_isSome {crates : Crates} {answer : Except Text Text} :
    (answerOutcome crates answer).isSome ↔
      ∀ payload, answer = .ok payload → (crates.engine.parse (encode payload)).isSome := by
  cases answer with
  | ok payload => simp [answerOutcome]
  | error message => simp [answerOutcome]

theorem IsOver.settles {crates : Crates} {k : Nat} {h : List CallNote} (hover : IsOver crates k h) :
    OwnSettlement crates k h ↔ ∀ payload, .answered (.ofNat k) (.ok payload) ∈ h →
      (crates.engine.parse (encode payload)).isSome := by
  rcases hover with rfl | ⟨future, reply, answer, hf, hp, rfl⟩
  · exact iff_of_true .thrown (by simp)
  · have hmem : ∀ payload, .answered (.ofNat k) (.ok payload) ∈ settlement crates k answer ++
        [.answered (.ofNat k) answer, .asked k future, .call k] ↔ answer = .ok payload := by
      intro payload
      unfold settlement
      split <;> simp [eq_comm]
    simp only [hmem]
    rw [← outcome_isSome]
    cases ho : answerOutcome crates answer with
    | some outcome =>
      simp only [settlement, ho, List.singleton_append]
      exact iff_of_true (.answered future reply answer outcome hp ho) rfl
    | none =>
      simp only [settlement, ho, List.nil_append]
      refine iff_of_false ?_ (by simp)
      intro hown
      cases hown

theorem about_settlement {k : Nat} {answer : Except Text Text} :
    ∀ e ∈ settlement crates k answer, e.about = some (.ofNat k) := by
  unfold settlement
  split <;> simp [CallNote.about]

theorem history_settlement_self {k : Nat} {answer : Except Text Text} (log : List CallNote) :
    history k (settlement crates k answer ++ .answered (.ofNat k) answer :: log) =
      settlement crates k answer ++ .answered (.ofNat k) answer :: history k log := by
  rw [history, List.filter_append, List.filter_eq_self.mpr fun e he =>
    decide_eq_true (about_settlement e he)]
  congr 1
  exact history_cons_self rfl

theorem history_settlement_other {j k : Nat} {answer : Except Text Text} (hjk : j ≠ k)
    (log : List CallNote) :
    history j (settlement crates k answer ++ .answered (.ofNat k) answer :: log) = history j log := by
  have hne : some (F64.ofNat k) ≠ some (F64.ofNat j) := about_ne (Ne.symm hjk)
  rw [history, List.filter_append, List.filter_eq_nil_iff.mpr fun e he => by
    rw [about_settlement e he, decide_eq_true_eq]
    exact hne]
  exact history_cons_other hne

theorem settleBinding_known {k : Nat} {table : List Nat} (log : List CallNote)
    (answer : Except Text Text) (hk : k ∈ table) :
    settleBinding crates table log (.ofNat k) answer =
      (table.filter fun j => F64.ofNat j ≠ .ofNat k,
        settlement crates k answer ++ .answered (.ofNat k) answer :: log) := by
  have hfind : (table.find? fun j => F64.ofNat j = .ofNat k) = some k := by
    cases hf : table.find? fun j => F64.ofNat j = .ofNat k with
    | none => exact absurd (decide_eq_true rfl) (List.find?_eq_none.mp hf k hk)
    | some j =>
      have hj : F64.ofNat j = .ofNat k := by simpa using List.find?_some hf
      rw [F64.ofNat_inj.mp hj]
  rw [settleBinding, hfind, settlement]
  cases answerOutcome crates answer <;> rfl

/-- `log'` is `log` with notes about the call `k`, which has a history in `log` -/
structure Grows (k : Nat) (log log' : List CallNote) : Prop where
  known : history k log ≠ []
  others : ∀ j, j ≠ k → history j log' = history j log
  kept : ∀ e ∈ log, e ∈ log'

namespace Grows
variable {j k : Nat} {log log' : List CallNote}

theorem cons {e : CallNote} (he : e.about = some (.ofNat k)) (hk : history k log ≠ []) :
    Grows k log (e :: log) where
  known := hk
  others := fun _ hj => history_cons_other (he ▸ about_ne (Ne.symm hj))
  kept := fun _ => List.mem_cons_of_mem _

theorem settled {answer : Except Text Text} (hk : history k log ≠ []) :
    Grows k log (settlement crates k answer ++ .answered (.ofNat k) answer :: log) where
  known := hk
  others := fun _ hj => history_settlement_other hj log
  kept := fun _ he => List.mem_append_right _ (List.mem_cons_of_mem _ he)

/-- a call whose history is not the one of `k` is another call, and keeps its history -/
theorem other {h : List CallNote} (hg : Grows k log log') (hj : history j log = h)
    (hne : history k log ≠ h) : j ≠ k ∧ history j log' = h := by
  have hjk : j ≠ k := by
    rintro rfl
    exact hne hj
  exact ⟨hjk, (hg.others j hjk).trans hj⟩

theorem called (hg : Grows k log log') (hjk : j ≠ k) (hj : .call j ∈ log') : .call j ∈ log := by
  have hmem := (mem_history rfl).mpr hj
  rw [hg.others j hjk] at hmem
  exact (mem_history rfl).mp hmem

end Grows

namespace CallView

structure Sound (crates : Crates) (v : CallView) : Prop where
  fresh : ∀ k, v.next ≤ k → history k v.log = []
  opened : ∀ k ∈ v.opened, k ∈ v.table ∧ history k v.log = [.call k]
  openedOnce : v.opened.Nodup
  errors : ∀ p, p ∈ v.queue ∨ v.awaited = some p → ReadyIsError p.answer
  waiting : ∀ p, p ∈ v.queue ∨ v.awaited = some p → ∃ k, p.id = .ofNat k ∧ k ∈ v.table ∧
    history k v.log = [.asked k p.answer, .call k]
  distinct : v.queue.Pairwise fun p q => p.id ≠ q.id
  apart : ∀ p, v.awaited = some p → ∀ q ∈ v.queue, q.id ≠ p.id
  stage : ∀ k, .call k ∈ v.log → k ∈ v.opened ∨
    (∃ p, (p ∈ v.queue ∨ v.awaited = some p) ∧ p.id = .ofNat k) ∨
    IsOver crates k (history k v.log) ∨ .expired (.ofNat k) ∈ v.log
  log : Logged (Settles crates) v.log

namespace Sound
variable {crates : Crates} {v : CallView} {j k : Nat} {log : List CallNote}

theorem ne_next (h : Sound crates v) (hk : history k v.log ≠ []) : k ≠ v.next := by
  rintro rfl
  exact hk (h.fresh _ le_rfl)

/-- no note about `k` makes a call that was not made -/
theorem fresh_grows (h : Sound crates v) (hg : Grows k v.log log) (hj : v.next ≤ j) :
    history j log = [] :=
  (hg.other (h.fresh j hj) hg.known).2

/-- the notes about `k` leave every other call where it was -/
theorem stage_grows (h : Sound crates v) (hg : Grows k v.log log) (hjk : j ≠ k)
    (hj : .call j ∈ log) : j ∈ v.opened ∨
      (∃ p, (p ∈ v.queue ∨ v.awaited = some p) ∧ p.id = .ofNat j) ∨
      IsOver crates j (history j log) ∨ .expired (.ofNat j) ∈ log := by
  refine (h.stage j (hg.called hjk hj)).imp id (Or.imp id (Or.imp ?_ (hg.kept _)))
  rw [hg.others j hjk]
  exact id

theorem call (h : Sound crates v) : Sound crates { v with
    table := v.table ++ [v.next]
    next := v.next + 1
    opened := v.next :: v.opened
    log := .call v.next :: v.log } := by
  have hother : ∀ k, k ≠ v.next → history k (.call v.next :: v.log) = history k v.log :=
    fun k hk => history_cons_other (about_ne (Ne.symm hk))
  exact {
    fresh := by
      intro k hk
      have hk : v.next + 1 ≤ k := hk
      exact (hother k (by omega)).trans (h.fresh k (by omega))
    opened := by
      intro k hk
      rcases List.mem_cons.mp hk with rfl | hk
      · refine ⟨by simp, ?_⟩
        rw [history_cons_self rfl, h.fresh _ le_rfl]
      · obtain ⟨htab, hhist⟩ := h.opened k hk
        refine ⟨List.mem_append_left _ htab, (hother k (h.ne_next ?_)).trans hhist⟩
        simp [hhist]
    openedOnce := by
      refine List.nodup_cons.mpr ⟨fun hmem => ?_, h.openedOnce⟩
      have hhist := (h.opened _ hmem).2
      rw [h.fresh _ le_rfl] at hhist
      cases hhist
    errors := h.errors
    waiting := by
      intro p hp
      obtain ⟨k, hid, htab, hhist⟩ := h.waiting p hp
      refine ⟨k, hid, List.mem_append_left _ htab, (hother k (h.ne_next ?_)).trans hhist⟩
      simp [hhist]
    distinct := h.distinct
    apart := h.apart
    stage := by
      intro k hk
      by_cases hkn : k = v.next
      · exact .inl (by simp [hkn])
      · have hcall : .call k ∈ v.log := by simpa [hkn] using hk
        refine (h.stage k hcall).imp (List.mem_cons_of_mem _) (Or.imp id (Or.imp ?_ ?_))
        · exact fun hover => (hother k hkn).symm ▸ hover
        · exact List.mem_cons_of_mem _
    log := ⟨trivial, h.log⟩ }

theorem ask {rest : List Nat} {answer : Answer} (h : Sound crates v) (call : Nat) (origin : Int)
    (hr : ReadyIsError answer) (ha : v.awaited = none) (ho : v.opened = k :: rest) :
    Sound crates { v with
      queue := v.queue ++ [⟨.ofNat k, answer, call, origin⟩]
      opened := rest
      log := .asked k answer :: v.log } := by
  obtain ⟨hktab, hkhist⟩ := h.opened k (by simp [ho])
  obtain ⟨hkrest, hrest⟩ := List.nodup_cons.mp (ho ▸ h.openedOnce)
  have hg : Grows k v.log (.asked k answer :: v.log) := .cons rfl (by simp [hkhist])
  have hqueue : ∀ p ∈ v.queue, p.id ≠ .ofNat k := by
    intro p hp heq
    obtain ⟨j, hid, -, hhist⟩ := h.waiting p (.inl hp)
    exact (hg.other hhist (by simp [hkhist])).1 (F64.ofNat_inj.mp (hid.symm.trans heq))
  exact {
    fresh := fun j => h.fresh_grows hg
    opened := by
      intro j hj
      obtain ⟨htab, hhist⟩ := h.opened j (ho ▸ List.mem_cons_of_mem _ hj)
      refine ⟨htab, (hg.others j ?_).trans hhist⟩
      rintro rfl
      exact hkrest hj
    openedOnce := hrest
    errors := by
      rintro p (hp | hp)
      · rcases List.mem_append.mp hp with hmem | hmem
        · exact h.errors p (.inl hmem)
        · cases List.mem_singleton.mp hmem
          exact hr
      · rw [ha] at hp
        cases hp
    waiting := by
      rintro p (hp | hp)
      · rcases List.mem_append.mp hp with hmem | hmem
        · obtain ⟨j, hid, htab, hhist⟩ := h.waiting p (.inl hmem)
          exact ⟨j, hid, htab, (hg.other hhist (by simp [hkhist])).2⟩
        · cases List.mem_singleton.mp hmem
          refine ⟨k, rfl, hktab, ?_⟩
          rw [history_cons_self rfl, hkhist]
      · rw [ha] at hp
        cases hp
    distinct := by
      refine List.pairwise_append.mpr ⟨h.distinct, List.pairwise_singleton _ _, ?_⟩
      intro p hp q hq
      cases List.mem_singleton.mp hq
      exact hqueue p hp
    apart := by simp [ha]
    stage := by
      intro j hj
      by_cases hjk : j = k
      · subst hjk
        exact .inr (.inl ⟨_, .inl (List.mem_append_right _ List.mem_cons_self), rfl⟩)
      · refine (h.stage_grows hg hjk hj).imp ?_ (Or.imp ?_ id)
        · intro hop
          rw [ho] at hop
          exact (List.mem_cons.mp hop).resolve_left hjk
        · exact fun ⟨p, hp, hid⟩ => ⟨p, hp.imp (List.mem_append_left _) id, hid⟩
    log := ⟨trivial, h.log⟩ }

theorem throw {rest : List Nat} (h : Sound crates v) (ho : v.opened = k :: rest) :
    Sound crates { v with opened := rest, log := .settled k .thrown :: v.log } := by
  obtain ⟨hktab, hkhist⟩ := h.opened k (by simp [ho])
  obtain ⟨hkrest, hrest⟩ := List.nodup_cons.mp (ho ▸ h.openedOnce)
  have hg : Grows k v.log (.settled k .thrown :: v.log) := .cons rfl (by simp [hkhist])
  exact {
    fresh := fun j => h.fresh_grows hg
    opened := by
      intro j hj
      obtain ⟨htab, hhist⟩ := h.opened j (ho ▸ List.mem_cons_of_mem _ hj)
      refine ⟨htab, (hg.others j ?_).trans hhist⟩
      rintro rfl
      exact hkrest hj
    openedOnce := hrest
    errors := h.errors
    waiting := by
      intro p hp
      obtain ⟨j, hid, htab, hhist⟩ := h.waiting p hp
      exact ⟨j, hid, htab, (hg.other hhist (by simp [hkhist])).2⟩
    distinct := h.distinct
    apart := h.apart
    stage := by
      intro j hj
      by_cases hjk : j = k
      · subst hjk
        refine .inr (.inr (.inl (.inl ?_)))
        rw [history_cons_self rfl, hkhist]
      · refine (h.stage_grows hg hjk hj).imp ?_ id
        intro hop
        rw [ho] at hop
        exact (List.mem_cons.mp hop).resolve_left hjk
    log := ⟨trivial, h.log⟩ }

theorem await {rest : List Pending} {p : Pending} (h : Sound crates v) (ha : v.awaited = none)
    (hq : v.queue = rest ++ [p]) : Sound crates { v with queue := rest, awaited := some p } := by
  have hdist := h.distinct
  rw [hq] at hdist
  obtain ⟨hrest, -, hcross⟩ := List.pairwise_append.mp hdist
  exact { h with
    errors := by
      rintro q (hmem | heq)
      · exact h.errors q (.inl (by simp [hq, show q ∈ rest from hmem]))
      · cases heq
        exact h.errors p (.inl (by simp [hq]))
    waiting := by
      rintro q (hmem | heq)
      · exact h.waiting q (.inl (by simp [hq, show q ∈ rest from hmem]))
      · cases heq
        exact h.waiting p (.inl (by simp [hq]))
    distinct := hrest
    apart := by
      intro q heq r hr
      cases heq
      exact hcross r hr p List.mem_cons_self
    stage := by
      intro k hk
      refine (h.stage k hk).imp id (Or.imp ?_ id)
      rintro ⟨q, hmem | hmem, hid⟩
      · rw [hq] at hmem
        rcases List.mem_append.mp hmem with hmem | hmem
        · exact ⟨q, .inl hmem, hid⟩
        · cases List.mem_singleton.mp hmem
          exact ⟨p, .inr rfl, hid⟩
      · rw [ha] at hmem
        cases hmem }

/-- The drain stops waiting for the call `k`: the notes about it say that it is over or that it was
given up, and the map keeps the other calls. -/
theorem release {p : Pending} {table : List Nat} (h : Sound crates v) (ha : v.awaited = some p)
    (hid : p.id = .ofNat k) (hg : Grows k v.log log) (htable : ∀ j ∈ v.table, j ≠ k → j ∈ table)
    (hover : IsOver crates k (history k log) ∨ .expired (.ofNat k) ∈ log)
    (hlog : Logged (Settles crates) log) :
    Sound crates { v with awaited := none, table := table, log := log } := by
  have hkhist : history k v.log = [.asked k p.answer, .call k] := by
    obtain ⟨j, hj, -, hhist⟩ := h.waiting p (.inr ha)
    rw [F64.ofNat_inj.mp (hid.symm.trans hj)]
    exact hhist
  exact {
    fresh := fun j => h.fresh_grows hg
    opened := by
      intro j hj
      obtain ⟨htab, hhist⟩ := h.opened j hj
      obtain ⟨hjk, hhist⟩ := hg.other hhist (by simp [hkhist])
      exact ⟨htable j htab hjk, hhist⟩
    openedOnce := h.openedOnce
    errors := fun q hq => h.errors q (.inl (hq.resolve_right (by simp)))
    waiting := by
      intro q hq
      have hmem : q ∈ v.queue := hq.resolve_right (by simp)
      obtain ⟨j, hqid, htab, hhist⟩ := h.waiting q (.inl hmem)
      have hjk : j ≠ k := by
        rintro rfl
        exact h.apart p ha q hmem (hqid.trans hid.symm)
      exact ⟨j, hqid, htable j htab hjk, (hg.others j hjk).trans hhist⟩
    distinct := h.distinct
    apart := by simp
    stage := by
      intro j hj
      by_cases hjk : j = k
      · subst hjk
        exact .inr (.inr hover)
      · refine (h.stage_grows hg hjk hj).imp id (Or.imp ?_ id)
        rintro ⟨q, hq | hq, hqid⟩
        · exact ⟨q, .inl hq, hqid⟩
        · obtain rfl : p = q := Option.some.inj (ha.symm.trans hq)
          exact absurd (F64.ofNat_inj.mp (hqid.symm.trans hid)) hjk
    log := hlog }

/-- the answer of the call that the drain waited for is handed over -/
theorem answered {p : Pending} {reply : Option Reply} {answer : Except Text Text}
    (h : Sound crates v) (ha : v.awaited = some p)
    (hp : p.answer.poll crates reply = some answer) :
    Sound crates ({ v with awaited := none }.settle crates p.id answer) := by
  obtain ⟨k, hid, hktab, hkhist⟩ := h.waiting p (.inr ha)
  have heq : ({ v with awaited := none }.settle crates p.id answer : CallView) = { v with
      awaited := none
      table := v.table.filter fun j => F64.ofNat j ≠ .ofNat k
      log := settlement crates k answer ++ .answered (.ofNat k) answer :: v.log } := by
    simp only [settle, hid, settleBinding_known v.log answer hktab]
  have hself : history k (settlement crates k answer ++ .answered (.ofNat k) answer :: v.log) =
      settlement crates k answer ++ [.answered (.ofNat k) answer, .asked k p.answer, .call k] := by
    rw [history_settlement_self, hkhist]
  rw [heq]
  refine h.release ha hid (.settled (by simp [hkhist])) ?_ (.inl (.inr ?_)) ?_
  · intro j hj hjk
    refine List.mem_filter.mpr ⟨hj, decide_eq_true ?_⟩
    exact fun h => hjk (F64.ofNat_inj.mp h)
  · exact ⟨_, reply, answer, h.errors p (.inr ha), hp, hself⟩
  · unfold settlement
    split
    · exact ⟨trivial, trivial, h.log⟩
    · exact ⟨trivial, h.log⟩

theorem drained (h : Sound crates v) (r : Except TerminationReason Unit)
    (hr : r = .ok () → v.queue = [] ∧ v.awaited = none ∧ v.opened = []) :
    Sound crates { v with log := .drained r :: v.log } := by
  have hhist : ∀ k, history k (.drained r :: v.log) = history k v.log :=
    fun k => history_cons_other (by simp [CallNote.about])
  exact {
    fresh := fun k hk => (hhist k).trans (h.fresh k hk)
    opened := fun k hk => ⟨(h.opened k hk).1, (hhist k).trans (h.opened k hk).2⟩
    openedOnce := h.openedOnce
    errors := h.errors
    waiting := by
      intro p hp
      obtain ⟨k, hid, htab, hk⟩ := h.waiting p hp
      exact ⟨k, hid, htab, (hhist k).trans hk⟩
    distinct := h.distinct
    apart := h.apart
    stage := by
      intro k hk
      have hcall : .call k ∈ v.log := by simpa using hk
      refine (h.stage k hcall).imp id (Or.imp id (Or.imp ?_ (List.mem_cons_of_mem _)))
      exact fun hover => (hhist k).symm ▸ hover
    log := by
      refine ⟨?_, h.log⟩
      cases r with
      | error reason => trivial
      | ok u =>
        obtain ⟨hq, ha, ho⟩ := hr rfl
        intro k hk hexp
        rcases h.stage k hk with hop | ⟨p, hp | hp, -⟩ | hover | hexp'
        · rw [ho] at hop
          cases hop
        · rw [hq] at hp
          cases hp
        · rw [ha] at hp
          cases hp
        · rw [hover.settles]
          exact forall_congr' fun rows => by rw [mem_history rfl]
        · exact absurd hexp' hexp }

theorem expire {p : Pending} (h : Sound crates v) (reason : TerminationReason)
    (ha : v.awaited = some p) : Sound crates { v with
      awaited := none, log := .drained (.error reason) :: .expired p.id :: v.log } := by
  obtain ⟨k, hid, -, hkhist⟩ := h.waiting p (.inr ha)
  have hg : Grows k v.log (.expired p.id :: v.log) :=
    .cons (congrArg some hid) (by simp [hkhist])
  have hexpired : Sound crates { v with awaited := none, log := .expired p.id :: v.log } :=
    h.release ha hid hg (fun j hj _ => hj) (.inr (by simp [hid])) ⟨trivial, h.log⟩
  exact hexpired.drained (.error reason) (by simp)

theorem move {v' : CallView} (h : Sound crates v) (hm : Moves crates v v') : Sound crates v' := by
  cases hm with
  | idle => exact h
  | call => exact h.call
  | ask k rest answer call origin hr ha ho => exact h.ask call origin hr ha ho
  | throw k rest ho => exact h.throw ho
  | await rest p ha hq => exact h.await ha hq
  | ready rest p reply answer ha hq hp =>
    have hready := (h.await ha hq).answered rfl hp
    simpa [ha] using hready
  | answered p reply answer ha hp => exact h.answered ha hp
  | expire p reason ha => exact h.expire reason ha
  | drained r hr => exact h.drained r hr

end Sound
end CallView

namespace Runtime
variable {S : Type} {crates : Crates} {wire : Kind → S → Option Text} {f : Runtime S}

theorem build_calls (ops : Bool) (ms now : Nat) :
    (build ops ms now : Runtime S).callView.Sound crates := by
  constructor <;>
    simp [callView, build, Glue.default, Worker.build, HostSlots.default, history, Logged]

/-- In every run, when a drain ends in Ok, each call that it did not give up on is settled exactly
once and by its own answer, exactly when the engine reads its answer. -/
theorem calls_are_settled_once_iff (h : Reached crates wire f) :
    Logged (Settles crates) f.glue.callLog := by
  have hinv : Calm f ∧ Worker.Drained f.worker ∧ f.callView.Sound crates :=
    h.inv (P := fun f => Calm f ∧ Worker.Drained f.worker ∧ f.callView.Sound crates)
      (fun ops ms now => ⟨Calm.build ops ms now, trivial, build_calls ops ms now⟩)
      (fun _ _ _ hf h => ⟨hf.1.step h, step_drained hf.2.1 h, hf.2.2.move (step_calls hf.1 hf.2.1 h)⟩)
  exact hinv.2.2.log

/-- a query whose answer is an error, in a drain that ends in Ok -/
theorem calls_are_settled_once_error : ∃ f : Runtime Unit,
    run (step Crates.bare fun _ _ => none) (build true 0 0)
      [.call (txt "query") (txt "DB"), .called (txt "\x7b\"sql\":\"x\"\x7d"),
        .host (.evalOver none), .host (.drainJobs true),
        .host (.popBinding (some (.database (.error [])))), .host (.evalOver none),
        .host (.drainJobs true), .host (.popBinding none), .host .nextTimer] = some f ∧
      Logged (Settles Crates.bare) f.glue.callLog := by
  obtain ⟨f, hrun⟩ := Option.isSome_iff_exists.mp (show (run (step Crates.bare fun _ _ => none)
      (build true 0 0 : Runtime Unit)
      [.call (txt "query") (txt "DB"), .called (txt "\x7b\"sql\":\"x\"\x7d"),
        .host (.evalOver none), .host (.drainJobs true),
        .host (.popBinding (some (.database (.error [])))), .host (.evalOver none),
        .host (.drainJobs true), .host (.popBinding none), .host .nextTimer]).isSome = true
    by decide +kernel)
  exact ⟨f, hrun, calls_are_settled_once_iff ⟨true, 0, 0, _, hrun⟩⟩

/-- a call that was answered and never settled, in a drain that ended in Ok -/
def neverSettled : List CallNote → Bool
  | [.drained (.ok ()), .answered _ _, .asked 1 _, .call 1] => true
  | _ => false

/-- A query answered with rows that are no JSON: the drain ends in Ok and nothing settled it. -/
theorem unreadable_rows_are_lost : ¬ ∀ f : Runtime Unit, Reached Crates.bare (fun _ _ => none) f →
    Logged (SettlesAll Crates.bare) f.glue.callLog := by
  intro hall
  obtain ⟨f, hrun, hlog⟩ := (Option.any_eq_true _ _).mp (show (run
      (step Crates.bare fun _ _ => none) (build true 0 0 : Runtime Unit)
      [.call (txt "query") (txt "DB"), .called (txt "\x7b\"sql\":\"x\"\x7d"),
        .host (.evalOver none), .host (.drainJobs true),
        .host (.popBinding (some (.database (.rows (txt "x"))))), .host (.evalOver none),
        .host (.drainJobs true), .host (.popBinding none), .host .nextTimer]).any
      (fun f => neverSettled f.glue.callLog) = true by decide +kernel)
  have hsettles := hall f ⟨true, 0, 0, _, hrun⟩
  unfold neverSettled at hlog
  split at hlog
  · next heq =>
    rw [heq] at hsettles
    obtain ⟨outcome, hmem⟩ := (hsettles.1 1 (by simp) (by simp)).settled
    rw [mem_history rfl] at hmem
    simp at hmem
  · cases hlog

end Runtime

end NovaRuntime
