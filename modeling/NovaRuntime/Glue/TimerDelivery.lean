import NovaRuntime.Glue.Timers

/-!
# Timers are delivered

`Sound` is the invariant of a timer view, kept by each of its moves; from it, every entry of the
log is `Delivered` in every run of a runtime.
-/

namespace NovaRuntime
open Lib

namespace TimerView

structure Sound (v : TimerView) : Prop where
  fresh : ∀ h, v.nextTimer ≤ h → (∀ r, .minted h r ∉ v.log) ∧ ∀ d since, .armed h d since ∉ v.log
  mintedOnce : ∀ h r r', .minted h r ∈ v.log → .minted h r' ∈ v.log → r = r'
  once : ∀ h, .minted h false ∈ v.log → starts h v.log ≤ 1
  table : ∀ h r, (h, r) ∈ v.table → .minted h r ∈ v.log ∧ ¬ Stopped h v.log ∧
    (r = false → starts h v.log = 0)
  opened : ∀ h r, (h, r) ∈ v.opened → .minted h r ∈ v.log ∧
    (∀ d since, .armed h d since ∉ v.log) ∧ (Stopped h v.log ∨ (h, r) ∈ v.table)
  openedOnce : v.opened.Pairwise fun a b => a.1 ≠ b.1
  due : ∀ t, t ∈ v.armed ∨ v.taken = some t → ∃ (h : Nat) (r : Bool) (d since : Nat),
    t.handle = .ofNat h ∧ .armed h d since ∈ v.log ∧ t.period = (if r then some d else none) ∧
    since + (starts h v.log + 1) * d ≤ t.due
  distinct : v.armed.Pairwise fun t u => t.handle ≠ u.handle
  /-- a timer of the list that shares its handle with the one taken out is its next turn -/
  again : ∀ t, v.taken = some t → ∀ u ∈ v.armed, u.handle = t.handle →
    ∃ d, t.period = some d ∧ u.period = some d ∧ t.due + d ≤ u.due
  waiting : ∀ h ∈ sinceDrained v.log, .minted h false ∈ v.log → Stopped h v.log ∨
    starts h v.log ≠ 0 ∨ (h, false) ∈ v.table ∧
      ∃ t, (t ∈ v.armed ∨ v.taken = some t) ∧ t.handle = .ofNat h
  log : Logged Delivered v.log

namespace Sound
variable {v : TimerView}

theorem mint (h : Sound v) (r : Bool) : Sound { v with
    table := v.table ++ [(v.nextTimer, r)]
    nextTimer := v.nextTimer + 1
    opened := (v.nextTimer, r) :: v.opened
    log := .minted v.nextTimer r :: v.log } where
  fresh := by
    intro k hk
    have hk : v.nextTimer + 1 ≤ k := hk
    obtain ⟨hm, ha⟩ := h.fresh k (by omega)
    refine ⟨fun r' hr' => ?_, by simpa using ha⟩
    rcases List.mem_cons.mp hr' with heq | hr'
    · cases heq
      omega
    · exact hm r' hr'
  mintedOnce := by
    have hnew := (h.fresh v.nextTimer le_rfl).1
    intro k r₁ r₂ h₁ h₂
    rcases List.mem_cons.mp h₁ with heq₁ | h₁ <;> rcases List.mem_cons.mp h₂ with heq₂ | h₂
    · cases heq₁
      cases heq₂
      rfl
    · cases heq₁
      exact absurd h₂ (hnew r₂)
    · cases heq₂
      exact absurd h₁ (hnew r₁)
    · exact h.mintedOnce k r₁ r₂ h₁ h₂
  once := by
    intro k hk
    rcases List.mem_cons.mp hk with heq | hk
    · cases heq
      have hs := starts_of_not_armed h.log (h.fresh v.nextTimer le_rfl).2
      show starts v.nextTimer v.log ≤ 1
      omega
    · exact h.once k hk
  table := by
    intro k r' hk
    rcases List.mem_append.mp hk with hk | hk
    · obtain ⟨hm, hs, h0⟩ := h.table k r' hk
      exact ⟨List.mem_cons_of_mem _ hm, hs, h0⟩
    · cases List.mem_singleton.mp hk
      obtain ⟨hm, ha⟩ := h.fresh v.nextTimer le_rfl
      have hs : starts v.nextTimer v.log = 0 := starts_of_not_armed h.log ha
      have hns : ¬ Stopped v.nextTimer v.log := not_stopped hm
      exact ⟨List.mem_cons_self, hns, fun _ => hs⟩
  opened := by
    intro k r' hk
    rcases List.mem_cons.mp hk with heq | hk
    · cases heq
      refine ⟨List.mem_cons_self, ?_, .inr (by simp)⟩
      simpa using (h.fresh v.nextTimer le_rfl).2
    · obtain ⟨hm, ha, hs⟩ := h.opened k r' hk
      exact ⟨List.mem_cons_of_mem _ hm, by simpa using ha, hs.imp id (List.mem_append_left _)⟩
  openedOnce := by
    refine List.pairwise_cons.mpr ⟨fun e he heq => ?_, h.openedOnce⟩
    have heq : v.nextTimer = e.1 := heq
    exact (h.fresh e.1 (le_of_eq heq)).1 e.2 (h.opened e.1 e.2 he).1
  due := fun t ht => Due.cons (h.due t ht) fun _ => rfl
  distinct := h.distinct
  again := h.again
  waiting := by
    intro k hk hm
    have hm : .minted k false ∈ v.log := by
      rcases List.mem_cons.mp hm with heq | hm
      · cases heq
        have hns : v.nextTimer ∉ sinceDrained v.log :=
          not_armed_since (h.fresh v.nextTimer le_rfl).2
        exact absurd hk hns
      · exact hm
    exact (h.waiting k hk hm).imp id (Or.imp id (And.imp (List.mem_append_left _) id))
  log := ⟨trivial, h.log⟩

theorem arm {k : Nat} {r : Bool} {rest : List (Nat × Bool)} (h : Sound v) (d seq : Nat)
    (origin : Int) (ht : v.taken = none) (ho : v.opened = (k, r) :: rest) : Sound { v with
      armed := v.armed ++ [⟨.ofNat k, v.now + d, if r then some d else none, seq, origin⟩]
      opened := rest
      log := .armed k d v.now :: v.log } where
  fresh := by
    intro j hj
    obtain ⟨hm, ha⟩ := h.fresh j hj
    refine ⟨by simpa using hm, fun d' since ha' => ?_⟩
    rcases List.mem_cons.mp ha' with heq | ha'
    · cases heq
      exact hm r (h.opened k r (by simp [ho])).1
    · exact ha d' since ha'
  mintedOnce := by simpa using h.mintedOnce
  once := by simpa [starts] using h.once
  table := by simpa [starts, Stopped] using h.table
  opened := by
    have hne := (List.pairwise_cons.mp (ho ▸ h.openedOnce)).1
    intro j r' hj
    obtain ⟨hm, ha, hs⟩ := h.opened j r' (ho ▸ List.mem_cons_of_mem _ hj)
    refine ⟨List.mem_cons_of_mem _ hm, fun d' since ha' => ?_, hs⟩
    rcases List.mem_cons.mp ha' with heq | ha'
    · cases heq
      exact hne (k, r') hj rfl
    · exact ha d' since ha'
  openedOnce := (List.pairwise_cons.mp (ho ▸ h.openedOnce)).2
  due := by
    intro t hmem
    rcases hmem with hmem | htaken
    · rcases List.mem_append.mp hmem with hmem | hmem
      · exact Due.cons (h.due t (.inl hmem)) fun _ => rfl
      · cases List.mem_singleton.mp hmem
        have hs : starts k v.log = 0 := starts_of_not_armed h.log (h.opened k r (by simp [ho])).2.1
        refine ⟨k, r, d, v.now, rfl, List.mem_cons_self, rfl, ?_⟩
        show v.now + (starts k v.log + 1) * d ≤ v.now + d
        rw [hs]
        omega
    · rw [ht] at htaken
      cases htaken
  distinct := by
    refine List.pairwise_append.mpr ⟨h.distinct, List.pairwise_singleton _ _, ?_⟩
    intro t htm u hu heq
    cases List.mem_singleton.mp hu
    obtain ⟨j, r', d', since, hj, ha, -, -⟩ := h.due t (.inl htm)
    have hjk : j = k := F64.ofNat_inj.mp (hj.symm.trans heq)
    exact (h.opened k r (by simp [ho])).2.1 d' since (hjk ▸ ha)
  again := by
    intro t htaken
    rw [ht] at htaken
    cases htaken
  waiting := by
    intro j hj hfalse
    have hm : .minted j false ∈ v.log := by simpa using hfalse
    clear hfalse
    rcases List.mem_cons.mp hj with rfl | hj
    · obtain ⟨hm', -, hs⟩ := h.opened j r (by simp [ho])
      have hr : r = false := h.mintedOnce j r false hm' hm
      subst hr
      refine hs.imp id fun htab => .inr ⟨htab, ?_⟩
      exact ⟨_, .inl (List.mem_append_right _ List.mem_cons_self), rfl⟩
    · refine (h.waiting j hj hm).imp id (Or.imp id (And.imp id ?_))
      rintro ⟨t, htm, hth⟩
      exact ⟨t, htm.imp (List.mem_append_left _) id, hth⟩
  log := ⟨trivial, h.log⟩

theorem abandon {k : Nat} {r : Bool} {rest : List (Nat × Bool)} (h : Sound v)
    (ho : v.opened = (k, r) :: rest) : Sound { v with opened := rest } :=
  { h with
    opened := fun j r' hj => h.opened j r' (ho ▸ List.mem_cons_of_mem _ hj)
    openedOnce := (List.pairwise_cons.mp (ho ▸ h.openedOnce)).2 }

theorem clear (h : Sound v) (handle : F64) (ht : v.taken = none) : Sound { v with
    armed := v.armed.filter fun t => !F64.eq t.handle handle
    table := v.table.filter fun e => F64.ofNat e.1 ≠ handle
    log := .cleared handle :: v.log } where
  fresh := by simpa using h.fresh
  mintedOnce := by simpa using h.mintedOnce
  once := by simpa [starts] using h.once
  table := by
    intro k r hk
    obtain ⟨hk, hne⟩ := List.mem_filter.mp hk
    obtain ⟨hm, hs, h0⟩ := h.table k r hk
    refine ⟨List.mem_cons_of_mem _ hm, ?_, h0⟩
    rintro (⟨rfl, -⟩ | hs')
    · simp at hne
    · exact hs hs'
  opened := by
    intro k r hk
    obtain ⟨hm, ha, hs⟩ := h.opened k r hk
    refine ⟨List.mem_cons_of_mem _ hm, by simpa using ha, ?_⟩
    by_cases hid : handle = .ofNat k
    · exact .inl (.inl ⟨hid, r, hm⟩)
    · refine hs.imp .inr fun htab => List.mem_filter.mpr ⟨htab, ?_⟩
      simpa using fun heq => hid heq.symm
  openedOnce := h.openedOnce
  due := by
    rintro t (htm | htaken)
    · exact Due.cons (h.due t (.inl (List.mem_of_mem_filter htm))) fun _ => rfl
    · rw [ht] at htaken
      cases htaken
  distinct := h.distinct.sublist List.filter_sublist
  again := by
    intro t htaken
    rw [ht] at htaken
    cases htaken
  waiting := by
    intro k hk hm
    have hm : .minted k false ∈ v.log := by simpa using hm
    by_cases hid : handle = .ofNat k
    · exact .inl (.inl ⟨hid, false, hm⟩)
    · refine (h.waiting k hk hm).imp .inr (Or.imp id ?_)
      rintro ⟨htab, t, htm | htaken, hth⟩
      · have hne : ¬ F64.ofNat k = handle := fun heq => hid heq.symm
        refine ⟨List.mem_filter.mpr ⟨htab, by simpa using hne⟩, t,
          .inl (List.mem_filter.mpr ⟨htm, ?_⟩), hth⟩
        rw [hth, Bool.not_eq_true', ← Bool.not_eq_true, F64.eq_ofNat]
        exact hid
      · rw [ht] at htaken
        cases htaken
  log := ⟨trivial, h.log⟩

/-- a timer leaves the list, and the next turn of an interval takes its place -/
theorem take {pre post next : List Timer} {t : Timer} (h : Sound v) (ht : v.taken = none)
    (ha : v.armed = pre ++ t :: post) (hn : rearm t = some next) :
    Sound { v with armed := pre ++ next ++ post, taken := some t } := by
  have hdist := h.distinct
  rw [ha] at hdist
  obtain ⟨hdpre, hdpost, hcross⟩ := List.pairwise_append.mp hdist
  obtain ⟨htpost, hdpost⟩ := List.pairwise_cons.mp hdpost
  have hside : ∀ u ∈ pre ++ post, u ∈ v.armed ∧ u.handle ≠ t.handle := by
    intro u hu
    rw [ha]
    rcases List.mem_append.mp hu with hu | hu
    · exact ⟨by simp [hu], hcross u hu t List.mem_cons_self⟩
    · exact ⟨by simp [hu], (htpost u hu).symm⟩
  have hnew : ∀ u ∈ next, u.handle = t.handle ∧
      ∃ d, t.period = some d ∧ u.period = some d ∧ t.due + d ≤ u.due := by
    intro u hu
    rcases rearm_cases hn with ⟨-, rfl⟩ | ⟨d, hd, rfl⟩
    · cases hu
    · cases List.mem_singleton.mp hu
      exact ⟨rfl, d, hd, hd, Nat.add_le_add_left (le_max_left _ _) _⟩
  have hmem : ∀ u ∈ pre ++ next ++ post, u ∈ next ∨ u ∈ pre ++ post := by
    intro u hu
    simp only [List.mem_append] at hu ⊢
    tauto
  have htm : t ∈ v.armed := by simp [ha]
  exact { h with
    due := by
      rintro u (hu | hu)
      · rcases hmem u hu with hu | hu
        · obtain ⟨huh, d, hd, hud, hle⟩ := hnew u hu
          obtain ⟨k, r, d', since, hk, harm, hp, hle'⟩ := h.due t (.inl htm)
          refine ⟨k, r, d', since, huh.trans hk, harm, ?_, ?_⟩
          · rw [hud, ← hd, hp]
          · show since + (starts k v.log + 1) * d' ≤ u.due
            omega
        · exact h.due u (.inl (hside u hu).1)
      · cases hu
        exact h.due t (.inl htm)
    distinct := by
      have hd : next.Pairwise fun t u => t.handle ≠ u.handle := by
        rcases rearm_cases hn with ⟨-, rfl⟩ | ⟨d, -, rfl⟩ <;> simp
      refine List.pairwise_append.mpr ⟨List.pairwise_append.mpr ⟨hdpre, hd, ?_⟩, hdpost, ?_⟩
      · intro u hu x hx
        rw [(hnew x hx).1]
        exact (hside u (List.mem_append_left _ hu)).2
      · intro u hu x hx
        rcases List.mem_append.mp hu with hu | hu
        · exact hcross u hu x (List.mem_cons_of_mem _ hx)
        · rw [(hnew u hu).1]
          exact htpost x hx
    again := by
      intro u hu x hx hxh
      cases hu
      rcases hmem x hx with hx | hx
      · exact (hnew x hx).2
      · exact absurd hxh (hside x hx).2
    waiting := by
      intro k hk hm
      refine (h.waiting k hk hm).imp id (Or.imp id (And.imp id ?_))
      rintro ⟨u, hu | hu, huh⟩
      · rw [ha] at hu
        by_cases hut : u = t
        · exact ⟨t, .inr rfl, hut ▸ huh⟩
        · refine ⟨u, .inl ?_, huh⟩
          simp only [List.mem_append, List.mem_cons, hut, false_or] at hu ⊢
          tauto
      · rw [ht] at hu
        cases hu }

theorem fire_unknown {t : Timer} (h : Sound v) (ht : v.taken = some t)
    (hf : v.table.find? (fun e => F64.ofNat e.1 = t.handle) = none) : Sound (v.fire t) := by
  have heq : v.fire t = { v with taken := none } := by
    simp [TimerView.fire, runTimer, hf]
  rw [heq]
  exact { h with
    due := fun u hu => h.due u (.inl (hu.resolve_right (by simp)))
    again := by simp
    waiting := by
      intro k hk hm
      refine (h.waiting k hk hm).imp id (Or.imp id ?_)
      rintro ⟨htab, u, hu | hu, huh⟩
      · exact ⟨htab, u, .inl hu, huh⟩
      · rw [ht] at hu
        cases hu
        have hne := List.find?_eq_none.mp hf (k, false) htab
        exact absurd (decide_eq_true huh.symm) hne }

section
variable {t : Timer} {k : Nat} {r : Bool}
  (hf : v.table.find? (fun e => F64.ofNat e.1 = t.handle) = some (k, r))
include hf

theorem found : (k, r) ∈ v.table ∧ F64.ofNat k = t.handle :=
  ⟨List.mem_of_find?_eq_some hf, by simpa using List.find?_some hf⟩

theorem fire_eq : v.fire t = { v with
    taken := none
    table := if r then v.table else v.table.filter fun e => F64.ofNat e.1 ≠ t.handle
    log := .started k v.now :: v.log } := by
  simp [TimerView.fire, runTimer, hf]

theorem mem_fire {j : Nat} {r' : Bool} (hj : (j, r') ∈ v.table) (hne : j ≠ k) :
    (j, r') ∈ (v.fire t).table := by
  rw [fire_eq hf]
  show (j, r') ∈ if r then v.table else _
  split
  · exact hj
  · have hother : F64.ofNat j ≠ t.handle := by
      rw [← (found hf).2]
      exact mt F64.ofNat_inj.mp hne
    exact List.mem_filter.mpr ⟨hj, by simpa using hother⟩

theorem of_mem_fire (h : Sound v) {j : Nat} {r' : Bool} (hfired : (j, r') ∈ (v.fire t).table) :
    (j, r') ∈ v.table ∧ (r' = false → j ≠ k) := by
  obtain ⟨htab, hk⟩ := found hf
  rw [fire_eq hf] at hfired
  have hj : (j, r') ∈ if r then v.table else _ := hfired
  clear hfired
  split at hj
  · next hr =>
    refine ⟨hj, ?_⟩
    rintro rfl rfl
    have hfalse := h.mintedOnce j false r (h.table j false hj).1 (h.table j r htab).1
    simp [hr] at hfalse
  · obtain ⟨hj, hne⟩ := List.mem_filter.mp hj
    refine ⟨hj, ?_⟩
    rintro - rfl
    simp [hk] at hne

/-- The next turn of the timer that fires is one delay later; the others are as they were. -/
theorem fire_due (h : Sound v) (ht : v.taken = some t) {u : Timer} (hu : u ∈ v.armed) :
    Due (.started k v.now :: v.log) u := by
  have hk := (found hf).2
  by_cases huh : u.handle = t.handle
  · obtain ⟨k', r', d, since, hk', harm, hp, hdue⟩ := h.due t (.inr ht)
    obtain rfl : k = k' := F64.ofNat_inj.mp (hk.trans hk')
    obtain ⟨d', htd, hud, hle⟩ := h.again t ht u hu huh
    have hrd : (if r' then some d else none) = some d' := hp ▸ htd
    refine ⟨k, r', d, since, huh.trans hk', List.mem_cons_of_mem _ harm, hud.trans hrd.symm, ?_⟩
    have hdd : d = d' := by
      cases r' with
      | true => exact Option.some.inj hrd
      | false => cases hrd
    have hmul : (starts k v.log + 1 + 1) * d = (starts k v.log + 1) * d + d := by ring
    rw [starts_started_self]
    omega
  · obtain ⟨j, r', d, since, huj, harm, hp, hdue⟩ := h.due u (.inl hu)
    have hjk : j ≠ k := by
      rintro rfl
      exact huh (huj.trans hk)
    refine ⟨j, r', d, since, huj, List.mem_cons_of_mem _ harm, hp, ?_⟩
    rwa [starts_started_ne hjk]

end

theorem fire_found {t : Timer} {k : Nat} {r : Bool} (h : Sound v) (ht : v.taken = some t)
    (hle : t.due ≤ v.now)
    (hf : v.table.find? (fun e => F64.ofNat e.1 = t.handle) = some (k, r)) : Sound (v.fire t) := by
  obtain ⟨htab, hk⟩ := found hf
  obtain ⟨hmint, hns, hzero⟩ := h.table k r htab
  obtain ⟨k', r', d, since, hk', harm, -, hdue⟩ := h.due t (.inr ht)
  obtain rfl : k = k' := F64.ofNat_inj.mp (hk.trans hk')
  have hkeep : ∀ j r', (j, r') ∈ v.table → j ≠ k → (j, r') ∈ (v.fire t).table :=
    fun _ _ => mem_fire hf
  have hleft : ∀ j r', (j, r') ∈ (v.fire t).table → (j, r') ∈ v.table ∧ (r' = false → j ≠ k) :=
    fun _ _ => of_mem_fire hf h
  rw [fire_eq hf] at hkeep hleft ⊢
  exact {
    fresh := by simpa using h.fresh
    mintedOnce := by simpa using h.mintedOnce
    once := by
      intro j hfired
      have hj : .minted j false ∈ v.log := by simpa using hfired
      show starts j (.started k v.now :: v.log) ≤ 1
      by_cases hjk : j = k
      · subst hjk
        rw [starts_started_self, hzero (h.mintedOnce j r false hmint hj)]
      · rw [starts_started_ne hjk]
        exact h.once j hj
    table := by
      intro j r'' hj
      obtain ⟨hj, hne⟩ := hleft j r'' hj
      obtain ⟨hm, hs, h0⟩ := h.table j r'' hj
      refine ⟨List.mem_cons_of_mem _ hm, hs, fun hr => ?_⟩
      exact (starts_started_ne (hne hr) _ _).trans (h0 hr)
    opened := by
      intro j r'' hj
      obtain ⟨hm, ha, hs⟩ := h.opened j r'' hj
      have hjk : j ≠ k := by
        rintro rfl
        exact ha d since harm
      exact ⟨List.mem_cons_of_mem _ hm, by simpa using ha, hs.imp id fun hj => hkeep j r'' hj hjk⟩
    openedOnce := h.openedOnce
    due := fun u hu => fire_due hf h ht (hu.resolve_right (by simp))
    distinct := h.distinct
    again := by simp
    waiting := by
      intro j hj hm
      have hm : .minted j false ∈ v.log := by simpa using hm
      show _ ∨ starts j (.started k v.now :: v.log) ≠ 0 ∨ _
      by_cases hjk : j = k
      · subst hjk
        rw [starts_started_self]
        exact .inr (.inl (Nat.succ_ne_zero _))
      · rw [starts_started_ne hjk]
        rcases h.waiting j hj hm with hs | hs | ⟨htab, u, hu | hu, huh⟩
        · exact .inl hs
        · exact .inr (.inl hs)
        · exact .inr (.inr ⟨hkeep j false htab hjk, u, .inl hu, huh⟩)
        · rw [ht] at hu
          cases hu
          exact absurd (F64.ofNat_inj.mp (huh.symm.trans hk')) hjk
    log := ⟨⟨hns, fun hm => hzero (h.mintedOnce k r false hmint hm), d, since, harm,
      hdue.trans hle⟩, h.log⟩ }

/-- The timer that is due fires, and its callback starts if the glue still has it. -/
theorem fire {t : Timer} (h : Sound v) (ht : v.taken = some t) (hle : t.due ≤ v.now) :
    Sound (v.fire t) := by
  cases hf : v.table.find? (fun e => F64.ofNat e.1 = t.handle) with
  | none => exact h.fire_unknown ht hf
  | some e => exact h.fire_found ht hle hf

theorem drop (h : Sound v) (reason : TerminationReason) :
    Sound { v with armed := [], log := .drained (.error reason) :: v.log } where
  fresh := by simpa using h.fresh
  mintedOnce := by simpa using h.mintedOnce
  once := by simpa [starts] using h.once
  table := by simpa [starts, Stopped] using h.table
  opened := by simpa [Stopped] using h.opened
  openedOnce := h.openedOnce
  due := by
    rintro t (ht | ht)
    · cases ht
    · exact Due.cons (h.due t (.inr ht)) fun _ => rfl
  distinct := List.Pairwise.nil
  again := by simp
  waiting := by simp [sinceDrained]
  log := ⟨trivial, h.log⟩

theorem drained (h : Sound v) (r : Except TerminationReason Unit)
    (hr : r = .ok () → v.armed = [] ∧ v.taken = none) :
    Sound { v with log := .drained r :: v.log } where
  fresh := by simpa using h.fresh
  mintedOnce := by simpa using h.mintedOnce
  once := by simpa [starts] using h.once
  table := by simpa [starts, Stopped] using h.table
  opened := by simpa [Stopped] using h.opened
  openedOnce := h.openedOnce
  due := fun t ht => Due.cons (h.due t ht) fun _ => rfl
  distinct := h.distinct
  again := h.again
  waiting := by simp [sinceDrained]
  log := by
    refine ⟨?_, h.log⟩
    cases r with
    | error reason => trivial
    | ok u =>
      obtain ⟨harmed, htaken⟩ := hr rfl
      intro k hk hm
      rcases h.waiting k hk hm with hs | hs | ⟨-, t, ht | ht, -⟩
      · exact .inl hs
      · exact .inr (le_antisymm (h.once k hm) (Nat.one_le_iff_ne_zero.mpr hs))
      · rw [harmed] at ht
        cases ht
      · rw [htaken] at ht
        cases ht

theorem move {v' : TimerView} (h : Sound v) (hm : Moves v v') : Sound v' := by
  cases hm with
  | idle => exact { h with }
  | mint r => exact h.mint r
  | arm k r rest d seq origin ht ho => exact h.arm d seq origin ht ho
  | abandon k r rest ho => exact h.abandon ho
  | clear handle ht => exact h.clear handle ht
  | take pre t post next ht ha hn => exact h.take ht ha hn
  | fire t ht hle => exact h.fire ht hle
  | fireLate pre t post next ht ha hn hle => exact (h.take ht ha hn).fire rfl hle
  | drop reason => exact h.drop reason
  | drained r hr => exact h.drained r hr

end Sound
end TimerView

namespace Runtime
variable {S : Type} {crates : Crates} {wire : Kind → S → Option Text} {f : Runtime S}

theorem build_sound (ops : Bool) (ms now : Nat) : (build ops ms now : Runtime S).timerView.Sound := by
  constructor <;>
    simp [timerView, build, Glue.default, Worker.build, HostSlots.default, sinceDrained, Logged]

theorem Reached.sound (h : Reached crates wire f) : f.timerView.Sound :=
  h.inv (P := fun f => f.timerView.Sound) build_sound fun _ _ _ hs h => hs.move (step_moves h)

/-- In every run, whatever the guest sets and clears and whenever: no callback starts after its
handle was cleared; a callback starts once if it does not repeat, and has started when the drain
after it was set ends in Ok, unless it was cleared; it starts no earlier than its delay, nor for
the `k`-th time earlier than `k` delays; and whether a callback throws makes no difference. -/
theorem timers_are_delivered (h : Reached crates wire f) :
    Logged Delivered f.glue.timerLog ∧ ∀ handle thrown, f.worker.pc = .eval (.timer handle) →
      step crates wire f (.host (.evalOver thrown)) = step crates wire f (.host (.evalOver none)) := by
  refine ⟨h.sound.log, fun handle thrown hpc => ?_⟩
  simp only [step, hostMay, Worker.step, hpc]
  cases f.worker.frames <;> rfl

/-- a timeout, and an interval that its own callback clears and whose callback throws -/
theorem timers_are_delivered_once : Logged Delivered
    [.drained (.ok ()), .cleared (.ofNat 2), .started 2 0, .started 1 0, .armed 2 0 0,
      .minted 2 true, .armed 1 0 0, .minted 1 false] := by
  obtain ⟨f, hrun, hlog⟩ : ∃ f : Runtime Unit,
      run (step Crates.bare fun _ _ => none) (build false 0 0)
        [.schedule false, .scheduled .nan, .schedule true, .scheduled .nan,
          .host (.evalOver none), .host (.drainJobs true), .host (.popBinding none),
          .host .nextTimer, .host .wake, .host (.evalOver (some [])), .host (.drainJobs true),
          .host (.popBinding none), .host .nextTimer, .host .wake, .cancel (.ofNat 2),
          .host (.evalOver (some [])), .host (.drainJobs true), .host (.popBinding none),
          .host .nextTimer] = some f ∧
      f.glue.timerLog = [.drained (.ok ()), .cleared (.ofNat 2), .started 2 0, .started 1 0,
        .armed 2 0 0, .minted 2 true, .armed 1 0 0, .minted 1 false] := ⟨_, rfl, rfl⟩
  exact hlog ▸ (timers_are_delivered ⟨false, 0, 0, _, hrun⟩).1

end Runtime

end NovaRuntime
