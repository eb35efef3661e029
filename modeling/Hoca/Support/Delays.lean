import Hoca.Support.Entries

namespace Hoca.Support

open Semaphores

section Clock

-- The clock goes up: a reading of it that is ahead by d was made d later.
theorem le_of_toLong_le {c₁ c₂ d : Int} (hc : c₁ ≤ c₂) (h : toLong c₁ + d ≤ toLong c₂) :
    c₁ + d ≤ c₂ := by
  have hb₁ := toLong_bounds c₁
  have hb₂ := toLong_bounds c₂
  obtain ⟨k₁, hk₁⟩ := toLong_add_mul c₁
  obtain ⟨k₂, hk₂⟩ := toLong_add_mul c₂
  have hk : k₁ ≤ k₂ := by omega
  omega

-- The sum stays in range and off the marker just when the time computed is neither
-- the marker nor before the call.
theorem computed_iff {t d : Int} (ht : -2 ^ 31 ≤ t) (ht' : t < 2 ^ 31) (hd : 0 ≤ d)
    (hd' : d < 2 ^ 31) :
    (t + d < 2 ^ 31 ∧ t + d ≠ -1) ↔ (t ≤ toLong (t + d) ∧ toLong (t + d) ≠ -1) := by
  have hb := toLong_bounds (t + d)
  obtain ⟨k, hk⟩ := toLong_add_mul (t + d)
  constructor
  · rintro ⟨hr, hm⟩
    rw [toLong_of_bounds (by omega) hr]
    exact ⟨by omega, hm⟩
  · rintro ⟨hr, hm⟩
    have hzero : k = 0 := by omega
    subst hzero
    omega

end Clock

-- The time cron has read to compare the entry with.
def CronPc.reading (i : Term) : CronPc → Option Int
  | .marker j _ t => if j = i then some t else none
  | .compare j _ t => if j = i then some t else none
  | _ => none

def CronPc.Resets (i : Term) : CronPc → Prop
  | .reset j _ => j = i
  | _ => False

theorem CronPc.Resets.notices {i : Term} {cron : CronPc} (h : cron.Resets i) : cron.Notices i := by
  cases cron with
  | reset j b => exact h
  | _ => exact False.elim h

-- A time w for a delay of d that was asked for at c.
structure Due (i : Term) (clock : Int) (cron : CronPc) (c d w : Int) : Prop where
  nonneg : 0 ≤ d
  computed : ∃ c', c ≤ c' ∧ c' ≤ clock ∧ w = toLong c' + d
  read : ∀ t ∈ cron.reading i, w ≤ t → c + d ≤ clock

structure Timely (i : Term) (clock : Int) (cron : CronPc) (pc : TermPc) (wakeUpTime : Int) :
    Prop where
  called : ∀ c d, pc = .delay c d → 0 ≤ d ∧ c ≤ clock
  computed : ∀ c d w, pc = .lockTable c d w ∨ pc = .write c d w → Due i clock cron c d w
  asked : ∀ c d, pc = .block c d ∨ pc = .delayed c d → wakeUpTime ≠ -1 →
    Due i clock cron c d wakeUpTime
  passed : ∀ c d, pc = .block c d ∨ pc = .delayed c d → wakeUpTime = -1 ∨ cron.Resets i →
    c + d ≤ clock

section Due

variable {i : Term} {clock clock' : Int} {cron cron' : CronPc} {pc pc' : TermPc} {c d w x : Int}

theorem Due.ages (h : Due i clock cron c d w) (hclock : clock ≤ clock') : Due i clock' cron c d w where
  nonneg := h.nonneg
  computed := by
    obtain ⟨c', hc, hc', hw⟩ := h.computed
    exact ⟨c', hc, le_trans hc' hclock, hw⟩
  read t ht hw := le_trans (h.read t ht hw) hclock

-- What cron reads now reaches the time only when the delay is over.
theorem Due.moves (h : Due i clock cron c d w)
    (hread : ∀ t ∈ cron'.reading i, t ∈ cron.reading i ∨ t = toLong clock) :
    Due i clock cron' c d w where
  nonneg := h.nonneg
  computed := h.computed
  read t ht hw := by
    rcases hread t ht with ht | rfl
    · exact h.read t ht hw
    · obtain ⟨c', hc, hc', rfl⟩ := h.computed
      have hle := le_of_toLong_le hc' hw
      omega

namespace Timely

theorem ages (h : Timely i clock cron pc x) (hclock : clock ≤ clock') :
    Timely i clock' cron pc x where
  called c d hpc := ⟨(h.called c d hpc).1, le_trans (h.called c d hpc).2 hclock⟩
  computed c d w hpc := (h.computed c d w hpc).ages hclock
  asked c d hpc hx := (h.asked c d hpc hx).ages hclock
  passed c d hpc hx := le_trans (h.passed c d hpc hx) hclock

theorem moves (h : Timely i clock cron pc x)
    (hread : ∀ t ∈ cron'.reading i, t ∈ cron.reading i ∨ t = toLong clock)
    (hresets : cron'.Resets i → ∃ t ∈ cron.reading i, x ≤ t) : Timely i clock cron' pc x where
  called := h.called
  computed c d w hpc := (h.computed c d w hpc).moves hread
  asked c d hpc hx := (h.asked c d hpc hx).moves hread
  passed c d hpc hx := by
    by_cases hmarker : x = -1
    · exact h.passed c d hpc (Or.inl hmarker)
    · obtain ⟨t, ht, hle⟩ := hresets (hx.resolve_left hmarker)
      exact (h.asked c d hpc hmarker).read t ht hle

theorem resets (h : Timely i clock cron pc x) (hresets : cron.Resets i)
    (hread : ∀ t, t ∉ cron'.reading i) : Timely i clock cron' pc (-1) where
  called := h.called
  computed _ _ _ hpc := (h.computed _ _ _ hpc).moves fun t ht => absurd ht (hread t)
  asked _ _ _ hx := absurd rfl hx
  passed c d hpc _ := h.passed c d hpc (Or.inr hresets)

theorem calls (hd : 0 ≤ d) : Timely i clock cron (.delay clock d) x where
  called c d' hpc := by
    cases hpc
    exact ⟨hd, le_rfl⟩
  computed c d w hpc := by simp at hpc
  asked c d hpc := by simp at hpc
  passed c d hpc := by simp at hpc

theorem computes (h : Timely i clock cron (.delay c d) x) (hrange : toLong clock + d < 2 ^ 31)
    (hread : ∀ t ∈ cron.reading i, d = 0 ∨ t < toLong clock + d) :
    Timely i clock cron (.lockTable c d (toLong (toLong clock + d))) x where
  called c d hpc := by simp at hpc
  computed c' d' w hpc := by
    obtain ⟨hnonneg, hc⟩ := h.called c d rfl
    have hbounds := toLong_bounds clock
    rw [toLong_of_bounds (by omega) hrange] at hpc
    simp only [TermPc.lockTable.injEq, reduceCtorEq, or_false] at hpc
    obtain ⟨rfl, rfl, rfl⟩ := hpc
    refine ⟨hnonneg, ⟨clock, hc, le_rfl, rfl⟩, ?_⟩
    intro t ht hw
    have hd := hread t ht
    omega
  asked c d hpc := by simp at hpc
  passed c d hpc := by simp at hpc

theorem locks (h : Timely i clock cron (.lockTable c d w) x) :
    Timely i clock cron (.write c d w) x where
  called c d hpc := by simp at hpc
  computed c' d' w' hpc := by
    simp only [TermPc.write.injEq, reduceCtorEq, false_or] at hpc
    obtain ⟨rfl, rfl, rfl⟩ := hpc
    exact h.computed _ _ _ (Or.inl rfl)
  asked c d hpc := by simp at hpc
  passed c d hpc := by simp at hpc

theorem writes (h : Timely i clock cron (.write c d w) x) (hw : w ≠ -1) (hresets : ¬ cron.Resets i) :
    Timely i clock cron (.block c d) w where
  called c d hpc := by simp at hpc
  computed c d w hpc := by simp at hpc
  asked c' d' hpc _ := by
    simp only [TermPc.block.injEq, reduceCtorEq, or_false] at hpc
    obtain ⟨rfl, rfl⟩ := hpc
    exact h.computed _ _ _ (Or.inr rfl)
  passed _ _ _ hx := (hx.elim hw hresets).elim

theorem blocks (h : Timely i clock cron (.block c d) x) :
    Timely i clock cron (.delayed c d) x where
  called c d hpc := by simp at hpc
  computed c d w hpc := by simp at hpc
  asked c' d' hpc := by
    simp only [TermPc.delayed.injEq, reduceCtorEq, false_or] at hpc
    obtain ⟨rfl, rfl⟩ := hpc
    exact h.asked _ _ (Or.inl rfl)
  passed c' d' hpc := by
    simp only [TermPc.delayed.injEq, reduceCtorEq, false_or] at hpc
    obtain ⟨rfl, rfl⟩ := hpc
    exact h.passed _ _ (Or.inl rfl)

-- The process moves outside delay.
theorem leaves (h : ∀ c d w, pc ≠ .delay c d ∧ pc ≠ .lockTable c d w ∧ pc ≠ .write c d w ∧
    pc ≠ .block c d ∧ pc ≠ .delayed c d) : Timely i clock cron pc x where
  called c d hpc := ((h c d 0).1 hpc).elim
  computed c d w hpc := (hpc.elim (h c d w).2.1 (h c d w).2.2.1).elim
  asked c d hpc := (hpc.elim (h c d 0).2.2.2.1 (h c d 0).2.2.2.2).elim
  passed c d hpc := (hpc.elim (h c d 0).2.2.2.1 (h c d 0).2.2.2.2).elim

end Timely

end Due

namespace System

variable {s s' : System} {a : Action} {i j : Term}

def Timely (s : System) (i : Term) : Prop :=
  Support.Timely i s.clock s.cron (s.term i) (s.wakeUpTime i)

-- The process computes a time in range and off the marker, and what cron has read
-- before for its entry does not reach that time.
def Dated (i : Term) (s : System) (a : Action) : Prop :=
  a = .term i → ∀ d ∈ (s.term i).asking, toLong s.clock + d < 2 ^ 31 ∧ toLong s.clock + d ≠ -1 ∧
    ∀ t ∈ s.cron.reading i, d = 0 ∨ t < toLong s.clock + d

instance (i : Term) (s : System) (a : Action) : Decidable (Dated i s a) :=
  inferInstanceAs (Decidable (_ → _))

theorem next_reading (i j : Term) (b : Bool) (t : Int) : t ∉ (next j b).reading i :=
  next_holds (P := fun pc => t ∉ pc.reading i) nofun nofun nofun j

theorem next_resets (i j : Term) (b : Bool) : ¬ (next j b).Resets i :=
  next_holds (P := fun pc => ¬ pc.Resets i) (fun _ => id) id id j

theorem initial_timely (clock : Int) (i : Term) : Timely (initial clock) i :=
  Support.Timely.leaves fun _ _ _ => by simp [initial]

-- Cron does not read the clock for this entry.
theorem Timely.moves (h : s.Timely i) {pc : CronPc} {m : Sems Sem Proc}
    (hread : ∀ t, t ∉ pc.reading i) (hresets : ¬ pc.Resets i) :
    Timely { s with cron := pc, sems := m } i :=
  Support.Timely.moves h (fun t ht => absurd ht (hread t)) fun hr => absurd hr hresets

theorem Timely.cronStep (h : s.Timely i) (hs : s.cronStep = some s') :
    s'.Timely i := by
  unfold System.cronStep at hs
  split at hs
  · next j hj =>
    cases hs
    have hmoves : ∀ pc : CronPc, (∀ t, t ∉ pc.reading i) → ¬ pc.Resets i →
        Timely { s with term := Function.update s.term j .tprocess, cron := pc } i := by
      intro pc hread hresets
      unfold Timely
      dsimp only
      by_cases hij : i = j
      · subst hij
        rw [Function.update_self]
        exact Support.Timely.leaves fun _ _ _ => by simp
      · rw [Function.update_of_ne hij]
        exact h.moves (m := s.sems) hread hresets
    split
    · exact hmoves _ nofun id
    · exact hmoves _ nofun id
  · cases hs
    exact h.moves nofun id
  · cases hs
    split
    · exact h.moves nofun id
    · exact h.moves nofun id
  · cases hs
    exact h.moves nofun id
  · cases hs
  · cases hs
    exact h.moves nofun id
  · next j b hpc =>
    cases hs
    apply Support.Timely.moves h _ False.elim
    intro t ht
    simp only [CronPc.reading] at ht
    split at ht
    · exact Or.inr (Option.some.inj ht).symm
    · cases ht
  · next j b t hpc =>
    cases hs
    split
    · apply Support.Timely.moves h _ False.elim
      intro t' ht
      rw [hpc]
      exact Or.inl ht
    · exact h.moves (next_reading i j b) (next_resets i j b)
  · next j b t hpc =>
    cases hs
    split
    · next hx =>
      have hread : ∀ t', t' ∉ (CronPc.reset j b).reading i := nofun
      apply Support.Timely.moves h fun t' ht => absurd ht (hread t')
      rintro rfl
      rw [hpc]
      exact ⟨t, if_pos rfl, hx⟩
    · exact h.moves (next_reading i j b) (next_resets i j b)
  · next j b hpc =>
    cases hs
    have hread : ∀ t, t ∉ (CronPc.wake j b).reading i := nofun
    unfold Timely
    dsimp only
    by_cases hij : i = j
    · subst hij
      rw [Function.update_self]
      apply Support.Timely.resets h _ hread
      rw [hpc]
      rfl
    · rw [Function.update_of_ne hij]
      exact Support.Timely.moves h (fun t ht => absurd ht (hread t)) False.elim
  · next j b hpc =>
    cases hs
    exact h.moves (next_reading i j true) (next_resets i j true)
  · cases hs
    exact h.moves nofun id
  · cases hs
    exact h.moves nofun id
  · cases hs
    exact h.moves nofun id

theorem Timely.other (h : s.Timely i) (hij : i ≠ j) {pc : TermPc} {m : Sems Sem Proc}
    {f : Term → Int} {n : Int} (htime : f i = s.wakeUpTime i) :
    Timely { s.setTerm j pc with sems := m, wakeUpTime := f, active_t_processes := n } i := by
  unfold Timely setTerm
  dsimp only
  rw [Function.update_of_ne hij, htime]
  exact h

theorem Timely.termStep_other (h : s.Timely i) (hij : i ≠ j) (hs : s.termStep j = some s') :
    s'.Timely i := by
  unfold termStep at hs
  split at hs
  case h_7 =>
    cases hs
    exact h.other hij (Function.update_of_ne hij ..)
  all_goals cases hs
  all_goals exact h.other hij rfl

theorem Timely.self {pc : TermPc} {m : Sems Sem Proc} {f : Term → Int} {n : Int}
    (h : Support.Timely i s.clock s.cron pc (f i)) :
    Timely { s.setTerm i pc with sems := m, wakeUpTime := f, active_t_processes := n } i := by
  unfold Timely setTerm
  dsimp only
  rw [Function.update_self]
  exact h

theorem Timely.termStep_self (h : s.Timely i) (hentry : s.Entry i) (hd : Dated i s (.term i))
    (hs : s.termStep i = some s') : s'.Timely i := by
  unfold termStep at hs
  unfold Timely at h
  split at hs
  · cases hs
  · cases hs
    exact Timely.self (Support.Timely.leaves fun _ _ _ => by simp)
  · cases hs
    exact Timely.self (Support.Timely.leaves fun _ _ _ => by simp)
  · cases hs
  · next c d hpc =>
    cases hs
    obtain ⟨hrange, -, hread⟩ := hd rfl d (hpc.symm ▸ rfl)
    rw [hpc] at h
    exact Timely.self (h.computes hrange hread)
  · next hpc =>
    cases hs
    rw [hpc] at h
    exact Timely.self h.locks
  · next c d w hpc =>
    cases hs
    have hidle := hentry.idle (by rw [hpc]; exact id)
    have hresets : ¬ s.cron.Resets i := fun hr => hentry.noticed hr.notices hidle.1
    rw [hpc] at h
    apply Timely.self
    rw [Function.update_self]
    exact h.writes (hentry.unmarked c d w (Or.inr hpc)) hresets
  · next hpc =>
    cases hs
    rw [hpc] at h
    exact Timely.self h.blocks
  · cases hs
    exact Timely.self (Support.Timely.leaves fun _ _ _ => by simp)
  · cases hs
    exact Timely.self (Support.Timely.leaves fun _ _ _ => by simp)
  · cases hs
    exact Timely.self (Support.Timely.leaves fun _ _ _ => by simp)
  · cases hs
    apply Timely.self
    split
    · exact Support.Timely.leaves fun _ _ _ => by simp
    · exact Support.Timely.leaves fun _ _ _ => by simp
  · cases hs
    exact Timely.self (Support.Timely.leaves fun _ _ _ => by simp)
  · cases hs
    exact Timely.self (Support.Timely.leaves fun _ _ _ => by simp)
  · cases hs

theorem Timely.step (h : s.Timely i) (hentry : s.Entry i) (hd : Dated i s a)
    (hasked : ∀ d, a = .delay i d → 0 ≤ d) (hs : System.step a s = some s') : s'.Timely i := by
  cases a with
  | tick =>
      rw [step_tick hs]
      exact Support.Timely.ages h (Int.le_add_one le_rfl)
  | cron => exact h.cronStep (step_cron hs).2
  | term j =>
      by_cases hij : i = j
      · subst hij
        exact h.termStep_self hentry hd (step_term hs).2.2
      · exact h.termStep_other hij (step_term hs).2.2
  | delay j d =>
      obtain ⟨-, rfl⟩ := step_delay hs
      by_cases hij : i = j
      · subst hij
        exact Timely.self (Support.Timely.calls (hasked d rfl))
      · exact h.other hij rfl
  | terminate j =>
      obtain ⟨-, rfl⟩ := step_terminate hs
      by_cases hij : i = j
      · subst hij
        exact Timely.self (Support.Timely.leaves fun _ _ _ => by simp)
      · exact h.other hij rfl

-- The condition on the sum is one on the time the code computes: neither the marker,
-- nor before the call, nor reached by what cron has read.
theorem dated_iff (hd : ∀ d ∈ (s.term i).asking, 0 ≤ d ∧ d < 2 ^ 31) :
    Dated i s (.term i) ↔ ∀ d ∈ (s.term i).asking,
      (toLong s.clock ≤ toLong (toLong s.clock + d) ∧ toLong (toLong s.clock + d) ≠ -1) ∧
        ∀ t ∈ s.cron.reading i, d = 0 ∨ t < toLong (toLong s.clock + d) := by
  have hclock := toLong_bounds s.clock
  constructor
  · intro h d hask
    obtain ⟨hrange, hmarker, hread⟩ := h rfl d hask
    obtain ⟨hnonneg, hlt⟩ := hd d hask
    refine ⟨(computed_iff hclock.1 hclock.2 hnonneg hlt).mp ⟨hrange, hmarker⟩, ?_⟩
    rw [toLong_of_bounds (by omega) hrange]
    exact hread
  · intro h _ d hask
    obtain ⟨hcomputed, hread⟩ := h d hask
    obtain ⟨hnonneg, hlt⟩ := hd d hask
    obtain ⟨hrange, hmarker⟩ := (computed_iff hclock.1 hclock.2 hnonneg hlt).mpr hcomputed
    rw [toLong_of_bounds (by omega) hrange] at hread
    exact ⟨hrange, hmarker, hread⟩

theorem Dated.unmarked (hd : Dated i s a) (h : s.Timely i) : Unmarked i s a := by
  intro ha d hask
  obtain ⟨hrange, hmarker, -⟩ := hd ha d hask
  have hclock := toLong_bounds s.clock
  have hnonneg : 0 ≤ d := by
    cases hpc : s.term i with
    | delay c d' =>
        rw [hpc] at hask
        cases hask
        exact (h.called c d hpc).1
    | _ =>
        rw [hpc] at hask
        cases hask
  rw [toLong_of_bounds (by omega) hrange]
  exact hmarker

-- A delay is at least as long as asked, and the entry is not taken for the marker
-- while the process waits.
theorem run_delays {as : List Action} {clock : Int} (h : run as (initial clock) = some s)
    (hasked : ∀ d, Action.delay i d ∈ as → 0 ≤ d)
    (hd : Runs.Along System.step (Dated i) as (initial clock)) :
    (∀ c d, s.term i = .delayed c d → ¬ s.sems.Blocked (.term i) → c + d ≤ s.clock) ∧
      (Proc.term i ∈ s.sems.queue (.sem i) → s.cron.Wakes i ∨ s.wakeUpTime i ≠ -1) := by
  have hrange : Runs.Along System.step (fun _ a => ∀ d, a = .delay i d → 0 ≤ d) as (initial clock) := by
    apply Runs.along_of_forall
    rintro a ha _ d rfl
    exact hasked d ha
  have hinv := Runs.run_invariant (I := fun s => s.Born ∧ s.Timely i ∧ s.Entry i)
    (fun _ _ _ h hd hs => ⟨h.1.step hs, h.2.1.step h.2.2 hd.1 hd.2 hs,
      h.2.2.step h.1 (hd.1.unmarked h.2.1) hs⟩)
    ⟨initial_born clock, initial_timely clock i, initial_entry clock i⟩ (hd.and hrange) h
  obtain ⟨-, htimely, hentry⟩ := hinv
  constructor
  · intro c d hpc hb
    have hx := (hentry.released hpc fun hq => hb ⟨_, hq⟩).1
    exact htimely.passed c d (Or.inr hpc) (Or.inl hx)
  · exact hentry.waits

-- A process asks for a delay, and cron makes one pass when the clock has gone up by n.
def asks (d : Int) (n : ℕ) : List Action :=
  [.cron, .cron, .term 0, .term 0, .delay 0 d, .term 0, .term 0, .term 0, .term 0] ++
    List.replicate n .tick ++ List.replicate 8 .cron

theorem run_delays_sample : ∃ s, run (asks 3 3) (initial 0) = some s ∧
    s.term 0 = .delayed 0 3 ∧ 0 + 3 ≤ s.clock := by
  have hsome : (run (asks 3 3) (initial 0)).isSome = true := by decide +kernel
  obtain ⟨s, hs⟩ := Option.isSome_iff_exists.mp hsome
  have hterm : ∀ s ∈ run (asks 3 3) (initial 0),
      s.term 0 = .delayed 0 3 ∧ ¬ s.sems.Blocked (.term 0) := by
    decide +kernel
  have hasked : ∀ d, Action.delay 0 d ∈ asks 3 3 → 0 ≤ d := by
    intro d hd
    simp [asks] at hd
    omega
  obtain ⟨hdelay, -⟩ := run_delays hs hasked (by decide +kernel)
  exact ⟨s, hs, (hterm s hs).1, hdelay 0 3 (hterm s hs).1 (hterm s hs).2⟩

-- Near the end of the clock's range the sum wraps, and the process leaves delay at
-- once. When the sum is the marker cron passes over the process.
theorem delay_ends_early :
    (∃ s, run (asks 100 0) (initial (2 ^ 31 - 10)) = some s ∧
      s.term 0 = .delayed (2 ^ 31 - 10) 100 ∧ ¬ s.sems.Blocked (.term 0) ∧
        s.clock < 2 ^ 31 - 10 + 100) ∧
    ∃ s, run (asks 100 0) (initial (-101)) = some s ∧ Proc.term 0 ∈ s.sems.queue (.sem 0) ∧
      ¬ s.cron.Wakes 0 ∧ s.wakeUpTime 0 = -1 := by
  have hearly : ∃ s ∈ run (asks 100 0) (initial (2 ^ 31 - 10)),
      s.term 0 = .delayed (2 ^ 31 - 10) 100 ∧ ¬ s.sems.Blocked (.term 0) ∧
        s.clock < 2 ^ 31 - 10 + 100 := by
    decide +kernel
  have hmarker : ∃ s ∈ run (asks 100 0) (initial (-101)), Proc.term 0 ∈ s.sems.queue (.sem 0) ∧
      ¬ s.cron.Wakes 0 ∧ s.wakeUpTime 0 = -1 := by
    decide +kernel
  exact ⟨hearly, hmarker⟩

end System

end Hoca.Support
