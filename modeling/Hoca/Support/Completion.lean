import Hoca.Support.Progress

namespace Hoca.Support

open Semaphores

-- The steps of cron to its end when it finds no process counted and no entry set.
def CronPc.closing : CronPc → ℕ
  | .gone => 0
  | .terminateproc => 1
  | .loop => 2
  | .first => 3
  | .asleep => 3
  | .waitclock => 4
  | .unlockTable => 5
  | .scan i _ => 2 * (MAXTPROC - i.val) + 5
  | .marker i _ _ => 2 * (MAXTPROC - i.val) + 4
  | .lockTable => 2 * MAXTPROC + 6
  | .createproc _ | .compare _ _ _ | .reset _ _ | .wake _ _ => 0

-- The steps of cron from one entry to the vector that releases the process of another,
-- in this pass over the table or, when the entry is behind it, in the next.
def reach (i : Term) : ℕ := 5 * i.val + 5

def around (i j : Term) : ℕ := 5 * (MAXTPROC - j.val) + 5 + reach i

def ahead (i j : Term) : ℕ := if j.val ≤ i.val then 5 * (i.val - j.val) + 5 else around i j

-- The same when cron has read the clock for the entry.
def compared (i j : Term) (wakeUpTime currentTime : Int) : ℕ :=
  if j = i ∧ currentTime < wakeUpTime then around i j else ahead i j

theorem ahead_le (i j : Term) : ahead i j ≤ around i j := by
  unfold ahead
  split
  · have hi := i.isLt
    unfold around reach
    omega
  · exact le_refl _

theorem ahead_zero (i : Term) : ahead i 0 = reach i := by
  unfold ahead
  exact if_pos (Nat.zero_le _)

theorem around_le (i j : Term) (h : i.val ≤ j.val) : around i j ≤ 5 * MAXTPROC + 10 := by
  have hj := j.isLt
  unfold around reach
  omega

-- Where cron goes on from an entry whose process it does not release.
theorem next_ahead {i j : Term} {P : CronPc → Prop} {b : Bool} {n : ℕ}
    (hscan : ∀ k, ahead i k + 5 ≤ n → P (.scan k b)) (hloop : reach i + 10 ≤ n → P .loop)
    (hunlock : reach i + 10 ≤ n → P .unlockTable)
    (hn : (j ≠ i ∧ n = ahead i j) ∨ (j = i ∧ n = around i i)) : P (System.next j b) := by
  have hi := i.isLt
  have hj := j.isLt
  have hne : j ≠ i → j.val ≠ i.val := fun h hval => h (Fin.ext hval)
  by_cases hnext : j.val + 1 < MAXTPROC
  · rw [System.next, dif_pos hnext]
    apply hscan
    rcases hn with ⟨hji, rfl⟩ | ⟨rfl, rfl⟩
    · have hval := hne hji
      unfold ahead around
      simp only
      split
      · rw [if_pos (by omega)]
        omega
      · rw [if_neg (by omega)]
        omega
    · unfold ahead around
      simp only
      rw [if_neg (by omega)]
      omega
  · have hlast : reach i + 10 ≤ n := by
      rcases hn with ⟨hji, rfl⟩ | ⟨rfl, rfl⟩
      · have hval := hne hji
        unfold ahead
        rw [if_neg (by omega)]
        unfold around
        omega
      · unfold around
        omega
    rw [System.next, dif_neg hnext]
    split
    · exact hloop hlast
    · exact hunlock hlast

theorem five_le_ahead (i j : Term) : 5 ≤ ahead i j := by
  unfold ahead
  split
  · omega
  · unfold around
    omega

theorem five_le_compared (i j : Term) (wakeUpTime currentTime : Int) :
    5 ≤ compared i j wakeUpTime currentTime := by
  unfold compared
  split
  · exact (five_le_ahead i j).trans (ahead_le i j)
  · exact five_le_ahead i j

-- The steps of cron to the vector that releases the process with this entry.
def CronPc.left (i : Term) (wakeUpTime : Int) : CronPc → ℕ
  | .createproc j => MAXTPROC - j.val + 3 + reach i
  | .first => 3 + reach i
  | .loop => 2 + reach i
  | .lockTable => 1 + reach i
  | .terminateproc => 1
  | .gone => 0
  | .scan j _ => ahead i j
  | .marker j _ currentTime => compared i j wakeUpTime currentTime - 1
  | .compare j _ currentTime => compared i j wakeUpTime currentTime - 2
  | .reset j _ => ahead i j - 3
  | .wake j _ => ahead i j - 4
  | .unlockTable => 5 + reach i
  | .waitclock => 4 + reach i
  | .asleep => 3 + reach i

theorem left_next {i j : Term} {x : Int} {b : Bool} {n : ℕ}
    (hn : (j ≠ i ∧ n = ahead i j) ∨ (j = i ∧ n = around i i)) :
    (System.next j b).left i x + 5 ≤ n := by
  apply next_ahead (P := fun pc => pc.left i x + 5 ≤ n) _ _ _ hn
  · exact fun k hk => hk
  · intro hloop
    simp only [CronPc.left]
    omega
  · intro hunlock
    simp only [CronPc.left]
    omega

namespace System

variable {s s' : System} {a : Action} {i j : Term} {as bs : List Action} {clock : Int}

section Closing

def AllGone (s : System) : Prop := ∀ i, ∃ b, s.term i = .gone b

theorem AllGone.unmarked (h : s.AllGone) (a : Action) (i : Term) : Unmarked i s a := by
  intro _ d hd
  obtain ⟨b, hb⟩ := h i
  rw [hb] at hd
  cases hd

theorem AllGone.undivided (h : s.AllGone) (a : Action) : Undivided s a := by
  intro i _ hloads
  obtain ⟨b, hb⟩ := h i
  rw [hb] at hloads
  exact False.elim hloads

theorem AllGone.wakeUpTime (h : s.AllGone) (hs : s.Sane) (i : Term) :
    s.wakeUpTime i = -1 ∧ ¬ s.cron.Wakes i := by
  obtain ⟨b, hb⟩ := h i
  have hidle := (hs.entry i).idle
  rw [hb] at hidle
  exact ⟨(hidle id).1, (hidle id).2.2⟩

theorem AllGone.active (h : s.AllGone) (hs : s.Counting) : s.active_t_processes = 0 := by
  rw [hs.tallied.counted]
  refine Finset.sum_eq_zero fun i _ => ?_
  obtain ⟨b, hb⟩ := h i
  rw [hb]
  rfl

theorem next_closing (j : Term) (b : Bool) :
    (next j b).closing + 1 ≤ 2 * (MAXTPROC - j.val) + 4 := by
  have hj := j.isLt
  unfold next
  split
  · simp only [CronPc.closing]
    omega
  · split
    · simp only [CronPc.closing]
      omega
    · simp only [CronPc.closing]
      omega

theorem AllGone.closing (h : s.AllGone) (hs : s.Counting) (hstep : s.cronStep = some s') :
    s'.AllGone ∧ s'.cron.closing + 1 ≤ s.cron.closing := by
  unfold System.cronStep at hstep
  split at hstep
  · next j hj =>
    obtain ⟨b, hb⟩ := h j
    cases (hs.born j j hj le_rfl).symm.trans hb
  · next hpc =>
    cases hstep
    rw [hpc]
    exact ⟨h, le_refl _⟩
  · next hpc =>
    cases hstep
    rw [hpc, if_pos (h.active hs)]
    exact ⟨h, le_refl _⟩
  · next hpc =>
    cases hstep
    rw [hpc]
    exact ⟨h, le_refl _⟩
  · cases hstep
  · next hpc =>
    cases hstep
    rw [hpc]
    exact ⟨h, le_refl _⟩
  · next j b hpc =>
    cases hstep
    rw [hpc]
    exact ⟨h, by simp [CronPc.closing]⟩
  · next j b t hpc =>
    cases hstep
    rw [hpc, if_neg fun hx => hx (h.wakeUpTime hs.toSane j).1]
    exact ⟨h, next_closing j b⟩
  · next j b t hpc =>
    have hnoticed := (hs.entry j).noticed
    rw [hpc] at hnoticed
    exact absurd (h.wakeUpTime hs.toSane j).1 (hnoticed rfl)
  · next j b hpc =>
    have hnoticed := (hs.entry j).noticed
    rw [hpc] at hnoticed
    exact absurd (h.wakeUpTime hs.toSane j).1 (hnoticed rfl)
  · next j b hpc =>
    have hwakes := (h.wakeUpTime hs.toSane j).2
    rw [hpc] at hwakes
    exact absurd rfl hwakes
  · next hpc =>
    cases hstep
    rw [hpc]
    exact ⟨h, le_refl _⟩
  · next hpc =>
    cases hstep
    rw [hpc]
    exact ⟨h, le_refl _⟩
  · next hpc =>
    cases hstep
    rw [hpc]
    exact ⟨h, le_refl _⟩

theorem AllGone.step (h : s.AllGone) (hs : s.Counting) (hstep : System.step a s = some s') :
    s'.AllGone ∧ s'.cron.closing + (if a == .cron then 1 else 0) ≤ s.cron.closing := by
  have hpc : ∀ i, s.term i ≠ .user := by
    intro i hi
    obtain ⟨b, hb⟩ := h i
    cases hi.symm.trans hb
  cases a with
  | tick =>
      rw [step_tick hstep]
      exact ⟨h, le_refl _⟩
  | cron => exact h.closing hs (step_cron hstep).2
  | term i =>
      obtain ⟨b, hb⟩ := h i
      have hterm := (step_term hstep).2.2
      rw [termStep, hb] at hterm
      cases hterm
  | delay i d => exact absurd (step_delay hstep).1 (hpc i)
  | terminate i => exact absurd (step_terminate hstep).1 (hpc i)

theorem closing_le (pc : CronPc) : pc.closing ≤ 2 * MAXTPROC + 6 := by
  unfold CronPc.closing
  split
  all_goals omega

-- When the last T-process has gone, and no update of active_t_processes has overlapped
-- another one, cron comes to its own end, in a few steps of which none has to wait for
-- anybody.
theorem run_shuts_down (h : run as (initial clock) = some s)
    (hu : Runs.Along System.step (fun s a => ∀ i, Unmarked i s a) as (initial clock))
    (hdiv : Runs.Along System.step Undivided as (initial clock)) (hgone : s.AllGone)
    (hrun : run bs s = some s') :
    bs.count .cron ≤ 2 * MAXTPROC + 6 ∧
      (s'.cron = .gone ∨ ∃ s'', System.step .cron s' = some s'') := by
  have hcounting := (initial_counting clock).run hu hdiv h
  have hkeep : ∀ s a s', (s.Counting ∧ s.AllGone) → System.step a s = some s' →
      s'.Counting ∧ s'.AllGone := fun s a s' ⟨hs, hg⟩ hstep =>
    ⟨hs.step (hg.unmarked a) (hg.undivided a) hstep, (hg.step hs hstep).1⟩
  have hP : Runs.Along System.step (fun _ _ => True) bs s :=
    Runs.along_of_forall (fun _ _ _ => trivial) s
  have hrank := Runs.run_ranked (J := fun _ => True) (fun s => s.cron.closing) (· == .cron)
    (fun s a s' hs _ hstep => hkeep s a s' hs hstep)
    (fun s a s' ⟨hs, hg⟩ _ _ _ hstep => (hg.step hs hstep).2) ⟨hcounting, hgone⟩ hP
    (fun _ _ _ _ => trivial) hrun
  have hend := Runs.run_preserves hkeep ⟨hcounting, hgone⟩ hrun
  have hle := closing_le s.cron
  refine ⟨?_, ?_⟩
  · rw [List.count]
    omega
  · by_cases hon : s'.cron = .gone
    · exact Or.inl hon
    · obtain ⟨p, hp⟩ := hend.1.exists_ready hon
      cases p with
      | cron => exact Or.inr (Option.isSome_iff_exists.mp hp)
      | term i =>
          obtain ⟨b, hb⟩ := hend.2 i
          rcases hp with hp | hp
          · obtain ⟨s'', hs''⟩ := Option.isSome_iff_exists.mp hp
            have hterm := (step_term hs'').2.2
            rw [termStep, hb] at hterm
            cases hterm
          · cases hp.symm.trans hb

theorem run_shuts_down_sample : ∃ s s', run orderly (initial 0) = some s ∧
    run [.cron] s = some s' ∧ [Action.cron].count .cron ≤ 2 * MAXTPROC + 6 ∧
      (s'.cron = .gone ∨ ∃ s'', System.step .cron s' = some s'') := by
  have hend : ∃ s ∈ run orderly (initial 0), (∀ i, ∃ b, s.term i = .gone b) ∧
      (run [.cron] s).isSome := by
    decide +kernel
  obtain ⟨s, hs, hgone, hsome⟩ := hend
  obtain ⟨s', hs'⟩ := Option.isSome_iff_exists.mp hsome
  exact ⟨s, s', hs, hs', run_shuts_down hs (by decide +kernel) (by decide +kernel) hgone hs'⟩

end Closing

section Overdue

-- The process waits in delay, and its time is past or cron is about to release it.
structure Overdue (i : Term) (s : System) : Prop where
  waits : Proc.term i ∈ s.sems.queue (.sem i)
  past : s.wakeUpTime i = -1 ∨ s.wakeUpTime i ≤ toLong s.clock

def left (i : Term) (s : System) : ℕ := s.cron.left i (s.wakeUpTime i)

theorem Overdue.set (h : s.Overdue i) (hs : s.Sane) (hpc : ¬ s.cron.Wakes i) :
    s.wakeUpTime i ≠ -1 :=
  ((hs.entry i).waits h.waits).resolve_left hpc

-- Cron does not pass over an entry whose time is past, but for a time it has read
-- before.
theorem Overdue.reads (h : s.Overdue i) (hs : s.Sane) {b : Bool} (hpc : s.cron = .scan j b) :
    compared i j (s.wakeUpTime i) (toLong s.clock) = ahead i j := by
  apply if_neg
  rintro ⟨-, hlt⟩
  have hmark := h.set hs (hpc ▸ id)
  have hpast := h.past.resolve_left hmark
  omega

theorem Overdue.cronStep (h : s.Overdue i) (hs : s.Sane) (h' : s'.Overdue i) (hs' : s'.Sane)
    (hstep : s.cronStep = some s') : s'.left i + 1 ≤ s.left i := by
  have hstay : ∀ pc, s'.cron = pc → ¬ pc.Wakes i → s'.wakeUpTime i ≠ -1 := by
    rintro pc rfl hpc
    exact h'.set hs' hpc
  unfold System.cronStep at hstep
  split at hstep
  · next j hj =>
    cases hstep
    have hlt := j.isLt
    show CronPc.left i _ (dite _ _ _) + 1 ≤ s.cron.left i _
    rw [hj]
    split
    · simp only [CronPc.left]
      omega
    · simp only [CronPc.left]
      omega
  · next hpc =>
    cases hstep
    show CronPc.left i _ .loop + 1 ≤ s.cron.left i _
    rw [hpc]
    simp only [CronPc.left]
    omega
  · next hpc =>
    cases hstep
    show CronPc.left i _ (ite _ _ _) + 1 ≤ s.cron.left i _
    rw [hpc]
    split
    · simp only [CronPc.left]
      omega
    · simp only [CronPc.left]
      omega
  · next hpc =>
    cases hstep
    show CronPc.left i _ .gone + 1 ≤ s.cron.left i _
    rw [hpc]
    exact le_refl _
  · cases hstep
  · next hpc =>
    cases hstep
    show CronPc.left i _ (.scan 0 false) + 1 ≤ s.cron.left i _
    rw [hpc]
    simp only [CronPc.left, ahead_zero]
    omega
  · next j b hpc =>
    cases hstep
    have hfive := five_le_ahead i j
    show CronPc.left i _ (.marker j b (toLong s.clock)) + 1 ≤ s.cron.left i _
    rw [hpc]
    simp only [CronPc.left, h.reads hs hpc]
    omega
  · next j b t hpc =>
    cases hstep
    show CronPc.left i _ (ite _ _ _) + 1 ≤ s.cron.left i _
    rw [hpc]
    by_cases hx : s.wakeUpTime j ≠ -1
    · have hfive := five_le_compared i j (s.wakeUpTime i) t
      rw [if_pos hx]
      simp only [CronPc.left]
      omega
    · have hne : j ≠ i := by
        rintro rfl
        exact hx (h.set hs (hpc ▸ id))
      have hnext := left_next (x := s.wakeUpTime i) (b := b) (Or.inl ⟨hne, rfl⟩)
      rw [if_neg hx]
      show (next j b).left i (s.wakeUpTime i) + 1 ≤ compared i j (s.wakeUpTime i) t - 1
      rw [compared, if_neg fun hc => hne hc.1]
      omega
  · next j b t hpc =>
    cases hstep
    show CronPc.left i _ (ite _ _ _) + 1 ≤ s.cron.left i _
    rw [hpc]
    by_cases hx : s.wakeUpTime j ≤ t
    · have hfive := five_le_ahead i j
      have hread : ¬ (j = i ∧ t < s.wakeUpTime i) := by
        rintro ⟨rfl, hlt⟩
        omega
      rw [if_pos hx]
      simp only [CronPc.left, compared, if_neg hread]
      omega
    · rw [if_neg hx]
      by_cases hji : j = i
      · subst hji
        have hnext := left_next (i := j) (j := j) (x := s.wakeUpTime j) (b := b) (Or.inr ⟨rfl, rfl⟩)
        show (next j b).left j (s.wakeUpTime j) + 1 ≤ compared j j (s.wakeUpTime j) t - 2
        rw [compared, if_pos ⟨rfl, Int.not_le.mp hx⟩]
        omega
      · have hnext := left_next (x := s.wakeUpTime i) (b := b) (Or.inl ⟨hji, rfl⟩)
        show (next j b).left i (s.wakeUpTime i) + 1 ≤ compared i j (s.wakeUpTime i) t - 2
        rw [compared, if_neg fun hc => hji hc.1]
        omega
  · next j b hpc =>
    cases hstep
    have hfive := five_le_ahead i j
    show CronPc.left i _ (.wake j b) + 1 ≤ s.cron.left i _
    rw [hpc]
    simp only [CronPc.left]
    omega
  · next j b hpc =>
    cases hstep
    show CronPc.left i (s.wakeUpTime i) (next j true) + 1 ≤ s.cron.left i _
    rw [hpc]
    have hne : j ≠ i := by
      rintro rfl
      have hmark := (hs.entry j).woken
      rw [hpc] at hmark
      exact hstay _ rfl (next_wakes j j true) (hmark rfl)
    have hnext := left_next (x := s.wakeUpTime i) (b := true) (Or.inl ⟨hne, rfl⟩)
    show (next j true).left i (s.wakeUpTime i) + 1 ≤ ahead i j - 4
    omega
  · next hpc =>
    cases hstep
    show CronPc.left i _ .waitclock + 1 ≤ s.cron.left i _
    rw [hpc]
    simp only [CronPc.left]
    omega
  · next hpc =>
    cases hstep
    show CronPc.left i _ .asleep + 1 ≤ s.cron.left i _
    rw [hpc]
    simp only [CronPc.left]
    omega
  · next hpc =>
    cases hstep
    show CronPc.left i _ .loop + 1 ≤ s.cron.left i _
    rw [hpc]
    simp only [CronPc.left]
    omega

theorem termStep_wakeUpTime (hij : i ≠ j) (hstep : s.termStep j = some s') :
    s'.cron = s.cron ∧ s'.wakeUpTime i = s.wakeUpTime i := by
  unfold System.termStep at hstep
  split at hstep
  case h_7 hpc =>
    cases hstep
    exact ⟨rfl, Function.update_of_ne hij ..⟩
  all_goals cases hstep
  all_goals exact ⟨rfl, rfl⟩

theorem Overdue.step (h : s.Overdue i) (hs : s.Sane) (h' : s'.Overdue i) (hs' : s'.Sane)
    (hstep : System.step a s = some s') :
    s'.left i + (if a == .cron then 1 else 0) ≤ s.left i := by
  cases a with
  | tick =>
      rw [step_tick hstep]
      exact le_refl _
  | cron => exact h.cronStep hs h' hs' (step_cron hstep).2
  | term j =>
      have hij : i ≠ j := by
        rintro rfl
        exact (step_term hstep).2.1 ⟨_, h.waits⟩
      obtain ⟨hcron, htime⟩ := termStep_wakeUpTime hij (step_term hstep).2.2
      unfold left
      rw [hcron, htime]
      exact le_refl _
  | delay j d =>
      obtain ⟨-, rfl⟩ := step_delay hstep
      exact le_refl _
  | terminate j =>
      obtain ⟨-, rfl⟩ := step_terminate hstep
      exact le_refl _

theorem left_le (i : Term) (x : Int) (pc : CronPc) : pc.left i x ≤ 6 * MAXTPROC + 9 := by
  have hi := i.isLt
  have hreach : reach i ≤ 5 * MAXTPROC := by
    unfold reach
    omega
  have hahead : ∀ j, ahead i j ≤ 5 * MAXTPROC + 5 := by
    intro j
    have hj := j.isLt
    unfold ahead
    split
    · omega
    · unfold around reach
      omega
  have hcompared : ∀ j t, compared i j x t ≤ 5 * MAXTPROC + 10 := by
    intro j t
    unfold compared
    split
    · next hj => exact around_le i j (hj.1 ▸ le_refl _)
    · exact (hahead j).trans (by omega)
  unfold CronPc.left
  split
  case h_7 j b =>
    have hle := hahead j
    omega
  case h_8 j b t =>
    have hle := hcompared j t
    omega
  case h_9 j b t =>
    have hle := hcompared j t
    omega
  case h_10 j b =>
    have hle := hahead j
    omega
  case h_11 j b =>
    have hle := hahead j
    omega
  all_goals omega

-- A process whose time is past is released within a few steps of cron.
theorem run_delay_ends (h : run as (initial clock) = some s)
    (hu : Runs.Along System.step (fun s a => ∀ i, Unmarked i s a) as (initial clock))
    (hrun : run bs s = some s')
    (hu' : Runs.Along System.step (fun s a => ∀ i, Unmarked i s a) bs s)
    (hwait : ∀ cs s₁, cs <+: bs → run cs s = some s₁ → s₁.Overdue i) :
    bs.count .cron ≤ 6 * MAXTPROC + 9 := by
  have hsane := (initial_sane clock).run hu h
  have hrank := Runs.run_ranked (I := Sane) (left i) (· == .cron)
    (fun s a s' hs hu hstep => hs.step hu hstep)
    (fun s a s' hs hu hp hp' hstep => hp.step hs hp' (hs.step hu hstep) hstep)
    hsane hu' hwait hrun
  have hle := left_le i (s.wakeUpTime i) s.cron
  unfold left at hrank
  rw [List.count]
  omega

-- A delay of no time, until cron is about to release the process.
theorem run_delay_ends_sample : ∃ s s', run (delayed.take 10) (initial 0) = some s ∧
    run (List.replicate 6 .cron) s = some s' ∧ s'.Overdue 0 ∧
      (List.replicate 6 Action.cron).count .cron ≤ 6 * MAXTPROC + 9 := by
  have hend : ∃ s ∈ run (delayed.take 10) (initial 0), ∃ s' ∈ run (List.replicate 6 .cron) s,
      ∀ cs ∈ (List.replicate 6 Action.cron).inits, ∀ s₁ ∈ run cs s,
        Proc.term 0 ∈ s₁.sems.queue (.sem 0) ∧
          (s₁.wakeUpTime 0 = -1 ∨ s₁.wakeUpTime 0 ≤ toLong s₁.clock) := by
    decide +kernel
  obtain ⟨s, hs, s', hs', hall⟩ := hend
  have hwait : ∀ cs s₁, cs <+: List.replicate 6 Action.cron → run cs s = some s₁ → s₁.Overdue 0 := by
    intro cs s₁ hcs hrun
    obtain ⟨hq, hpast⟩ := hall cs ((List.mem_inits _ _).mpr hcs) s₁ hrun
    exact ⟨hq, hpast⟩
  have hu : Runs.Along System.step (fun s a => ∀ i, Unmarked i s a) (List.replicate 6 .cron) s :=
    Runs.along_of_forall (fun a ha s i hai => by
      rw [List.eq_of_mem_replicate ha] at hai
      cases hai) s
  exact ⟨s, s', hs, hs', hwait _ s' List.prefix_rfl hs',
    run_delay_ends hs (by decide +kernel) hs' hu hwait⟩

end Overdue

end System

end Hoca.Support
