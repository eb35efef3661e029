import Hoca.Support.Entries

namespace Hoca.Support

open Semaphores

-- What the process has added to wake_up_cron_sem in terminate.
def TermPc.notified : TermPc → Int
  | .terminateproc true => 1
  | .gone true => 1
  | _ => 0

-- What cron has taken from it before its loop.
def CronPc.started : CronPc → Int
  | .createproc _ => 0
  | .first => 0
  | _ => 1

-- What is on wake_up_cron_sem for one process: its delay that cron has not ended,
-- or its end.
def owed (m : Sems Sem Proc) (pc : TermPc) (i : Term) : Int := -m.word (.sem i) + pc.notified

structure Counted (cron : CronPc) (term : Term → TermPc) (m : Sems Sem Proc) : Prop where
  word : m.word .wake_up_cron_sem = ∑ i, owed m (term i) i - cron.started
  balanced : m.Balanced .wake_up_cron_sem

section Count

variable {cron cron' : CronPc} {term : Term → TermPc} {m m' : Sems Sem Proc} {i j : Term}
  {pc : TermPc}

namespace Counted

-- Cron moves and operates neither on wake_up_cron_sem nor on the semaphore of a
-- process.
theorem moves (h : Counted cron term m) (hstarted : cron'.started = cron.started)
    (hsem : ∀ i, m'.word (.sem i) = m.word (.sem i))
    (hword : m'.word .wake_up_cron_sem = m.word .wake_up_cron_sem)
    (hqueue : m'.queue .wake_up_cron_sem = m.queue .wake_up_cron_sem) : Counted cron' term m' where
  word := by
    have howed : ∀ i, owed m' (term i) i = owed m (term i) i := by
      intro i
      unfold owed
      rw [hsem]
    rw [Finset.sum_congr rfl fun i _ => howed i, hword, hstarted]
    exact h.word
  balanced := h.balanced.congr hword hqueue

theorem bears (h : Counted cron term m) (hstarted : cron'.started = cron.started)
    (hborn : term j = .unborn) : Counted cron' (Function.update term j .tprocess) m where
  word := by
    have howed : ∀ i, owed m (Function.update term j .tprocess i) i = owed m (term i) i := by
      intro i
      by_cases hij : i = j
      · subst hij
        rw [Function.update_self, hborn]
        rfl
      · rw [Function.update_of_ne hij]
    rw [Finset.sum_congr rfl fun i _ => howed i, hstarted]
    exact h.word
  balanced := h.balanced

theorem starts (h : Counted .first term m) (hcron : cron'.started = 1) (p : Proc) :
    Counted cron' term (m.op p (.P .wake_up_cron_sem)) where
  word := by
    have howed : ∀ i, owed (m.op p (.P .wake_up_cron_sem)) (term i) i = owed m (term i) i := by
      intro i
      unfold owed
      rw [word_sem_op m Sem.noConfusion]
    have hword := h.word
    rw [Finset.sum_congr rfl fun i _ => howed i, Sems.word_op, Op.sem, if_pos rfl, hcron, hword]
    simp only [Op.adds, CronPc.started]
    omega
  balanced := Sems.balanced_op h.balanced _ _

-- Cron releases a process, and its delay is no longer owed.
theorem wakes (h : Counted cron term m) (hstarted : cron'.started = cron.started) (j : Term)
    (p : Proc) : Counted cron' term
      (m.vector p [.V (.sem j), .P .wake_up_cron_sem, .V .cron_table_sem]) where
  word := by
    have hother : ∀ i, i ≠ j →
        owed (m.vector p [.V (.sem j), .P .wake_up_cron_sem, .V .cron_table_sem]) (term i) i =
          owed m (term i) i := by
      intro i hij
      unfold owed
      rw [word_sem_wake, if_neg (Ne.symm hij), Int.add_zero]
    have hword : (m.vector p [.V (.sem j), .P .wake_up_cron_sem, .V .cron_table_sem]).word
        .wake_up_cron_sem = m.word .wake_up_cron_sem - 1 := by
      simp [Sems.word_vector, Op.sem, Op.adds, Int.sub_eq_add_neg]
    have hself : owed (m.vector p [.V (.sem j), .P .wake_up_cron_sem, .V .cron_table_sem])
        (term j) j = owed m (term j) j - 1 := by
      unfold owed
      rw [word_sem_wake, if_pos rfl]
      omega
    rw [sum_update _ _ hother, hself, hword, hstarted, h.word]
    omega
  balanced := Sems.balanced_vector h.balanced _ _

-- A T-process moves, and what is owed for it changes with wake_up_cron_sem.
theorem turns (h : Counted cron term m) (hsem : ∀ j, j ≠ i → m'.word (.sem j) = m.word (.sem j))
    (hword : m'.word .wake_up_cron_sem =
      m.word .wake_up_cron_sem + (owed m' pc i - owed m (term i) i))
    (hbalanced : m'.Balanced .wake_up_cron_sem) :
    Counted cron (Function.update term i pc) m' where
  word := by
    have hother : ∀ j, j ≠ i → owed m' (Function.update term i pc j) j = owed m (term j) j := by
      intro j hj
      unfold owed
      rw [Function.update_of_ne hj, hsem j hj]
    rw [sum_update _ _ hother, Function.update_self, hword, h.word]
    omega
  balanced := hbalanced

-- A T-process moves and nothing changes on the semaphores it is counted by.
theorem keeps (h : Counted cron term m) (hsem : ∀ j, m'.word (.sem j) = m.word (.sem j))
    (hword : m'.word .wake_up_cron_sem = m.word .wake_up_cron_sem)
    (hqueue : m'.queue .wake_up_cron_sem = m.queue .wake_up_cron_sem)
    {pc' : TermPc} (hpc : term i = pc') (hnotified : pc.notified = pc'.notified) :
    Counted cron (Function.update term i pc) m' := by
  apply h.turns (fun j _ => hsem j) _ (h.balanced.congr hword hqueue)
  unfold owed
  rw [hsem, hword, hpc, hnotified]
  omega

end Counted

end Count

theorem next_started (j : Term) (b : Bool) : (System.next j b).started = 1 :=
  System.next_holds (P := fun pc => pc.started = 1) (fun _ => rfl) rfl rfl j

namespace System

variable {s s' : System} {a : Action} {i j : Term}

def Counted (s : System) : Prop := Support.Counted s.cron s.term s.sems

theorem initial_counted (clock : Int) : Counted (initial clock) where
  word := by simp [initial, owed, TermPc.notified, CronPc.started]
  balanced := rfl

theorem Counted.goes_on (h : s.Counted) (hstarted : s.cron.started = 1) (j : Term) (b : Bool) :
    Counted { s with cron := next j b } :=
  h.moves ((next_started j b).trans hstarted.symm) (fun _ => rfl) rfl rfl

theorem Counted.cronStep (h : s.Counted) (hborn : s.Born) (hs : s.cronStep = some s') :
    s'.Counted := by
  unfold System.cronStep at hs
  have hstarted : ∀ pc : CronPc, s.cron = pc → pc.started = 1 → 1 = s.cron.started :=
    fun pc hpc h => (hpc.symm ▸ h).symm
  split at hs
  · next j hj =>
    cases hs
    apply h.bears _ (hborn j j hj le_rfl)
    rw [hj]
    dsimp only
    split
    · rfl
    · rfl
  · next hpc =>
    cases hs
    unfold Counted at h
    rw [hpc] at h
    exact h.starts rfl .cron
  · next hpc =>
    cases hs
    split
    · exact h.moves (hstarted _ hpc rfl) (fun _ => rfl) rfl rfl
    · exact h.moves (hstarted _ hpc rfl) (fun _ => rfl) rfl rfl
  · next hpc =>
    cases hs
    exact h.moves (hstarted _ hpc rfl) (fun _ => rfl) rfl rfl
  · cases hs
  · next hpc =>
    cases hs
    show Support.Counted _ s.term (s.sems.op .cron (.P .cron_table_sem))
    exact h.moves (hstarted _ hpc rfl) (fun _ => word_sem_op _ Sem.noConfusion)
      ((Sems.word_op ..).trans (Int.add_zero _)) (Sems.queue_op_of_ne Sem.noConfusion)
  · next hpc =>
    cases hs
    exact h.moves (hstarted _ hpc rfl) (fun _ => rfl) rfl rfl
  · next j b t hpc =>
    cases hs
    split
    · exact h.moves (hstarted _ hpc rfl) (fun _ => rfl) rfl rfl
    · exact h.goes_on (hstarted _ hpc rfl).symm j b
  · next j b t hpc =>
    cases hs
    split
    · exact h.moves (hstarted _ hpc rfl) (fun _ => rfl) rfl rfl
    · exact h.goes_on (hstarted _ hpc rfl).symm j b
  · next hpc =>
    cases hs
    exact h.moves (hstarted _ hpc rfl) (fun _ => rfl) rfl rfl
  · next j b hpc =>
    cases hs
    exact h.wakes ((next_started j true).trans (hstarted _ hpc rfl)) j .cron
  · next hpc =>
    cases hs
    show Support.Counted _ s.term (s.sems.op .cron (.V .cron_table_sem))
    exact h.moves (hstarted _ hpc rfl) (fun _ => word_sem_op _ Sem.noConfusion)
      ((Sems.word_op ..).trans (Int.add_zero _)) (Sems.queue_op_of_ne Sem.noConfusion)
  · next hpc =>
    cases hs
    exact h.moves (hstarted _ hpc rfl) (fun _ => rfl) rfl rfl
  · next hpc =>
    cases hs
    exact h.moves (hstarted _ hpc rfl) (fun _ => rfl) rfl rfl

theorem Counted.step_block (h : s.Counted) {c d : Int} (hpc : s.term i = .block c d) :
    Counted { s.setTerm i (.delayed c d) with
      sems := s.sems.vector (.term i)
        [.V .cron_table_sem, .P (.sem i), .V .wake_up_cron_sem] } := by
  apply h.turns _ _ (Sems.balanced_vector h.balanced _ _)
  · intro j hj
    rw [word_sem_block, if_neg (Ne.symm hj), Int.sub_zero]
  · have hword : (s.sems.vector (.term i)
        [.V .cron_table_sem, .P (.sem i), .V .wake_up_cron_sem]).word .wake_up_cron_sem =
        s.sems.word .wake_up_cron_sem + 1 := by
      simp [Sems.word_vector, Op.sem, Op.adds]
    unfold owed
    rw [hword, hpc, word_sem_block, if_pos rfl]
    simp only [TermPc.notified]
    omega

theorem Counted.termStep (h : s.Counted) (hs : s.termStep i = some s') : s'.Counted := by
  unfold System.termStep at hs
  split at hs
  · cases hs
  · next hpc =>
    cases hs
    exact h.keeps (fun _ => rfl) rfl rfl hpc rfl
  · next hpc =>
    cases hs
    exact h.keeps (fun _ => rfl) rfl rfl hpc rfl
  · cases hs
  · next hpc =>
    cases hs
    exact h.keeps (fun _ => rfl) rfl rfl hpc rfl
  · next hpc =>
    cases hs
    show Support.Counted s.cron _ (s.sems.op (.term i) (.P .cron_table_sem))
    exact h.keeps (fun _ => word_sem_op _ Sem.noConfusion)
      ((Sems.word_op ..).trans (Int.add_zero _)) (Sems.queue_op_of_ne Sem.noConfusion) hpc rfl
  · next hpc =>
    cases hs
    exact h.keeps (fun _ => rfl) rfl rfl hpc rfl
  · next hpc =>
    cases hs
    exact h.step_block hpc
  · next hpc =>
    cases hs
    exact h.keeps (fun _ => rfl) rfl rfl hpc rfl
  · next hpc =>
    cases hs
    exact h.keeps (fun _ => rfl) rfl rfl hpc rfl
  · next hpc =>
    cases hs
    exact h.keeps (fun _ => rfl) rfl rfl hpc rfl
  · next hpc =>
    cases hs
    split
    · exact h.keeps (fun _ => rfl) rfl rfl hpc rfl
    · exact h.keeps (fun _ => rfl) rfl rfl hpc rfl
  · next hpc =>
    cases hs
    show Support.Counted s.cron _ (s.sems.op (.term i) (.V .wake_up_cron_sem))
    apply h.turns (fun _ _ => word_sem_op _ Sem.noConfusion) _ (Sems.balanced_op h.balanced _ _)
    unfold owed
    rw [Sems.word_op, Op.sem, if_pos rfl, word_sem_op _ Sem.noConfusion, hpc]
    simp only [TermPc.notified, Op.adds]
    omega
  · next notified hpc =>
    cases hs
    apply h.keeps (fun _ => rfl) rfl rfl hpc
    cases notified with
    | false => rfl
    | true => rfl
  · cases hs

theorem Counted.step (h : s.Counted) (hborn : s.Born) (hs : System.step a s = some s') :
    s'.Counted := by
  cases a with
  | tick =>
      rw [step_tick hs]
      exact h
  | cron => exact h.cronStep hborn (step_cron hs).2
  | term i => exact h.termStep (step_term hs).2.2
  | delay i d =>
      obtain ⟨hpc, rfl⟩ := step_delay hs
      exact h.keeps (fun _ => rfl) rfl rfl hpc rfl
  | terminate i =>
      obtain ⟨hpc, rfl⟩ := step_terminate hs
      exact h.keeps (fun _ => rfl) rfl rfl hpc rfl

theorem run_counted {as : List Action} {clock : Int} (h : run as (initial clock) = some s)
    (hu : Runs.Along System.step (fun s a => ∀ i, Unmarked i s a) as (initial clock)) :
    s.Born ∧ s.Counted ∧ ∀ i, s.Entry i :=
  Runs.run_invariant (I := fun s => s.Born ∧ s.Counted ∧ ∀ i, s.Entry i)
    (fun _ _ _ h hu hs =>
      ⟨h.1.step hs, h.2.1.step h.1 hs, fun i => (h.2.2 i).step h.1 (hu i) hs⟩)
    ⟨initial_born clock, initial_counted clock, initial_entry clock⟩ hu h

-- A process that is not between its write to the table and the vector has taken at
-- least what cron has put.
theorem Entry.settled (h : s.Entry i) (hblock : ∀ c d, s.term i ≠ .block c d) :
    s.sems.word (.sem i) ≤ 0 ∧ (s.sems.word (.sem i) = 0 → s.wakeUpTime i = -1) := by
  by_cases ha : (s.term i).Asks
  · have hcounted := h.counted ha
    have htaken : (s.term i).taken = 1 := by
      cases hpc : s.term i with
      | block c d => exact absurd hpc (hblock c d)
      | delayed c d => rfl
      | _ =>
          rw [hpc] at ha
          exact False.elim ha
    split at hcounted
    · next hx => exact ⟨by omega, fun _ => hx.1⟩
    · exact ⟨by omega, by omega⟩
  · obtain ⟨hx, hword, -⟩ := h.idle ha
    exact ⟨hword.le, fun _ => hx⟩

theorem notified_nonneg (pc : TermPc) : 0 ≤ pc.notified := by
  unfold TermPc.notified
  split
  · omega
  · omega
  · omega

theorem started_le (pc : CronPc) : pc.started ≤ 1 := by
  unfold CronPc.started
  split
  · omega
  · omega
  · omega

-- Cron does not sleep through work.
theorem run_never_sleeps {as : List Action} {clock : Int} (h : run as (initial clock) = some s)
    (hu : Runs.Along System.step (fun s a => ∀ i, Unmarked i s a) as (initial clock))
    (hcron : Proc.cron ∈ s.sems.queue .wake_up_cron_sem)
    (hblock : ∀ i c d, s.term i ≠ .block c d) (i : Term) :
    Proc.term i ∉ s.sems.queue (.sem i) ∧ s.wakeUpTime i = -1 ∧
      s.term i ≠ .terminateproc true ∧ s.term i ≠ .gone true := by
  obtain ⟨-, hcounted, hentry⟩ := run_counted h hu
  have hnonneg : ∀ j ∈ Finset.univ, 0 ≤ owed s.sems (s.term j) j := by
    intro j _
    have hword := ((hentry j).settled (hblock j)).1
    have hnotified := notified_nonneg (s.term j)
    unfold owed
    omega
  have hsum : ∑ j, owed s.sems (s.term j) j ≤ 0 := by
    have hword := hcounted.word
    have hneg := hcounted.balanced.word_neg hcron
    have hstarted := started_le s.cron
    omega
  have hzero : owed s.sems (s.term i) i = 0 := by
    have hle := Finset.single_le_sum hnonneg (Finset.mem_univ i)
    have hge := hnonneg i (Finset.mem_univ i)
    omega
  obtain ⟨hword, hx⟩ := (hentry i).settled (hblock i)
  have hnotified := notified_nonneg (s.term i)
  unfold owed at hzero
  refine ⟨?_, ?_, ?_, ?_⟩
  · intro hq
    have hneg := Sems.Balanced.word_neg (hentry i).balanced hq
    omega
  · exact hx (by omega)
  · intro hpc
    rw [hpc] at hzero
    simp only [TermPc.notified] at hzero
    omega
  · intro hpc
    rw [hpc] at hzero
    simp only [TermPc.notified] at hzero
    omega

-- A delay of no time, after which cron waits for the next one.
def delayed : List Action :=
  [.cron, .cron, .cron, .term 0, .term 0, .delay 0 0, .term 0, .term 0, .term 0, .term 0,
    .cron, .cron, .cron, .cron, .cron, .cron, .cron]

theorem run_never_sleeps_sample : ∃ s, run delayed (initial 0) = some s ∧
    Proc.cron ∈ s.sems.queue .wake_up_cron_sem ∧ Proc.term 0 ∉ s.sems.queue (.sem 0) ∧
      s.wakeUpTime 0 = -1 ∧ s.term 0 ≠ .terminateproc true ∧ s.term 0 ≠ .gone true := by
  have hsome : (run delayed (initial 0)).isSome = true := by decide +kernel
  obtain ⟨s, hs⟩ := Option.isSome_iff_exists.mp hsome
  have hcron : ∀ s ∈ run delayed (initial 0), Proc.cron ∈ s.sems.queue .wake_up_cron_sem := by
    decide +kernel
  have hterm : ∀ s ∈ run delayed (initial 0), s.term 0 = .delayed 0 0 ∧ s.term 1 = .tprocess := by
    decide +kernel
  have hblock : ∀ i c d, s.term i ≠ .block c d := by
    intro i c d
    match i with
    | 0 =>
        rw [(hterm s hs).1]
        exact TermPc.noConfusion
    | 1 =>
        rw [(hterm s hs).2]
        exact TermPc.noConfusion
  exact ⟨s, hs, hcron s hs, run_never_sleeps hs (by decide +kernel) (hcron s hs) hblock 0⟩

end System

end Hoca.Support
