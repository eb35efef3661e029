import Hoca.Support.Wakeups
import Hoca.Support.Exclusion
import Hoca.Support.Shutdown

namespace Hoca.Support

open Semaphores

-- The semaphore of the table has its one permit, and one more for each time that
-- cron has released the table without having it.
def Granted (cron : CronPc) (term : Term → TermPc) (m : Sems Sem Proc) : Prop :=
  ∃ n, 1 ≤ n ∧ m.Permits .cron_table_sem n (inside (Locks cron term))

namespace Granted

variable {cron cron' : CronPc} {term : Term → TermPc} {m m' : Sems Sem Proc} {i j : Term}
  {pc : TermPc}

-- Nobody comes in or goes out.
theorem moves (h : Granted cron term m) (hlocks : cron'.Locks ↔ cron.Locks)
    (hword : m'.word .cron_table_sem = m.word .cron_table_sem)
    (hqueue : m'.queue .cron_table_sem = m.queue .cron_table_sem) : Granted cron' term m' := by
  obtain ⟨n, hn, hp⟩ := h
  refine ⟨n, hn, ?_⟩
  rw [inside_moves hlocks]
  exact hp.frame hword hqueue

theorem turns (h : Granted cron term m) (hlocks : pc.Locks ↔ (term i).Locks)
    (hword : m'.word .cron_table_sem = m.word .cron_table_sem)
    (hqueue : m'.queue .cron_table_sem = m.queue .cron_table_sem) :
    Granted cron (Function.update term i pc) m' := by
  obtain ⟨n, hn, hp⟩ := h
  refine ⟨n, hn, ?_⟩
  rw [inside_turns hlocks]
  exact hp.frame hword hqueue

theorem enters (h : Granted cron term m) (hlocks : ¬ cron.Locks) (hlocks' : cron'.Locks) :
    Granted cron' term (m.op .cron (.P .cron_table_sem)) := by
  obtain ⟨n, hn, hp⟩ := h
  refine ⟨n, hn, ?_⟩
  rw [inside_insert_cron cron hlocks']
  exact hp.enter (mem_inside.not.mpr hlocks)

theorem unlocks (h : Granted cron term m) (hlocks : cron.Locks)
    (hq : Proc.cron ∉ m.queue .cron_table_sem) (hlocks' : ¬ cron'.Locks) :
    Granted cron' term (m.op .cron (.V .cron_table_sem)) := by
  obtain ⟨n, hn, hp⟩ := h
  refine ⟨n, hn, ?_⟩
  rw [inside_erase_cron cron hlocks']
  exact hp.leave (mem_inside.mpr hlocks) hq

-- Cron releases a process, and the table, with or without having it.
theorem wakes (h : Granted cron term m) (hq : Proc.cron ∉ m.queue .cron_table_sem)
    (hlocks' : ¬ cron'.Locks) (j : Term) :
    Granted cron' term
      (m.vector .cron [.V (.sem j), .P .wake_up_cron_sem, .V .cron_table_sem]) := by
  have hlast : ∀ {n}, (m.op .cron (.V .cron_table_sem)).Permits .cron_table_sem n
      (inside (Locks cron' term)) →
      (m.vector .cron [.V (.sem j), .P .wake_up_cron_sem, .V .cron_table_sem]).Permits
        .cron_table_sem n (inside (Locks cron' term)) := fun hp =>
    hp.vector_once [.V (.sem j), .P .wake_up_cron_sem] [] (by simp [Op.sem]) (by simp)
  by_cases hlocks : cron.Locks
  · obtain ⟨n, hn, hp⟩ := h.unlocks hlocks hq hlocks'
    exact ⟨n, hn, hlast hp⟩
  · obtain ⟨n, hn, hp⟩ := h
    refine ⟨n + 1, by omega, hlast ?_⟩
    rw [inside_moves (iff_of_false hlocks' hlocks)]
    exact hp.grant .cron

theorem locks (h : Granted cron term m) (hlocks : ¬ (term i).Locks) (hlocks' : pc.Locks) :
    Granted cron (Function.update term i pc) (m.op (.term i) (.P .cron_table_sem)) := by
  obtain ⟨n, hn, hp⟩ := h
  have hi : Proc.term i ∉ inside (Locks cron term) := mem_inside.not.mpr hlocks
  refine ⟨n, hn, ?_⟩
  rw [inside_insert_term hlocks']
  exact hp.enter hi

theorem blocks (h : Granted cron term m) (hlocks : (term i).Locks)
    (hq : Proc.term i ∉ m.queue .cron_table_sem) (hlocks' : ¬ pc.Locks) :
    Granted cron (Function.update term i pc)
      (m.vector (.term i) [.V .cron_table_sem, .P (.sem i), .V .wake_up_cron_sem]) := by
  obtain ⟨n, hn, hp⟩ := h
  have hi : Proc.term i ∈ inside (Locks cron term) := mem_inside.mpr hlocks
  refine ⟨n, hn, ?_⟩
  rw [inside_erase_term hlocks']
  exact (hp.leave hi hq).vector_once [] [.P (.sem i), .V .wake_up_cron_sem] (by simp)
    (by simp [Op.sem])

end Granted

-- Whether the process has still to test the count in terminate, or has told cron that
-- it was zero.
def TermPc.Tells : TermPc → Prop
  | .test => True
  | .notify => True
  | .terminateproc notified => notified = true
  | .gone notified => notified = true
  | _ => False

-- When all are past their end, one of them tells.
def Told (term : Term → TermPc) : Prop := (∀ i, (term i).Past) → ∃ i, (term i).Tells

namespace Told

variable {term : Term → TermPc} {n : Int} {i : Term} {pc pc' : TermPc}

theorem turns (h : Told term) (hpc : term i = pc)
    (hpast : pc'.Past → pc'.Tells ∨ (pc.Past ∧ (pc.Tells → pc'.Tells))) :
    Told (Function.update term i pc') := by
  intro hall
  have hi := hall i
  rw [Function.update_self] at hi
  rcases hpast hi with ht | ⟨hp, ht⟩
  · exact ⟨i, (Function.update_self i pc' term).symm ▸ ht⟩
  · obtain ⟨j, hj⟩ := h fun j => by
      by_cases hji : j = i
      · rw [hji, hpc]
        exact hp
      · have hother := hall j
        rw [Function.update_of_ne hji] at hother
        exact hother
    by_cases hji : j = i
    · rw [hji, hpc] at hj
      exact ⟨i, (Function.update_self i pc' term).symm ▸ ht hj⟩
    · exact ⟨j, (Function.update_of_ne hji pc' term).symm ▸ hj⟩

-- A process that finds others counted is not the last.
theorem passes (ht : Tallied term n) (hpc : term i = pc) (hn : n ≠ 0)
    (hactive : pc'.active = pc.active) (hload : pc'.loaded = none) :
    Told (Function.update term i pc') := by
  intro hall
  have hturned : Tallied (Function.update term i pc') n :=
    ht.turns hpc (by omega) (Or.inl ⟨rfl, hload⟩)
  have hzero : ∑ j, (Function.update term i pc' j).active = 0 :=
    Finset.sum_eq_zero fun j _ => (hall j).active
  exact absurd (hturned.counted.trans hzero) hn

end Told

namespace System

variable {s s' : System} {a : Action} {i j : Term} {as : List Action} {clock : Int}

section Table

def Granted (s : System) : Prop := Support.Granted s.cron s.term s.sems

theorem initial_granted (clock : Int) : Granted (initial clock) :=
  ⟨1, le_refl 1, (initial_guarded clock).mutex⟩

theorem Granted.cronStep (h : s.Granted) (hborn : s.Born) (hb : ¬ s.sems.Blocked .cron)
    (hs : s.cronStep = some s') : s'.Granted := by
  have hq : Proc.cron ∉ s.sems.queue .cron_table_sem := fun hq => hb ⟨_, hq⟩
  have hout : ∀ pc : CronPc, s.cron = pc → pc.awoken = none → pc ≠ .unlockTable →
      ¬ s.cron.Locks := by
    rintro pc rfl hpc hne
    exact not_locks hpc hne
  have hsame : ∀ {pc : CronPc} {b : Bool}, s.cron.awoken = some b → (pc.Locks ↔ b = false) →
      (pc.Locks ↔ s.cron.Locks) := fun hpc hl => hl.trans (locks_iff hpc).symm
  unfold System.cronStep at hs
  split at hs
  · next j hj =>
    cases hs
    have hunborn : TermPc.tprocess.Locks ↔ (s.term j).Locks := by
      rw [hborn j j hj le_rfl]
      exact Iff.rfl
    have hterm : Support.Granted s.cron (Function.update s.term j .tprocess) s.sems :=
      Support.Granted.turns h hunborn rfl rfl
    apply hterm.moves (iff_of_false _ (hout _ hj rfl nofun)) rfl rfl
    split
    · exact not_locks rfl nofun
    · exact not_locks rfl nofun
  · next hpc =>
    cases hs
    show Support.Granted _ s.term (s.sems.op .cron (.P .wake_up_cron_sem))
    exact h.moves (iff_of_false (not_locks rfl nofun) (hout _ hpc rfl nofun))
      ((Sems.word_op ..).trans (Int.add_zero _)) (Sems.queue_op_of_ne nofun)
  · next hpc =>
    cases hs
    apply h.moves (iff_of_false _ (hout _ hpc rfl nofun)) rfl rfl
    split
    · exact not_locks rfl nofun
    · exact not_locks rfl nofun
  · next hpc =>
    cases hs
    exact h.moves (iff_of_false (not_locks rfl nofun) (hout _ hpc rfl nofun)) rfl rfl
  · cases hs
  · next hpc =>
    cases hs
    exact h.enters (hout _ hpc rfl nofun) (Or.inl rfl)
  · next j b hpc =>
    cases hs
    exact h.moves (hsame (hpc ▸ rfl) (locks_iff rfl)) rfl rfl
  · next j b t hpc =>
    cases hs
    split
    · exact h.moves (hsame (hpc ▸ rfl) (locks_iff rfl)) rfl rfl
    · exact h.moves (hsame (hpc ▸ rfl) (next_locks j b)) rfl rfl
  · next j b t hpc =>
    cases hs
    split
    · exact h.moves (hsame (hpc ▸ rfl) (locks_iff rfl)) rfl rfl
    · exact h.moves (hsame (hpc ▸ rfl) (next_locks j b)) rfl rfl
  · next j b hpc =>
    cases hs
    exact h.moves (hsame (hpc ▸ rfl) (locks_iff rfl)) rfl rfl
  · next j b hpc =>
    cases hs
    have hlocks' : ¬ (next j true).Locks := fun hl => nomatch (next_locks j true).mp hl
    exact h.wakes hq hlocks' j
  · next hpc =>
    cases hs
    have hlocks : s.cron.Locks := hpc.symm ▸ Or.inr rfl
    exact h.unlocks hlocks hq (not_locks rfl nofun)
  · next hpc =>
    cases hs
    exact h.moves (iff_of_false (not_locks rfl nofun) (hout _ hpc rfl nofun)) rfl rfl
  · next hpc =>
    cases hs
    exact h.moves (iff_of_false (not_locks rfl nofun) (hout _ hpc rfl nofun)) rfl rfl

theorem Granted.termStep (h : s.Granted) (hb : ¬ s.sems.Blocked (.term i))
    (hs : s.termStep i = some s') : s'.Granted := by
  have hq : Proc.term i ∉ s.sems.queue .cron_table_sem := fun hq => hb ⟨_, hq⟩
  have hsame : ∀ pc pc' : TermPc, s.term i = pc → (pc'.Locks ↔ pc.Locks) →
      (pc'.Locks ↔ (s.term i).Locks) := by
    rintro pc pc' rfl hl
    exact hl
  unfold System.termStep at hs
  split at hs
  case h_6 hpc =>
    cases hs
    have hlocks : ¬ (s.term i).Locks := hpc.symm ▸ id
    exact h.locks hlocks trivial
  case h_8 hpc =>
    cases hs
    have hlocks : (s.term i).Locks := hpc.symm ▸ trivial
    exact h.blocks hlocks hq id
  case h_12 hpc =>
    cases hs
    split
    · exact h.turns (hsame _ _ hpc Iff.rfl) rfl rfl
    · exact h.turns (hsame _ _ hpc Iff.rfl) rfl rfl
  case h_13 hpc =>
    cases hs
    show Support.Granted s.cron _ (s.sems.op (.term i) (.V .wake_up_cron_sem))
    exact h.turns (hsame _ _ hpc Iff.rfl) ((Sems.word_op ..).trans (Int.add_zero _))
      (Sems.queue_op_of_ne nofun)
  all_goals cases hs
  all_goals next hpc => exact h.turns (hsame _ _ hpc Iff.rfl) rfl rfl

theorem Granted.step (h : s.Granted) (hborn : s.Born) (hs : System.step a s = some s') :
    s'.Granted := by
  cases a with
  | tick =>
      rw [step_tick hs]
      exact h
  | cron => exact h.cronStep hborn (step_cron hs).1 (step_cron hs).2
  | term i => exact h.termStep (step_term hs).2.1 (step_term hs).2.2
  | delay i d =>
      obtain ⟨hpc, rfl⟩ := step_delay hs
      exact h.turns (iff_of_false id (hpc.symm ▸ id)) rfl rfl
  | terminate i =>
      obtain ⟨hpc, rfl⟩ := step_terminate hs
      exact h.turns (iff_of_false id (hpc.symm ▸ id)) rfl rfl

end Table

section Waits

-- Nobody but cron waits for work, and not while it has the table.
def Waits (s : System) : Prop :=
  ∀ p ∈ s.sems.queue .wake_up_cron_sem, p = .cron ∧ (s.cron = .loop ∨ s.cron.Roams)

theorem initial_waits (clock : Int) : Waits (initial clock) := fun _ hp => nomatch hp

theorem next_waits (j : Term) : next j true = .loop ∨ (next j true).Roams := by
  rcases next_cases j true with ⟨k, hk⟩ | ⟨hk, -⟩ | ⟨-, hb⟩
  · rw [hk]
    exact Or.inr rfl
  · exact Or.inl hk
  · cases hb

theorem Waits.cronStep (h : s.Waits) (hb : ¬ s.sems.Blocked .cron) (hs : s.cronStep = some s') :
    s'.Waits := by
  have hold : ∀ p, p ∉ s.sems.queue .wake_up_cron_sem := by
    intro p hp
    exact hb ⟨_, (h p hp).1 ▸ hp⟩
  have hother : ∀ p, p ∉ (s.sems.op .cron (.P .cron_table_sem)).queue .wake_up_cron_sem := by
    intro p hp
    rw [Sems.queue_op_of_ne (by decide)] at hp
    exact hold p hp
  have hother' : ∀ p, p ∉ (s.sems.op .cron (.V .cron_table_sem)).queue .wake_up_cron_sem := by
    intro p hp
    rw [Sems.queue_op_of_ne (by decide)] at hp
    exact hold p hp
  unfold System.cronStep at hs
  split at hs
  case h_2 hpc =>
    cases hs
    intro p (hp : p ∈ (s.sems.op .cron (.P .wake_up_cron_sem)).queue .wake_up_cron_sem)
    rcases Sems.mem_queue_op hp with hp | ⟨hp, -⟩
    · exact absurd hp (hold p)
    · exact ⟨hp, Or.inl rfl⟩
  case h_6 hpc =>
    cases hs
    exact fun p hp => absurd hp (hother p)
  case h_11 j b hpc =>
    cases hs
    intro p hp
    rcases Sems.mem_queue_vector hp with hp | ⟨hp, -⟩
    · exact absurd hp (hold p)
    · exact ⟨hp, next_waits j⟩
  case h_12 hpc =>
    cases hs
    exact fun p hp => absurd hp (hother' p)
  all_goals cases hs
  all_goals exact fun p hp => absurd hp (hold p)

theorem Waits.turns (h : s.Waits) (hcron : s'.cron = s.cron)
    (hq : ∀ p ∈ s'.sems.queue .wake_up_cron_sem, p ∈ s.sems.queue .wake_up_cron_sem) :
    s'.Waits := by
  intro p hp
  rw [hcron]
  exact h p (hq p hp)

theorem Waits.termStep (h : s.Waits) (hs : s.termStep i = some s') : s'.Waits := by
  unfold System.termStep at hs
  split at hs
  case h_6 hpc =>
    cases hs
    refine h.turns rfl fun p hp => ?_
    change p ∈ (s.sems.op (.term i) (.P .cron_table_sem)).queue .wake_up_cron_sem at hp
    rw [Sems.queue_op_of_ne (by decide)] at hp
    exact hp
  case h_8 hpc =>
    cases hs
    refine h.turns rfl fun p hp => ?_
    rcases Sems.mem_queue_vector hp with hp | ⟨-, ho⟩
    · exact hp
    · simp at ho
  case h_13 hpc =>
    cases hs
    refine h.turns rfl fun p hp => ?_
    change p ∈ (s.sems.op (.term i) (.V .wake_up_cron_sem)).queue .wake_up_cron_sem at hp
    rcases Sems.mem_queue_op hp with hp | ⟨-, ho⟩
    · exact hp
    · cases ho
  all_goals cases hs
  all_goals exact h.turns rfl fun p hp => hp

theorem Waits.step (h : s.Waits) (hs : System.step a s = some s') : s'.Waits := by
  cases a with
  | tick =>
      rw [step_tick hs]
      exact h
  | cron => exact h.cronStep (step_cron hs).1 (step_cron hs).2
  | term i => exact h.termStep (step_term hs).2.2
  | delay i d =>
      obtain ⟨-, rfl⟩ := step_delay hs
      exact h.turns rfl fun p hp => hp
  | terminate i =>
      obtain ⟨-, rfl⟩ := step_terminate hs
      exact h.turns rfl fun p hp => hp

end Waits

section Bred

-- Only what p1a has still to create is unborn.
def Bred (s : System) : Prop := ∀ i, s.term i = .unborn → ∃ j ≤ i, s.cron = .createproc j

theorem initial_bred (clock : Int) : Bred (initial clock) :=
  fun i _ => ⟨0, Fin.zero_le i, rfl⟩

theorem Bred.born (h : s.Bred) (hne : ∀ j, s.cron ≠ .createproc j) (i : Term) :
    s.term i ≠ .unborn := by
  intro hi
  obtain ⟨j, -, hj⟩ := h i hi
  exact hne j hj

theorem Bred.cronStep (h : s.Bred) (hs : s.cronStep = some s') : s'.Bred := by
  have hborn : ∀ pc : CronPc, s.cron = pc → (∀ j, pc ≠ .createproc j) → ∀ i, s.term i ≠ .unborn := by
    rintro pc rfl hne
    exact h.born hne
  unfold System.cronStep at hs
  split at hs
  case h_1 j hj =>
    cases hs
    intro i (hi : Function.update s.term j .tprocess i = .unborn)
    have hne : i ≠ j := by
      rintro rfl
      rw [Function.update_self] at hi
      cases hi
    rw [Function.update_of_ne hne] at hi
    obtain ⟨k, hk, hcron⟩ := h i hi
    cases hj.symm.trans hcron
    have hlt := lt_of_le_of_ne hk (Ne.symm hne)
    have hnext : j.val + 1 < MAXTPROC := lt_of_le_of_lt (Fin.lt_def.mp hlt) i.isLt
    exact ⟨⟨j.val + 1, hnext⟩, hlt, dif_pos hnext⟩
  all_goals cases hs
  all_goals next hpc => exact fun i hi => absurd hi (hborn _ hpc nofun i)

theorem Bred.turns (h : s.Bred) {pc : TermPc} (hcron : s'.cron = s.cron)
    (hterm : s'.term = Function.update s.term i pc) (hpc : pc ≠ .unborn) : s'.Bred := by
  intro j hj
  rw [hterm] at hj
  have hne : j ≠ i := by
    rintro rfl
    rw [Function.update_self] at hj
    exact hpc hj
  rw [Function.update_of_ne hne] at hj
  rw [hcron]
  exact h j hj

theorem Bred.step (h : s.Bred) (hs : System.step a s = some s') : s'.Bred := by
  cases a with
  | tick =>
      rw [step_tick hs]
      exact h
  | cron => exact h.cronStep (step_cron hs).2
  | term i =>
      have hterm := (step_term hs).2.2
      unfold termStep at hterm
      split at hterm
      case h_12 =>
        cases hterm
        split
        · exact h.turns rfl rfl nofun
        · exact h.turns rfl rfl nofun
      all_goals cases hterm
      all_goals exact h.turns rfl rfl nofun
  | delay i d =>
      obtain ⟨-, rfl⟩ := step_delay hs
      exact h.turns rfl rfl nofun
  | terminate i =>
      obtain ⟨-, rfl⟩ := step_terminate hs
      exact h.turns rfl rfl nofun

end Bred

section Told

def Told (s : System) : Prop := Support.Told s.term

theorem initial_told (clock : Int) : Told (initial clock) := fun hall => False.elim (hall 0)

theorem Told.cronStep (h : s.Told) (hborn : s.Born) (hs : s.cronStep = some s') : s'.Told := by
  unfold System.cronStep at hs
  split at hs
  case h_1 j hj =>
    cases hs
    exact h.turns (hborn j j hj le_rfl) False.elim
  all_goals cases hs
  all_goals exact h

theorem Told.termStep (h : s.Told) (ht : s.Tallied) (hs : s.termStep i = some s') : s'.Told := by
  unfold System.termStep at hs
  split at hs
  case h_11 hpc =>
    cases hs
    exact h.turns hpc fun _ => Or.inl trivial
  case h_12 hpc =>
    cases hs
    by_cases hzero : s.active_t_processes = 0
    · rw [if_pos hzero]
      exact h.turns hpc fun _ => Or.inl trivial
    · rw [if_neg hzero]
      exact Support.Told.passes ht hpc hzero rfl rfl
  case h_13 hpc =>
    cases hs
    exact h.turns hpc fun _ => Or.inl rfl
  case h_14 hpc =>
    cases hs
    exact h.turns hpc fun _ => Or.inr ⟨trivial, id⟩
  all_goals cases hs
  all_goals next hpc => exact h.turns hpc False.elim

theorem Told.step (h : s.Told) (ht : s.Tallied) (hborn : s.Born) (hs : System.step a s = some s') :
    s'.Told := by
  cases a with
  | tick =>
      rw [step_tick hs]
      exact h
  | cron => exact h.cronStep hborn (step_cron hs).2
  | term i => exact h.termStep ht (step_term hs).2.2
  | delay i d =>
      obtain ⟨hpc, rfl⟩ := step_delay hs
      exact h.turns hpc False.elim
  | terminate i =>
      obtain ⟨hpc, rfl⟩ := step_terminate hs
      exact h.turns hpc False.elim

end Told

section Stuck

-- What holds in every state that can be reached.
structure Sane (s : System) : Prop where
  born : s.Born
  bred : s.Bred
  counted : s.Counted
  entry : ∀ i, s.Entry i
  granted : s.Granted
  waits : s.Waits

theorem initial_sane (clock : Int) : Sane (initial clock) :=
  ⟨initial_born clock, initial_bred clock, initial_counted clock, initial_entry clock,
    initial_granted clock, initial_waits clock⟩

theorem Sane.step (h : s.Sane) (hu : ∀ i, Unmarked i s a) (hs : System.step a s = some s') :
    s'.Sane where
  born := h.born.step hs
  bred := h.bred.step hs
  counted := h.counted.step h.born hs
  entry i := (h.entry i).step h.born (hu i) hs
  granted := h.granted.step h.born hs
  waits := h.waits.step hs

theorem Sane.run (h : s.Sane) (hu : Runs.Along System.step (fun s a => ∀ i, Unmarked i s a) as s)
    (hrun : System.run as s = some s') : s'.Sane :=
  Runs.run_invariant (fun _ _ _ h hu hs => h.step hu hs) h hu hrun

-- What holds as well as long as no two updates of active_t_processes overlap.
structure Counting (s : System) : Prop extends Sane s where
  tallied : s.Tallied
  told : s.Told

theorem Counting.step (h : s.Counting) (hu : ∀ i, Unmarked i s a) (hdiv : Undivided s a)
    (hs : System.step a s = some s') : s'.Counting where
  toSane := h.toSane.step hu hs
  tallied := h.tallied.step h.born hdiv hs
  told := h.told.step h.tallied h.born hs

theorem initial_counting (clock : Int) : Counting (initial clock) :=
  ⟨initial_sane clock, initial_tallied clock, initial_told clock⟩

theorem Counting.run (h : s.Counting)
    (hu : Runs.Along System.step (fun s a => ∀ i, Unmarked i s a) as s)
    (hdiv : Runs.Along System.step Undivided as s) (hrun : System.run as s = some s') : s'.Counting :=
  Runs.run_invariant (fun _ _ _ h hp hs => h.step hp.1 hp.2 hs) h (hu.and hdiv) hrun

-- A process that can take the next step of its own.
def Ready (s : System) (p : Proc) : Prop :=
  match p with
  | .cron => (System.step .cron s).isSome
  | .term i => (System.step (.term i) s).isSome ∨ s.term i = .user

-- A step of cron, or of a T-process that is not in its program.
def Moves (s : System) (p : Proc) : Prop :=
  match p with
  | .cron => (System.step .cron s).isSome
  | .term i => (System.step (.term i) s).isSome

theorem Moves.ready {p : Proc} (h : s.Moves p) : s.Ready p := by
  cases p with
  | cron => exact h
  | term i => exact Or.inl h

theorem cronStep_isSome (hon : s.cron ≠ .gone) : s.cronStep.isSome := by
  unfold System.cronStep
  split
  case h_5 hpc => exact absurd hpc hon
  all_goals rfl

theorem moves_cron (hon : s.cron ≠ .gone) (hb : ¬ s.sems.Blocked .cron) : s.Moves .cron := by
  show (System.step .cron s).isSome
  rw [System.step, if_neg hb]
  exact cronStep_isSome hon

theorem moves_term (hon : s.cron ≠ .gone) (hb : ¬ s.sems.Blocked (.term i))
    (hborn : s.term i ≠ .unborn) (huser : s.term i ≠ .user) (hgone : ∀ b, s.term i ≠ .gone b) :
    s.Moves (.term i) := by
  show (System.step (.term i) s).isSome
  rw [System.step, if_neg fun hc => hc.elim hon hb]
  unfold System.termStep
  split
  case h_1 hpc => exact absurd hpc hborn
  case h_4 hpc => exact absurd hpc huser
  case h_15 b hpc => exact absurd hpc (hgone b)
  all_goals rfl

-- A process that works on the table and does not wait for it waits for nothing.
theorem Sane.moves_of_locks (h : s.Sane) (hon : s.cron ≠ .gone) (hl : (s.term i).Locks)
    (hq : Proc.term i ∉ s.sems.queue .cron_table_sem) : s.Moves (.term i) := by
  have hne : ∀ {pc}, s.term i = pc → pc.Locks := by
    rintro pc rfl
    exact hl
  apply moves_term hon
  · rw [blocked_iff]
    rintro (hc | hc | ⟨j, hc⟩)
    · exact hq hc
    · exact Proc.noConfusion (h.waits _ hc).1
    · cases (h.entry j).own _ hc
      have hneg := Sems.Balanced.word_neg (h.entry i).balanced hc
      have hpc := (h.entry i).counted
      have hidle := (h.entry i).idle
      cases hterm : s.term i with
      | write c d w =>
          rw [hterm] at hidle
          have hword := (hidle id).2.1
          omega
      | block c d =>
          rw [hterm] at hpc
          have hword := hpc trivial
          simp only [TermPc.taken] at hword
          split at hword
          · omega
          · omega
      | _ =>
          rw [hterm] at hl
          exact hl
  · exact fun hc => hne hc
  · exact fun hc => hne hc
  · exact fun b hc => hne hc

-- Whoever waits for the table waits for a process that can go on.
theorem Sane.moves_of_table (h : s.Sane) (hon : s.cron ≠ .gone)
    (hcron : Proc.cron ∈ s.sems.queue .cron_table_sem ∨ ¬ s.cron.Locks) {p : Proc}
    (hp : p ∈ s.sems.queue .cron_table_sem) : ∃ i, s.Moves (.term i) := by
  obtain ⟨n, hn, hpermits⟩ := h.granted
  obtain ⟨q, hq, hfree⟩ := hpermits.exists_free hn hp
  have hlocks : Locks s.cron s.term q := mem_inside.mp hq
  cases q with
  | cron => exact (hcron.elim hfree fun hc => hc hlocks).elim
  | term i => exact ⟨i, h.moves_of_locks hon hlocks hfree⟩

-- What is owed to cron for a process that waits in delay, has gone or is in its
-- program.
theorem Sane.owed_waiting (h : s.Sane) (hq : Proc.term i ∈ s.sems.queue (.sem i)) :
    1 ≤ owed s.sems (s.term i) i := by
  have hneg := Sems.Balanced.word_neg (h.entry i).balanced hq
  have hnotified := notified_nonneg (s.term i)
  unfold owed
  omega

theorem Sane.owed_idle (h : s.Sane) {pc : TermPc} (hpc : s.term i = pc) (hidle : ¬ pc.Asks) :
    owed s.sems (s.term i) i = pc.notified := by
  have hword := (h.entry i).idle
  rw [hpc] at hword
  rw [owed, hpc, (hword hidle).2.1, Int.neg_zero, Int.zero_add]

-- Where neither cron nor a T-process outside its program can go on, cron waits for
-- work, and every T-process is in its program or has gone without telling cron.
theorem Sane.settled (h : s.Sane) (hon : s.cron ≠ .gone) (hno : ∀ p, ¬ s.Moves p) :
    Proc.cron ∈ s.sems.queue .wake_up_cron_sem ∧
      ∀ i, s.term i = .user ∨ s.term i = .gone false := by
  have hcron : s.sems.Blocked .cron := by
    by_contra hb
    exact hno _ (moves_cron hon hb)
  have hwake : Proc.cron ∈ s.sems.queue .wake_up_cron_sem := by
    rcases (blocked_iff _ _).mp hcron with hc | hc | ⟨i, hc⟩
    · obtain ⟨i, hi⟩ := h.moves_of_table hon (Or.inl hc) hc
      exact absurd hi (hno _)
    · exact hc
    · exact Proc.noConfusion ((h.entry i).own _ hc)
  have hout : ¬ s.cron.Locks ∧ ∀ j, s.cron ≠ .createproc j := by
    rcases (h.waits _ hwake).2 with hpc | hr
    · rw [hpc]
      exact ⟨not_locks rfl nofun, nofun⟩
    · refine ⟨not_locks_of_roams hr, fun j hj => ?_⟩
      rw [hj] at hr
      exact not_roams rfl hr
  -- so every T-process waits in delay, is in its program or has gone
  have hterm : ∀ i, Proc.term i ∈ s.sems.queue (.sem i) ∨ s.term i = .user ∨
      ∃ b, s.term i = .gone b := by
    intro i
    by_cases hb : s.sems.Blocked (.term i)
    · rcases (blocked_iff _ _).mp hb with hc | hc | ⟨j, hc⟩
      · obtain ⟨j, hj⟩ := h.moves_of_table hon (Or.inr hout.1) hc
        exact absurd hj (hno _)
      · exact Proc.noConfusion (h.waits _ hc).1
      · cases (h.entry j).own _ hc
        exact Or.inl hc
    · right
      by_contra hc
      push Not at hc
      exact hno _ (moves_term hon hb (h.bred.born hout.2 i) hc.1 hc.2)
  have hnonneg : ∀ j ∈ Finset.univ, 0 ≤ owed s.sems (s.term j) j := by
    intro j _
    rcases hterm j with hq | hpc | ⟨b, hpc⟩
    · exact le_trans (by omega) (h.owed_waiting hq)
    · exact (h.owed_idle hpc id).ge
    · rw [h.owed_idle hpc id]
      exact notified_nonneg _
  -- and none of them owes cron what it waits for
  have hnone : ∀ j, ¬ 1 ≤ owed s.sems (s.term j) j := by
    intro j hj
    have hle := Finset.single_le_sum hnonneg (Finset.mem_univ j)
    have hword := h.counted.word
    have hneg := h.counted.balanced.word_neg hwake
    have hstarted := started_le s.cron
    omega
  have hall : ∀ i, s.term i = .user ∨ ∃ b, s.term i = .gone b := fun i =>
    (hterm i).resolve_left fun hq => hnone i (h.owed_waiting hq)
  refine ⟨hwake, fun i => (hall i).imp_right ?_⟩
  rintro ⟨b, hb⟩
  cases b with
  | false => exact hb
  | true => exact absurd (h.owed_idle hb id).ge (hnone i)

-- But not all of them have gone.
theorem Counting.exists_user (h : s.Counting) (hall : ∀ i, s.term i = .user ∨ s.term i = .gone false) :
    ∃ i, s.term i = .user := by
  by_contra huser
  push Not at huser
  have hgone : ∀ i, s.term i = .gone false := fun i => (hall i).resolve_left (huser i)
  obtain ⟨j, hj⟩ := h.told fun j => by
    rw [hgone j]
    trivial
  rw [hgone j] at hj
  cases (hj : false = true)

-- All T-processes have ended, and cron waits for one that has not told it.
structure Forgotten (s : System) : Prop where
  cron : Proc.cron ∈ s.sems.queue .wake_up_cron_sem
  term : ∀ i, s.term i = .gone false

theorem Sane.forgotten (h : s.Sane) (hon : s.cron ≠ .gone) (hno : ∀ p, ¬ s.Ready p) : s.Forgotten := by
  obtain ⟨hcron, hall⟩ := h.settled hon fun p hp => hno p hp.ready
  exact ⟨hcron, fun i => (hall i).resolve_left fun hi => hno (.term i) (Or.inr hi)⟩

-- While anybody is left, cron or a T-process can go on: whoever waits, waits for a
-- process that does not.
theorem Counting.exists_ready (h : s.Counting) (hon : s.cron ≠ .gone) : ∃ p, s.Ready p := by
  by_contra hno
  push Not at hno
  have hforgotten := h.forgotten hon hno
  obtain ⟨i, hi⟩ := h.exists_user fun i => Or.inr (hforgotten.term i)
  exact hno (.term i) (Or.inr hi)

-- The support level never deadlocks, but for the end of all T-processes of which a lost
-- update has kept cron from hearing. As long as no two updates overlap there is none.
theorem run_never_stuck (h : run as (initial clock) = some s)
    (hu : Runs.Along System.step (fun s a => ∀ i, Unmarked i s a) as (initial clock)) :
    (s.cron = .gone ∨ (∃ p, s.Ready p) ∨ s.Forgotten) ∧
      (Runs.Along System.step Undivided as (initial clock) → s.cron = .gone ∨ ∃ p, s.Ready p) := by
  by_cases hon : s.cron = .gone
  · exact ⟨Or.inl hon, fun _ => Or.inl hon⟩
  refine ⟨Or.inr ?_, fun hdiv => Or.inr (((initial_counting clock).run hu hdiv h).exists_ready hon)⟩
  by_cases hready : ∃ p, s.Ready p
  · exact Or.inl hready
  · push Not at hready
    exact Or.inr (((initial_sane clock).run hu h).forgotten hon hready)

-- The first -- is loaded by the second process as well: each leaves 1.
def lost : List Action :=
  [.cron, .cron, .cron, .term 0, .term 0, .term 1, .term 1, .terminate 0, .terminate 1, .term 0,
    .term 1, .term 0, .term 1, .term 0, .term 0, .term 1, .term 1]

theorem run_never_stuck_sample :
    (∃ s, run delayed (initial 0) = some s ∧ (s.cron = .gone ∨ ∃ p, s.Ready p)) ∧
    ∃ s, run lost (initial 0) = some s ∧ s.Forgotten ∧ s.active_t_processes = 1 := by
  have hsome : (run delayed (initial 0)).isSome = true := by decide +kernel
  obtain ⟨s, hs⟩ := Option.isSome_iff_exists.mp hsome
  have hlost : ∃ s ∈ run lost (initial 0), Proc.cron ∈ s.sems.queue .wake_up_cron_sem ∧
      (∀ i, s.term i = .gone false) ∧ s.active_t_processes = 1 := by
    decide +kernel
  obtain ⟨s', hs', hcron, hterm, hone⟩ := hlost
  exact ⟨⟨s, hs, (run_never_stuck hs (by decide +kernel)).2 (by decide +kernel)⟩,
    s', hs', ⟨hcron, hterm⟩, hone⟩

end Stuck

end System

end Hoca.Support
