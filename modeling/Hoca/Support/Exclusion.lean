import Hoca.Support.Entries

namespace Hoca.Support

open Semaphores

-- Whether cron has awoken a process, while it is in its loop over the table.
def CronPc.awoken : CronPc → Option Bool
  | .scan _ b => some b
  | .marker _ b _ => some b
  | .compare _ b _ => some b
  | .reset _ b => some b
  | .wake _ b => some b
  | _ => none

-- Cron has locked the table and not released it since. It roams when it goes on
-- over the table after it has released it with a process.
def CronPc.Locks (pc : CronPc) : Prop := pc.awoken = some false ∨ pc = .unlockTable

def CronPc.Roams (pc : CronPc) : Prop := pc.awoken = some true

-- The process that cron is about to release, and whether it has released one before.
def CronPc.releases : CronPc → Option (Term × Bool)
  | .wake i b => some (i, b)
  | _ => none

def TermPc.Locks : TermPc → Prop
  | .write _ _ _ => True
  | .block _ _ => True
  | _ => False

def TermPc.Enters : TermPc → Prop
  | .lockTable _ _ _ => True
  | _ => False

instance : DecidablePred CronPc.Locks := fun pc => inferInstanceAs (Decidable (_ ∨ pc = _))

instance : DecidablePred CronPc.Roams := fun pc => inferInstanceAs (Decidable (pc.awoken = _))

instance : DecidablePred TermPc.Locks
  | .write _ _ _ | .block _ _ => isTrue trivial
  | .unborn | .tprocess | .raise _ | .user | .delay _ _ | .lockTable _ _ _ | .delayed _ _
  | .terminate | .lower _ | .test | .notify | .terminateproc _ | .gone _ => isFalse id

instance : DecidablePred TermPc.Enters
  | .lockTable _ _ _ => isTrue trivial
  | .unborn | .tprocess | .raise _ | .user | .delay _ _ | .write _ _ _ | .block _ _
  | .delayed _ _ | .terminate | .lower _ | .test | .notify | .terminateproc _ | .gone _ => isFalse id

def Locks (cron : CronPc) (term : Term → TermPc) : Proc → Prop
  | .cron => cron.Locks
  | .term i => (term i).Locks

instance (cron : CronPc) (term : Term → TermPc) : DecidablePred (Locks cron term)
  | .cron => inferInstanceAs (Decidable cron.Locks)
  | .term i => inferInstanceAs (Decidable (term i).Locks)

-- Unless cron roams the semaphore guards the table. While it roams nobody else is
-- to be inside.
structure Guarded (cron : CronPc) (term : Term → TermPc) (m : Sems Sem Proc) : Prop where
  mutex : m.Mutex .cron_table_sem (inside (Locks cron term))
  roams : cron.Roams → inside (Locks cron term) = ∅

section Inside

variable {cron cron' : CronPc} {term : Term → TermPc} {i : Term} {pc : TermPc} {p : Proc}

theorem not_locks_of_roams (h : cron.Roams) : ¬ cron.Locks := by
  unfold CronPc.Roams at h
  rintro (hl | rfl)
  · rw [h] at hl
    cases hl
  · cases h

theorem inside_moves (h : cron'.Locks ↔ cron.Locks) :
    inside (Locks cron' term) = inside (Locks cron term) := by
  apply inside_congr
  intro p
  cases p with
  | cron => exact h
  | term i => exact Iff.rfl

theorem locks_of_ne (cron : CronPc) (hp : p ≠ .cron) : Locks cron' term p ↔ Locks cron term p := by
  cases p with
  | cron => exact absurd rfl hp
  | term i => exact Iff.rfl

theorem inside_insert_cron (cron : CronPc) (h : cron'.Locks) :
    inside (Locks cron' term) = insert .cron (inside (Locks cron term)) :=
  inside_insert h fun _ hp => locks_of_ne cron hp

theorem inside_erase_cron (cron : CronPc) (h : ¬ cron'.Locks) :
    inside (Locks cron' term) = (inside (Locks cron term)).erase .cron :=
  inside_erase h fun _ hp => locks_of_ne cron hp

theorem locks_update_of_ne (hp : p ≠ .term i) :
    Locks cron (Function.update term i pc) p ↔ Locks cron term p := by
  cases p with
  | cron => exact Iff.rfl
  | term j =>
      have hj : j ≠ i := fun heq => hp (congrArg Proc.term heq)
      show (Function.update term i pc j).Locks ↔ (term j).Locks
      rw [Function.update_of_ne hj]

theorem locks_update_self : Locks cron (Function.update term i pc) (.term i) ↔ pc.Locks := by
  show (Function.update term i pc i).Locks ↔ pc.Locks
  rw [Function.update_self]

theorem inside_turns (h : pc.Locks ↔ (term i).Locks) :
    inside (Locks cron (Function.update term i pc)) = inside (Locks cron term) := by
  apply inside_congr
  intro p
  by_cases hp : p = .term i
  · subst hp
    exact locks_update_self.trans h
  · exact locks_update_of_ne hp

theorem inside_insert_term (h : pc.Locks) :
    inside (Locks cron (Function.update term i pc)) = insert (.term i) (inside (Locks cron term)) :=
  inside_insert (locks_update_self.mpr h) fun _ hp => locks_update_of_ne hp

theorem inside_erase_term (h : ¬ pc.Locks) :
    inside (Locks cron (Function.update term i pc)) = (inside (Locks cron term)).erase (.term i) :=
  inside_erase (locks_update_self.not.mpr h) fun _ hp => locks_update_of_ne hp

end Inside

namespace Guarded

variable {cron cron' : CronPc} {term : Term → TermPc} {m m' : Sems Sem Proc} {i j : Term}
  {pc : TermPc}

-- Nobody comes in or goes out.
theorem moves (h : Guarded cron term m) (hlocks : cron'.Locks ↔ cron.Locks)
    (hroams : cron'.Roams → cron.Roams)
    (hword : m'.word .cron_table_sem = m.word .cron_table_sem)
    (hqueue : m'.queue .cron_table_sem = m.queue .cron_table_sem) : Guarded cron' term m' where
  mutex := by
    rw [inside_moves hlocks]
    exact h.mutex.frame hword hqueue
  roams hr := by
    rw [inside_moves hlocks]
    exact h.roams (hroams hr)

theorem enters (h : Guarded cron term m) (hlocks : ¬ cron.Locks) (hlocks' : cron'.Locks) :
    Guarded cron' term (m.op .cron (.P .cron_table_sem)) where
  mutex := by
    rw [inside_insert_cron cron hlocks']
    exact Sems.Permits.enter h.mutex (mem_inside.not.mpr hlocks)
  roams hr := absurd hlocks' (not_locks_of_roams hr)

theorem unlocks (h : Guarded cron term m) (hlocks : cron.Locks)
    (hq : Proc.cron ∉ m.queue .cron_table_sem) (hlocks' : ¬ cron'.Locks) (hroams' : ¬ cron'.Roams) :
    Guarded cron' term (m.op .cron (.V .cron_table_sem)) where
  mutex := by
    rw [inside_erase_cron cron hlocks']
    exact Sems.Permits.leave h.mutex (mem_inside.mpr hlocks) hq
  roams hr := absurd hr hroams'

-- Cron releases a process, and the table with it. It may go on over the table when
-- nobody waits.
theorem wakes (h : Guarded cron term m) (hlocks : cron.Locks)
    (hq : Proc.cron ∉ m.queue .cron_table_sem) (hlocks' : ¬ cron'.Locks)
    (hroams' : cron'.Roams → m.queue .cron_table_sem = []) (j : Term) :
    Guarded cron' term
      (m.vector .cron [.V (.sem j), .P .wake_up_cron_sem, .V .cron_table_sem]) where
  mutex := by
    rw [inside_erase_cron cron hlocks']
    have hcron : Proc.cron ∈ inside (Locks cron term) := mem_inside.mpr hlocks
    have hleave := Sems.Permits.leave h.mutex hcron hq
    exact Sems.Permits.vector_once hleave [.V (.sem j), .P .wake_up_cron_sem] [] (by simp [Op.sem])
      (by simp)
  roams hr := by
    have hcron : Proc.cron ∈ inside (Locks cron term) := mem_inside.mpr hlocks
    have hlen := h.mutex.length_queue hcron
    rw [hroams' hr] at hlen
    obtain ⟨p, hp⟩ := Finset.card_eq_one.mp hlen.symm
    rw [hp, Finset.mem_singleton] at hcron
    rw [inside_erase_cron cron hlocks', hp, ← hcron]
    exact Finset.erase_singleton _

theorem turns (h : Guarded cron term m) (hlocks : pc.Locks ↔ (term i).Locks)
    (hword : m'.word .cron_table_sem = m.word .cron_table_sem)
    (hqueue : m'.queue .cron_table_sem = m.queue .cron_table_sem) :
    Guarded cron (Function.update term i pc) m' where
  mutex := by
    rw [inside_turns hlocks]
    exact h.mutex.frame hword hqueue
  roams hr := by
    rw [inside_turns hlocks]
    exact h.roams hr

theorem locks (h : Guarded cron term m) (hlocks : ¬ (term i).Locks) (hlocks' : pc.Locks)
    (hroams : ¬ cron.Roams) :
    Guarded cron (Function.update term i pc) (m.op (.term i) (.P .cron_table_sem)) where
  mutex := by
    have hi : Proc.term i ∉ inside (Locks cron term) := mem_inside.not.mpr hlocks
    rw [inside_insert_term hlocks']
    exact Sems.Permits.enter h.mutex hi
  roams hr := absurd hr hroams

theorem blocks (h : Guarded cron term m) (hlocks : (term i).Locks)
    (hq : Proc.term i ∉ m.queue .cron_table_sem) (hlocks' : ¬ pc.Locks) :
    Guarded cron (Function.update term i pc)
      (m.vector (.term i) [.V .cron_table_sem, .P (.sem i), .V .wake_up_cron_sem]) where
  mutex := by
    have hi : Proc.term i ∈ inside (Locks cron term) := mem_inside.mpr hlocks
    have hleave := Sems.Permits.leave h.mutex hi hq
    rw [inside_erase_term hlocks']
    exact Sems.Permits.vector_once hleave [] [.P (.sem i), .V .wake_up_cron_sem] (by simp)
      (by simp [Op.sem])
  roams hr := by
    rw [inside_erase_term hlocks', h.roams hr]
    rfl

-- While cron roams the table looks free.
theorem free (h : Guarded cron term m) (hr : cron.Roams) :
    m.word .cron_table_sem = 1 ∧ m.queue .cron_table_sem = [] := by
  have hword := h.mutex.word
  rw [h.roams hr] at hword
  refine ⟨hword, h.mutex.balanced.queue_nil ?_⟩
  rw [hword]
  decide

end Guarded

namespace System

variable {s s' : System} {a : Action} {i j : Term}

def Guarded (s : System) : Prop := Support.Guarded s.cron s.term s.sems

-- A process works on the table: it is inside, and does not wait there.
def Uses (s : System) (p : Proc) : Prop :=
  (Locks s.cron s.term p ∨ p = .cron ∧ s.cron.Roams) ∧ p ∉ s.sems.queue .cron_table_sem

structure Exclusive (s : System) : Prop where
  word : s.sems.word .cron_table_sem ≤ 1
  unique : ∀ p q, s.Uses p → s.Uses q → p = q

-- A pass of cron releases one process, at a time when no other process waits for
-- the table unless it is the last entry, and while cron roams no process locks the
-- table.
def Kept (s : System) : Action → Prop
  | .cron => ∀ r ∈ s.cron.releases,
      r.2 = false ∧ ((next r.1 true).Roams → s.sems.queue .cron_table_sem = [])
  | .term i => (s.term i).Enters → ¬ s.cron.Roams
  | _ => True

instance (s : System) : DecidablePred (Kept s)
  | .cron => inferInstanceAs (Decidable (∀ r ∈ s.cron.releases, _))
  | .term _ => inferInstanceAs (Decidable (_ → _))
  | .tick | .delay _ _ | .terminate _ => isTrue trivial

theorem Guarded.exclusive (h : s.Guarded) : s.Exclusive where
  word := h.mutex.word_le
  unique p q hp hq := by
    by_cases hr : s.cron.Roams
    · have honly : ∀ p, s.Uses p → p = .cron := by
        rintro p ⟨hl | ⟨hcron, -⟩, -⟩
        · have hmem := mem_inside.mpr hl
          rw [h.roams hr] at hmem
          exact absurd hmem (Finset.notMem_empty p)
        · exact hcron
      rw [honly p hp, honly q hq]
    · have hlocks : ∀ p, s.Uses p → p ∈ inside (Locks s.cron s.term) := by
        rintro p ⟨hl | ⟨-, hr'⟩, -⟩
        · exact mem_inside.mpr hl
        · exact absurd hr' hr
      exact h.mutex.unique (hlocks p hp) hp.2 (hlocks q hq) hq.2

theorem initial_guarded (clock : Int) : Guarded (initial clock) where
  mutex := by
    have hempty : inside (Locks (.createproc 0) fun _ => .unborn) = ∅ := by decide
    show (initial clock).sems.Mutex .cron_table_sem (inside (Locks (.createproc 0) fun _ => .unborn))
    rw [hempty]
    exact ⟨rfl, by simp [initial], by simp [initial], rfl⟩
  roams hr := by cases hr

theorem next_locks (j : Term) (b : Bool) : (next j b).Locks ↔ b = false := by
  rcases next_cases j b with ⟨k, h⟩ | ⟨h, hb⟩ | ⟨h, hb⟩
  · rw [h]
    simp [CronPc.Locks, CronPc.awoken]
  · rw [h, hb]
    simp [CronPc.Locks, CronPc.awoken]
  · rw [h, hb]
    simp [CronPc.Locks]

theorem next_roams (j : Term) (b : Bool) (h : (next j b).Roams) : b = true := by
  cases b with
  | true => rfl
  | false => exact absurd ((next_locks j false).mpr rfl) (not_locks_of_roams h)

theorem locks_iff {pc : CronPc} {b : Bool} (h : pc.awoken = some b) : pc.Locks ↔ b = false := by
  unfold CronPc.Locks
  rw [h]
  constructor
  · rintro (hl | rfl)
    · exact Option.some.inj hl
    · cases h
  · rintro rfl
    exact Or.inl rfl

theorem awoken_of_roams {pc : CronPc} {b : Bool} (h : pc.awoken = some b) (hr : pc.Roams) :
    b = true :=
  Option.some.inj (h.symm.trans hr)

-- Cron moves within its loop over the table.
theorem Guarded.scans (h : s.Guarded) {pc : CronPc} {b : Bool} (hpc : s.cron.awoken = some b)
    (hlocks : pc.Locks ↔ b = false) (hroams : pc.Roams → b = true) {f : Term → Int} :
    Guarded { s with cron := pc, wakeUpTime := f } := by
  apply h.moves (hlocks.trans (locks_iff hpc).symm) _ rfl rfl
  intro hr
  rw [CronPc.Roams, hpc, hroams hr]

theorem not_locks {pc : CronPc} (h : pc.awoken = none) (hpc : pc ≠ .unlockTable) : ¬ pc.Locks := by
  rintro (hl | hl)
  · rw [h] at hl
    cases hl
  · exact hpc hl

theorem not_roams {pc : CronPc} (h : pc.awoken = none) : ¬ pc.Roams := by
  intro hr
  rw [CronPc.Roams, h] at hr
  cases hr

-- Cron moves outside it.
theorem Guarded.stays (h : s.Guarded) {pc : CronPc} {m : Sems Sem Proc}
    (hout : ¬ s.cron.Locks) (hpc : pc.awoken = none) (hne : pc ≠ .unlockTable)
    (hword : m.word .cron_table_sem = s.sems.word .cron_table_sem)
    (hqueue : m.queue .cron_table_sem = s.sems.queue .cron_table_sem) :
    Guarded { s with cron := pc, sems := m } :=
  h.moves (iff_of_false (not_locks hpc hne) hout) (fun hr => absurd hr (not_roams hpc)) hword hqueue

theorem Guarded.step_createproc (h : s.Guarded) (hborn : s.Born) (hj : s.cron = .createproc j)
    {pc : CronPc} (hpc : pc.awoken = none) (hne : pc ≠ .unlockTable) :
    Guarded { s with term := Function.update s.term j .tprocess, cron := pc } := by
  have hunborn : TermPc.tprocess.Locks ↔ (s.term j).Locks := by
    rw [hborn j j hj le_rfl]
    exact Iff.rfl
  have hout : ¬ s.cron.Locks := by
    rw [hj]
    exact not_locks rfl nofun
  have hterm : Support.Guarded s.cron (Function.update s.term j .tprocess) s.sems :=
    Support.Guarded.turns h hunborn rfl rfl
  exact hterm.moves (iff_of_false (not_locks hpc hne) hout)
    (fun hr => absurd hr (not_roams hpc)) rfl rfl

theorem Guarded.cronStep (h : s.Guarded) (hborn : s.Born) (hk : Kept s .cron)
    (hb : ¬ s.sems.Blocked .cron) (hs : s.cronStep = some s') : s'.Guarded := by
  unfold System.cronStep at hs
  have hq : Proc.cron ∉ s.sems.queue .cron_table_sem := fun hq => hb ⟨_, hq⟩
  have hout : ∀ pc : CronPc, s.cron = pc → pc.awoken = none → pc ≠ .unlockTable →
      ¬ s.cron.Locks := by
    rintro pc rfl hpc hne
    exact not_locks hpc hne
  split at hs
  · next j hj =>
    cases hs
    split
    · exact h.step_createproc hborn hj rfl nofun
    · exact h.step_createproc hborn hj rfl nofun
  · next hpc =>
    cases hs
    exact h.stays (hout _ hpc rfl nofun) rfl nofun ((Sems.word_op ..).trans (Int.add_zero _))
      (Sems.queue_op_of_ne nofun)
  · next hpc =>
    cases hs
    split
    · exact h.stays (hout _ hpc rfl nofun) rfl nofun rfl rfl
    · exact h.stays (hout _ hpc rfl nofun) rfl nofun rfl rfl
  · next hpc =>
    cases hs
    exact h.stays (hout _ hpc rfl nofun) rfl nofun rfl rfl
  · cases hs
  · next hpc =>
    cases hs
    exact h.enters (hout _ hpc rfl nofun) (Or.inl rfl)
  · next j b hpc =>
    cases hs
    exact h.scans (hpc ▸ rfl) (locks_iff rfl) (awoken_of_roams rfl)
  · next j b t hpc =>
    cases hs
    split
    · exact h.scans (hpc ▸ rfl) (locks_iff rfl) (awoken_of_roams rfl)
    · exact h.scans (hpc ▸ rfl) (next_locks j b) (next_roams j b)
  · next j b t hpc =>
    cases hs
    split
    · exact h.scans (hpc ▸ rfl) (locks_iff rfl) (awoken_of_roams rfl)
    · exact h.scans (hpc ▸ rfl) (next_locks j b) (next_roams j b)
  · next j b hpc =>
    cases hs
    exact h.scans (hpc ▸ rfl) (locks_iff rfl) (awoken_of_roams rfl)
  · next j b hpc =>
    cases hs
    obtain ⟨hfalse, hqueue⟩ := hk (j, b) (hpc.symm ▸ rfl)
    have hlocks : s.cron.Locks := (locks_iff (hpc.symm ▸ rfl)).mpr hfalse
    have hlocks' : ¬ (next j true).Locks := fun hl => nomatch (next_locks j true).mp hl
    exact h.wakes hlocks hq hlocks' hqueue j
  · next hpc =>
    cases hs
    have hlocks : s.cron.Locks := hpc.symm ▸ Or.inr rfl
    exact h.unlocks hlocks hq (not_locks rfl nofun) (not_roams rfl)
  · next hpc =>
    cases hs
    exact h.stays (hout _ hpc rfl nofun) rfl nofun rfl rfl
  · next hpc =>
    cases hs
    exact h.stays (hout _ hpc rfl nofun) rfl nofun rfl rfl

theorem Guarded.termStep (h : s.Guarded) (hk : Kept s (.term i))
    (hb : ¬ s.sems.Blocked (.term i)) (hs : s.termStep i = some s') : s'.Guarded := by
  unfold System.termStep at hs
  have hq : Proc.term i ∉ s.sems.queue .cron_table_sem := fun hq => hb ⟨_, hq⟩
  have hsame : ∀ pc pc' : TermPc, s.term i = pc → (pc'.Locks ↔ pc.Locks) →
      (pc'.Locks ↔ (s.term i).Locks) := by
    rintro pc pc' rfl hl
    exact hl
  split at hs
  · cases hs
  · next hpc =>
    cases hs
    exact h.turns (hsame _ _ hpc Iff.rfl) rfl rfl
  · next hpc =>
    cases hs
    exact h.turns (hsame _ _ hpc Iff.rfl) rfl rfl
  · cases hs
  · next hpc =>
    cases hs
    exact h.turns (hsame _ _ hpc Iff.rfl) rfl rfl
  · next hpc =>
    cases hs
    have hlocks : ¬ (s.term i).Locks := hpc.symm ▸ id
    exact h.locks hlocks trivial (hk (hpc.symm ▸ trivial))
  · next hpc =>
    cases hs
    exact h.turns (hsame _ _ hpc Iff.rfl) rfl rfl
  · next hpc =>
    cases hs
    have hlocks : (s.term i).Locks := hpc.symm ▸ trivial
    exact h.blocks hlocks hq id
  · next hpc =>
    cases hs
    exact h.turns (hsame _ _ hpc Iff.rfl) rfl rfl
  · next hpc =>
    cases hs
    exact h.turns (hsame _ _ hpc Iff.rfl) rfl rfl
  · next hpc =>
    cases hs
    exact h.turns (hsame _ _ hpc Iff.rfl) rfl rfl
  · next hpc =>
    cases hs
    split
    · exact h.turns (hsame _ _ hpc Iff.rfl) rfl rfl
    · exact h.turns (hsame _ _ hpc Iff.rfl) rfl rfl
  · next hpc =>
    cases hs
    show Support.Guarded s.cron _ (s.sems.op (.term i) (.V .wake_up_cron_sem))
    exact h.turns (hsame _ _ hpc Iff.rfl) ((Sems.word_op ..).trans (Int.add_zero _))
      (Sems.queue_op_of_ne nofun)
  · next hpc =>
    cases hs
    exact h.turns (hsame _ _ hpc Iff.rfl) rfl rfl
  · cases hs

theorem Guarded.step (h : s.Guarded) (hborn : s.Born) (hk : Kept s a)
    (hs : System.step a s = some s') : s'.Guarded := by
  cases a with
  | tick =>
      rw [step_tick hs]
      exact h
  | cron => exact h.cronStep hborn hk (step_cron hs).1 (step_cron hs).2
  | term i => exact h.termStep hk (step_term hs).2.1 (step_term hs).2.2
  | delay i d =>
      obtain ⟨hpc, rfl⟩ := step_delay hs
      exact h.turns (iff_of_false id (hpc.symm ▸ id)) rfl rfl
  | terminate i =>
      obtain ⟨hpc, rfl⟩ := step_terminate hs
      exact h.turns (iff_of_false id (hpc.symm ▸ id)) rfl rfl

-- The vector with which cron releases a process also releases the table.
theorem table_wake (m : Sems Sem Proc) (j : Term) :
    (m.vector .cron [.V (.sem j), .P .wake_up_cron_sem, .V .cron_table_sem]).word .cron_table_sem =
        m.word .cron_table_sem + 1 ∧
      (m.vector .cron [.V (.sem j), .P .wake_up_cron_sem, .V .cron_table_sem]).queue
        .cron_table_sem = (m.op .cron (.V .cron_table_sem)).queue .cron_table_sem := by
  have hpre : ∀ o ∈ [Op.V (Sem.sem j), Op.P Sem.wake_up_cron_sem], o.sem ≠ Sem.cron_table_sem := by
    simp [Op.sem]
  constructor
  · exact (Sems.word_vector_once (o := Op.V Sem.cron_table_sem) _ [] hpre (by simp)).trans
      (Sems.word_op ..)
  · exact Sems.queue_vector_once (o := Op.V Sem.cron_table_sem) _ [] hpre (by simp)

theorem not_exclusive_of_wake (h : s.Guarded) {b : Bool} (hpc : s.cron = .wake j b)
    (hb : ¬ s.sems.Blocked .cron)
    (hk : ¬ (b = false ∧ ((next j true).Roams → s.sems.queue .cron_table_sem = []))) :
    ¬ Exclusive { s with
      cron := next j true
      sems := s.sems.vector .cron [.V (.sem j), .P .wake_up_cron_sem, .V .cron_table_sem] } := by
  obtain ⟨hword, hqueue⟩ := table_wake s.sems j
  intro hexclusive
  cases b with
  | true =>
      have hr : s.cron.Roams := hpc.symm ▸ rfl
      have hle := hexclusive.word
      dsimp only at hle
      rw [hword, (h.free hr).1] at hle
      omega
  | false =>
      rw [not_and, Classical.not_imp] at hk
      obtain ⟨hroams, hne⟩ := hk rfl
      obtain ⟨p, rest, hcons⟩ := List.exists_cons_of_ne_nil hne
      have hp : p ∈ s.sems.queue .cron_table_sem := by
        rw [hcons]
        exact List.mem_cons_self
      have hnodup := h.mutex.nodup
      rw [hcons, List.nodup_cons] at hnodup
      have htail : (s.sems.op .cron (.V .cron_table_sem)).queue .cron_table_sem = rest := by
        rw [Sems.queue_V, if_pos (h.mutex.balanced.word_neg hp), hcons, List.tail_cons]
      have hpcron : p ≠ .cron := fun heq => hb ⟨_, heq ▸ hp⟩
      -- The first of the waiters has the table while cron goes on over it.
      have huses : Uses { s with
          cron := next j true
          sems := s.sems.vector .cron
            [.V (.sem j), .P .wake_up_cron_sem, .V .cron_table_sem] } p := by
        refine ⟨Or.inl ?_, ?_⟩
        · have hlocks := mem_inside.mp (h.mutex.within p hp)
          cases p with
          | cron => exact absurd rfl hpcron
          | term i => exact hlocks
        · dsimp only
          rw [hqueue, htail]
          exact hnodup.1
      have hcron : Uses { s with
          cron := next j true
          sems := s.sems.vector .cron
            [.V (.sem j), .P .wake_up_cron_sem, .V .cron_table_sem] } .cron := by
        refine ⟨Or.inr ⟨rfl, hroams⟩, ?_⟩
        dsimp only
        rw [hqueue, htail]
        intro hmem
        exact hb ⟨.cron_table_sem, hcons ▸ List.mem_cons_of_mem p hmem⟩
      exact hpcron (hexclusive.unique p .cron huses hcron)

theorem not_exclusive_of_lock (h : s.Guarded) (hr : s.cron.Roams) {pc : TermPc} (hpc : pc.Locks) :
    ¬ Exclusive { s.setTerm i pc with sems := s.sems.op (.term i) (.P .cron_table_sem) } := by
  intro hexclusive
  obtain ⟨hword, hqueue⟩ := h.free hr
  have hnil : (s.sems.op (.term i) (.P .cron_table_sem)).queue .cron_table_sem = [] := by
    rw [Sems.queue_P, if_neg (by rw [hword]; decide), hqueue]
  have hterm : Uses { s.setTerm i pc with
      sems := s.sems.op (.term i) (.P .cron_table_sem) } (.term i) := by
    refine ⟨Or.inl (locks_update_self.mpr hpc), ?_⟩
    dsimp only
    rw [hnil]
    exact List.not_mem_nil
  have hcron : Uses { s.setTerm i pc with
      sems := s.sems.op (.term i) (.P .cron_table_sem) } .cron := by
    refine ⟨Or.inr ⟨rfl, hr⟩, ?_⟩
    dsimp only
    rw [hnil]
    exact List.not_mem_nil
  exact nomatch hexclusive.unique _ _ hterm hcron

theorem not_exclusive_of_not_kept (h : s.Guarded) (hk : ¬ Kept s a)
    (hs : System.step a s = some s') : ¬ s'.Exclusive := by
  cases a with
  | cron =>
      obtain ⟨hb, hcron⟩ := step_cron hs
      simp only [Kept, not_forall] at hk
      obtain ⟨⟨j, b⟩, hr, hk⟩ := hk
      have hpc : s.cron = .wake j b := by
        cases hpc : s.cron with
        | wake j' b' =>
            rw [hpc] at hr
            cases hr
            rfl
        | _ =>
            rw [hpc] at hr
            cases hr
      rw [cronStep, hpc] at hcron
      cases hcron
      exact not_exclusive_of_wake h hpc hb hk
  | term i =>
      have hterm := (step_term hs).2.2
      rw [Kept, Classical.not_imp, not_not] at hk
      cases hpc : s.term i with
      | lockTable c d w =>
          rw [termStep, hpc] at hterm
          cases hterm
          exact not_exclusive_of_lock h hk.2 trivial
      | _ =>
          rw [hpc] at hk
          exact False.elim hk.1
  | tick => exact absurd trivial hk
  | delay i d => exact absurd trivial hk
  | terminate i => exact absurd trivial hk

-- In a run the table is used by one process at a time just when each pass of cron
-- releases it once, and nobody else comes in until the pass is over.
theorem run_exclusive_iff {as : List Action} {clock : Int} (h : run as (initial clock) = some s) :
    (∀ bs s', bs <+: as → run bs (initial clock) = some s' → s'.Exclusive) ↔
      Runs.Along System.step Kept as (initial clock) :=
  Runs.always_iff_along (J := fun s => s.Born ∧ s.Guarded) (fun _ h => h.2.exclusive)
    (fun _ _ _ h hk hs => ⟨h.1.step hs, h.2.step h.1 hk hs⟩)
    (fun _ _ _ h hk hs => not_exclusive_of_not_kept h.2 hk hs)
    ⟨initial_born clock, initial_guarded clock⟩ h

-- One delay, and the pass of cron that ends it.
def alone : List Action :=
  [.cron, .cron, .term 0, .term 0, .delay 0 0, .term 0, .term 0, .term 0, .term 0] ++
    List.replicate 8 .cron

theorem run_exclusive_sample : ∃ s, run alone (initial 0) = some s ∧ s.Exclusive := by
  have hsome : (run alone (initial 0)).isSome = true := by decide +kernel
  obtain ⟨s, hs⟩ := Option.isSome_iff_exists.mp hsome
  have hexclusive := (run_exclusive_iff hs).mpr (by decide +kernel)
  exact ⟨s, hs, hexclusive alone s List.prefix_rfl hs⟩

-- Two delays that end in one pass, and the same processes asking for the next.
def expire : List Action :=
  [.cron, .cron, .term 0, .term 0, .term 1, .term 1, .delay 0 0, .term 0, .term 0, .term 0, .term 0,
    .delay 1 0, .term 1, .term 1, .term 1, .term 1] ++ List.replicate 13 .cron

def meet : List Action :=
  expire ++ [.term 0, .term 1, .delay 0 0, .delay 1 0, .term 0, .term 1, .term 0, .term 1]

-- The table is released twice, and then two processes have it.
theorem table_shared :
    (∃ s, run expire (initial 0) = some s ∧ s.sems.word .cron_table_sem = 2) ∧
    ∃ s, run meet (initial 0) = some s ∧ s.Uses (.term 0) ∧ s.Uses (.term 1) := by
  have htwice : ∃ s ∈ run expire (initial 0), s.sems.word .cron_table_sem = 2 := by
    decide +kernel
  have hboth : ∃ s ∈ run meet (initial 0), s.Uses (.term 0) ∧ s.Uses (.term 1) := by
    unfold Uses
    decide +kernel
  exact ⟨htwice, hboth⟩

end System

end Hoca.Support
