import Hoca.Support.Cron

namespace Hoca.Support

open Semaphores

-- What the numbers in the table are for one T-process: whether cron has found its
-- entry expired, and whether it has reset it without having released the process.
def CronPc.Notices (i : Term) : CronPc → Prop
  | .compare j _ _ => j = i
  | .reset j _ => j = i
  | _ => False

def CronPc.Wakes (i : Term) : CronPc → Prop
  | .wake j _ => j = i
  | _ => False

instance (i : Term) : DecidablePred (CronPc.Wakes i)
  | .wake j _ => inferInstanceAs (Decidable (j = i))
  | .createproc _ | .first | .loop | .terminateproc | .gone | .lockTable | .scan _ _
  | .marker _ _ _ | .compare _ _ _ | .reset _ _ | .unlockTable | .waitclock | .asleep =>
      inferInstanceAs (Decidable False)

-- Whether the process has written its entry and has not left delay.
def TermPc.Asks : TermPc → Prop
  | .block _ _ => True
  | .delayed _ _ => True
  | _ => False

-- The delay the process is about to add to the time.
def TermPc.asking : TermPc → Option Int
  | .delay _ d => some d
  | _ => none

-- What the process has taken from its semaphore.
def TermPc.taken : TermPc → Int
  | .delayed _ _ => 1
  | _ => 0

section Words

variable (m : Sems Sem Proc) {i j : Term} {p : Proc}

theorem word_sem_op {o : Op Sem} (h : o.sem ≠ .sem i) :
    (m.op p o).word (.sem i) = m.word (.sem i) := by
  rw [Sems.word_op, if_neg h, Int.add_zero]

-- The vector with which cron releases a process.
theorem word_sem_wake (i j : Term) (p : Proc) :
    (m.vector p [.V (.sem j), .P .wake_up_cron_sem, .V .cron_table_sem]).word (.sem i) =
      m.word (.sem i) + if j = i then 1 else 0 := by
  by_cases hij : j = i
  · simp [Sems.word_vector, Op.sem, Op.adds, hij]
  · simp [Sems.word_vector, Op.sem, hij]

theorem queue_sem_wake (hij : j ≠ i) :
    (m.vector p [.V (.sem j), .P .wake_up_cron_sem, .V .cron_table_sem]).queue (.sem i) =
      m.queue (.sem i) := by
  apply Sems.queue_vector_of_ne
  simp [Op.sem, hij]

-- The vector at the end of delay.
theorem word_sem_block (i j : Term) (p : Proc) :
    (m.vector p [.V .cron_table_sem, .P (.sem j), .V .wake_up_cron_sem]).word (.sem i) =
      m.word (.sem i) - if j = i then 1 else 0 := by
  by_cases hij : j = i
  · simp [Sems.word_vector, Op.sem, Op.adds, hij, Int.sub_eq_add_neg]
  · simp [Sems.word_vector, Op.sem, hij]

theorem queue_sem_block (hij : j ≠ i) :
    (m.vector p [.V .cron_table_sem, .P (.sem j), .V .wake_up_cron_sem]).queue (.sem i) =
      m.queue (.sem i) := by
  apply Sems.queue_vector_of_ne
  simp [Op.sem, hij]

end Words

-- The entry of one T-process, its semaphore and where the process and cron are.
-- The semaphore has what cron has put there and the process has not taken.
structure Entry (i : Term) (cron : CronPc) (pc : TermPc) (wakeUpTime word : Int)
    (queue : List Proc) : Prop where
  unmarked : ∀ c d w, pc = .lockTable c d w ∨ pc = .write c d w → w ≠ -1
  idle : ¬ pc.Asks → wakeUpTime = -1 ∧ word = 0 ∧ ¬ cron.Wakes i
  counted : pc.Asks → word = (if wakeUpTime = -1 ∧ ¬ cron.Wakes i then 1 else 0) - pc.taken
  noticed : cron.Notices i → wakeUpTime ≠ -1
  woken : cron.Wakes i → wakeUpTime = -1
  own : ∀ p ∈ queue, p = .term i
  balanced : (queue.length : Int) = max 0 (-word)

namespace Entry

variable {i : Term} {cron cron' : CronPc} {pc pc' : TermPc} {x n : Int} {q : List Proc}

-- Cron moves without touching the entry.
theorem moves (h : Entry i cron pc x n q) (hwakes : ¬ cron.Wakes i) (hwakes' : ¬ cron'.Wakes i)
    (hnoticed : cron'.Notices i → x ≠ -1) : Entry i cron' pc x n q where
  unmarked := h.unmarked
  idle ha := ⟨(h.idle ha).1, (h.idle ha).2.1, hwakes'⟩
  counted ha := by
    have hword := h.counted ha
    simp only [hwakes] at hword
    simp only [hwakes']
    exact hword
  noticed := hnoticed
  woken hw := absurd hw hwakes'
  own := h.own
  balanced := h.balanced

-- Cron resets the entry.
theorem resets (h : Entry i cron pc x n q) (hn : cron.Notices i) (hwakes' : cron'.Wakes i)
    (hnotices' : ¬ cron'.Notices i) : Entry i cron' pc (-1) n q where
  unmarked := h.unmarked
  idle ha := absurd (h.idle ha).1 (h.noticed hn)
  counted ha := by
    rw [h.counted ha, if_neg fun hx => h.noticed hn hx.1, if_neg fun hx => hx.2 hwakes']
  noticed hn' := absurd hn' hnotices'
  woken _ := rfl
  own := h.own
  balanced := h.balanced

-- Cron puts one into the semaphore.
theorem wakes (h : Entry i cron pc x n q) (hw : cron.Wakes i) (hwakes' : ¬ cron'.Wakes i)
    (hnotices' : ¬ cron'.Notices i) {q' : List Proc}
    (hq : ∀ p ∈ q', p ∈ q) (hbalanced : (q'.length : Int) = max 0 (-(n + 1))) :
    Entry i cron' pc x (n + 1) q' where
  unmarked := h.unmarked
  idle ha := absurd hw (h.idle ha).2.2
  counted ha := by
    rw [h.counted ha, if_neg fun hx => hx.2 hw, if_pos ⟨h.woken hw, hwakes'⟩]
    omega
  noticed hn' := absurd hn' hnotices'
  woken hw' := absurd hw' hwakes'
  own p hp := h.own p (hq p hp)
  balanced := hbalanced

-- The process moves without touching its entry.
theorem turns (h : Entry i cron pc x n q) (ha : ¬ pc.Asks) (ha' : ¬ pc'.Asks)
    (hunmarked : ∀ c d w, pc' = .lockTable c d w ∨ pc' = .write c d w → w ≠ -1) :
    Entry i cron pc' x n q where
  unmarked := hunmarked
  idle _ := h.idle ha
  counted hasks := absurd hasks ha'
  noticed := h.noticed
  woken := h.woken
  own := h.own
  balanced := h.balanced

theorem bears (h : Entry i cron pc x n q) (hunborn : pc = .unborn) (hwakes' : ¬ cron'.Wakes i)
    (hnotices' : ¬ cron'.Notices i) : Entry i cron' .tprocess x n q where
  unmarked c d w hw := by simp at hw
  idle _ := by
    have hidle := h.idle (by rw [hunborn]; exact id)
    exact ⟨hidle.1, hidle.2.1, hwakes'⟩
  counted ha := False.elim ha
  noticed hn := absurd hn hnotices'
  woken hw := absurd hw hwakes'
  own := h.own
  balanced := h.balanced

-- The process writes its entry.
theorem writes (h : Entry i cron pc x n q) {c d w : Int} (hpc : pc = .write c d w) :
    Entry i cron (.block c d) w n q where
  unmarked c d w hw := by simp at hw
  idle ha := absurd trivial ha
  counted _ := by
    have hidle := h.idle (by rw [hpc]; exact id)
    rw [hidle.2.1, if_neg fun hx => h.unmarked c d w (Or.inr hpc) hx.1]
    rfl
  noticed _ := h.unmarked c d w (Or.inr hpc)
  woken hw := absurd hw (h.idle (by rw [hpc]; exact id)).2.2
  own := h.own
  balanced := h.balanced

-- The process takes one from its semaphore.
theorem blocks (h : Entry i cron pc x n q) {c d : Int} (hpc : pc = .block c d) {q' : List Proc}
    (hq : ∀ p ∈ q', p ∈ q ∨ p = .term i) (hbalanced : (q'.length : Int) = max 0 (-(n - 1))) :
    Entry i cron (.delayed c d) x (n - 1) q' where
  unmarked c d w hw := by simp at hw
  idle ha := absurd trivial ha
  counted _ := by
    rw [h.counted (by rw [hpc]; trivial), hpc]
    simp only [TermPc.taken]
    omega
  noticed := h.noticed
  woken := h.woken
  own p hp := (hq p hp).elim (h.own p) id
  balanced := hbalanced

-- A process that does not wait in delay has taken what cron has put.
theorem released (h : Entry i cron pc x n q) {c d : Int} (hpc : pc = .delayed c d)
    (hq : Proc.term i ∉ q) : x = -1 ∧ ¬ cron.Wakes i ∧ n = 0 := by
  have hnil : q = [] := List.eq_nil_iff_forall_not_mem.mpr fun p hp => hq (h.own p hp ▸ hp)
  have hlen := h.balanced
  have hword := h.counted (by rw [hpc]; trivial)
  rw [hnil] at hlen
  rw [hpc] at hword
  simp only [TermPc.taken] at hword
  simp only [List.length_nil] at hlen
  split at hword
  · next hx => exact ⟨hx.1, hx.2, by omega⟩
  · omega

theorem leaves (h : Entry i cron pc x n q) {c d : Int} (hpc : pc = .delayed c d)
    (hq : Proc.term i ∉ q) : Entry i cron .user x n q where
  unmarked c d w hw := by simp at hw
  idle _ := by
    obtain ⟨hx, hw, hn⟩ := h.released hpc hq
    exact ⟨hx, hn, hw⟩
  counted ha := False.elim ha
  noticed := h.noticed
  woken := h.woken
  own := h.own
  balanced := h.balanced

-- While the process waits its entry is not the marker, unless cron is about to
-- release it.
theorem waits (h : Entry i cron pc x n q) (hq : Proc.term i ∈ q) : cron.Wakes i ∨ x ≠ -1 := by
  have hlen := h.balanced
  have hpos := List.length_pos_of_mem hq
  by_cases ha : pc.Asks
  · have hword := h.counted ha
    by_cases hw : cron.Wakes i
    · exact Or.inl hw
    · refine Or.inr fun hx => ?_
      rw [if_pos ⟨hx, hw⟩] at hword
      cases pc <;> simp only [TermPc.taken] at hword <;> omega
  · have hidle := (h.idle ha).2.1
    omega

end Entry

theorem sum_update {i : Term} (f g : Term → Int) (h : ∀ j, j ≠ i → g j = f j) :
    ∑ j, g j = ∑ j, f j + (g i - f i) := by
  have hsum : ∑ j, (g j - f j) = g i - f i := by
    apply Finset.sum_eq_single i
    · intro j _ hj
      rw [h j hj, Int.sub_self]
    · intro hi
      exact absurd (Finset.mem_univ i) hi
  rw [Finset.sum_sub_distrib] at hsum
  omega

namespace System

variable {s s' : System} {a : Action} {i j : Term} {p : Proc} {pc : CronPc}

section Step

theorem step_tick (h : step .tick s = some s') : s' = { s with clock := s.clock + 1 } :=
  (Option.some.inj h).symm

theorem step_cron (h : step .cron s = some s') :
    ¬ s.sems.Blocked .cron ∧ s.cronStep = some s' := by
  rw [step] at h
  split at h
  · cases h
  · next hb => exact ⟨hb, h⟩

theorem step_term (h : step (.term i) s = some s') :
    s.cron ≠ .gone ∧ ¬ s.sems.Blocked (.term i) ∧ s.termStep i = some s' := by
  rw [step] at h
  split at h
  · cases h
  · next hb =>
    rw [not_or] at hb
    exact ⟨hb.1, hb.2, h⟩

theorem step_delay {d : Int} (h : step (.delay i d) s = some s') :
    s.term i = .user ∧ s' = s.setTerm i (.delay s.clock d) := by
  rw [step] at h
  split at h
  · next hb => exact ⟨hb.2, (Option.some.inj h).symm⟩
  · cases h

theorem step_terminate (h : step (.terminate i) s = some s') :
    s.term i = .user ∧ s' = s.setTerm i .terminate := by
  rw [step] at h
  split at h
  · next hb => exact ⟨hb.2, (Option.some.inj h).symm⟩
  · cases h

theorem next_cases (j : Term) (b : Bool) :
    (∃ k, next j b = .scan k b) ∨ (next j b = .loop ∧ b = true) ∨ (next j b = .unlockTable ∧ b = false) := by
  unfold next
  split
  · exact Or.inl ⟨_, rfl⟩
  · split
    · next hb => exact Or.inr (Or.inl ⟨rfl, hb⟩)
    · next hb => exact Or.inr (Or.inr ⟨rfl, by simpa using hb⟩)

-- What holds wherever the scan of cron goes on.
theorem next_holds {P : CronPc → Prop} {b : Bool} (hscan : ∀ k, P (.scan k b)) (hloop : P .loop)
    (hunlock : P .unlockTable) (j : Term) : P (next j b) := by
  rcases next_cases j b with ⟨k, h⟩ | ⟨h, -⟩ | ⟨h, -⟩
  · exact h ▸ hscan k
  · exact h ▸ hloop
  · exact h ▸ hunlock

theorem next_notices (i j : Term) (b : Bool) : ¬ (next j b).Notices i :=
  next_holds (P := fun pc => ¬ pc.Notices i) (fun _ => id) id id j

theorem next_wakes (i j : Term) (b : Bool) : ¬ (next j b).Wakes i :=
  next_holds (P := fun pc => ¬ pc.Wakes i) (fun _ => id) id id j

theorem next_ne_createproc (j : Term) (b : Bool) (k : Term) : next j b ≠ .createproc k :=
  next_holds (P := fun pc => pc ≠ .createproc k) nofun nofun nofun j

end Step

section Born

-- The processes that p1a has still to create.
def Born (s : System) : Prop := ∀ j i, s.cron = .createproc j → j ≤ i → s.term i = .unborn

theorem initial_born (clock : Int) : Born (initial clock) := fun _ _ _ _ => rfl

theorem Born.of_ne (h : ∀ j, s.cron ≠ .createproc j) : s.Born := fun j _ hj => absurd hj (h j)

theorem Born.cronStep (h : s.Born) (hs : s.cronStep = some s') : s'.Born := by
  unfold System.cronStep at hs
  split at hs
  case h_1 j hj =>
    cases hs
    intro k i hk hki
    dsimp only at hk ⊢
    split at hk
    · cases hk
      have hlt : j.val < i.val := hki
      rw [Function.update_of_ne fun hij => lt_irrefl _ (hij ▸ hlt)]
      exact h j i hj (Fin.le_def.mpr hlt.le)
    · cases hk
  case h_3 =>
    cases hs
    split
    · exact Born.of_ne nofun
    · exact Born.of_ne nofun
  case h_8 =>
    cases hs
    split
    · exact Born.of_ne nofun
    · exact Born.of_ne (next_ne_createproc _ _)
  case h_9 =>
    cases hs
    split
    · exact Born.of_ne nofun
    · exact Born.of_ne (next_ne_createproc _ _)
  case h_11 =>
    cases hs
    exact Born.of_ne (next_ne_createproc _ _)
  all_goals cases hs
  all_goals exact Born.of_ne nofun

theorem Born.setTerm (h : s.Born) (hi : s.term i ≠ .unborn) (pc : TermPc) :
    ∀ j k, s.cron = .createproc j → j ≤ k → Function.update s.term i pc k = .unborn := by
  intro j k hj hjk
  have hk := h j k hj hjk
  have hne : k ≠ i := by
    rintro rfl
    exact hi hk
  rw [Function.update_of_ne hne]
  exact hk

theorem Born.step (h : s.Born) (hs : System.step a s = some s') : s'.Born := by
  cases a with
  | tick =>
      rw [step_tick hs]
      exact h
  | cron => exact h.cronStep (step_cron hs).2
  | term i =>
      have hterm := (step_term hs).2.2
      unfold termStep at hterm
      split at hterm
      all_goals cases hterm
      all_goals exact h.setTerm (by simp [*]) _
  | delay i d =>
      obtain ⟨hpc, rfl⟩ := step_delay hs
      exact h.setTerm (by simp [hpc]) _
  | terminate i =>
      obtain ⟨hpc, rfl⟩ := step_terminate hs
      exact h.setTerm (by simp [hpc]) _

end Born

-- The entry of a T-process in a state.
def Entry (s : System) (i : Term) : Prop :=
  Support.Entry i s.cron (s.term i) (s.wakeUpTime i) (s.sems.word (.sem i)) (s.sems.queue (.sem i))

-- The time computed for the process is not the marker.
def Unmarked (i : Term) (s : System) (a : Action) : Prop :=
  a = .term i → ∀ d ∈ (s.term i).asking, toLong (toLong s.clock + d) ≠ -1

instance (i : Term) (s : System) (a : Action) : Decidable (Unmarked i s a) :=
  inferInstanceAs (Decidable (_ → _))

theorem initial_entry (clock : Int) (i : Term) : Entry (initial clock) i where
  unmarked c d w h := by simp [initial] at h
  idle _ := ⟨rfl, rfl, id⟩
  counted h := False.elim h
  noticed h := False.elim h
  woken h := False.elim h
  own p h := by simp [initial] at h
  balanced := rfl

-- The point of cron changes and no entry does.
theorem Entry.moves (h : s.Entry i) {pc : CronPc} {m : Sems Sem Proc}
    (hwakes : ¬ s.cron.Wakes i) (hwakes' : ¬ pc.Wakes i) (hnoticed : pc.Notices i → s.wakeUpTime i ≠ -1)
    (hword : m.word (.sem i) = s.sems.word (.sem i))
    (hqueue : m.queue (.sem i) = s.sems.queue (.sem i)) :
    Entry { s with cron := pc, sems := m } i := by
  have hmoves := Support.Entry.moves h hwakes hwakes' hnoticed
  rw [← hword, ← hqueue] at hmoves
  exact hmoves

theorem Entry.goes_on (h : s.Entry i) (hwakes : ¬ s.cron.Wakes i) (j : Term) (b : Bool) :
    Entry { s with cron := next j b } i :=
  h.moves hwakes (next_wakes i j b) (fun hn => absurd hn (next_notices i j b)) rfl rfl

theorem Entry.step_createproc (h : s.Entry i) (hborn : s.Born) (hj : s.cron = .createproc j) :
    Entry { s with
      term := Function.update s.term j .tprocess
      cron := if hj : j.val + 1 < MAXTPROC then .createproc ⟨j.val + 1, hj⟩ else .first } i := by
  have hwakes : ¬ (if hj : j.val + 1 < MAXTPROC then CronPc.createproc ⟨j.val + 1, hj⟩
      else .first).Wakes i := by
    split
    · exact id
    · exact id
  have hnotices : ¬ (if hj : j.val + 1 < MAXTPROC then CronPc.createproc ⟨j.val + 1, hj⟩
      else .first).Notices i := by
    split
    · exact id
    · exact id
  unfold Entry
  dsimp only
  by_cases hij : i = j
  · subst hij
    rw [Function.update_self]
    exact Support.Entry.bears h (hborn i i hj le_rfl) hwakes hnotices
  · rw [Function.update_of_ne hij]
    apply Support.Entry.moves h _ hwakes fun hn => absurd hn hnotices
    rw [hj]
    exact id

theorem Entry.step_wake (h : s.Entry i) {b : Bool} (hj : s.cron = .wake j b) :
    Entry { s with
      cron := next j true
      sems := s.sems.vector .cron [.V (.sem j), .P .wake_up_cron_sem, .V .cron_table_sem] } i := by
  by_cases hij : j = i
  · subst hij
    have hq : ∀ p ∈ (s.sems.vector .cron
        [.V (.sem j), .P .wake_up_cron_sem, .V .cron_table_sem]).queue (.sem j),
        p ∈ s.sems.queue (.sem j) := by
      intro p hp
      rcases Sems.mem_queue_vector hp with hp | ⟨-, ho⟩
      · exact hp
      · simp at ho
    have hbalanced : (s.sems.vector .cron
        [.V (.sem j), .P .wake_up_cron_sem, .V .cron_table_sem]).Balanced (.sem j) :=
      Sems.balanced_vector h.balanced _ _
    unfold Sems.Balanced at hbalanced
    unfold Entry
    dsimp only
    rw [word_sem_wake, if_pos rfl] at hbalanced ⊢
    apply Support.Entry.wakes h _ (next_wakes j j true)
      (next_notices j j true) hq hbalanced
    rw [hj]
    rfl
  · apply h.moves _ (next_wakes i j true)
      (fun hn => absurd hn (next_notices i j true)) _ (queue_sem_wake _ hij)
    · rw [hj]
      exact hij
    · rw [word_sem_wake, if_neg hij, Int.add_zero]

theorem Entry.cronStep (h : s.Entry i) (hborn : s.Born) (hs : s.cronStep = some s') : s'.Entry i := by
  unfold System.cronStep at hs
  have hnone : ∀ pc : CronPc, s.cron = pc → ¬ pc.Wakes i → ¬ s.cron.Wakes i :=
    fun pc hpc hw => hpc.symm ▸ hw
  split at hs
  · next j hj =>
    cases hs
    exact h.step_createproc hborn hj
  · next hpc =>
    cases hs
    exact h.moves (hnone _ hpc id) id False.elim
      (word_sem_op _ Sem.noConfusion) (Sems.queue_op_of_ne Sem.noConfusion)
  · next hpc =>
    cases hs
    split
    · exact h.moves (hnone _ hpc id) id False.elim rfl rfl
    · exact h.moves (hnone _ hpc id) id False.elim rfl rfl
  · next hpc =>
    cases hs
    exact h.moves (hnone _ hpc id) id False.elim rfl rfl
  · cases hs
  · next hpc =>
    cases hs
    exact h.moves (hnone _ hpc id) id False.elim
      (word_sem_op _ Sem.noConfusion) (Sems.queue_op_of_ne Sem.noConfusion)
  · next hpc =>
    cases hs
    exact h.moves (hnone _ hpc id) id False.elim rfl rfl
  · next j b t hpc =>
    cases hs
    split
    · next hx =>
      exact h.moves (hnone _ hpc id) id (fun hj => hj ▸ hx) rfl rfl
    · exact h.goes_on (hnone _ hpc id) j b
  · next j b t hpc =>
    cases hs
    split
    · refine h.moves (hnone _ hpc id) id (fun hj => ?_) rfl rfl
      exact h.noticed (hpc.symm ▸ hj)
    · exact h.goes_on (hnone _ hpc id) j b
  · next j b hpc =>
    cases hs
    by_cases hij : i = j
    · subst hij
      unfold Entry
      dsimp only
      rw [Function.update_self]
      exact Support.Entry.resets h (hpc ▸ rfl) rfl id
    · unfold Entry
      dsimp only
      rw [Function.update_of_ne hij]
      exact Support.Entry.moves h (hnone _ hpc id) (Ne.symm hij) False.elim
  · next j b hpc =>
    cases hs
    exact h.step_wake hpc
  · next hpc =>
    cases hs
    exact h.moves (hnone _ hpc id) id False.elim
      (word_sem_op _ Sem.noConfusion) (Sems.queue_op_of_ne Sem.noConfusion)
  · next hpc =>
    cases hs
    exact h.moves (hnone _ hpc id) id False.elim rfl rfl
  · next hpc =>
    cases hs
    exact h.moves (hnone _ hpc id) id False.elim rfl rfl

theorem Entry.other (h : s.Entry i) (hij : i ≠ j) {pc : TermPc} {m : Sems Sem Proc}
    {f : Term → Int} {n : Int} (htime : f i = s.wakeUpTime i)
    (hword : m.word (.sem i) = s.sems.word (.sem i))
    (hqueue : m.queue (.sem i) = s.sems.queue (.sem i)) :
    Entry { s.setTerm j pc with sems := m, wakeUpTime := f, active_t_processes := n } i := by
  unfold Entry setTerm
  dsimp only
  rw [Function.update_of_ne hij, htime, hword, hqueue]
  exact h

-- The process moves and its entry does not change.
theorem Entry.turns (h : s.Entry i) {pc : TermPc} {m : Sems Sem Proc} {n : Int}
    (ha : ¬ (s.term i).Asks) (ha' : ¬ pc.Asks)
    (hunmarked : ∀ c d w, pc = .lockTable c d w ∨ pc = .write c d w → w ≠ -1)
    (hword : m.word (.sem i) = s.sems.word (.sem i))
    (hqueue : m.queue (.sem i) = s.sems.queue (.sem i)) :
    Entry { s.setTerm i pc with sems := m, active_t_processes := n } i := by
  unfold Entry setTerm
  dsimp only
  rw [Function.update_self, hword, hqueue]
  exact Support.Entry.turns h ha ha' hunmarked

theorem Entry.termStep_other (h : s.Entry i) (hij : i ≠ j) (hs : s.termStep j = some s') :
    s'.Entry i := by
  unfold termStep at hs
  split at hs
  · cases hs
  · cases hs
    exact h.other hij rfl rfl rfl
  · cases hs
    exact h.other hij rfl rfl rfl
  · cases hs
  · cases hs
    exact h.other hij rfl rfl rfl
  · cases hs
    exact h.other hij rfl (word_sem_op _ Sem.noConfusion) (Sems.queue_op_of_ne Sem.noConfusion)
  · cases hs
    exact h.other hij (Function.update_of_ne hij ..) rfl rfl
  · cases hs
    apply h.other hij rfl _ (queue_sem_block _ (Ne.symm hij))
    rw [word_sem_block, if_neg (Ne.symm hij), Int.sub_zero]
  · cases hs
    exact h.other hij rfl rfl rfl
  · cases hs
    exact h.other hij rfl rfl rfl
  · cases hs
    exact h.other hij rfl rfl rfl
  · cases hs
    exact h.other hij rfl rfl rfl
  · cases hs
    exact h.other hij rfl (word_sem_op _ Sem.noConfusion) (Sems.queue_op_of_ne Sem.noConfusion)
  · cases hs
    exact h.other hij rfl rfl rfl
  · cases hs

theorem Entry.step_block (h : s.Entry i) {c d : Int} (hpc : s.term i = .block c d) :
    Entry { s.setTerm i (.delayed c d) with
      sems := s.sems.vector (.term i)
        [.V .cron_table_sem, .P (.sem i), .V .wake_up_cron_sem] } i := by
  have hq : ∀ p ∈ (s.sems.vector (.term i)
      [.V .cron_table_sem, .P (.sem i), .V .wake_up_cron_sem]).queue (.sem i),
      p ∈ s.sems.queue (.sem i) ∨ p = .term i := by
    intro p hp
    exact (Sems.mem_queue_vector hp).imp id And.left
  have hbalanced : (s.sems.vector (.term i)
      [.V .cron_table_sem, .P (.sem i), .V .wake_up_cron_sem]).Balanced (.sem i) :=
    Sems.balanced_vector h.balanced _ _
  unfold Sems.Balanced at hbalanced
  unfold Entry setTerm
  dsimp only
  rw [word_sem_block, if_pos rfl] at hbalanced ⊢
  rw [Function.update_self]
  exact Support.Entry.blocks h hpc hq hbalanced

theorem Entry.termStep_self (h : s.Entry i) (hu : Unmarked i s (.term i))
    (hb : ¬ s.sems.Blocked (.term i)) (hs : s.termStep i = some s') : s'.Entry i := by
  unfold termStep at hs
  have hturns : ∀ (pc pc' : TermPc) (m : Sems Sem Proc) (n : Int), s.term i = pc →
      ¬ pc.Asks → ¬ pc'.Asks → (∀ c d w, pc' = .lockTable c d w ∨ pc' = .write c d w → w ≠ -1) →
      m.word (.sem i) = s.sems.word (.sem i) → m.queue (.sem i) = s.sems.queue (.sem i) →
      Entry { s.setTerm i pc' with sems := m, active_t_processes := n } i := by
    intro pc pc' m n hpc ha ha' hunmarked hword hqueue
    exact h.turns (hpc.symm ▸ ha) ha' hunmarked hword hqueue
  split at hs
  · cases hs
  · next hpc =>
    cases hs
    exact hturns _ _ _ _ hpc id id (by simp) rfl rfl
  · next hpc =>
    cases hs
    exact hturns _ _ _ _ hpc id id (by simp) rfl rfl
  · cases hs
  · next c d hpc =>
    cases hs
    have hw := hu rfl d (hpc.symm ▸ rfl)
    exact hturns _ _ _ _ hpc id id (by simpa using hw) rfl rfl
  · next c d w hpc =>
    cases hs
    have hw := h.unmarked c d w (Or.inl hpc)
    exact hturns _ _ _ _ hpc id id (by simpa using hw)
      (word_sem_op _ Sem.noConfusion) (Sems.queue_op_of_ne Sem.noConfusion)
  · next c d w hpc =>
    cases hs
    unfold Entry setTerm
    dsimp only
    rw [Function.update_self, Function.update_self]
    exact Support.Entry.writes h hpc
  · next hpc =>
    cases hs
    exact h.step_block hpc
  · next hpc =>
    cases hs
    unfold Entry setTerm
    dsimp only
    rw [Function.update_self]
    exact Support.Entry.leaves h hpc fun hq => hb ⟨_, hq⟩
  · next hpc =>
    cases hs
    exact hturns _ _ _ _ hpc id id (by simp) rfl rfl
  · next hpc =>
    cases hs
    exact hturns _ _ _ _ hpc id id (by simp) rfl rfl
  · next hpc =>
    cases hs
    split
    · exact hturns _ _ _ _ hpc id id (by simp) rfl rfl
    · exact hturns _ _ _ _ hpc id id (by simp) rfl rfl
  · next hpc =>
    cases hs
    exact hturns _ _ _ _ hpc id id (by simp)
      (word_sem_op _ Sem.noConfusion) (Sems.queue_op_of_ne Sem.noConfusion)
  · next hpc =>
    cases hs
    exact hturns _ _ _ _ hpc id id (by simp) rfl rfl
  · cases hs

-- Every step keeps what holds of an entry.
theorem Entry.step (h : s.Entry i) (hborn : s.Born) (hu : Unmarked i s a) (hs : System.step a s = some s') :
    s'.Entry i := by
  have huser : ∀ {j : Term} {pc : TermPc}, s.term j = .user → ¬ pc.Asks →
      (∀ c d w, pc = .lockTable c d w ∨ pc = .write c d w → w ≠ -1) →
      Entry (s.setTerm j pc) i := by
    intro j pc hpc ha hunmarked
    by_cases hij : i = j
    · subst hij
      exact h.turns (hpc.symm ▸ id) ha hunmarked rfl rfl
    · exact h.other hij rfl rfl rfl
  cases a with
  | tick =>
      rw [step_tick hs]
      exact h
  | cron => exact h.cronStep hborn (step_cron hs).2
  | term j =>
      obtain ⟨-, hb, hs⟩ := step_term hs
      by_cases hij : i = j
      · subst hij
        exact h.termStep_self hu hb hs
      · exact h.termStep_other hij hs
  | delay j d =>
      obtain ⟨hpc, rfl⟩ := step_delay hs
      exact huser hpc id (by simp)
  | terminate j =>
      obtain ⟨hpc, rfl⟩ := step_terminate hs
      exact huser hpc id (by simp)

end System

end Hoca.Support
