import Hoca.Sched.Account

namespace Hoca

-- The word of a semaphore after some operations.
def word : (Addr → Int) → List Vpop → Addr → Int
  | sem, [], s => sem s
  | sem, o :: ops, s =>
      word (Function.update sem o.sem (toLong (sem o.sem + o.op))) ops s

-- Some LOCK of the vector finds the word of the semaphore not positive.
def Meets (sem : Addr → Int) (ops : List Vpop) (s : Addr) : Prop :=
  ∃ pre o post, ops = pre ++ o :: post ∧ o.op = LOCK ∧ o.sem = s ∧ word sem pre s ≤ 0

-- When some LOCK has to wait, one of the semaphores it had to wait for is still
-- negative at the end of the vector.
def Stays (sem : Addr → Int) (ops : List Vpop) : Prop :=
  ∀ s, Meets sem ops s → ∃ s', Meets sem ops s' ∧ word sem ops s' < 0

section Decide

variable {sem : Addr → Int} {o : Vpop} {ops : List Vpop} {s : Addr}

theorem meets_nil : ¬ Meets sem [] s := by
  rintro ⟨pre, o, post, heq, -⟩
  simp at heq

theorem meets_cons : Meets sem (o :: ops) s ↔ (o.op = LOCK ∧ o.sem = s ∧ sem s ≤ 0) ∨
    Meets (Function.update sem o.sem (toLong (sem o.sem + o.op))) ops s := by
  constructor
  · rintro ⟨pre, o', post, heq, hl, hs, hz⟩
    cases pre with
    | nil =>
        cases heq
        exact Or.inl ⟨hl, hs, hz⟩
    | cons a pre =>
        cases heq
        exact Or.inr ⟨pre, o', post, rfl, hl, hs, hz⟩
  · rintro (⟨hl, hs, hz⟩ | ⟨pre, o', post, rfl, hl, hs, hz⟩)
    · exact ⟨[], o, ops, rfl, hl, hs, hz⟩
    · exact ⟨o :: pre, o', post, rfl, hl, hs, hz⟩

theorem Meets.mem (h : Meets sem ops s) : s ∈ ops.map Vpop.sem := by
  obtain ⟨pre, o, post, rfl, -, rfl, -⟩ := h
  simp

instance decidableMeets : ∀ sem ops s, Decidable (Meets sem ops s)
  | _, [], _ => isFalse meets_nil
  | sem, o :: ops, s =>
      have := decidableMeets (Function.update sem o.sem (toLong (sem o.sem + o.op))) ops s
      decidable_of_iff' _ meets_cons

instance (sem : Addr → Int) (ops : List Vpop) : Decidable (Stays sem ops) :=
  decidable_of_iff (∀ s ∈ ops.map Vpop.sem, Meets sem ops s →
      ∃ s' ∈ ops.map Vpop.sem, Meets sem ops s' ∧ word sem ops s' < 0)
    ⟨fun h s hm => (h s hm.mem hm).imp fun _ hs' => hs'.2,
      fun h s _ hm => (h s hm).imp fun _ hs' => ⟨hs'.1.mem, hs'⟩⟩

end Decide

namespace Sched

variable {L : Layout} {U : Set Addr} {v v' : Sched} {p : ProcId} {s : Addr} {ops : List Vpop}

theorem sem_semopLoop (ops : List Vpop) (p : ProcId) (v : Sched) (b : Bool) (s : Addr) :
    (semopLoop ops p v b).1.sem s = word v.sem ops s := by
  induction ops generalizing v b with
  | nil => rfl
  | cons o ops ih => rw [semopLoop, ih, sem_semopStep, word]

theorem flag_iff_meets (ops : List Vpop) (p : ProcId) (v : Sched) :
    (semopLoop ops p v false).2 = true ↔ ∃ s, Meets v.sem ops s := by
  rw [semopLoop_flag]
  simp only [Bool.false_eq_true, false_or, sem_semopLoop]
  constructor
  · rintro ⟨pre, o, post, heq, hl, hz⟩
    exact ⟨o.sem, pre, o, post, heq, hl, rfl, hz⟩
  · rintro ⟨s, pre, o, post, heq, hl, rfl, hz⟩
    exact ⟨pre, o, post, heq, hl, hz⟩

section Last

-- The caller is the last waiter, if there is one.
def Last (v : Sched) (p : ProcId) (s : Addr) : Prop :=
  ∀ a, (v.procs (some s)).getLast? = some a → a = p

theorem getLast?_tail {l : List ProcId} {a : ProcId} (h : l.tail.getLast? = some a) :
    l.getLast? = some a := by
  cases l with
  | nil => exact h
  | cons b l =>
      rw [List.getLast?_cons, show l.getLast? = some a from h]
      rfl

theorem last_semopStep_lock {o : Vpop} {b : Bool} (hl : o.op = LOCK) (hz : v.sem o.sem ≤ 0) :
    (v.semopStep o p b).1.Last p o.sem := by
  rw [Last, semopStep_lock hl hz, procs_insertBlocked, if_pos rfl]
  intro a ha
  rw [List.getLast?_append, List.getLast?_singleton, Option.some_or] at ha
  exact (Option.some.inj ha).symm

theorem Last.semopStep (h : v.Last p s) (o : Vpop) (b : Bool) :
    (v.semopStep o p b).1.Last p s := by
  by_cases hs : s = o.sem
  · subst hs
    rcases v.semopStep_cases o p b with ⟨hl, hz, -⟩ | ⟨-, -, hv⟩ | ⟨-, -, hv⟩
    · exact last_semopStep_lock hl hz
    · rw [Last, hv, procs_wake_some, if_pos rfl]
      exact fun a ha => h a (getLast?_tail ha)
    · rw [Last, hv]
      exact h
  · unfold Last
    rw [(v.semopStep_frame o p b hs).2]
    exact h

theorem Last.semopLoop (h : v.Last p s) (ops : List Vpop) (b : Bool) :
    (Sched.semopLoop ops p v b).1.Last p s :=
  Sched.semopLoop_invariant (I := fun v => v.Last p s) (fun _ o b h => h.semopStep o b) h ops b

-- Who has been put on a queue and whose queue is not empty is still there.
theorem mem_of_meets (hm : Meets v.sem ops s)
    (hne : (semopLoop ops p v false).1.procs (some s) ≠ []) :
    p ∈ (semopLoop ops p v false).1.procs (some s) := by
  obtain ⟨pre, o, post, rfl, hl, rfl, hz⟩ := hm
  have hlast : (semopLoop (pre ++ o :: post) p v false).1.Last p o.sem := by
    rw [semopLoop_append, semopLoop]
    refine Last.semopLoop (last_semopStep_lock hl ?_) post _
    rw [sem_semopLoop]
    exact hz
  have hget := List.getLast?_eq_some_getLast hne
  have hmem := List.getLast_mem hne
  rwa [hlast _ hget] at hmem

-- Only a LOCK that has to wait puts the caller on a queue.
theorem meets_of_mem (hoff : ∀ s, p ∉ v.procs (some s)) {b : Bool}
    (hp : p ∈ (semopLoop ops p v b).1.procs (some s)) : Meets v.sem ops s := by
  induction ops using List.reverseRecOn with
  | nil => exact absurd hp (hoff s)
  | append_singleton ops o ih =>
      rw [semopLoop_append] at hp
      rcases mem_semopStep hp with hp | ⟨-, rfl, hl, hz⟩
      · obtain ⟨pre, o', post, rfl, hmeet⟩ := ih hp
        exact ⟨pre, o', post ++ [o], by simp, hmeet⟩
      · rw [sem_semopLoop] at hz
        exact ⟨ops, o, [], rfl, hl, rfl, hz⟩

end Last

-- The caller is on some queue at the end of the vector exactly when the words say so.
theorem waits_iff (hoff : ∀ s, p ∉ v.procs (some s)) (hbal : ∀ o ∈ ops, v.Balanced o.sem)
    (hops : ∀ o ∈ ops, o.op = LOCK ∨ o.op = UNLOCK) (hU : ∀ o ∈ ops, o.sem ∈ U)
    (hrange : Ranged U v.sem ops) :
    (∃ s, p ∈ (semopLoop ops p v false).1.procs (some s)) ↔
      ∃ s, Meets v.sem ops s ∧ word v.sem ops s < 0 := by
  have hend : ∀ {s}, Meets v.sem ops s → (semopLoop ops p v false).1.Balanced s := by
    rintro s ⟨pre, o, post, rfl, -, rfl, -⟩
    exact (hbal o (by simp)).semopLoop (hU o (by simp)) (fun o' ho' _ => hops o' ho') hrange p false
  have hneg : ∀ {s}, Meets v.sem ops s →
      ((semopLoop ops p v false).1.procs (some s) ≠ [] ↔ word v.sem ops s < 0) := by
    intro s hm
    have hb := hend hm
    rw [Balanced, sem_semopLoop, ← length_procs] at hb
    rw [← List.length_pos_iff]
    omega
  constructor
  · rintro ⟨s, hp⟩
    have hm := meets_of_mem hoff hp
    exact ⟨s, hm, (hneg hm).mp (List.ne_nil_of_mem hp)⟩
  · rintro ⟨s, hm, hlt⟩
    exact ⟨s, mem_of_meets hm ((hneg hm).mpr hlt)⟩

theorem keeps_iff_stays (hoff : ∀ s, p ∉ v.procs (some s)) (hbal : ∀ o ∈ ops, v.Balanced o.sem)
    (hops : ∀ o ∈ ops, o.op = LOCK ∨ o.op = UNLOCK) (hU : ∀ o ∈ ops, o.sem ∈ U)
    (hrange : Ranged U v.sem ops) : v.Keeps p ops ↔ Stays v.sem ops := by
  rw [Keeps, flag_iff_meets, waits_iff hoff hbal hops hU hrange, Stays]
  exact ⟨fun h s hs => h ⟨s, hs⟩, fun h ⟨s, hs⟩ => h s hs⟩

theorem vectored_procs (ops : List Vpop) (p : ProcId) (v : Sched) (s : Addr) :
    (v.vectored ops p).procs (some s) = (semopLoop ops p v false).1.procs (some s) := by
  unfold vectored
  dsimp only
  split
  · rw [procs_removeReady, if_neg (by simp)]
  · rfl

section Operates

-- What one operation of a vector does to the queues. A waiter that is released
-- becomes ready when it waits nowhere else.
structure Operates (o : Vpop) (p : ProcId) (v v' : Sched) : Prop where
  others : ∀ s, s ≠ o.sem → v'.procs (some s) = v.procs (some s)
  lock : o.op = LOCK → v'.procs none = v.procs none ∧ v'.procs (some o.sem) =
    if v.sem o.sem ≤ 0 then v.procs (some o.sem) ++ [p] else v.procs (some o.sem)
  unlock : o.op = UNLOCK → 0 ≤ v.sem o.sem → v'.procs = v.procs
  release : o.op = UNLOCK → v.sem o.sem < 0 →
    ∃ a, v.procs (some o.sem) = a :: v'.procs (some o.sem) ∧
      ((∀ s, a ∉ v'.procs (some s)) → a ∉ v.procs none → v'.procs none = v.procs none ++ [a]) ∧
      ((∃ s, a ∈ v'.procs (some s)) ∨ a ∈ v.procs none → v'.procs none = v.procs none)

theorem Operates.congr {o : Vpop} {w w' : Sched} (h : Operates o p v v') (hp : w.procs = v.procs)
    (hp' : w'.procs = v'.procs) (hsem : w.sem = v.sem) : Operates o p w w' := by
  refine ⟨?_, ?_, ?_, ?_⟩
  all_goals rw [hp, hp']
  · exact h.others
  · rw [hsem]
    exact h.lock
  · rw [hsem]
    exact h.unlock
  · rw [hsem]
    exact h.release

theorem wake_release {a : ProcId} {rest : List ProcId} (hq : v.procs (some s) = a :: rest) :
    (v.wake s).procs (some s) = rest ∧
      ((∀ s', a ∉ (v.wake s).procs (some s')) → a ∉ v.procs none →
        (v.wake s).procs none = v.procs none ++ [a]) ∧
      ((∃ s', a ∈ (v.wake s).procs (some s')) ∨ a ∈ v.procs none →
        (v.wake s).procs none = v.procs none) := by
  have hwake := v.procs_wake_some s
  have hnone : (v.removeBlocked s).procs none = v.procs none := by
    rw [procs_removeBlocked, if_neg (by simp)]
  have hsome : ∀ s', (v.removeBlocked s).procs (some s') = (v.wake s).procs (some s') := by
    intro s'
    rw [hwake, procs_removeBlocked]
    by_cases hs : s' = s
    · rw [if_pos hs, if_pos (by rw [hs])]
    · rw [if_neg hs, if_neg (by simpa using hs)]
  refine ⟨by rw [hwake, if_pos rfl, hq, List.tail_cons], ?_⟩
  rcases v.wake_cases s with ⟨hnil, -⟩ | ⟨a', rest', hq', ⟨x, hx⟩, hw⟩ | ⟨a', rest', hq', hoff, hw⟩
  · rw [hq] at hnil
    cases hnil
  · rw [hq] at hq'
    cases hq'
    refine ⟨fun hno hr => ?_, fun _ => by rw [hw, hnone]⟩
    cases x with
    | none => exact absurd (hnone ▸ hx) hr
    | some s' => exact absurd (hsome s' ▸ hx) (hno s')
  · rw [hq] at hq'
    cases hq'
    refine ⟨fun _ _ => by rw [hw, procs_insertReady, if_pos rfl, hnone], fun hc => ?_⟩
    rcases hc with ⟨s', hs'⟩ | hr
    · exact absurd (hsome s' ▸ hs') (hoff (some s'))
    · exact absurd (hnone ▸ hr) (hoff none)

theorem operates_semopStep {o : Vpop} (hbal : v.Balanced o.sem) (p : ProcId) (b : Bool) :
    Operates o p v (v.semopStep o p b).1 where
  others s hs := (v.semopStep_frame o p b hs).2
  lock hl := by
    split
    · next hz =>
      rw [semopStep_lock hl hz, procs_insertBlocked, procs_insertBlocked, if_neg (by simp),
        if_pos rfl]
      exact ⟨rfl, rfl⟩
    · next hz =>
      have hu : ¬ (o.op = UNLOCK ∧ v.sem o.sem < 0) := fun hc => hz (le_of_lt hc.2)
      rw [semopStep_word (fun hc => hz hc.2) hu]
      exact ⟨rfl, rfl⟩
  unlock hu hpos := by
    have hl : ¬ (o.op = LOCK ∧ v.sem o.sem ≤ 0) := by
      rw [hu]
      exact fun hc => absurd hc.1 (by decide)
    rw [semopStep_word hl fun hc => absurd hpos (by omega)]
    rfl
  release hu hneg := by
    have hne : v.procs (some o.sem) ≠ [] := by
      rw [Balanced, ← length_procs] at hbal
      rw [← List.length_pos_iff]
      omega
    obtain ⟨a, rest, hq⟩ := List.exists_cons_of_ne_nil hne
    have hrel := wake_release (v := v.setSem o.sem (toLong (v.sem o.sem + o.op))) hq
    rw [semopStep_unlock hu hneg]
    exact ⟨a, by rw [hrel.1, hq], hrel.2⟩

end Operates

section Call

theorem call_some {e : Event} {n : ℕ} (h : e.call = some n) :
    e.kind = .sys ∧ ¬ (e.old.s_sr.ps_s = false ∧ e.old.s_tmp.sys_no < 9) ∧
      e.old.s_tmp.sys_no = n := by
  unfold Event.call at h
  split at h
  · next hk =>
    split at h
    · cases h
    · next hm => exact ⟨hk, hm, Option.some.inj h⟩
  · cases h

-- How a system call leaves the kernel.
def leave (e : Event) (p : ProcId) : Ret Sched → Sched
  | .gone v => v
  | .back v => (v.updateLastStartTime e.tOut p).LDST v.SYS_TRAP_OLD_STATE

theorem step_call {e : Event} {n : ℕ} (hr : v.running = some p) (hcall : e.call = some n) :
    v.step L e = leave e p ((v.enter e p).call L e p) := by
  obtain ⟨hk, hm, -⟩ := call_some hcall
  unfold step
  rw [hk, hr]
  dsimp only
  unfold trapsyshandler
  rw [if_neg hm]
  rfl

-- What a SYS3 leaves, but for the processor: the kernel after its vector.
theorem same_step_vector {e : Event} (hr : v.running = some p) (hcall : e.call = some 3) :
    Same none ((v.enter e p).vectored e.vector p) (v.step L e) := by
  have hcallee : (v.enter e p).call L e p = (v.enter e p).semop L e.tOut e.vector p := by
    unfold Sched.call
    rw [(call_some hcall).2.2]
    rfl
  rw [step_call hr hcall, hcallee, semop_eq]
  split
  · exact same_schedule ..
  · exact same_back ..

theorem same_step_createproc {e : Event} (hr : v.running = some p) (hcall : e.call = some 1) :
    Same none ((v.enter e p).createproc p) (v.step L e) := by
  have hcallee : (v.enter e p).call L e p = .back ((v.enter e p).createproc p) := by
    unfold Sched.call
    rw [(call_some hcall).2.2]
    rfl
  rw [step_call hr hcall, hcallee]
  exact same_back ..

-- A SYS1 leaves the queues of the semaphores alone.
theorem step_create {e : Event} (hr : v.running = some p) (hcall : e.call = some 1) (s : Addr) :
    (v.step L e).procs (some s) = v.procs (some s) ∧ ∀ a ∈ (v.step L e).free, a ∈ v.free := by
  have hsame := same_step_createproc (L := L) hr hcall
  rw [hsame.procs, hsame.free]
  by_cases hfree : v.free = []
  · rw [(v.enter e p).createproc_full hfree]
    exact ⟨rfl, fun a ha => ha⟩
  · obtain ⟨c, rest, hfree⟩ := List.exists_cons_of_ne_nil hfree
    rw [(v.enter e p).createproc_cons hfree]
    refine ⟨?_, fun a ha => hfree ▸ List.mem_cons_of_mem c ha⟩
    exact congrArg (List.map Prod.fst) (queue_newborn (v.enter e p) p c rest s)

end Call

section Culled

-- The queues of the processes' semaphores lose who is killed, and nothing else.
structure Culled (L : Layout) (v v' : Sched) : Prop where
  free : ∀ p ∈ v.free, p ∈ v'.free
  procs : ∀ s, ¬ L.Reserved s → v'.procs (some s) = (v.procs (some s)).filter fun p => p ∉ v'.free

theorem Culled.refl (hlive : ∀ x, ∀ p ∈ v.procs x, p ∉ v.free) : Culled L v v where
  free _ hp := hp
  procs s _ := (List.filter_eq_self.mpr fun a ha => by simpa using hlive (some s) a ha).symm

theorem culled_create {e : Event} (hlive : ∀ x, ∀ p ∈ v.procs x, p ∉ v.free) (hr : v.running = some p)
    (hcall : e.call = some 1) (s : Addr) : (v.step L e).procs (some s) =
      (v.procs (some s)).filter fun p => p ∉ (v.step L e).free := by
  have hstep := step_create (L := L) hr hcall s
  rw [hstep.1, List.filter_eq_self.mpr]
  intro a ha
  simpa using fun hf => hlive (some s) a ha (hstep.2 a hf)

theorem Culled.move {w : Sched} (h : Culled L w v) (hm : Move L False (fun _ _ _ => False) v v') :
    Culled L w v' := by
  have hsame : v'.free = v.free → (∀ s, ¬ L.Reserved s → v'.procs (some s) = v.procs (some s)) →
      Culled L w v' := by
    intro hfree hprocs
    refine ⟨fun p hp => hfree ▸ h.free p hp, fun s hs => ?_⟩
    rw [hprocs s hs, h.procs s hs, hfree]
  cases hm with
  | quiet hq hfree => exact hsame hfree fun s _ => by rw [Sched.procs, Sched.procs, hq]
  | create hfork => exact hfork.elim
  | @kill p hr =>
      have hfree := v.free_remains p
      refine ⟨fun a ha => by rw [hfree]; exact List.mem_append_left _ (h.free a ha), fun s hs => ?_⟩
      rw [procs_remains, if_neg (by simp), h.procs s hs, List.filter_filter]
      refine List.filter_congr fun a _ => ?_
      rw [hfree]
      simp [Bool.and_comm]
  | vector _ hv => exact hv.elim
  | @block p s hr hres _ =>
      refine hsame rfl fun s' hs' => ?_
      have hne : s' ≠ s := fun heq => hs' (heq ▸ hres)
      rw [block, procs_insertBlocked, if_neg (by simpa using hne), procs_removeReady,
        if_neg (by simp)]
      rfl
  | take _ => exact hsame rfl fun _ _ => rfl
  | @signal s hres _ =>
      obtain ⟨q, hframe⟩ := (v.setSem s (toLong (v.sem s + 1))).frame_wake s
      refine hsame (by rw [hframe]; rfl) fun s' hs' => ?_
      have hne : s' ≠ s := fun heq => hs' (heq ▸ hres)
      rw [procs_wake_some, if_neg hne]
      rfl
  | post _ => exact hsame rfl fun _ _ => rfl
  | requeue _ =>
      refine hsame rfl fun s _ => ?_
      rw [procs_insertReady, if_neg (by simp), procs_removeReady, if_neg (by simp)]

end Culled

end Sched

end Hoca
