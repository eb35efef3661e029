import Hoca.Sched.Laws

namespace Hoca

open Forest

-- What a routine promises when it returns and when it does not.
def Ret.Leaves {κ : Type} (back gone : κ → Prop) : Ret κ → Prop
  | .back k => back k
  | .gone k => gone k

namespace Sched

-- The kernel is stable and the process still runs, or all is settled.
abbrev Sound (L : Layout) (p : ProcId) (r : Ret Sched) : Prop :=
  r.Leaves (fun v => v.Stable L ∧ v.running = some p) (fun v => v.Wf L)

abbrev SoundExcept (L : Layout) (R : Set Addr) (p : ProcId) (r : Ret Sched) : Prop :=
  r.Leaves (fun v => v.StableExcept L R ∧ v.running = some p) (fun v => v.WfExcept L R)

variable {L : Layout} {v v' : Sched} {p : ProcId} {s : Addr} {busy : Option ProcId} {R : Set Addr}
  {path : ProcId → List ProcId} {currentTime : Int}

section Level

theorem level_of_eq (hsem : v'.sem s = v.sem s) (hq : v'.queue (some s) = v.queue (some s)) :
    v'.level s = v.level s := by
  rw [level, level, hsem, hq]

theorem length_procs (v : Sched) (x : QueueId) : (v.procs x).length = (v.queue x).length :=
  List.length_map _

theorem filter_length {l : List ProcId} (h : l.count p ≤ 1) :
    (l.filter fun a => a ≠ p).length = if p ∈ l then l.length - 1 else l.length := by
  have hsplit := l.length_eq_length_filter_add fun a => a ≠ p
  have hrest : (l.filter fun a => !decide (a ≠ p)).length = l.count p := by
    rw [List.count, List.countP_eq_length_filter]
    exact congrArg List.length (List.filter_congr fun a _ => by by_cases ha : a = p <;> simp [ha])
  rw [hrest] at hsplit
  split
  · next hp =>
    have hpos := List.count_pos_iff.mpr hp
    omega
  · next hp =>
    have hzero := List.count_eq_zero_of_not_mem hp
    omega

-- The word of the semaphore can be raised for everybody who waits.
def Roomy (v : Sched) (s : Addr) : Prop :=
  v.queue (some s) ≠ [] → -2 ^ 31 ≤ v.sem s ∧ v.level s < 2 ^ 31

theorem sem_killOne (h : v.Roomy s) (p : ProcId) :
    (v.killOne p).sem s = if p ∈ v.procs (some s) then v.sem s + 1 else v.sem s := by
  change (if p ∈ v.procs (some s) then toLong (v.sem s + 1) else v.sem s) = _
  split
  · next hp =>
    have hpos := List.length_pos_of_mem hp
    rw [length_procs] at hpos
    obtain ⟨hle, hlt⟩ := h (List.ne_nil_of_length_pos hpos)
    rw [level] at hlt
    exact toLong_of_bounds (by omega) (by omega)
  · rfl

-- A kill raises a semaphore once, which is right for a process that waits on it
-- once at most.
theorem level_killOne (hroom : v.Roomy s) (h : (v.procs (some s)).count p ≤ 1) :
    (v.killOne p).level s = v.level s := by
  have hl := filter_length h
  rw [← procs_killOne, length_procs, length_procs] at hl
  rw [level, level, hl, sem_killOne hroom]
  by_cases hp : p ∈ v.procs (some s)
  · have hpos := List.length_pos_of_mem hp
    rw [length_procs] at hpos
    rw [if_pos hp, if_pos hp]
    omega
  · rw [if_neg hp, if_neg hp]

theorem Roomy.killOne (h : v.Roomy s) (hc : (v.procs (some s)).count p ≤ 1) :
    (v.killOne p).Roomy s := by
  intro hne
  have hold : v.queue (some s) ≠ [] := fun hnil => hne (by
    have hprocs := v.procs_killOne p (some s)
    rwa [procs, procs, hnil, List.map_nil, List.filter_nil, List.map_eq_nil_iff] at hprocs)
  obtain ⟨hle, hlt⟩ := h hold
  rw [level_killOne h hc, sem_killOne h]
  refine ⟨?_, hlt⟩
  split <;> omega

theorem count_killOne (v : Sched) (a p : ProcId) (x : QueueId) :
    ((v.killOne p).procs x).count a ≤ (v.procs x).count a := by
  rw [procs_killOne]
  exact List.filter_sublist.count_le a

theorem level_killAll {l : List ProcId} (hroom : v.Roomy s)
    (h : ∀ p ∈ l, (v.procs (some s)).count p ≤ 1) : (v.killAll l).level s = v.level s := by
  induction l generalizing v with
  | nil => rfl
  | cons p l ih =>
      have hp := h p (by simp)
      refine (ih (hroom.killOne hp) fun a ha => ?_).trans (level_killOne hroom hp)
      exact (v.count_killOne a p (some s)).trans (h a (List.mem_cons_of_mem p ha))

theorem length_wake (v : Sched) (s s' : Addr) : ((v.wake s).queue (some s')).length =
    if s' = s then (v.queue (some s)).length - 1 else (v.queue (some s')).length := by
  have h := congrArg List.length (v.procs_wake_some s s')
  rw [length_procs] at h
  rw [h]
  split
  · rw [List.length_tail, length_procs]
  · rw [length_procs]

theorem sem_wake (v : Sched) (s : Addr) : (v.wake s).sem = v.sem := by
  obtain ⟨q, hq⟩ := v.frame_wake s
  rw [hq]

-- V by the kernel.
theorem level_signal (v : Sched) (s s' : Addr) (hr : s' = s → InRange (v.sem s + 1)) :
    ((v.setSem s (toLong (v.sem s + 1))).wake s).level s' =
      if s' = s ∧ v.queue (some s) = [] then v.level s + 1 else v.level s' := by
  rw [level, length_wake, sem_wake, level, level]
  by_cases hs : s' = s
  · subst hs
    simp only [setSem, Function.update_self, if_true, true_and, (hr rfl).toLong_eq]
    by_cases hq : v.queue (some s') = []
    · simp [hq]
    · have hpos := List.length_pos_of_ne_nil hq
      rw [if_neg hq]
      omega
  · simp [setSem, hs]

end Level

section Stable

theorem StableExcept.congr (h : v.StableExcept L R) (hq : v'.queue = v.queue) (hfree : v'.free = v.free)
    (hparent : v'.parent = v.parent) (hchildren : v'.children = v.children)
    (hsem : v'.sem = v.sem) : v'.StableExcept L R where
  toLawfulExcept := h.toLawfulExcept.congr hq hfree
  spare := hfree ▸ h.spare
  rooted := by
    obtain ⟨path, hp⟩ := h.rooted
    refine ⟨path, ?_⟩
    rw [Rooted, hfree, hparent, hchildren]
    exact hp
  pclock := by
    rw [level_of_eq (v := v) (by rw [hsem]) (by rw [hq])]
    exact h.pclock

theorem intdeadlock_intdeadlock (v : Sched) (L : Layout) :
    (v.intdeadlock L).intdeadlock L = v.intdeadlock L := by
  unfold intdeadlock
  by_cases hp : v.queue (some L.PSEUDO_CLOCK_SEMAPHORE) = []
  · by_cases hd : ∃ d, v.queue (some (L.device d)) ≠ []
    · simp only [hp, hd, ne_eq, not_true_eq_false, if_false, if_true]
    · by_cases hs : ∃ s, v.queue (some s) ≠ []
      · simp only [hp, hd, hs, ne_eq, not_true_eq_false, if_false, if_true]
      · simp only [hp, hd, hs, ne_eq, not_true_eq_false, if_false]
  · simp only [hp, ne_eq, not_false_eq_true, if_true]

theorem StableExcept.schedule (h : v.StableExcept L R) (currentTime : Int) :
    (v.schedule L currentTime).WfExcept L R where
  toStableExcept := h.congr (schedule_queue ..) (schedule_free ..) (schedule_parent ..)
    (schedule_children ..) (schedule_sem ..)
  settled hq := by
    rw [schedule_queue] at hq
    have hr : v.running = none := by simp [running, hq]
    unfold Sched.schedule
    rw [hr]
    exact v.intdeadlock_intdeadlock L
  asleep hs := by
    rw [schedule_queue]
    by_contra hq
    obtain ⟨p, hr⟩ := running_of_ready hq
    unfold Sched.schedule at hs
    rw [hr] at hs
    simp [Sched.LDST] at hs

theorem StableExcept.load (h : v.StableExcept L R) (s : State) (hq : v.queue none ≠ []) : (v.LDST s).WfExcept L R where
  toStableExcept := h.congr rfl rfl rfl rfl rfl
  settled hn := absurd hn hq
  asleep hs := by simp [Sched.LDST] at hs

theorem ready_of_running (hr : v.running = some p) : v.queue none ≠ [] := by
  intro hq
  simp [running, hq] at hr

theorem running_mem (hr : v.running = some p) : p ∈ v.procs none := by
  obtain ⟨e, he, rfl⟩ := Option.map_eq_some_iff.mp hr
  exact List.mem_map_of_mem (List.mem_of_head? he)

theorem Stable.tidy (h : v.Stable L) : v.Tidy :=
  ⟨h.distinct, h.ready, fun p hp => h.alone p hp (by simp)⟩

theorem StableExcept.count_reserved (h : v.StableExcept L R) (hs : L.Reserved s) (p : ProcId) :
    (v.procs (some s)).count p ≤ 1 :=
  List.nodup_iff_count_le_one.mp (h.distinct _ (strict_reserved hs)) p

theorem StableExcept.running_off (h : v.StableExcept L R) (hr : v.running = some p) (s : Addr) :
    p ∉ v.procs (some s) :=
  h.neat.alone p (running_mem hr) s

theorem lawful_unlinked (h : v.LawfulExcept L R busy) (p : ProcId) :
    (v.unlinkChild p).removeReady.LawfulExcept L R busy := by
  obtain ⟨cs, hcs⟩ := v.unlinkChild_frame p
  rw [hcs]
  have hcut : LawfulExcept L R busy { v with children := cs } := h.congr rfl rfl
  exact hcut.removeReady

theorem level_remains (hroom : v.Roomy s)
    (h : ∀ a ∈ progeny v.children MAXPROC p, (v.procs (some s)).count a ≤ 1) :
    (v.remains p).level s = v.level s := by
  have hsem : (v.unlinkChild p).removeReady.sem s = v.sem s := by
    obtain ⟨cs, hcs⟩ := v.unlinkChild_frame p
    rw [hcs]
    rfl
  have hqueue := v.queue_unlinked p s
  have hlevel : (v.unlinkChild p).removeReady.level s = v.level s := level_of_eq hsem hqueue
  have hall := level_killAll (v := (v.unlinkChild p).removeReady) (s := s)
    (l := progeny v.children MAXPROC p) (by rwa [Roomy, hqueue, hsem, hlevel])
    (by rwa [procs_unlinked])
  exact hall.trans hlevel

-- Different processes wait on a semaphore of the kernel.
theorem StableExcept.length_reserved (h : v.StableExcept L R) (hs : L.Reserved s) :
    (v.queue (some s)).length ≤ 20 := by
  have hlen := (h.distinct _ (strict_reserved hs)).length_le_card
  rwa [length_procs, Fintype.card_fin] at hlen

theorem StableExcept.pclock_bounds (h : v.StableExcept L R) :
    -20 ≤ v.sem L.PSEUDO_CLOCK_SEMAPHORE ∧ v.sem L.PSEUDO_CLOCK_SEMAPHORE ≤ 0 := by
  have hlen := h.length_reserved (Or.inl rfl)
  have hlevel := h.pclock
  rw [level] at hlevel
  omega

theorem StableExcept.pclock_room (h : v.StableExcept L R) : v.Roomy L.PSEUDO_CLOCK_SEMAPHORE := by
  intro _
  have hb := h.pclock_bounds
  have hl := h.pclock
  constructor <;> omega

theorem StableExcept.remains (h : v.StableExcept L R) (hr : v.running = some p) : (v.remains p).StableExcept L R where
  toLawfulExcept := (lawful_unlinked h.toLawfulExcept p).killAll _
  spare := by
    obtain ⟨path, hp⟩ := h.rooted
    have hlive := h.live none p (running_mem hr)
    rw [free_remains, List.nodup_append]
    refine ⟨h.spare, Family.progeny_nodup hp hlive, fun a ha b hb heq => ?_⟩
    exact (Family.mem_path_of_progeny hp hlive hb).1 (heq ▸ ha)
  rooted := by
    obtain ⟨path, hp⟩ := h.rooted
    exact ⟨path, hp.remains (h.live none p (running_mem hr))⟩
  pclock := by
    rw [level_remains h.pclock_room fun a _ => h.count_reserved (Or.inl rfl) a]
    exact h.pclock

theorem StableExcept.killproc (h : v.StableExcept L R) (hr : v.running = some p) (currentTime : Int) :
    (v.killproc L currentTime p).WfExcept L R :=
  (h.remains hr).schedule currentTime

theorem StableExcept.passUp (h : v.StableExcept L R) (hr : v.running = some p) (T : TrapType) (old : State)
    (currentTime : Int) : (v.passUp L currentTime T old p).WfExcept L R := by
  unfold Sched.passUp
  split
  · next old_state _ _ _ =>
    exact StableExcept.load (v := { v.updateLastStartTime currentTime p with
      areas := Function.update v.areas old_state old })
      (h.congr rfl rfl rfl rfl rfl) _ (ready_of_running hr)
  · exact h.killproc hr currentTime

theorem queue_newborn (v : Sched) (p c : ProcId) (rest : List ProcId) (s : Addr) :
    ((v.newborn p c rest).insertReady c).queue (some s) = v.queue (some s) := by
  simp only [Sched.insertReady]
  rw [enqueue_of_ne (by simp)]
  rfl

-- The child starts on readyQueue.
theorem StableExcept.createproc (h : v.StableExcept L R) (hr : v.running = some p) :
    (v.createproc p).StableExcept L R := by
  by_cases hfree : v.free = []
  · rw [v.createproc_full hfree]
    exact h.congr rfl rfl rfl rfl rfl
  · obtain ⟨c, rest, hfree⟩ := List.exists_cons_of_ne_nil hfree
    have hc : c ∈ v.free := hfree ▸ by simp
    have hp := h.live none p (running_mem hr)
    have hoff : ∀ x, c ∉ v.procs x := fun x hx => h.live x c hx hc
    have hspare := h.spare
    rw [hfree, List.nodup_cons] at hspare
    have hlevel : ∀ s, ((v.newborn p c rest).insertReady c).level s = v.level s :=
      fun s => level_of_eq rfl (v.queue_newborn p c rest s)
    obtain ⟨path, hfam⟩ := h.rooted
    rw [v.createproc_cons hfree]
    refine ⟨LawfulExcept.insertReady ?_ hoff hspare.1, hspare.2, ?_, ?_⟩
    · refine h.toLawfulExcept.shrink (fun x => List.Sublist.refl _) fun x a _ ha => ?_
      rw [hfree] at ha
      exact fun hm => ha (List.mem_cons_of_mem _ hm)
    · refine ⟨Function.update path c (c :: path p), ?_⟩
      have hgraft := hfam.graft hp (not_not.mpr hc)
      have hlive : (fun x => x ∉ rest) = fun x => x ∉ v.free ∨ x = c := by
        funext x
        by_cases hx : x = c
        · simp [hx, hspare.1]
        · simp [hfree, hx]
      rw [← hlive] at hgraft
      exact hgraft
    · rw [hlevel]
      exact h.pclock

end Stable

section Vector

-- The sems of the LOCKs of a vector.
def locks (ops : List Vpop) : List Addr := (ops.filter fun o => o.op = LOCK).map Vpop.sem

theorem locks_cons (o : Vpop) (ops : List Vpop) :
    locks (o :: ops) = if o.op = LOCK then o.sem :: locks ops else locks ops := by
  by_cases hl : o.op = LOCK
  · simp [locks, hl]
  · simp [locks, hl]

theorem semopStep_frame (v : Sched) (o : Vpop) (p : ProcId) (b : Bool) {s : Addr}
    (hs : s ≠ o.sem) : (v.semopStep o p b).1.sem s = v.sem s ∧
      (v.semopStep o p b).1.procs (some s) = v.procs (some s) := by
  rcases v.semopStep_cases o p b with ⟨-, -, hv⟩ | ⟨-, -, hv⟩ | ⟨-, -, hv⟩
  · rw [hv]
    refine ⟨by simp [insertBlocked, saveState, setContext, setSem, hs], ?_⟩
    rw [procs_insertBlocked, if_neg (by simpa using hs)]
    rfl
  · rw [hv, sem_wake, procs_wake_some, if_neg hs]
    exact ⟨by simp [setSem, hs], rfl⟩
  · rw [hv]
    exact ⟨by simp [setSem, hs], rfl⟩

-- A step puts only its caller on a semaphore queue, and only by a LOCK.
theorem mem_semopStep {v : Sched} {o : Vpop} {b : Bool} {a : ProcId} {s : Addr}
    (h : a ∈ (v.semopStep o p b).1.procs (some s)) :
    a ∈ v.procs (some s) ∨ (a = p ∧ s = o.sem ∧ o.op = LOCK ∧ v.sem o.sem ≤ 0) := by
  rcases v.semopStep_cases o p b with ⟨hl, hz, hv⟩ | ⟨-, -, hv⟩ | ⟨-, -, hv⟩
  · rw [hv, procs_insertBlocked] at h
    split at h
    · next hs =>
      cases hs
      rw [List.mem_append, List.mem_singleton] at h
      exact h.imp id fun ha => ⟨ha, rfl, hl, hz⟩
    · exact Or.inl h
  · rw [hv, procs_wake_some] at h
    split at h
    · next hs =>
      cases hs
      exact Or.inl (List.mem_of_mem_tail h)
    · exact Or.inl h
  · rw [hv] at h
    exact Or.inl h

theorem LawfulExcept.semopStep (h : v.LawfulExcept L R (some p)) (hr : v.running = some p) (o : Vpop) (b : Bool)
    (hs : ¬ L.Reserved o.sem) (hnew : o.op = LOCK → Strict L R (some o.sem) → p ∉ v.procs (some o.sem))
    (hfresh : ∀ s, L.Reserved s → p ∉ v.procs (some s)) :
    (v.semopStep o p b).1.LawfulExcept L R (some p) := by
  have hset : (v.setSem o.sem (toLong (v.sem o.sem + o.op))).LawfulExcept L R (some p) := h.congr rfl rfl
  rcases v.semopStep_cases o p b with ⟨hl, -, hv⟩ | ⟨-, -, hv⟩ | ⟨-, -, hv⟩
  · rw [hv]
    exact LawfulExcept.insertBlocked (h.congr rfl rfl) (hnew hl) (fun hc => absurd rfl hc)
      (h.live none p (running_mem hr)) (fun hc => absurd hc hs) hfresh
  · rw [hv]
    exact hset.wake o.sem
  · rw [hv]
    exact hset

theorem LawfulExcept.semopLoop {ops : List Vpop} (h : v.LawfulExcept L R (some p))
    (hr : v.running = some p) (b : Bool) (hs : ∀ o ∈ ops, ¬ L.Reserved o.sem)
    (hone : ∀ s, Strict L R (some s) → (locks ops).count s ≤ 1)
    (hnew : ∀ s ∈ locks ops, Strict L R (some s) → p ∉ v.procs (some s))
    (hfresh : ∀ s, L.Reserved s → p ∉ v.procs (some s)) :
    (Sched.semopLoop ops p v b).1.LawfulExcept L R (some p) := by
  induction ops generalizing v b with
  | nil => exact h
  | cons o ops ih =>
      have hno := hs o (by simp)
      have hsub : (locks ops).Sublist (locks (o :: ops)) := by
        rw [locks_cons]
        split
        · exact List.sublist_cons_self _ _
        · exact List.Sublist.refl _
      have hlock : o.op = LOCK → locks (o :: ops) = o.sem :: locks ops := by
        intro hl
        rw [locks_cons, if_pos hl]
      refine ih (h.semopStep hr o b hno (fun hl => hnew o.sem (hlock hl ▸ by simp)) hfresh)
        (running_semopStep hr o b) _ (fun o' ho' => hs o' (by simp [ho']))
        (fun s hx => (hsub.count_le s).trans (hone s hx)) ?_ ?_
      · intro s hm hx hp
        rcases mem_semopStep hp with hp | ⟨-, rfl, hl, -⟩
        · exact hnew s (hsub.subset hm) hx hp
        · have hc := hone o.sem hx
          rw [hlock hl, List.count_cons_self] at hc
          have hpos := List.count_pos_iff.mpr hm
          omega
      · intro s hres hp
        rcases mem_semopStep hp with hp | ⟨-, rfl, -, -⟩
        · exact hfresh s hres hp
        · exact hno hres

-- The flag of the loop says whether some LOCK made the caller wait.
theorem semopStep_flag (v : Sched) (o : Vpop) (p : ProcId) (b : Bool) :
    (v.semopStep o p b).2 = (b || decide (o.op = LOCK ∧ v.sem o.sem ≤ 0)) := by
  unfold semopStep
  dsimp only
  by_cases hl : o.op = LOCK
  · by_cases hz : v.sem o.sem ≤ 0
    · simp [hl, hz]
    · simp [hl, hz]
  · rw [if_neg hl]
    split <;> simp [hl]

theorem semopLoop_true (ops : List Vpop) (p : ProcId) (v : Sched) :
    (Sched.semopLoop ops p v true).2 = true := by
  induction ops generalizing v with
  | nil => rfl
  | cons o ops ih =>
      rw [Sched.semopLoop, semopStep_flag, Bool.true_or]
      exact ih _

-- A caller that was not made to wait is on no semaphore queue.
theorem off_of_flag {ops : List Vpop} {b : Bool} (hoff : ∀ s, p ∉ v.procs (some s))
    (hflag : (Sched.semopLoop ops p v b).2 = false) (s : Addr) :
    p ∉ (Sched.semopLoop ops p v b).1.procs (some s) := by
  induction ops generalizing v b with
  | nil => exact hoff s
  | cons o ops ih =>
      refine ih (fun s' hp => ?_) hflag
      rcases mem_semopStep hp with hp | ⟨-, -, hl, hz⟩
      · exact hoff s' hp
      · rw [Sched.semopLoop, semopStep_flag, decide_eq_true ⟨hl, hz⟩, Bool.or_true,
          semopLoop_true] at hflag
        cases hflag

theorem semopLoop_frame (ops : List Vpop) (p : ProcId) (v : Sched) (b : Bool) {s : Addr}
    (hs : ∀ o ∈ ops, s ≠ o.sem) : (Sched.semopLoop ops p v b).1.sem s = v.sem s ∧
      (Sched.semopLoop ops p v b).1.procs (some s) = v.procs (some s) := by
  induction ops generalizing v b with
  | nil => exact ⟨rfl, rfl⟩
  | cons o ops ih =>
      have hstep := v.semopStep_frame o p b (hs o (by simp))
      have hrest := ih (v.semopStep o p b).1 (v.semopStep o p b).2 fun o' ho' => hs o' (by simp [ho'])
      exact ⟨hrest.1.trans hstep.1, hrest.2.trans hstep.2⟩

theorem level_semopLoop {ops : List Vpop} (b : Bool) (hs : ∀ o ∈ ops, s ≠ o.sem) :
    (Sched.semopLoop ops p v b).1.level s = v.level s := by
  have hf := semopLoop_frame ops p v b hs
  rw [level, level, hf.1, ← length_procs, hf.2, length_procs]

theorem running_semopLoop {v : Sched} (hr : v.running = some p) (ops : List Vpop) (b : Bool) :
    (Sched.semopLoop ops p v b).1.running = some p :=
  semopLoop_invariant (I := fun v => v.running = some p)
    (fun _ o b hr => running_semopStep hr o b) hr ops b

-- Nobody is busy any more when the caller is not both ready and waiting.
theorem LawfulExcept.idle (h : v.LawfulExcept L R (some p))
    (hp : p ∈ v.procs none → ∀ s, p ∉ v.procs (some s)) : v.LawfulExcept L R none :=
  { h with
    alone := fun a ha _ s => by
      by_cases heq : a = p
      · subst heq
        exact hp ha s
      · exact h.alone a ha (by simpa using heq) s }

theorem not_mem_tail {l : List ProcId} (h : l.Nodup) (hp : l.head? = some p) : p ∉ l.tail := by
  cases l with
  | nil => simp at hp
  | cons a l =>
      cases hp
      exact (List.nodup_cons.mp h).1

theorem StableExcept.vectored (h : v.StableExcept L R) (hr : v.running = some p) {ops : List Vpop}
    (hs : ∀ o ∈ ops, ¬ L.Reserved o.sem)
    (hone : ∀ s, Strict L R (some s) → (locks ops).count s ≤ 1) :
    (v.vectored ops p).StableExcept L R := by
  have hoff := h.running_off hr
  have hbusy : v.LawfulExcept L R (some p) := { h.toLawfulExcept with alone := fun a ha _ s => h.neat.alone a ha s }
  have hloop := hbusy.semopLoop hr false hs hone (fun s _ _ => hoff s) fun s _ => hoff s
  obtain ⟨q, sem, context, hframe⟩ := v.frame_semopLoop (p := p) ops false
  have hlevel := level_semopLoop (p := p) (v := v) (s := L.PSEUDO_CLOCK_SEMAPHORE) false
    fun o ho heq => hs o ho (heq ▸ Or.inl rfl)
  have hstable : ∀ v' : Sched, v'.LawfulExcept L R none → (∀ s, v'.level s =
      (Sched.semopLoop ops p v false).1.level s) → v'.free = v.free → v'.parent = v.parent →
      v'.children = v.children → v'.StableExcept L R := by
    intro v' hl hlev hfree hparent hchildren
    refine ⟨hl, hfree ▸ h.spare, ?_, ?_⟩
    · obtain ⟨path, hp⟩ := h.rooted
      refine ⟨path, ?_⟩
      rw [Rooted, hfree, hparent, hchildren]
      exact hp
    · rw [hlev, hlevel]
      exact h.pclock
  have hrun := running_semopLoop hr ops false
  unfold Sched.vectored
  dsimp only
  split
  · refine hstable _ (hloop.removeReady.idle fun hp => ?_) (fun s =>
      level_of_eq rfl (queue_removeReady _ s)) ?_ ?_ ?_
    · rw [procs_removeReady, if_pos rfl] at hp
      refine absurd hp (not_mem_tail (hloop.distinct none strict_none) ?_)
      rw [procs, List.head?_map]
      exact hrun
    · rw [Sched.removeReady, hframe]
    · rw [Sched.removeReady, hframe]
    · rw [Sched.removeReady, hframe]
  · next hflag =>
    have hoff' := off_of_flag hoff (Bool.not_eq_true _ ▸ hflag)
    refine hstable _ (hloop.idle fun _ => hoff') (fun _ => rfl) ?_ ?_ ?_
    · rw [hframe]
    · rw [hframe]
    · rw [hframe]

theorem StableExcept.semop (h : v.StableExcept L R) (hr : v.running = some p) {ops : List Vpop}
    (hs : ∀ o ∈ ops, ¬ L.Reserved o.sem)
    (hone : ∀ s, Strict L R (some s) → (locks ops).count s ≤ 1) :
    SoundExcept L R p (v.semop L currentTime ops p) := by
  have hv := h.vectored hr hs hone
  rw [semop_eq]
  split
  · exact hv.schedule currentTime
  · next hflag =>
    refine ⟨hv, ?_⟩
    rw [Sched.vectored, if_neg hflag]
    exact running_semopLoop hr ops false

end Vector

section Wait

theorem StableExcept.setDevice (h : v.StableExcept L R) (d : Device) (n : Int) :
    (v.setSem (L.device d) n).StableExcept L R := by
  refine ⟨h.toLawfulExcept.congr rfl rfl, h.spare, h.rooted, ?_⟩
  have hne := (L.device_ne_pseudoClock d).symm
  have hp := h.pclock
  rw [level] at hp ⊢
  simpa only [setSem, Function.update_of_ne hne] using hp

-- P that makes the running process wait leaves the level where it was.
theorem level_block (v : Sched) (s s' : Addr) (p : ProcId) (hr : s' = s → InRange (v.sem s - 1)) :
    (v.block s p).level s' = v.level s' := by
  rw [Sched.block, level, ← length_procs, procs_insertBlocked, level, ← length_procs]
  by_cases hs : s' = s
  · subst hs
    rw [if_pos rfl, List.length_append, procs_removeReady, if_neg (by simp)]
    simp only [Sched.insertBlocked, Sched.removeReady, setSem, Function.update_self, procs,
      List.length_map, List.length_singleton, (hr rfl).toLong_eq]
    omega
  · rw [if_neg (by simpa using hs), procs_removeReady, if_neg (by simp)]
    simp [Sched.insertBlocked, Sched.removeReady, setSem, hs, procs]

theorem StableExcept.block (h : v.StableExcept L R) (hr : v.running = some p) (s : Addr) :
    (v.block s p).StableExcept L R := by
  have hoff := h.neat.off_removeReady hr
  have hset : (v.setSem s (toLong (v.sem s - 1))).LawfulExcept L R none := h.toLawfulExcept.congr rfl rfl
  have hlawful : (v.block s p).LawfulExcept L R none :=
    LawfulExcept.insertBlocked hset.removeReady (fun _ => hoff (some s)) (fun _ => hoff none)
      (h.live none p (running_mem hr)) (fun _ => hoff) fun s' _ => hoff (some s')
  refine ⟨hlawful, h.spare, h.rooted, ?_⟩
  rw [level_block _ _ _ _ fun heq => ?_]
  · exact h.pclock
  · have hb := h.pclock_bounds
    rw [← heq]
    constructor <;> omega

theorem StableExcept.wait (h : v.StableExcept L R) (hr : v.running = some p) (s : Addr)
    (currentTime : Int) : (v.wait L currentTime s p).WfExcept L R :=
  (h.block hr s).schedule currentTime

theorem StableExcept.waitforio (h : v.StableExcept L R) (hr : v.running = some p) (d : Device)
    (currentTime : Int) : SoundExcept L R p (v.waitforio L currentTime d p) := by
  unfold Sched.waitforio
  split
  · exact StableExcept.wait (v := v.saveState p v.SYS_TRAP_OLD_STATE) (h.congr rfl rfl rfl rfl rfl) hr _
      currentTime
  · next hpos =>
    have hset := h.setDevice d (v.sem (L.device d) - 1)
    exact ⟨hset.congr rfl rfl rfl rfl rfl, hr⟩

end Wait

section Interrupt

-- V by the kernel on one of its semaphores that has waiters.
theorem StableExcept.signal (h : v.StableExcept L R) (s : Addr) (hq : v.queue (some s) ≠ []) :
    ((v.setSem s (toLong (v.sem s + 1))).wake s).StableExcept L R := by
  have hlevel : ((v.setSem s (toLong (v.sem s + 1))).wake s).level L.PSEUDO_CLOCK_SEMAPHORE =
      v.level L.PSEUDO_CLOCK_SEMAPHORE := by
    rw [level_signal _ _ _ fun heq => ?_, if_neg fun hc => hq hc.2]
    have hb := h.pclock_bounds
    rw [← heq]
    constructor <;> omega
  obtain ⟨q, hframe⟩ := (v.setSem s (toLong (v.sem s + 1))).frame_wake s
  have hset : (v.setSem s (toLong (v.sem s + 1))).LawfulExcept L R none := h.toLawfulExcept.congr rfl rfl
  refine ⟨hset.wake s, ?_, ?_, ?_⟩
  · rw [hframe]
    exact h.spare
  · rw [hframe]
    exact h.rooted
  · rw [hlevel]
    exact h.pclock

theorem StableExcept.inthandler (h : v.StableExcept L R) (d : Device) (reg : DevReg) :
    (v.inthandler L d reg).StableExcept L R := by
  unfold Sched.inthandler
  split
  · next hsem =>
    split
    · exact h
    · next p hp =>
      have hs : toLong (v.sem (L.device d) + 1) = 0 := by
        rw [hsem]
        rfl
      rw [← hs]
      refine StableExcept.signal (v := v.saveState p _) (h.congr rfl rfl rfl rfl rfl) (L.device d) ?_
      intro hq
      rw [procs, show v.queue (some (L.device d)) = [] from hq] at hp
      cases hp
  · have hset := h.setDevice d (toLong (v.sem (L.device d) + 1))
    exact hset.congr rfl rfl rfl rfl rfl

theorem ready_inthandler (v : Sched) (d : Device) (reg : DevReg) (hq : v.queue none ≠ []) :
    (v.inthandler L d reg).queue none ≠ [] := by
  obtain ⟨p, hr⟩ := running_of_ready hq
  exact ready_of_running (running_inthandler hr d reg)

theorem StableExcept.intdevicehandler (h : v.StableExcept L R) (old : State) (d : Device) (reg : DevReg)
    (currentTime : Int) : (v.intdevicehandler L currentTime old d reg).WfExcept L R := by
  unfold Sched.intdevicehandler
  dsimp only
  split
  · exact (h.inthandler d reg).schedule currentTime
  · next hq => exact (h.inthandler d reg).load old (v.ready_inthandler d reg hq)

theorem StableExcept.requeue (h : v.StableExcept L R) (hr : v.running = some p) :
    (v.removeReady.insertReady p).StableExcept L R := by
  have hlevel : ∀ s, (v.removeReady.insertReady p).level s = v.level s := by
    refine fun s => level_of_eq rfl ?_
    simp only [Sched.insertReady]
    rw [enqueue_of_ne (by simp)]
    exact v.queue_removeReady s
  refine ⟨h.toLawfulExcept.removeReady.insertReady (h.neat.off_removeReady hr)
    (h.live none p (running_mem hr)), h.spare, h.rooted, ?_⟩
  rw [hlevel]
  exact h.pclock

theorem StableExcept.preempt (h : v.StableExcept L R) (tIn : Int) (old : State) :
    (v.preempt tIn old).StableExcept L R := by
  unfold Sched.preempt
  split
  · exact h
  · next p hr => exact (h.requeue hr).congr rfl rfl rfl rfl rfl

theorem StableExcept.tick (h : v.StableExcept L R) : (v.tick L).StableExcept L R := by
  unfold Sched.tick
  split
  · split
    · exact h.congr rfl rfl rfl rfl rfl
    · next hq => exact (h.signal _ hq).congr rfl rfl rfl rfl rfl
  · exact h

theorem StableExcept.intclockhandler (h : v.StableExcept L R) (tIn tOut : Int) (old : State) :
    (v.intclockhandler L tIn tOut old).WfExcept L R := by
  have hclock : ({ v with PSEUDO_CLOCK := v.PSEUDO_CLOCK + QUANTUM } : Sched).StableExcept L R :=
    h.congr rfl rfl rfl rfl rfl
  exact (hclock.preempt tIn old).tick.schedule tOut

end Interrupt

section Step

-- What the kernel reserves for itself stays out of the vectors, and a process
-- does not ask twice for one semaphore.
@[mk_iff]
structure Apart (L : Layout) (e : Event) : Prop where
  reserved : e.call = some 3 → ∀ o ∈ e.vector, ¬ L.Reserved o.sem
  distinct : e.call = some 3 → (locks e.vector).Nodup

instance (L : Layout) (e : Event) : Decidable (Apart L e) := decidable_of_iff' _ (apart_iff L e)

-- A process may ask twice for a semaphore of `R`.
structure ApartExcept (L : Layout) (R : Set Addr) (e : Event) : Prop where
  reserved : e.call = some 3 → ∀ o ∈ e.vector, ¬ L.Reserved o.sem
  once : e.call = some 3 → ∀ s, Strict L R (some s) → (locks e.vector).count s ≤ 1

theorem Apart.except {e : Event} (h : Apart L e) : ApartExcept L R e :=
  ⟨h.reserved, fun hc s _ => List.nodup_iff_count_le_one.mp (h.distinct hc) s⟩

theorem StableExcept.trapstate (h : v.StableExcept L R) (hr : v.running = some p) (currentTime : Int) :
    SoundExcept L R p (v.trapstate L currentTime p) := by
  unfold Sched.trapstate
  split
  · exact ⟨h, hr⟩
  · dsimp only
    split
    · exact ⟨h.congr rfl rfl rfl rfl rfl, hr⟩
    · exact h.killproc hr currentTime

theorem running_createproc (hr : v.running = some p) : (v.createproc p).running = some p := by
  by_cases hfree : v.free = []
  · rw [v.createproc_full hfree]
    exact hr
  · obtain ⟨c, rest, hfree⟩ := List.exists_cons_of_ne_nil hfree
    rw [v.createproc_cons hfree]
    exact running_append (v := v.newborn p c rest) hr _

theorem StableExcept.call {e : Event} (h : v.StableExcept L R) (hr : v.running = some p)
    (hold : v.SYS_TRAP_OLD_STATE = e.old) (hcall : e.call = some e.old.s_tmp.sys_no)
    (hap : ApartExcept L R e) (hdev : e.call = some 8 → ∃ d, deviceOf e.old.d4 = some d) :
    SoundExcept L R p (v.call L e p) := by
  unfold Sched.call
  rw [hold]
  split
  · exact ⟨h.createproc hr, running_createproc hr⟩
  · exact h.killproc hr e.tOut
  · next hno =>
    rw [hno] at hcall
    exact h.semop hr (hap.reserved hcall) (hap.once hcall)
  · exact ⟨h.congr rfl rfl rfl rfl rfl, fun hq => absurd hq (ready_of_running hr), fun hc => by
      simp at hc⟩
  · exact h.trapstate hr e.tOut
  · exact ⟨h.congr rfl rfl rfl rfl rfl, hr⟩
  · exact StableExcept.wait (v := v.saveState p v.SYS_TRAP_OLD_STATE) (h.congr rfl rfl rfl rfl rfl) hr _
      e.tOut
  · next hno =>
    rw [hno] at hcall
    obtain ⟨d, hd⟩ := hdev hcall
    rw [hd]
    exact h.waitforio hr d e.tOut
  · exact h.passUp hr .SYSTRAP e.old e.tOut

theorem StableExcept.trapsyshandler {e : Event} (h : v.StableExcept L R) (hr : v.running = some p)
    (hkind : e.kind = .sys) (hap : ApartExcept L R e)
    (hdev : e.call = some 8 → ∃ d, deviceOf e.old.d4 = some d) :
    (v.trapsyshandler L e p).WfExcept L R := by
  have henter : (v.enter e p).StableExcept L R := h.congr rfl rfl rfl rfl rfl
  unfold Sched.trapsyshandler
  split
  · have hold : ({ v.enter e p with
        SYS_TRAP_OLD_STATE := { e.old with s_tmp := e.old.s_tmp.setPrTyp PRIVILEGE } } :
        Sched).StableExcept L R := henter.congr rfl rfl rfl rfl rfl
    exact hold.passUp hr .PROGTRAP _ e.tOut
  · next hmode =>
    have hcall := henter.call (e := e) hr rfl (Event.call_eq hkind hmode) hap hdev
    split
    · next v' heq =>
      rw [heq] at hcall
      exact hcall
    · next v' heq =>
      rw [heq] at hcall
      exact StableExcept.load (v := v'.updateLastStartTime e.tOut p)
        (hcall.1.congr rfl rfl rfl rfl rfl) _ (ready_of_running hcall.2)

end Step

-- An entry that is admitted preserves the laws.
theorem WfExcept.step {e : Event} (h : v.WfExcept L R) (hadm : v.Admits L e) (hap : ApartExcept L R e) :
    (v.step L e).WfExcept L R := by
  have hareas : ({ v with areas := e.areas } : Sched).StableExcept L R :=
    h.toStableExcept.congr rfl rfl rfl rfl rfl
  unfold Sched.step
  split
  · next p hkind hr =>
    exact h.toStableExcept.trapsyshandler hr hkind hap fun hc => (hadm.device p hr hc).imp fun d hd => hd.1
  · next p _ hr => exact hareas.passUp hr .MMTRAP e.old e.tOut
  · next p _ hr => exact hareas.passUp hr .PROGTRAP e.old e.tOut
  · exact StableExcept.intclockhandler (v := { v with areas := e.areas, intervalTimer := none })
      (hareas.congr rfl rfl rfl rfl rfl) e.tIn e.tOut e.old
  · next d _ _ => exact hareas.intdevicehandler e.old d _ e.tOut
  · exact h

section Exact

-- Where no process is twice on a queue.

theorem Stable.congr (h : v.Stable L) (hq : v'.queue = v.queue) (hfree : v'.free = v.free)
    (hparent : v'.parent = v.parent) (hchildren : v'.children = v.children)
    (hsem : v'.sem = v.sem) : v'.Stable L :=
  (h.except.congr hq hfree hparent hchildren hsem).exact

theorem Stable.running_off (h : v.Stable L) (hr : v.running = some p) (s : Addr) :
    p ∉ v.procs (some s) :=
  h.tidy.alone p (running_mem hr) s

theorem Stable.vectored (h : v.Stable L) (hr : v.running = some p) {ops : List Vpop}
    (hs : ∀ o ∈ ops, ¬ L.Reserved o.sem) (hnodup : (locks ops).Nodup) :
    (v.vectored ops p).Stable L :=
  (h.except.vectored hr hs fun s _ => List.nodup_iff_count_le_one.mp hnodup s).exact

theorem Wf.step {e : Event} (h : v.Wf L) (hadm : v.Admits L e) (hap : Apart L e) :
    (v.step L e).Wf L :=
  (h.except.step hadm hap.except).exact

end Exact

end Sched

end Hoca
