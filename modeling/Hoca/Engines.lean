import Hoca.ActiveList
import Hoca.Vector

namespace Hoca

open Links

variable {L : Layout} {U : Set Addr} {k k' m m' k₁ k₂ : Kernel} {v v' : Sched} {p : ProcId}
  {s : Addr} {op currentTime : Int} {es : List Event} {p1 : State}

namespace Kernel

-- intsemop up to the call of schedule: the flag says whether it is called.
def intsemopStep (semAddr : Addr) (op : Int) (k : Kernel) : Option (Kernel × Bool) := do
  let prevSemVal := k.sem semAddr
  let k := k.setSem semAddr (toLong (prevSemVal + op))
  if op = LOCK then
    if prevSemVal ≤ 0 then
      let (k, out) ← k.removeReady
      let process ← out
      let (k, _) ← k.insertBlocked semAddr process
      some (k, true)
    else some (k, false)
  else if op = UNLOCK then
    if prevSemVal < 0 then
      match ← k.removeBlocked semAddr with
      | (k, none) => some (k, false)
      | (k, some process) =>
          if (k.procTable process).qcount = 0 then
            let k ← k.insertReady process
            some (k, false)
          else some (k, false)
    else some (k, false)
  else some (k, false)

-- How both routines end.
def leave (L : Layout) (currentTime : Int) (r : Kernel × Bool) : Option (Ret Kernel) :=
  if r.2 then (schedule L currentTime r.1).map .gone else some (.back r.1)

theorem semop_leave (vpops : Addr → ℕ → Vpop) (k : Kernel) :
    k.semop L currentTime vpops =
      (k.semopVector (vector vpops k.SYS_TRAP_OLD_STATE)).bind (leave L currentTime) := by
  unfold semop
  refine congrArg _ (funext fun r => ?_)
  obtain ⟨m, b⟩ := r
  cases b with
  | false => rfl
  | true =>
      cases hs : schedule L currentTime m with
      | none => simp [leave, hs]
      | some m' => simp [leave, hs]

theorem intsemop_leave (k : Kernel) :
    k.intsemop L currentTime s op = (k.intsemopStep s op).bind (leave L currentTime) := by
  unfold intsemop intsemopStep
  dsimp only
  by_cases hl : op = LOCK
  · simp only [if_pos hl]
    by_cases hz : k.sem s ≤ 0
    · simp only [if_pos hz]
      cases hrem : (k.setSem s (toLong (k.sem s + op))).removeReady with
      | none => rfl
      | some r =>
          obtain ⟨m, out⟩ := r
          cases out with
          | none => rfl
          | some p =>
              cases hins : m.insertBlocked s p with
              | none => simp [hins]
              | some r' =>
                  cases hs : schedule L currentTime r'.1 <;> simp [hins, leave, hs]
    · simp only [if_neg hz]
      rfl
  · simp only [if_neg hl]
    by_cases hu : op = UNLOCK
    · simp only [if_pos hu]
      by_cases hz : k.sem s < 0
      · simp only [if_pos hz]
        cases hrem : (k.setSem s (toLong (k.sem s + op))).removeBlocked s with
        | none => rfl
        | some r =>
            obtain ⟨m, out⟩ := r
            cases out with
            | none => rfl
            | some p =>
                by_cases hq : (m.procTable p).qcount = 0
                · cases hins : m.insertReady p <;> simp [hq, hins, leave]
                · simp [hq, leave]
      · simp only [if_neg hz]
        rfl
    · simp only [if_neg hu]
      rfl

-- Where the caller goes on, the two routines are the same text.
theorem semopVector_single (k : Kernel) (hgo : ¬ (op = LOCK ∧ k.sem s ≤ 0)) :
    k.semopVector [⟨op, s⟩] = k.intsemopStep s op := by
  unfold semopVector semopLoop semopLoop semopStep intsemopStep
  dsimp only
  by_cases hl : op = LOCK
  · have hz : ¬ k.sem s ≤ 0 := fun hz => hgo ⟨hl, hz⟩
    simp only [if_pos hl, if_neg hz]
    rfl
  · simp only [if_neg hl]
    by_cases hu : op = UNLOCK
    · simp only [if_pos hu]
      by_cases hz : k.sem s < 0
      · simp only [if_pos hz]
        cases hrem : (k.setSem s (toLong (k.sem s + op))).removeBlocked s with
        | none => rfl
        | some r =>
            obtain ⟨m, out⟩ := r
            cases out with
            | none => rfl
            | some p =>
                by_cases hq : (m.procTable p).qcount = 0
                · cases hins : m.insertReady p <;> simp [hq, hins]
                · simp [hq]
      · simp only [if_neg hz]
        rfl
    · simp only [if_neg hu]
      rfl

-- The free descriptors, read off along s_next.
def spareSemd (k : Kernel) : List SemdId :=
  walk (fun d => (k.semdTable d).s_next) MAXPROC k.semdFree_h

-- The same words, the same processes in the same order on every queue, the same
-- ASL, as many free descriptors and the same qcounts.
structure Alike (k k' : Kernel) : Prop where
  words : k.sem = k'.sem
  queues : ∀ x, k.abs.procs x = k'.abs.procs x
  list : k.ASL = k'.ASL
  spare : k.spareSemd.length = k'.spareSemd.length
  counts : ∀ p, (k.procTable p).qcount = (k'.procTable p).qcount

theorem Alike.refl (k : Kernel) : Alike k k := ⟨rfl, fun _ => rfl, rfl, rfl, fun _ => rfl⟩

end Kernel

section Places

-- The places of a process tell its entries in use apart.
theorem occupied_card_le {q q' : QueueId → List Node} (hapart : ∀ x y e, e ∈ q' x → e ∈ q' y → x = y)
    (hnodup : ∀ x, (q' x).Nodup) (hq : ∀ x, (q x).map Prod.fst = (q' x).map Prod.fst) (p : ProcId) :
    (occupied q p).card ≤ (occupied q' p).card := by
  have hplace : ∀ i ∈ occupied q p, ∃ (j : Slot) (x : QueueId) (n : ℕ),
      (q x)[n]? = some (p, i) ∧ (q' x)[n]? = some (p, j) := by
    intro i hi
    obtain ⟨x, hx⟩ := mem_occupied.mp hi
    obtain ⟨n, hn⟩ := List.mem_iff_getElem?.mp hx
    have hfst : ((q' x).map Prod.fst)[n]? = some p := by
      rw [← hq x, List.getElem?_map, hn]
      rfl
    obtain ⟨⟨a, j⟩, hj, rfl⟩ := Option.map_eq_some_iff.mp (List.getElem?_map ▸ hfst)
    exact ⟨j, x, n, hn, hj⟩
  choose! place queue position hold hnew using hplace
  refine Finset.card_le_card_of_injOn place (fun i hi => ?_) fun i hi i' hi' heq => ?_
  · exact mem_occupied.mpr ⟨queue i, List.mem_of_getElem? (hnew i hi)⟩
  · have hi₁ := hnew i hi
    have hi₂ := hnew i' hi'
    rw [← heq] at hi₂
    have hx := hapart _ _ _ (List.mem_of_getElem? hi₁) (List.mem_of_getElem? hi₂)
    rw [← hx] at hi₂
    have hn := (List.getElem?_inj (List.getElem?_eq_some_iff.mp hi₁).1 (hnodup _)).mp
      (hi₁.trans hi₂.symm)
    have hold' := hold i' hi'
    rw [← hx, ← hn, hold i hi] at hold'
    simpa using hold'

theorem Core.qcount_eq (h : Core k v) (h' : Core k' v') (hq : ∀ x, v.procs x = v'.procs x)
    (p : ProcId) : (k.procTable p).qcount = (k'.procTable p).qcount := by
  have hl := h.queued.linked
  have hl' := h'.queued.linked
  rw [hl.qcount, hl'.qcount]
  exact congrArg _ (le_antisymm (occupied_card_le hl'.apart hl'.nodup hq p)
    (occupied_card_le hl.apart hl.nodup (fun x => (hq x).symm) p))

-- The queues in use tell what is on the ASL.
theorem Core.list_eq (h : Core k v) (h' : Core k' v') (hq : ∀ x, v.procs x = v'.procs x) :
    k.ASL = k'.ASL ∧ k.spareSemd.length = k'.spareSemd.length := by
  obtain ⟨asl, spare, ha⟩ := h.queued.active
  obtain ⟨asl', spare', ha'⟩ := h'.queued.active
  have hsame : asl.map Prod.snd = asl'.map Prod.snd := by
    have hnodup := ha.sorted.imp fun h => ne_of_lt h
    have hnodup' := ha'.sorted.imp fun h => ne_of_lt h
    refine List.Perm.eq_of_pairwise (fun a b _ _ hab hba => absurd hab (lt_asymm hba)) ha.sorted
      ha'.sorted ((List.perm_ext_iff_of_nodup hnodup hnodup').mpr fun s => ?_)
    have hempty : v.procs (some s) = [] ↔ v'.procs (some s) = [] := by rw [hq]
    rw [Sched.procs, Sched.procs, List.map_eq_nil_iff, List.map_eq_nil_iff] at hempty
    rw [← ha.complete s, ← ha'.complete s]
    exact not_congr hempty
  refine ⟨by rw [ha.ASL_eq, ha'.ASL_eq, hsame], ?_⟩
  have hall := ha.length_all
  have hall' := ha'.length_all
  have hlen := congrArg List.length hsame
  rw [List.length_map, List.length_map] at hlen
  rw [Kernel.spareSemd, Kernel.spareSemd, ha.chain.walk_eq (by omega),
    ha'.chain.walk_eq (by omega)]
  omega

theorem Core.alike (h : Core k v) (h' : Core k' v') (hsem : v.sem = v'.sem)
    (hq : ∀ x, v.procs x = v'.procs x) : k.Alike k' where
  words := by rw [h.sem_eq, h'.sem_eq, hsem]
  queues x := by rw [h.procs_eq, h'.procs_eq, hq]
  list := (h.list_eq h' hq).1
  spare := (h.list_eq h' hq).2
  counts := h.qcount_eq h' hq

end Places

section Agree

theorem Sched.vectored_lock (hsem : v.sem s ≤ 0) : v.vectored [⟨LOCK, s⟩] p =
    (((v.setSem s (toLong (v.sem s - 1))).saveState p v.SYS_TRAP_OLD_STATE).insertBlocked s p).removeReady := by
  simp only [Sched.vectored, Sched.semopLoop, Sched.semopStep, if_true, if_pos hsem]
  rfl

-- Being blocked and leaving readyQueue, in either order.
theorem Sched.procs_block_comm (v : Sched) (s : Addr) (p : ProcId) (old : State) (x : QueueId) :
    ((v.saveState p old).insertBlocked s p).removeReady.procs x =
      (v.removeReady.insertBlocked s p).procs x := by
  rw [procs_removeReady, procs_insertBlocked, procs_insertBlocked, procs_insertBlocked,
    procs_removeReady, procs_removeReady]
  cases x with
  | none => rfl
  | some s' => rfl

-- The caller of a P that it has to wait for leaves readyQueue after it has been
-- blocked, or before.
theorem Core.agree_blocks (h : Core k v) (ht : v.Tidy) (hr : v.running = some p)
    (hsem : v.sem s ≤ 0) (hd : v.HasDescriptor s) :
    ∃ m m', k.semopVector [⟨LOCK, s⟩] = some (m, true) ∧
      k.intsemopStep s LOCK = some (m', true) ∧ m.Alike m' := by
  obtain ⟨e, he, rfl⟩ := Option.map_eq_some_iff.mp hr
  have hoff := ht.alone e.1 (List.mem_map_of_mem (List.mem_of_head? he))
  have hfit : Sched.AllFit [⟨LOCK, s⟩] e.1 v :=
    ⟨⟨fun _ _ => ⟨lt_of_le_of_lt (Sched.card_occupied_running ht.ready hoff) (by decide), hd⟩,
      fun hu => absurd (show LOCK = UNLOCK from hu) (by decide)⟩, trivial⟩
  obtain ⟨m, hvector, hcore⟩ := semopVector_spec h ht hr hfit
  have hset := h.setSem s (toLong (v.sem s - 1))
  obtain ⟨m₁, hrem, hcore₁, -, hlive, hempty⟩ := hset.removeReady_step (p := e.1)
    ⟨ht.distinct none, ht.ready, ht.alone⟩ hr
  obtain ⟨m', hins, hcore', -⟩ := insertBlocked_core (s := s) hcore₁ hlive (by simp [hempty]) (by
    simp only [Sched.HasDescriptor, Sched.queue_removeReady]
    exact hd)
  have hflag : (Sched.semopLoop [⟨LOCK, s⟩] e.1 v false).2 = true := by
    simp only [Sched.semopLoop, Sched.semopStep, if_true, if_pos hsem]
  rw [hflag] at hvector
  refine ⟨m, m', hvector, ?_, hcore.alike hcore' ?_ fun x => ?_⟩
  · rw [← h.sem_eq] at hsem hrem
    simp only [Kernel.intsemopStep, if_pos hsem, if_true]
    rw [show k.sem s + LOCK = k.sem s - 1 from rfl, hrem]
    simp only [Option.bind_eq_bind, Option.bind_some, hins]
  · rw [Sched.vectored_lock hsem]
    rfl
  · rw [Sched.vectored_lock hsem]
    exact Sched.procs_block_comm ..

theorem Core.agree_goes (h : Core k v) (hclean : CleanHead (v.queue (some s)))
    (hgo : ¬ (op = LOCK ∧ v.sem s ≤ 0)) :
    ∃ m, k.semopVector [⟨op, s⟩] = some (m, false) ∧ k.intsemopStep s op = some (m, false) := by
  rw [← h.sem_eq] at hgo
  rw [Kernel.semopVector_single k hgo]
  suffices hstep : ∃ m, k.intsemopStep s op = some (m, false) from hstep.imp fun m hm => ⟨hm, hm⟩
  have hset := h.setSem s (toLong (v.sem s + op))
  obtain ⟨k₁, out, hrun, hcases⟩ := wake_spec hset s hclean
  rw [← h.sem_eq] at hrun
  unfold Kernel.intsemopStep
  dsimp only
  by_cases hl : op = LOCK
  · rw [if_pos hl, if_neg fun hz => hgo ⟨hl, hz⟩]
    exact ⟨_, rfl⟩
  · rw [if_neg hl]
    split
    · split
      · rw [hrun]
        rcases hcases with ⟨rfl, -⟩ | ⟨p, rfl, hp, -⟩ | ⟨p, k₂, rfl, hp, hins, -⟩
        · exact ⟨k₁, rfl⟩
        · exact ⟨k₁, by simp [hp]⟩
        · exact ⟨k₂, by simp [hp, hins]⟩
      · exact ⟨_, rfl⟩
    · exact ⟨_, rfl⟩

theorem Core.agree (h : Core k v) (hs : v.Stable L) (hone : v.Single L none) (s : Addr) (op : Int)
    (hr : op = LOCK → k.running ≠ none) :
    ∃ m m' b, k.semopVector [⟨op, s⟩] = some (m, b) ∧ k.intsemopStep s op = some (m', b) ∧
      m.Alike m' := by
  by_cases hblock : op = LOCK ∧ v.sem s ≤ 0
  · obtain ⟨rfl, hsem⟩ := hblock
    obtain ⟨p, hp⟩ := Option.ne_none_iff_exists'.mp (hr rfl)
    rw [h.kernel_running] at hp
    obtain ⟨m, m', hvector, hint, halike⟩ := h.agree_blocks hs.tidy hp hsem
      ((hone.occupy p).hasDescriptor (hs.running_off hp) s)
    exact ⟨m, m', true, hvector, hint, halike⟩
  · have hclean : CleanHead (v.queue (some s)) := by
      by_cases hres : L.Reserved s
      · exact cleanHead_of_slot (hs.slot s hres)
      · exact cleanHead_of_slot (hone.second s hres)
    obtain ⟨m, hvector, hint⟩ := h.agree_goes hclean hblock
    exact ⟨m, m, false, hvector, hint, Kernel.Alike.refl m⟩

end Agree

namespace Kernel

-- Whether the kernel is between two entries or has just entered a system call, a
-- vector of one operation and intsemop lead to the same queues, words and
-- descriptors, and schedule is called for both or for neither.
theorem engines_agree (hU : ∀ s ∈ U, ¬ L.Reserved s) (hmain : main L p1 currentTime k = some k₁)
    (hd : ∀ e ∈ es, Disciplined U e) (hrun : Kernel.run L es k₁ = some k₂)
    (hm : m = k₂ ∨ ∃ e p, m = k₂.enter e p) (s : Addr) (op : Int)
    (hr : op = LOCK → m.running ≠ none) :
    ∃ m₁ m₂ b, m.semopVector [⟨op, s⟩] = some (m₁, b) ∧ m.intsemopStep s op = some (m₂, b) ∧
      m₁.Alike m₂ ∧
      (∀ t vpops, vector vpops m.SYS_TRAP_OLD_STATE = [⟨op, s⟩] →
        m.semop L t vpops = leave L t (m₁, b)) ∧
      ∀ t, m.intsemop L t s op = leave L t (m₂, b) := by
  have hpaced := (main_paced hmain).run hU hd hrun
  have hstable := hpaced.wf.toStable
  obtain ⟨m₁, m₂, b, hvector, hint, halike⟩ : ∃ m₁ m₂ b, m.semopVector [⟨op, s⟩] = some (m₁, b) ∧
      m.intsemopStep s op = some (m₂, b) ∧ m₁.Alike m₂ := by
    rcases hm with rfl | ⟨e, p, rfl⟩
    · exact hpaced.rep.toCore.agree hstable hpaced.single s op hr
    · exact (hpaced.toSound.enter e p).toCore.agree (hstable.congr rfl rfl rfl rfl rfl)
        (hpaced.single.congr rfl) s op hr
  refine ⟨m₁, m₂, b, hvector, hint, halike, fun t vpops hops => ?_, fun t => ?_⟩
  · rw [semop_leave, hops, hvector, Option.bind_some]
  · rw [intsemop_leave, hint, Option.bind_some]

open Sample in
theorem engines_agree_sample : ∃ k₂ m₁ m₂ b,
    ((main layout state 0 cold).bind (Kernel.run layout [fork, locked [7]])) = some k₂ ∧
      k₂.semopVector [⟨LOCK, 7⟩] = some (m₁, b) ∧ k₂.intsemopStep 7 LOCK = some (m₂, b) ∧
      m₁.Alike m₂ := by
  have hval : ((main layout state 0 cold).bind fun k =>
      (Kernel.run layout [fork, locked [7]] k).map Kernel.running) = some (some 1) := by
    decide +kernel
  obtain ⟨k₁, hmain, hval⟩ := Option.bind_eq_some_iff.mp hval
  obtain ⟨k₂, hrun, hrunning⟩ := Option.map_eq_some_iff.mp hval
  obtain ⟨m₁, m₂, b, hvector, hint, halike, -⟩ := engines_agree (fun s hs => hs) hmain
    (fun e he => disciplined_sample e (by
      rw [List.mem_cons, List.mem_singleton] at he
      rcases he with rfl | rfl <;> simp)) hrun (Or.inl rfl) 7 LOCK (by simp [hrunning])
  exact ⟨k₂, m₁, m₂, b, by rw [hmain, Option.bind_some, hrun], hvector, hint, halike⟩

end Kernel

end Hoca
