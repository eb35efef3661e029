import Hoca.Refine.Table

namespace Hoca

open Links

variable {k k' : Kernel} {v : Sched} {p : ProcId} {s : Addr} {L : Layout} {currentTime : Int}

-- A kernel operation that has the given effect and leaves the tree alone.
def Does (k : Kernel) (r : Option Kernel) (v : Sched) : Prop :=
  ∃ k', r = some k' ∧ Core k' v ∧ SameKin k k'

theorem Core.mapEnv (h : Core k v) (f : Env → Env) :
    Core { k with toEnv := f k.toEnv } { v with toEnv := f v.toEnv } := by
  rw [← h.env]
  exact h.setEnv (f k.toEnv)

theorem Core.running_eq (h : Core k v) :
    headQueue k.procTable k.readyQueue = some v.running := by
  rw [h.queued.ready, headQueue_eq h.queued.linked]
  rfl

theorem Core.kernel_running (h : Core k v) : k.running = v.running := by
  simp only [Kernel.running, h.running_eq, Option.bind_eq_bind, Option.bind_some]

theorem Core.headBlocked_eq (h : Core k v) (s : Addr) :
    k.headBlocked s = some (v.procs (some s)).head? := by
  rw [Hoca.headBlocked_eq h.queued, Sched.procs, List.head?_map]

theorem Core.qcount_eq_zero (h : Core k v) (p : ProcId) :
    (k.procTable p).qcount = 0 ↔ occupied v.queue p = ∅ := by
  rw [h.queued.linked.qcount p]
  simp

theorem Core.p_s_eq (h : Core k v) (p : ProcId) : (k.procTable p).p_s = (v.context p).p_s := by
  rw [← h.context p]

section Env

theorem Core.sem_eq (h : Core k v) : k.sem = v.sem := by
  rw [h.env]

theorem Core.old_eq (h : Core k v) : k.SYS_TRAP_OLD_STATE = v.SYS_TRAP_OLD_STATE := by
  rw [h.env]

theorem Core.areas_eq (h : Core k v) : k.areas = v.areas := by
  rw [h.env]

theorem Core.stats_eq (h : Core k v) : k.deviceCompletionStats = v.deviceCompletionStats := by
  rw [h.env]

theorem Core.clock_eq (h : Core k v) : k.PSEUDO_CLOCK = v.PSEUDO_CLOCK := by
  rw [h.env]

theorem Core.setSem (h : Core k v) (a : Addr) (n : Int) : Core (k.setSem a n) (v.setSem a n) :=
  h.mapEnv fun env => { env with sem := Function.update env.sem a n }

theorem Core.LDST (h : Core k v) (s : State) : Core (k.LDST s) (v.LDST s) :=
  h.mapEnv fun env => { env with cpu := .running s }

theorem Core.saveState (h : Core k v) (p : ProcId) (s : State) :
    Core (k.saveState p s) (v.saveState p s) ∧ SameKin k (k.saveState p s) := by
  rw [Kernel.saveState, h.context p]
  exact h.setContext p _

theorem Core.updateLastStartTime (h : Core k v) (currentTime : Int) (p : ProcId) :
    Core (k.updateLastStartTime currentTime p) (v.updateLastStartTime currentTime p) ∧
      SameKin k (k.updateLastStartTime currentTime p) := by
  rw [Kernel.updateLastStartTime, h.context p]
  exact h.setContext p _

theorem Core.updateTotalTime (h : Core k v) (currentTime : Int) (p : ProcId) :
    Core (k.updateTotalTimeOnProcessor currentTime p)
        (v.updateTotalTimeOnProcessor currentTime p) ∧
      SameKin k (k.updateTotalTimeOnProcessor currentTime p) := by
  have hc := h.context p
  have ht : (k.procTable p).total_processor_time = (v.context p).total_processor_time := by
    rw [← hc]
  have hl : (k.procTable p).last_start_time = (v.context p).last_start_time := by
    rw [← hc]
  rw [Kernel.updateTotalTimeOnProcessor, ht, hl, hc]
  exact h.setContext p _

end Env

section Queue

theorem ActiveList.congr {q q' : QueueId → List Node} {asl : List Active} {spare : List SemdId}
    (h : ActiveList k q asl spare) (hq : ∀ s, q' (some s) = q (some s))
    (hT : k'.semdTable = k.semdTable) (hfirst : k'.semd_h = k.semd_h)
    (hfree : k'.semdFree_h = k.semdFree_h) : ActiveList k' q' asl spare := by
  refine ⟨by rw [hT, hfirst, hfree]; exact h.toDescriptors, h.all, fun e he => ?_, fun s => ?_⟩
  · rw [hT, hq]
    exact h.tail e he
  · rw [hq]
    exact h.complete s

theorem insertReady_spec (h : Core k v) (hp : p ∉ v.free)
    (hc : (occupied v.queue p).card < SEMMAX) : Does k (k.insertReady p) (v.insertReady p) := by
  obtain ⟨t, hrun, hlinked, hsame⟩ := insertProc_spec h.queued.linked none hp hc
  obtain ⟨asl, spare, ha⟩ := h.queued.active
  let k' := { k with procTable := t, readyQueue := handle (enqueue v.queue none p none) }
  have hq : Queued k' v.free (enqueue v.queue none p) :=
    ⟨hlinked, rfl, asl, spare, ha.congr (fun s => enqueue_of_ne (by simp)) rfl rfl rfl⟩
  have hreq := h.requeue hq ⟨rfl, rfl, hsame⟩
  refine ⟨k', ?_, hreq.1, hreq.2⟩
  rw [← h.queued.ready] at hrun
  simp only [Kernel.insertReady, hrun, Option.bind_eq_bind, Option.bind_some]
  rfl

theorem removeReady_spec (h : Core k v) (hclean : CleanHead (v.queue none)) :
    ∃ k', k.removeReady = some (k', v.running) ∧ Core k' v.removeReady ∧ SameKin k k' := by
  obtain ⟨t, hrun, hlinked, hsame⟩ := removeProc_spec h.queued.linked none hclean
  obtain ⟨asl, spare, ha⟩ := h.queued.active
  let k' := { k with procTable := t, readyQueue := handle (dequeue v.queue none none) }
  have hq : Queued k' v.free (dequeue v.queue none) :=
    ⟨hlinked, rfl, asl, spare, ha.congr (fun s => dequeue_of_ne (by simp)) rfl rfl rfl⟩
  have hreq := h.requeue hq ⟨rfl, rfl, hsame⟩
  refine ⟨k', ?_, hreq.1, hreq.2⟩
  rw [← h.queued.ready] at hrun
  simp only [Kernel.removeReady, hrun, Option.bind_eq_bind, Option.bind_some]
  rfl

-- outProc on readyQueue.
theorem outReady_spec (h : Core k v) (hdistinct : (v.procs none).Nodup)
    (hclean : CleanHead (v.queue none)) :
    ∃ t tp out, outProc k.procTable k.readyQueue p = some (t, tp, out) ∧
      Core { k with procTable := t, readyQueue := tp } { v with queue := withdraw v.queue none p } ∧
      SameKin k { k with procTable := t, readyQueue := tp } := by
  obtain ⟨t, hrun, hlinked, hsame⟩ := outProc_spec h.queued.linked none p (once_of_distinct hdistinct)
    (removable_of_distinct hdistinct fun _ => hclean)
  obtain ⟨asl, spare, ha⟩ := h.queued.active
  let k' := { k with procTable := t, readyQueue := handle (withdraw v.queue none p none) }
  have hq : Queued k' v.free (withdraw v.queue none p) :=
    ⟨hlinked, rfl, asl, spare, ha.congr (fun s => withdraw_of_ne (by simp)) rfl rfl rfl⟩
  rw [← h.queued.ready] at hrun
  exact ⟨t, _, _, hrun, h.requeue hq ⟨rfl, rfl, hsame⟩⟩

theorem ActiveList.length_all {q : QueueId → List Node} {asl : List Active} {spare : List SemdId}
    (h : ActiveList k q asl spare) : asl.length + spare.length = MAXPROC := by
  have hc := List.toFinset_card_of_nodup h.nodup
  have hu : (asl.map Prod.fst ++ spare).toFinset = Finset.univ := by
    ext d
    simpa using h.all d
  rw [hu, Finset.card_univ, Fintype.card_fin] at hc
  simpa using hc.symm

theorem Core.active_ncard (h : Core k v) :
    {s | v.queue (some s) ≠ []}.ncard < MAXPROC ↔ k.semdFree_h ≠ none := by
  obtain ⟨asl, spare, ha⟩ := h.queued.active
  have hset : {s | v.queue (some s) ≠ []} = ↑(asl.map Prod.snd).toFinset := by
    ext s
    simpa using ha.complete s
  have hnd : (asl.map Prod.snd).Nodup := List.Pairwise.imp (fun h => ne_of_lt h) ha.sorted
  have hall := ha.length_all
  rw [hset, Set.ncard_coe_finset, List.toFinset_card_of_nodup hnd, List.length_map, ha.chain.1]
  cases spare with
  | nil =>
      rw [List.length_nil, Nat.add_zero] at hall
      simp [hall]
  | cons d spare =>
      rw [List.length_cons] at hall
      simp only [List.head?_cons, ne_eq, reduceCtorEq, not_false_eq_true, iff_true]
      omega

theorem insertBlocked_core (h : Core k v) (hp : p ∉ v.free)
    (hc : (occupied v.queue p).card < SEMMAX) (hd : v.HasDescriptor s) :
    ∃ k', k.insertBlocked s p = some (k', false) ∧ Core k' (v.insertBlocked s p) ∧
      SameKin k k' := by
  obtain ⟨k', hrun, hq, hf⟩ := insertBlocked_spec h.queued s hp hc
    (hd.imp_right h.active_ncard.mp)
  exact ⟨k', hrun, h.requeue hq hf⟩

theorem removeBlocked_core (h : Core k v) (s : Addr) (hclean : CleanHead (v.queue (some s))) :
    ∃ k', k.removeBlocked s = some (k', (v.procs (some s)).head?) ∧ Core k' (v.removeBlocked s) ∧
      SameKin k k' := by
  obtain ⟨k', hrun, hq, hf⟩ := removeBlocked_spec h.queued s hclean
  rw [Sched.procs, List.head?_map]
  exact ⟨k', hrun, h.requeue hq hf⟩

end Queue

section Schedule

theorem anyBlocked_eq (h : Core k v) (ds : List Device) :
    ∃ b, Kernel.anyBlocked L k ds = some b ∧
      (b = true ↔ ∃ d ∈ ds, v.queue (some (L.device d)) ≠ []) := by
  induction ds with
  | nil => exact ⟨false, rfl, by simp⟩
  | cons d ds ih =>
      obtain ⟨b, hb, hiff⟩ := ih
      simp only [Kernel.anyBlocked, h.headBlocked_eq, Sched.procs, Option.bind_eq_bind,
        Option.bind_some]
      cases hq : v.queue (some (L.device d)) with
      | nil => exact ⟨b, by simpa using hb, by simp [hiff, hq]⟩
      | cons e rest => exact ⟨true, rfl, by simp [hq]⟩

theorem headASL_iff (h : Core k v) : k.headASL = true ↔ ∃ s, v.queue (some s) ≠ [] := by
  obtain ⟨asl, spare, ha⟩ := h.queued.active
  rw [Kernel.headASL, ha.doubly.1.1]
  cases asl with
  | nil =>
      simp only [List.map_nil, List.head?_nil, Option.isSome_none, Bool.false_eq_true, false_iff,
        not_exists]
      exact fun s hs => by simpa using (ha.complete s).mp hs
  | cons e asl =>
      simp only [List.map_cons, List.head?_cons, Option.isSome_some, true_iff]
      exact ⟨e.2, (ha.complete e.2).mpr (by simp)⟩

theorem intdeadlock_spec (h : Core k v) : Does k (k.intdeadlock L) (v.intdeadlock L) := by
  simp only [Kernel.intdeadlock, Sched.intdeadlock, h.headBlocked_eq, Option.bind_eq_bind,
    Option.bind_some]
  by_cases hq : v.queue (some L.PSEUDO_CLOCK_SEMAPHORE) = []
  · have hhead : (v.procs (some L.PSEUDO_CLOCK_SEMAPHORE)).head? = none := by
      simp [Sched.procs, hq]
    obtain ⟨b, hb, hdev⟩ := anyBlocked_eq (L := L) h (List.finRange TOTAL_DEVICES)
    simp only [List.mem_finRange, true_and] at hdev
    have hasl := headASL_iff h
    rw [hhead, if_neg (not_not.mpr hq)]
    simp only [hb, Option.bind_some]
    by_cases hd : ∃ d, v.queue (some (L.device d)) ≠ []
    · rw [if_pos (hdev.mpr hd), if_pos hd]
      exact ⟨_, rfl, h.mapEnv fun env => { env with cpu := .asleep }, SameKin.refl k⟩
    · rw [if_neg (fun hb => hd (hdev.mp hb) : ¬ b = true), if_neg hd]
      by_cases hs : ∃ s, v.queue (some s) ≠ []
      · rw [if_pos (hasl.mpr hs), if_pos hs]
        exact ⟨_, rfl, h.mapEnv fun env =>
          { env with cpu := .halted "nucleus: deadlock termination" }, SameKin.refl k⟩
      · rw [if_neg (fun hb => hs (hasl.mp hb) : ¬ k.headASL = true), if_neg hs]
        exact ⟨_, rfl, h.mapEnv fun env =>
          { env with cpu := .halted "nucleus: normal termination" }, SameKin.refl k⟩
  · obtain ⟨p, hhead⟩ : ∃ p, (v.procs (some L.PSEUDO_CLOCK_SEMAPHORE)).head? = some p := by
      refine ⟨_, List.head?_eq_some_head ?_⟩
      simpa [Sched.procs] using hq
    rw [hhead, if_pos hq]
    exact ⟨_, rfl, h.mapEnv fun env => { env with intervalTimer := some QUANTUM, cpu := .asleep },
      SameKin.refl k⟩

theorem schedule_spec (h : Core k v) (currentTime : Int) :
    Does k (k.schedule L currentTime) (v.schedule L currentTime) := by
  simp only [Kernel.schedule, Sched.schedule, h.running_eq, Option.bind_eq_bind, Option.bind_some]
  cases hr : v.running with
  | none => exact intdeadlock_spec h
  | some p =>
      have ht := h.mapEnv fun env => { env with intervalTimer := some QUANTUM }
      have hu := ht.updateLastStartTime currentTime p
      refine ⟨_, rfl, ?_, hu.2⟩
      rw [h.p_s_eq p]
      exact hu.1.LDST _

end Schedule

end Hoca
