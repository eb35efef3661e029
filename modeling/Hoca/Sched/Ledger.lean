import Hoca.Sched.Order
import Hoca.Sched.Repeat
import Hoca.Sched.Discipline

namespace Hoca

open Forest

-- The entry operates on other semaphores.
structure Event.Avoids (L : Layout) (e : Event) (s : Addr) : Prop where
  vector : e.call = some 3 → ∀ o ∈ e.vector, o.sem ≠ s
  waits : ¬ Kernel.Waits L e s
  device : ∀ d, e.device = some d → s ≠ L.device d
  clock : e.kind = .clock → s ≠ L.PSEUDO_CLOCK_SEMAPHORE

theorem Event.avoids_user {L : Layout} {e : Event} {s : Addr} (hs : ¬ L.Reserved s)
    (hvec : e.call = some 3 → ∀ o ∈ e.vector, o.sem ≠ s) : e.Avoids L s where
  vector := hvec
  waits hw := by
    rcases hw with ⟨-, rfl⟩ | ⟨-, d, -, rfl⟩
    · exact hs (Or.inl rfl)
    · exact hs (Or.inr ⟨d, rfl⟩)
  device d _ heq := hs (Or.inr ⟨d, heq⟩)
  clock _ heq := hs (Or.inl heq)

namespace Sched

variable {L : Layout} {v w : Sched} {p : ProcId} {e : Event} {s : Addr}

-- The queue of a semaphore loses the dead, and its word counts them.
structure Culls (s : Addr) (v w : Sched) : Prop where
  procs : w.procs (some s) = (v.procs (some s)).filter fun a => a ∉ w.free
  level : w.level s = v.level s

-- Nobody dies of those who wait.
theorem culls_of_eq (hprocs : w.procs (some s) = v.procs (some s)) (hsem : w.sem s = v.sem s)
    (hlive : ∀ a ∈ v.procs (some s), a ∉ w.free) : Culls s v w where
  procs := by
    rw [hprocs, eq_comm, List.filter_eq_self]
    exact fun a ha => by simpa using hlive a ha
  level := by rw [level, level, ← length_procs, ← length_procs, hprocs, hsem]

theorem Culls.same {off : Option ProcId} {u : Sched} (h : Culls s v w) (hs : Same off w u) :
    Culls s v u where
  procs := by
    rw [hs.procs, hs.free]
    exact h.procs
  level := by
    rw [← h.level, Sched.level, Sched.level, hs.sem, hs.queue]

theorem procs_block (v : Sched) (s : Addr) (p : ProcId) (x : QueueId) : (v.block s p).procs x =
    if x = some s then v.procs (some s) ++ [p] else
      if x = none then (v.procs none).tail else v.procs x := by
  have hset : (v.setSem s (toLong (v.sem s - 1))).procs = v.procs := rfl
  rw [block, procs_insertBlocked, procs_removeReady, procs_removeReady, hset,
    if_neg (Option.some_ne_none s)]

theorem procs_tick (v : Sched) (s : Addr) : (v.tick L).procs (some s) =
    if s = L.PSEUDO_CLOCK_SEMAPHORE ∧ v.PSEUDO_CLOCK ≥ 100000 then (v.procs (some s)).tail
    else v.procs (some s) := by
  unfold Sched.tick
  by_cases hfull : v.PSEUDO_CLOCK ≥ 100000
  · rw [if_pos hfull]
    split
    · next hq =>
      have hnil : v.procs (some L.PSEUDO_CLOCK_SEMAPHORE) = [] := by
        rw [Sched.procs, hq]
        rfl
      split
      · next hs =>
        rw [hs.1, hnil]
        exact hnil
      · rfl
    · by_cases hs : s = L.PSEUDO_CLOCK_SEMAPHORE
      · rw [if_pos ⟨hs, hfull⟩]
        refine (procs_wake_some _ _ s).trans ?_
        rw [if_pos hs, hs]
        rfl
      · rw [if_neg fun hc => hs hc.1]
        refine (procs_wake_some _ _ s).trans ?_
        rw [if_neg hs]
        rfl
  · rw [if_neg hfull, if_neg fun hc => hfull hc.2]

-- An entry that does not operate on a semaphore at most kills some who wait on it.
theorem culls_step (h : v.Wf L) (hs : e.Avoids L s) (hroom : v.Roomy s) : Culls s v (v.step L e) := by
  have hlive := h.live (some s)
  obtain ⟨w, hw, hsame⟩ := step_yields (e := e) h.pclock
  refine Culls.same ?_ hsame
  cases hw with
  | idle => exact culls_of_eq rfl rfl hlive
  | @create p c rest _ _ hfree =>
      refine culls_of_eq ?_ rfl fun a ha hm => hlive a ha ?_
      · rw [procs_insertReady, if_neg (by simp)]
        rfl
      · rw [hfree]
        exact List.mem_cons_of_mem c hm
  | @kill p hr =>
      refine ⟨?_, level_remains hroom fun a _ => List.nodup_iff_count_le_one.mp (h.distinct (some s)) a⟩
      rw [procs_remains, if_neg (by simp), free_remains]
      refine List.filter_congr fun a ha => ?_
      have hfree := hlive a ha
      simp [hfree]
  | @vector p hr hcall =>
      obtain ⟨hsem, hprocs⟩ := semopLoop_frame e.vector p (v.enter e p) false fun o ho =>
        Ne.symm (hs.vector hcall o ho)
      obtain ⟨q, sem, context, hv⟩ := (v.enter e p).frame_vectored p e.vector
      refine culls_of_eq ?_ ?_ ?_
      · rw [vectored_procs, hprocs]
        rfl
      · have hword : ((v.enter e p).vectored e.vector p).sem =
            (semopLoop e.vector p (v.enter e p) false).1.sem := by
          unfold vectored
          dsimp only
          split <;> rfl
        rw [hword, hsem]
        rfl
      · rw [hv]
        exact hlive
  | @wait p s' _ hw _ =>
      have hne : s ≠ s' := fun heq => hs.waits (heq ▸ hw)
      refine culls_of_eq ?_ ?_ hlive
      · rw [procs_block, if_neg (by simpa using hne), if_neg (by simp)]
      · simp [block, insertBlocked, removeReady, setSem, hne]
  | @take p d _ hcall hd _ =>
      have hne : s ≠ L.device d := fun heq => hs.waits (Or.inr ⟨hcall, d, hd, heq⟩)
      exact culls_of_eq rfl (Function.update_of_ne hne ..) hlive
  | @deliver d type reg a _ hd _ _ =>
      have hne := hs.device d hd
      refine culls_of_eq ?_ ?_ ?_
      · rw [procs_wake_some, if_neg hne]
        rfl
      · rw [sem_wake]
        exact Function.update_of_ne hne ..
      · rw [free_wake]
        exact hlive
  | @post d type reg _ hd _ => exact culls_of_eq rfl (Function.update_of_ne (hs.device d hd) ..) hlive
  | clock hkind =>
      have hne := hs.clock hkind
      have hq := fun s => (frame_preempt { v with PSEUDO_CLOCK := v.PSEUDO_CLOCK + QUANTUM }
        e.tIn e.old s).1
      have hsem := (frame_preempt { v with PSEUDO_CLOCK := v.PSEUDO_CLOCK + QUANTUM }
        e.tIn e.old s).2
      refine ⟨?_, (level_tick hne _).trans (level_of_eq (congrFun hsem s) (hq s))⟩
      rw [procs_tick, if_neg fun hc => hne hc.1, free_tick, free_preempt, Sched.procs, hq]
      refine (List.filter_eq_self.mpr fun a ha => ?_).symm
      simpa using hlive a ha

end Sched

end Hoca
