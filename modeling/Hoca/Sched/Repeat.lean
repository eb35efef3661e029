import Hoca.Refine.Kill
import Hoca.Sched.Vector

namespace Hoca

open Forest

namespace Sched

variable {L : Layout} {R : Set Addr} {v : Sched} {e : Event} {p : ProcId} {s : Addr}

section Ends

theorem free_passUp_of {T : TrapType} (currentTime : Int) (old : State)
    (hT : ¬ ((v.context p).trap_old_state T = none ∨ (v.context p).trap_new_state T = none)) :
    (v.passUp L currentTime T old p).free = v.free := by
  unfold passUp
  split
  · rfl
  · next hnone =>
    rw [not_or] at hT
    obtain ⟨a, ha⟩ := Option.ne_none_iff_exists'.mp hT.1
    obtain ⟨b, hb⟩ := Option.ne_none_iff_exists'.mp hT.2
    exact absurd hb (hnone a b ha)

theorem free_trapstate_of (currentTime : Int)
    (hends : ¬ ∃ T, TrapType.ofCode v.SYS_TRAP_OLD_STATE.d2 = some T ∧
      ¬ ((v.context p).trap_old_state T = none ∧ (v.context p).trap_new_state T = none)) :
    (v.trapstate L currentTime p).kernel.free = v.free := by
  unfold trapstate
  split
  · rfl
  · next T hT =>
    have hc := not_not.mp fun hc => hends ⟨T, hT, hc⟩
    dsimp only
    rw [if_pos hc]
    rfl

theorem free_createproc (v : Sched) (p : ProcId) : (v.createproc p).free ⊆ v.free := by
  by_cases hfree : v.free = []
  · rw [v.createproc_full hfree]
    exact List.Subset.refl _
  · obtain ⟨c, rest, hfree⟩ := List.exists_cons_of_ne_nil hfree
    rw [v.createproc_cons hfree, hfree]
    exact List.subset_cons_self c rest

theorem free_semop (v : Sched) (ops : List Vpop) (currentTime : Int) (p : ProcId) :
    (v.semop L currentTime ops p).kernel.free = v.free := by
  obtain ⟨q, sem, context, hframe⟩ := v.frame_vectored p ops
  rw [semop_eq]
  split
  · exact (schedule_free ..).trans (by rw [hframe])
  · exact congrArg (fun w => w.free) hframe

theorem free_waitforio (v : Sched) (d : Device) (currentTime : Int) (p : ProcId) :
    (v.waitforio L currentTime d p).kernel.free = v.free := by
  unfold waitforio
  split
  · exact schedule_free ..
  · rfl

-- A call that does not end its caller frees nobody.
theorem free_call (hcall : e.call = some e.old.s_tmp.sys_no)
    (htrap : e.old.s_tmp.sys_no = 0 ∨ 8 < e.old.s_tmp.sys_no → e.trap = some .SYSTRAP)
    (hends : ¬ e.Ends (v.context p)) : ((v.enter e p).call L e p).kernel.free ⊆ v.free := by
  have hptr := v.enter_trap e p
  have hkeep : ∀ {w : Sched}, w.free = v.free → w.free ⊆ v.free := fun h _ ha => h ▸ ha
  have hpass : e.trap = some .SYSTRAP →
      ((v.enter e p).passUp L e.tOut .SYSTRAP (v.enter e p).SYS_TRAP_OLD_STATE p).free = v.free := by
    refine fun hsys => free_passUp_of _ _ fun hT => hends (Or.inr (Or.inr ⟨.SYSTRAP, hsys, ?_⟩))
    rwa [hptr.1, hptr.2] at hT
  unfold Sched.call
  generalize e.old.s_tmp.sys_no = n at hcall htrap
  rcases n with _ | _ | _ | _ | _ | _ | _ | _ | _ | n
  · exact hkeep (hpass (htrap (Or.inl rfl)))
  · exact (v.enter e p).free_createproc p
  · exact absurd (Or.inl hcall) hends
  · exact hkeep ((v.enter e p).free_semop _ _ p)
  · exact List.Subset.refl _
  · refine hkeep (free_trapstate_of _ fun hset => hends (Or.inr (Or.inl ⟨hcall, ?_⟩)))
    rwa [hptr.1, hptr.2] at hset
  · exact List.Subset.refl _
  · exact hkeep (schedule_free ..)
  · cases hd : deviceOf (v.enter e p).SYS_TRAP_OLD_STATE.d4 with
    | none => exact List.Subset.refl _
    | some d => exact hkeep ((v.enter e p).free_waitforio _ _ p)
  · exact hkeep (hpass (htrap (Or.inr (by omega))))

-- Nobody is freed by an event that does not end the running process.
theorem free_step_of (hends : ∀ p, v.running = some p → ¬ e.Ends (v.context p)) :
    (v.step L e).free ⊆ v.free := by
  have hkeep : ∀ {w : Sched}, w.free = v.free → w.free ⊆ v.free := fun h _ ha => h ▸ ha
  unfold Sched.step
  split
  · next p hkind hr =>
    have hptr := v.enter_trap e p
    unfold trapsyshandler
    split
    · next hmode =>
      refine hkeep (free_passUp_of _ _ fun hT => hends p hr (Or.inr (Or.inr ⟨.PROGTRAP, ?_, ?_⟩)))
      · simp only [Event.trap, hkind, if_pos hmode]
      · rwa [← hptr.1, ← hptr.2]
    · next hmode =>
      have hcall := free_call (L := L) (Event.call_eq hkind hmode) (Event.trap_eq hkind hmode)
        (hends p hr)
      split
      · next v' heq =>
        rw [heq] at hcall
        exact hcall
      · next v' heq =>
        rw [heq] at hcall
        exact hcall
  · next p hkind hr =>
    refine hkeep (free_passUp_of _ _ fun hT => hends p hr (Or.inr (Or.inr ⟨.MMTRAP, ?_, hT⟩)))
    simp only [Event.trap, hkind]
  · next p hkind hr =>
    refine hkeep (free_passUp_of _ _ fun hT => hends p hr (Or.inr (Or.inr ⟨.PROGTRAP, ?_, hT⟩)))
    simp only [Event.trap, hkind]
  · exact hkeep ((schedule_free ..).trans ((free_tick _).trans (free_preempt ..)))
  · unfold intdevicehandler
    dsimp only
    split
    · exact hkeep ((schedule_free ..).trans (free_inthandler ..))
    · exact hkeep (free_inthandler ..)
  · exact List.Subset.refl _

end Ends

section Level

-- Whoever the entry ends is on the queue of the semaphore once at most.
def EndsOnce (v : Sched) (e : Event) (s : Addr) : Prop :=
  ∀ p, v.running = some p → e.Ends (v.context p) →
    ∀ a ∈ progeny v.children MAXPROC p, (v.procs (some s)).count a ≤ 1

theorem Once.count_le {nodes : List Node} (h : Once p nodes) : (nodes.map Prod.fst).count p ≤ 1 := by
  rw [List.count, List.countP_map]
  refine le_trans (le_of_eq ?_) h
  exact List.countP_congr fun e _ => by simp

theorem AllTakable.count_le {l : List ProcId} (h : AllTakable l v) (hnodup : l.Nodup) {a : ProcId}
    (ha : a ∈ l) (s : Addr) : (v.procs (some s)).count a ≤ 1 := by
  induction l generalizing v with
  | nil => cases ha
  | cons p l ih =>
      rw [List.nodup_cons] at hnodup
      rcases List.mem_cons.mp ha with rfl | ha
      · exact Once.count_le (h.1 s).1
      · have hc := ih h.2 hnodup.2 ha
        have hap : a ≠ p := fun heq => hnodup.1 (heq ▸ ha)
        rwa [procs_killOne, List.count_filter (by simpa using hap)] at hc

theorem Sheds.endsOnce (h : v.Sheds e) (hw : v.StableExcept L R) (s : Addr) : v.EndsOnce e s := by
  intro p hr hends a ha
  obtain ⟨path, hfam⟩ := hw.rooted
  have hnodup := Family.progeny_nodup (n := MAXPROC) hfam (hw.live none p (running_mem hr))
  have hc := (h p hr hends).count_le hnodup ha s
  rwa [procs_unlinked] at hc

theorem level_setSem {s s' : Addr} (h : s' ≠ s) (v : Sched) (n : Int) :
    (v.setSem s n).level s' = v.level s' :=
  level_of_eq (by simp [setSem, h]) rfl

theorem level_wake {s s' : Addr} (h : s' ≠ s) (v : Sched) : (v.wake s).level s' = v.level s' := by
  rw [level, length_wake, if_neg h, sem_wake]
  rfl

theorem level_tick (h : s ≠ L.PSEUDO_CLOCK_SEMAPHORE) (v : Sched) :
    (v.tick L).level s = v.level s := by
  unfold tick
  split
  · split
    · rfl
    · exact (level_wake h _).trans (level_setSem h v _)
  · rfl

-- Apart from a vector, an entry leaves the level of a process's semaphore as it is:
-- a kill raises it by the number of the waiters it takes away.
theorem level_step (hw : v.StableExcept L R) (hs : ¬ L.Reserved s) (hcall : e.call ≠ some 3)
    (hroom : v.Roomy s) (hone : v.EndsOnce e s) : (v.step L e).level s = v.level s := by
  obtain ⟨w, heff, hsame⟩ := step_yields (e := e) hw.pclock
  have hstep : (v.step L e).level s = w.level s :=
    level_of_eq (by rw [hsame.sem]) (by rw [hsame.queue])
  have hdev : ∀ d, s ≠ L.device d := fun d heq => hs (Or.inr ⟨d, heq⟩)
  have hclock : s ≠ L.PSEUDO_CLOCK_SEMAPHORE := fun heq => hs (Or.inl heq)
  rw [hstep]
  cases heff with
  | idle => rfl
  | create _ _ _ => exact level_of_eq rfl (queue_newborn (v.enter e _) _ _ _ s)
  | @kill p hr =>
      refine level_remains hroom (hone p hr ?_)
      by_contra hends
      have hfree := free_step_of (L := L) (v := v) (e := e) fun q hq hc => by
        rw [hr] at hq
        cases hq
        exact hends hc
      refine hw.live none p (running_mem hr) (hfree ?_)
      rw [hsame.free, free_remains]
      exact List.mem_append_right _ (self_mem_doomed hw hr)
  | vector _ hc => exact absurd hc hcall
  | @wait p s' _ hs' _ =>
      refine level_block v s' s p fun heq => absurd heq ?_
      rcases hs' with ⟨-, rfl⟩ | ⟨-, d, -, rfl⟩
      · exact hclock
      · exact hdev d
  | @take p d _ _ _ _ => exact level_setSem (hdev d) v _
  | @deliver d type reg a _ _ _ _ =>
      exact (level_wake (hdev d) _).trans ((level_setSem (hdev d) _ 0).trans (level_of_eq rfl rfl))
  | @post d type reg _ _ _ => exact (level_setSem (hdev d) _ _).trans (level_of_eq rfl rfl)
  | clock _ =>
      obtain ⟨hq, hsem⟩ := frame_preempt { v with PSEUDO_CLOCK := v.PSEUDO_CLOCK + QUANTUM } e.tIn
        e.old s
      exact (level_tick hclock _).trans (level_of_eq (congrFun hsem s) hq)

-- The queue of a process's semaphore loses the dead, and only they leave it.
theorem culled_step (hw : v.StableExcept L R) (hs : ¬ L.Reserved s) (hcall : e.call ≠ some 3)
    (hex : v.Expects e) :
    (v.step L e).procs (some s) = (v.procs (some s)).filter fun p => p ∉ (v.step L e).free := by
  by_cases hone : e.call = some 1
  · obtain ⟨p, hr⟩ := hex.running (Or.inl (call_some hone).1)
    exact culled_create hw.live hr hone s
  · have hm : Moves L False (fun _ _ _ => False) v (v.step L e) :=
      moves_step hw.pclock hone fun _ _ hc => hcall hc
    exact (hm.invariantExcept (fun _ _ _ hv => hv.elim) (fun v v' _ hi hmove => hi.move hmove)
      hw (Culled.refl hw.live)).procs s hs

theorem sem_step (hw : v.StableExcept L R) (hs : ¬ L.Reserved s) (hcall : e.call ≠ some 3)
    (hex : v.Expects e) (hroom : v.Roomy s) (hone : v.EndsOnce e s) : (v.step L e).sem s =
      v.sem s + (v.procs (some s)).countP fun p => p ∈ (v.step L e).free := by
  have hlevel := level_step hw hs hcall hroom hone
  have hsplit := List.length_eq_countP_add_countP (l := v.procs (some s))
    fun p => decide (p ∈ (v.step L e).free)
  have hrest : (v.procs (some s)).countP (fun p => !decide (p ∈ (v.step L e).free)) =
      ((v.step L e).procs (some s)).length := by
    rw [culled_step hw hs hcall hex, List.countP_eq_length_filter]
    exact congrArg List.length (List.filter_congr fun a _ => by simp)
  rw [level, level, ← length_procs, ← length_procs] at hlevel
  simp only [decide_eq_true_eq, decide_not] at hsplit
  omega

theorem Balanced.step (h : v.Balanced s) (hw : v.StableExcept L R) (hs : ¬ L.Reserved s)
    (hcall : e.call ≠ some 3) (hex : v.Expects e) (hroom : v.Roomy s) (hone : v.EndsOnce e s) :
    (v.step L e).Balanced s := by
  refine h.of_level (level_step hw hs hcall hroom hone) ?_
  rw [culled_step hw hs hcall hex]
  exact List.length_filter_le _ _

end Level

end Sched

end Hoca
