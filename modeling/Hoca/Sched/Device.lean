import Hoca.Sched.Context
import Hoca.Sched.Discipline
import Hoca.Sched.Order

namespace Hoca

open Forest

namespace Sched

variable {L : Layout} {v v' u w : Sched} {p a : ProcId} {d : Device} {e : Event}
  {type : DeviceType} {reg : DevReg} {off : Option ProcId}

section Dispatch

-- The entry leaves the head of readyQueue on the processor, or it ends in schedule.
def Lands (L : Layout) (v v' : Sched) : Prop :=
  v'.running = v.running ∨ ∃ (u : Sched) (t : Int), v' = u.schedule L t

theorem lands_killproc (v u : Sched) (t : Int) (p : ProcId) : Lands L v (u.killproc L t p) :=
  Or.inr ⟨_, _, rfl⟩

theorem lands_passUp (hr : u.running = v.running) (T : TrapType) (old : State) (t : Int)
    (p : ProcId) : Lands L v (u.passUp L t T old p) := by
  unfold Sched.passUp
  split
  · exact Or.inl hr
  · exact lands_killproc v u t p

-- A call that comes back leaves its caller on the processor.
abbrev Returning (L : Layout) (v : Sched) (r : Ret Sched) : Prop :=
  r.Leaves (fun u => u.running = v.running) (Lands L v)

theorem returning_trapstate (hr : u.running = v.running) (t : Int) (p : ProcId) :
    Returning L v (u.trapstate L t p) := by
  unfold Sched.trapstate
  split
  · exact hr
  · dsimp only
    split
    · exact hr
    · exact lands_killproc v u t p

theorem returning_waitforio (hr : u.running = v.running) (t : Int) (d : Device) (p : ProcId) :
    Returning L v (u.waitforio L t d p) := by
  unfold Sched.waitforio
  split
  · exact Or.inr ⟨_, _, rfl⟩
  · exact hr

theorem returning_semop (hu : u.running = some p) (hr : v.running = some p) (ops : List Vpop)
    (t : Int) : Returning L v (u.semop L t ops p) := by
  unfold Sched.semop
  dsimp only
  split
  · exact Or.inr ⟨_, _, rfl⟩
  · have hloop := running_semopLoop hu ops false
    exact hloop.trans hr.symm

theorem returning_call (hr : v.running = some p) : Returning L v ((v.enter e p).call L e p) := by
  have henter : (v.enter e p).running = v.running := rfl
  have hrun : (v.enter e p).running = some p := hr
  unfold Sched.call
  split
  · have hcreate := running_createproc hrun
    exact hcreate.trans hr.symm
  · exact lands_killproc v _ _ p
  · exact returning_semop hrun hr _ _
  · exact Or.inl rfl
  · exact returning_trapstate henter _ p
  · exact henter
  · exact Or.inr ⟨_, _, rfl⟩
  · split
    · exact Or.inl henter
    · exact returning_waitforio henter _ _ p
  · exact lands_passUp henter _ _ _ p

theorem lands_step (v : Sched) (e : Event) : Lands L v (v.step L e) := by
  unfold Sched.step
  split
  · next p _ hr =>
    unfold Sched.trapsyshandler
    split
    · exact lands_passUp rfl _ _ _ p
    · have hcall := returning_call (L := L) (e := e) hr
      split
      · next v' heq =>
        rw [heq] at hcall
        exact hcall
      · next v' heq =>
        rw [heq] at hcall
        exact Or.inl hcall
  · next p _ _ => exact lands_passUp rfl _ _ _ p
  · next p _ _ => exact lands_passUp rfl _ _ _ p
  · exact Or.inr ⟨_, _, rfl⟩
  · next reg d _ _ =>
    unfold Sched.intdevicehandler
    dsimp only
    split
    · exact Or.inr ⟨_, _, rfl⟩
    · next hq =>
      obtain ⟨p, hr⟩ := running_of_ready hq
      have hsame := running_inthandler (v := { v with areas := e.areas }) (L := L) hr d reg
      exact Or.inl (hsame.trans hr.symm)
  · exact Or.inl rfl

theorem schedule_loads {t : Int} (hr : (u.schedule L t).running = some p) :
    (u.schedule L t).cpu = .running ((u.schedule L t).context p).p_s := by
  have hu : u.running = some p := by
    rw [running, schedule_queue] at hr
    exact hr
  rw [u.p_s_schedule t p]
  unfold Sched.schedule
  rw [hu]
  rfl

-- A process that gets the processor goes on with what was saved of it.
theorem dispatched (hr : v.running ≠ some p) (hr' : (v.step L e).running = some p) :
    (v.step L e).cpu = .running ((v.step L e).context p).p_s := by
  rcases v.lands_step (L := L) e with hsame | ⟨u, t, hu⟩
  · exact absurd (hsame.symm.trans hr') hr
  · rw [hu] at hr' ⊢
    exact schedule_loads hr'

end Dispatch

section Io

-- What SYS8 does with the semaphore of its device.
theorem step_waitforio (hr : v.running = some p) (hcall : e.call = some 8)
    (hd : deviceOf e.old.d4 = some d) :
    v.sem (L.device d) ≤ 0 ∧ Same v.running (v.block (L.device d) p) (v.step L e) ∨
      0 < v.sem (L.device d) ∧
        Same v.running (v.setSem (L.device d) (v.sem (L.device d) - 1)) (v.step L e) ∧
        (v.step L e).cpu = .running ((e.old.setD2 (v.deviceCompletionStats d).length).setD3
          (v.deviceCompletionStats d).status) := by
  have henter := v.same_enter v.running e p
  have hcallee : (v.enter e p).call L e p = (v.enter e p).waitforio L e.tOut d p := by
    have hold : (v.enter e p).SYS_TRAP_OLD_STATE = e.old := rfl
    unfold Sched.call
    rw [(call_some hcall).2.2, hold, hd]
    rfl
  rw [step_call hr hcall, hcallee]
  unfold Sched.waitforio
  by_cases hz : v.sem (L.device d) ≤ 0
  · left
    refine ⟨hz, ?_⟩
    have hsave : Same v.running v ((v.enter e p).saveState p e.old) :=
      henter.trans (hr ▸ same_saveState ..)
    rw [if_pos (by exact hz)]
    exact (hsave.block _ p).trans (same_schedule ..)
  · right
    rw [if_neg (by exact hz)]
    refine ⟨by omega, Same.trans ?_ (same_back ..), rfl⟩
    exact ⟨henter.queue, henter.free, henter.parent, henter.children, rfl, rfl, henter.p_s⟩

-- What the interrupt of a device does with its semaphore.
theorem step_interrupt (hans : v.Answers L e) (hkind : e.kind = .device type reg)
    (hd : e.device = some d) :
    (v.sem (L.device d) = -1 ∧ ∃ a, (v.procs (some (L.device d))).head? = some a ∧
      Same v.running (((v.saveState a (((v.context a).p_s.setD2 reg.d_dadd).setD3 reg.d_stat)).setSem
        (L.device d) 0).wake (L.device d)) (v.step L e)) ∨
    (v.sem (L.device d) ≠ -1 ∧ Same v.running ({ v with
      deviceCompletionStats :=
        Function.update v.deviceCompletionStats d ⟨reg.d_stat, reg.d_dadd⟩ }.setSem
      (L.device d) (toLong (v.sem (L.device d) + 1))) (v.step L e)) := by
  have hstep : v.step L e =
      ({ v with areas := e.areas } : Sched).intdevicehandler L e.tOut e.old d reg := by
    unfold Sched.step
    rw [hkind, hd]
  have hland : ∀ w, Same v.running w (({ v with areas := e.areas } : Sched).inthandler L d reg) →
      Same v.running w (v.step L e) := by
    intro w hw
    rw [hstep]
    unfold Sched.intdevicehandler
    dsimp only
    split
    · exact hw.trans (same_schedule ..)
    · exact ⟨hw.queue, hw.free, hw.parent, hw.children, hw.sem, hw.stats, hw.p_s⟩
  have hareas : Same v.running v { v with areas := e.areas } :=
    ⟨rfl, rfl, rfl, rfl, rfl, rfl, fun _ _ => rfl⟩
  by_cases hsem : v.sem (L.device d) = -1
  · left
    obtain ⟨a, rest, hq⟩ := List.exists_cons_of_ne_nil (hans d hd hsem)
    have ha : (v.procs (some (L.device d))).head? = some a := by
      rw [hq]
      rfl
    refine ⟨hsem, a, ha, hland _ ?_⟩
    have hint : ({ v with areas := e.areas } : Sched).inthandler L d reg =
        ((({ v with areas := e.areas } : Sched).saveState a
          (((v.context a).p_s.setD2 reg.d_dadd).setD3 reg.d_stat)).setSem
            (L.device d) 0).wake (L.device d) := by
      unfold Sched.inthandler
      rw [if_pos hsem]
      split
      · next hnone => exact absurd (ha.symm.trans hnone) (by simp)
      · next b hb =>
        cases ha.symm.trans hb
        rfl
    rw [hint]
    apply Same.wake
    apply Same.setSem
    exact ⟨rfl, rfl, rfl, rfl, rfl, rfl, fun _ _ => rfl⟩
  · right
    refine ⟨hsem, hland _ ?_⟩
    unfold Sched.inthandler
    rw [if_neg hsem]
    exact ⟨rfl, rfl, rfl, rfl, rfl, rfl, fun _ _ => rfl⟩

-- The entry does nothing to the device, and nobody dies.
structure Elsewhere (L : Layout) (d : Device) (v v' : Sched) : Prop where
  sem : v'.sem (L.device d) = v.sem (L.device d)
  procs : v'.procs (some (L.device d)) = v.procs (some (L.device d))
  stats : v'.deviceCompletionStats d = v.deviceCompletionStats d
  free : v'.free ⊆ v.free

theorem Elsewhere.same (h : Elsewhere L d v w) (hs : Same off w v') : Elsewhere L d v v' where
  sem := (congrFun hs.sem _).trans h.sem
  procs := (hs.procs _).trans h.procs
  stats := (congrFun hs.stats d).trans h.stats
  free := hs.free ▸ h.free

theorem elsewhere_wake (h : Elsewhere L d v w) {s : Addr} (hs : L.device d ≠ s) :
    Elsewhere L d v (w.wake s) where
  sem := (congrFun (w.sem_wake s) _).trans h.sem
  procs := by
    rw [procs_wake_some, if_neg hs]
    exact h.procs
  stats := by
    obtain ⟨q, hq⟩ := w.frame_wake s
    rw [hq]
    exact h.stats
  free := by
    rw [free_wake]
    exact h.free

theorem Elsewhere.setSem (h : Elsewhere L d v w) {s : Addr} (hs : L.device d ≠ s) (n : Int) :
    Elsewhere L d v (w.setSem s n) where
  sem := (Function.update_of_ne hs ..).trans h.sem
  procs := h.procs
  stats := h.stats
  free := h.free

theorem elsewhere_vectored (hops : ∀ o ∈ e.vector, L.device d ≠ o.sem) :
    Elsewhere L d v ((v.enter e p).vectored e.vector p) := by
  obtain ⟨hsem, hprocs⟩ := semopLoop_frame e.vector p (v.enter e p) false hops
  obtain ⟨q, sem, context, hframe⟩ := (v.enter e p).frame_vectored p e.vector
  refine ⟨?_, (vectored_procs ..).trans hprocs, ?_, ?_⟩
  · unfold vectored
    dsimp only
    split
    · exact hsem
    · exact hsem
  · rw [hframe]
    rfl
  · rw [hframe]
    exact fun _ hc => hc

theorem elsewhere_clock (v : Sched) (tIn : Int) (old : State) : Elsewhere L d v
    (({ v with PSEUDO_CLOCK := v.PSEUDO_CLOCK + QUANTUM }.preempt tIn old).tick L) := by
  have hclock := L.device_ne_pseudoClock d
  have hpre : Elsewhere L d v ({ v with PSEUDO_CLOCK := v.PSEUDO_CLOCK + QUANTUM }.preempt tIn old) := by
    obtain ⟨hq, hsem⟩ := frame_preempt { v with PSEUDO_CLOCK := v.PSEUDO_CLOCK + QUANTUM } tIn old
      (L.device d)
    refine ⟨congrFun hsem _, congrArg (List.map Prod.fst) hq, ?_, ?_⟩
    · unfold Sched.preempt
      split <;> rfl
    · unfold Sched.preempt
      split <;> exact fun _ hc => hc
  unfold Sched.tick
  split
  · split
    · exact ⟨hpre.sem, hpre.procs, hpre.stats, hpre.free⟩
    · have hw := fun n => elsewhere_wake (hpre.setSem hclock n) hclock
      exact ⟨(hw _).sem, (hw _).procs, (hw _).stats, (hw _).free⟩
  · exact hpre

theorem block_elsewhere {s : Addr} (hs : L.device d ≠ s) : Elsewhere L d v (v.block s p) where
  sem := Function.update_of_ne hs ..
  procs := by
    have hne : (some (L.device d) : QueueId) ≠ some s := fun heq => hs (Option.some.inj heq)
    rw [Sched.block, procs_insertBlocked, if_neg hne, procs_removeReady, if_neg (by simp)]
    rfl
  stats := rfl
  free := fun _ hc => hc

-- An entry that is no SYS8 on the device and no interrupt of it can only kill those
-- who wait for it.
theorem step_elsewhere (h : v.Wf L) (hap : Apart L e)
    (hcall : e.call = some 8 → deviceOf e.old.d4 ≠ some d) (hdev : e.device ≠ some d) :
    Elsewhere L d v (v.step L e) ∨
      ∃ p, v.running = some p ∧ Same v.running (v.remains p) (v.step L e) := by
  obtain ⟨w, hw, hs⟩ := step_yields (e := e) h.pclock
  have hrest : Elsewhere L d v v := ⟨rfl, rfl, rfl, fun _ hc => hc⟩
  have hother : ∀ d', d' ≠ d → L.device d ≠ L.device d' :=
    fun d' hne heq => hne (L.device_injective heq.symm)
  cases hw with
  | idle => exact Or.inl (hrest.same hs)
  | @create p c rest hr hc hfree =>
      left
      have hnew : Elsewhere L d v (((v.enter e p).newborn p c rest).insertReady c) := by
        refine ⟨rfl, ?_, rfl, ?_⟩
        · exact congrArg (List.map Prod.fst) (queue_newborn (v.enter e p) p c rest _)
        · rw [hfree]
          exact fun _ hm => List.mem_cons_of_mem c hm
      exact hnew.same hs
  | @kill p hr => exact Or.inr ⟨p, hr, hs⟩
  | @vector p hr hc =>
      left
      refine (elsewhere_vectored fun o ho heq => ?_).same hs
      exact hap.reserved hc o ho (Or.inr ⟨d, heq.symm⟩)
  | @wait p s hr hw hz =>
      left
      refine (block_elsewhere ?_).same hs
      rcases hw with ⟨-, rfl⟩ | ⟨hc, d', hd', rfl⟩
      · exact L.device_ne_pseudoClock d
      · apply hother
        rintro rfl
        exact hcall hc hd'
  | @take p d' hr hc hd' hpos =>
      left
      refine (hrest.setSem (hother d' ?_) _).same hs
      rintro rfl
      exact hcall hc hd'
  | @deliver d' type reg a hkind hd' hsem ha =>
      left
      have hne : L.device d ≠ L.device d' := by
        apply hother
        rintro rfl
        exact hdev hd'
      refine (elsewhere_wake (Elsewhere.setSem ?_ hne 0) hne).same hs
      exact ⟨rfl, rfl, rfl, fun _ hc => hc⟩
  | @post d' type reg hkind hd' hsem =>
      left
      have hd : d ≠ d' := by
        rintro rfl
        exact hdev hd'
      refine Elsewhere.same (Elsewhere.setSem ?_ (hother d' hd.symm) _) hs
      exact ⟨rfl, rfl, Function.update_of_ne hd .., fun _ hc => hc⟩
  | clock hkind => exact Or.inl ((elsewhere_clock v e.tIn e.old).same hs)

-- What is saved of a process that is ready, and not on the processor.
theorem p_s_step (h : v.Wf L) (ha : a ∈ v.procs none) (hr : v.running ≠ some a) :
    ((v.step L e).context a).p_s = (v.context a).p_s := by
  obtain ⟨w, hw, hs⟩ := step_yields (e := e) h.pclock
  rw [hs.p_s a (Ne.symm hr)]
  have henter : ∀ p, v.running = some p → ((v.enter e p).context a).p_s = (v.context a).p_s := by
    intro p hp
    exact (v.same_enter v.running e p).p_s a (Ne.symm hr)
  cases hw with
  | idle => rfl
  | @create p c rest hp hc hfree =>
      have hne : a ≠ c := by
        rintro rfl
        exact h.live none a ha (hfree ▸ List.mem_cons_self)
      show (Function.update (v.enter e p).context c _ a).p_s = _
      rw [Function.update_of_ne hne]
      exact henter p hp
  | @kill p hp => exact v.p_s_remains p a
  | @vector p hp hc =>
      have hne : a ≠ p := by
        rintro rfl
        exact hr hp
      have hloop := (p_s_semopLoop (p := p) (b := false) e.vector (v.enter e p) nofun).2 a hne
      have hvec : ((v.enter e p).vectored e.vector p).context a = (v.enter e p).context a := by
        unfold vectored
        dsimp only
        split
        · exact hloop
        · exact hloop
      rw [hvec]
      exact henter p hp
  | wait _ _ _ => rfl
  | take _ _ _ _ => rfl
  | @deliver d type reg b hkind hd hsem hb =>
      have hne : a ≠ b := by
        rintro rfl
        exact h.tidy.alone a ha _ (List.mem_of_head? hb)
      rw [context_wake]
      show (Function.update v.context b _ a).p_s = _
      rw [Function.update_of_ne hne]
  | post _ _ _ => rfl
  | clock hkind =>
      have hpre : (({ v with PSEUDO_CLOCK := v.PSEUDO_CLOCK + QUANTUM }.preempt e.tIn e.old).context
          a).p_s = (v.context a).p_s := by
        unfold Sched.preempt
        split
        · rfl
        · next p hp =>
          have hne : a ≠ p := by
            rintro rfl
            exact hr hp
          simp [insertReady, saveState, updateTotalTimeOnProcessor, Sched.setContext, removeReady, hne]
      unfold Sched.tick
      split
      · split
        · exact hpre
        · show ((wake _ _).context a).p_s = _
          rw [context_wake]
          exact hpre
      · exact hpre

end Io

end Sched

end Hoca
