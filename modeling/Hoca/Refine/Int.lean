import Hoca.Refine.Syscall

namespace Hoca

open Links Forest

variable {k k' : Kernel} {v v' : Sched} {p : ProcId} {s : Addr} {L : Layout} {currentTime : Int}
  {path : ProcId → List ProcId} {d : Device}

theorem Core.removeReady_step (h : Core k v) (ht : v.Neat) (hr : v.running = some p) :
    ∃ k', k.removeReady = some (k', some p) ∧ Core k' v.removeReady ∧ SameKin k k' ∧
      p ∉ v.removeReady.free ∧ occupied v.removeReady.queue p = ∅ := by
  obtain ⟨k', hrun, hcore, hsame⟩ := removeReady_spec h ht.cleanReady
  exact ⟨k', hr ▸ hrun, hcore, hsame, h.running_live hr,
    occupied_eq_empty (ht.off_removeReady hr)⟩

section Wait

-- P on a semaphore that makes the running process wait.
theorem wait_spec (currentTime : Int) (h : Rep k v) (ht : v.Neat) (hr : v.running = some p) (hsem : v.sem s ≤ 0)
    (hd : v.HasDescriptor s) :
    ∃ k', k.intsemop L currentTime s LOCK = some (.gone k') ∧
      Rep k' (v.wait L currentTime s p) := by
  have hset := h.setSem s (toLong (v.sem s - 1))
  obtain ⟨k₁, hrem, hcore₁, hsame₁, hlive, hempty⟩ := hset.removeReady_step (p := p)
    ⟨ht.once, ht.ready, ht.alone⟩ hr
  obtain ⟨k₂, hins, hcore₂, hsame₂⟩ := insertBlocked_core (s := s) hcore₁ hlive
    (by simp [hempty]) (by
      simp only [Sched.HasDescriptor, Sched.queue_removeReady]
      exact hd)
  obtain ⟨k₃, hsched, hcore₃, hsame₃⟩ := schedule_spec (L := L) hcore₂ currentTime
  refine ⟨k₃, ?_, h.change hcore₃ ((hsame₁.trans hsame₂).trans hsame₃) ?_ ?_ ?_⟩
  · rw [← h.sem_eq] at hsem hrem
    simp only [Kernel.intsemop, if_pos hsem, if_true]
    rw [show k.sem s + LOCK = k.sem s - 1 from rfl, hrem]
    simp only [Option.bind_eq_bind, Option.bind_some, hins, hsched]
  all_goals simp [Sched.wait, Sched.block, Sched.insertBlocked, Sched.removeReady, Sched.setSem]

theorem waitforpclock_spec (currentTime : Int) (h : Rep k v) (ht : v.Neat) (hr : v.running = some p)
    (hsem : v.sem L.PSEUDO_CLOCK_SEMAPHORE ≤ 0)
    (hd : v.HasDescriptor L.PSEUDO_CLOCK_SEMAPHORE) :
    ∃ k', k.waitforpclock L currentTime = some (.gone k') ∧
      Rep k' (v.waitforpclock L currentTime p) := by
  have hsave := h.saveState p v.SYS_TRAP_OLD_STATE
  have hrep := h.change hsave.1 hsave.2 rfl rfl rfl
  obtain ⟨k', hrun, hrep'⟩ := wait_spec (L := L) currentTime hrep
    ⟨ht.once, ht.ready, ht.alone⟩ hr hsem hd
  refine ⟨k', ?_, hrep'⟩
  simp only [Kernel.waitforpclock, h.kernel_running, hr, h.old_eq, Option.bind_eq_bind,
    Option.bind_some, hrun]

theorem waitforio_spec (currentTime : Int) (h : Rep k v) (ht : v.Neat) (hr : v.running = some p)
    (hdev : deviceOf v.SYS_TRAP_OLD_STATE.d4 = some d)
    (hd : v.sem (L.device d) ≤ 0 → v.HasDescriptor (L.device d)) :
    ∃ r, k.waitforio L currentTime = some r ∧ Agree r (v.waitforio L currentTime d p) := by
  have hs : k.sem (L.device d) = v.sem (L.device d) := by rw [h.sem_eq]
  have hc : k.deviceCompletionStats d = v.deviceCompletionStats d := by rw [h.stats_eq]
  unfold Kernel.waitforio Sched.waitforio
  simp only [h.kernel_running, hr, h.old_eq, hdev, hs, hc, Option.bind_eq_bind, Option.bind_some]
  by_cases hz : v.sem (L.device d) ≤ 0
  · rw [if_pos hz, if_pos hz]
    have hsave := h.saveState p v.SYS_TRAP_OLD_STATE
    have hrep := h.change hsave.1 hsave.2 rfl rfl rfl
    obtain ⟨k', hrun, hrep'⟩ := wait_spec (L := L) currentTime hrep
      ⟨ht.once, ht.ready, ht.alone⟩ hr hz (hd hz)
    exact ⟨.gone k', hrun, hrep'⟩
  · rw [if_neg hz, if_neg hz]
    have hset := (h.mapEnv fun env => { env with
      SYS_TRAP_OLD_STATE := (v.SYS_TRAP_OLD_STATE.setD2 (v.deviceCompletionStats d).length).setD3
        (v.deviceCompletionStats d).status }).setSem (L.device d) (v.sem (L.device d) - 1)
    exact ⟨_, rfl, h.change hset (SameKin.refl k) rfl rfl rfl⟩

end Wait

section Signal

-- V by the kernel on a semaphore with a waiter.
theorem signal_spec (currentTime : Int) (h : Rep k v) (s : Addr) (hsem : v.sem s < 0)
    (hclean : CleanHead (v.queue (some s))) :
    ∃ r, k.intsemop L currentTime s UNLOCK = some r ∧
      Rep r.kernel ((v.setSem s (toLong (v.sem s + 1))).wake s) := by
  have hset := h.setSem s (toLong (v.sem s + 1))
  obtain ⟨k₁, out, hrun, hcases⟩ := wake_spec hset s hclean
  have hne : ¬ UNLOCK = LOCK := by decide
  have hz : k.sem s < 0 := by
    rw [h.sem_eq]
    exact hsem
  rw [← h.sem_eq] at hrun
  obtain ⟨q, hq⟩ := (v.setSem s (toLong (v.sem s + 1))).frame_wake s
  have hrep : ∀ k', Core k' ((v.setSem s (toLong (v.sem s + 1))).wake s) → SameKin k k' →
      Rep k' ((v.setSem s (toLong (v.sem s + 1))).wake s) := fun k' hc hs =>
    h.change hc hs (by rw [hq]; rfl) (by rw [hq]; rfl) (by rw [hq]; rfl)
  unfold Kernel.intsemop
  simp only [if_neg hne, if_true, if_pos hz]
  rw [show k.sem s + UNLOCK = k.sem s + 1 from rfl, hrun]
  rcases hcases with ⟨rfl, hcore, hsame⟩ | ⟨p, rfl, hp, hcore, hsame⟩ |
    ⟨p, k₂, rfl, hp, hins, hcore, hsame⟩
  · exact ⟨.back k₁, rfl, hrep k₁ hcore hsame⟩
  · exact ⟨.back k₁, by simp [hp], hrep k₁ hcore hsame⟩
  · exact ⟨.back k₂, by simp [hp, hins], hrep k₂ hcore hsame⟩

theorem inthandler_spec (currentTime : Int) (h : Rep k v) (reg : DevReg)
    (hwait : v.sem (L.device d) = -1 → v.procs (some (L.device d)) ≠ [])
    (hclean : CleanHead (v.queue (some (L.device d)))) :
    ∃ k', k.inthandler L currentTime d reg = some k' ∧ Rep k' (v.inthandler L d reg) := by
  have hs : k.sem (L.device d) = v.sem (L.device d) := by rw [h.sem_eq]
  unfold Kernel.inthandler Sched.inthandler
  simp only [hs, h.headBlocked_eq, Option.bind_eq_bind, Option.bind_some]
  by_cases hz : v.sem (L.device d) = -1
  · rw [if_pos hz, if_pos hz]
    obtain ⟨p, hp⟩ : ∃ p, (v.procs (some (L.device d))).head? = some p :=
      ⟨_, List.head?_eq_some_head (hwait hz)⟩
    have hsave := h.saveState p (((v.context p).p_s.setD2 reg.d_dadd).setD3 reg.d_stat)
    have hrep := h.change hsave.1 hsave.2 rfl rfl rfl
    obtain ⟨r, hrun, hrep'⟩ := signal_spec (L := L) currentTime hrep (L.device d)
      (show v.sem (L.device d) < 0 by omega) hclean
    rw [show (v.saveState p _).sem (L.device d) + 1 = 0 from congrArg (· + 1) hz] at hrep'
    refine ⟨r.kernel, ?_, ?_⟩
    · simp only [hp, Option.bind_some, h.p_s_eq, hrun]
    · simp only [hp]
      exact hrep'
  · rw [if_neg hz, if_neg hz]
    have hset := (h.mapEnv fun env => { env with
      deviceCompletionStats :=
        Function.update env.deviceCompletionStats d ⟨reg.d_stat, reg.d_dadd⟩ }).setSem
      (L.device d) (toLong (v.sem (L.device d) + 1))
    exact ⟨_, rfl, h.change hset (SameKin.refl k) rfl rfl rfl⟩

theorem intdevicehandler_spec (h : Rep k v) (type : DeviceType) (old : State) (reg : DevReg)
    (hdev : deviceOf (old.s_tmp.in_dno + type.first) = some d)
    (hwait : v.sem (L.device d) = -1 → v.procs (some (L.device d)) ≠ [])
    (hclean : CleanHead (v.queue (some (L.device d)))) :
    ∃ k', k.intdevicehandler type L currentTime old reg = some k' ∧
      Rep k' (v.intdevicehandler L currentTime old d reg) := by
  obtain ⟨k₁, hrun, hrep⟩ := inthandler_spec currentTime h reg hwait hclean
  unfold Kernel.intdevicehandler Sched.intdevicehandler
  simp only [hdev, h.running_eq, hrun, Option.bind_eq_bind, Option.bind_some]
  by_cases hq : v.queue none = []
  · have hr : v.running = none := by simp [Sched.running, hq]
    obtain ⟨k', hsched, hcore, hsame⟩ := schedule_spec (L := L) hrep.toCore currentTime
    rw [hr, if_pos hq]
    exact ⟨k', hsched, hrep.change hcore hsame (by simp) (by simp) (by simp)⟩
  · obtain ⟨p, hr⟩ : ∃ p, v.running = some p := by
      rw [Sched.running, List.head?_eq_some_head hq]
      exact ⟨_, rfl⟩
    rw [hr, if_neg hq]
    exact ⟨_, rfl, hrep.change (hrep.LDST old) (SameKin.refl k₁) rfl rfl rfl⟩

end Signal

section Clock

theorem preempt_spec (h : Rep k v) (ht : v.Neat) (tIn : Int) (old : State) :
    ∃ k', k.preempt tIn old v.running = some k' ∧ Rep k' (v.preempt tIn old) := by
  unfold Kernel.preempt Sched.preempt
  cases hr : v.running with
  | none => exact ⟨k, rfl, h⟩
  | some p =>
      obtain ⟨k₁, hrem, hcore₁, hsame₁, hlive, hempty⟩ := h.removeReady_step ht hr
      have hcore₂ := hcore₁.updateTotalTime tIn p
      have hcore₃ := hcore₂.1.saveState p old
      obtain ⟨k', hins, hcore, hsame⟩ := insertReady_spec (p := p) hcore₃.1 hlive (by
        rw [show ((v.removeReady.updateTotalTimeOnProcessor tIn p).saveState p old).queue =
          v.removeReady.queue from rfl, hempty]
        simp)
      refine ⟨k', ?_, h.change hcore (((hsame₁.trans hcore₂.2).trans hcore₃.2).trans hsame)
        rfl rfl rfl⟩
      simp only [hrem, Option.bind_eq_bind, Option.bind_some, hins]

theorem tick_spec (currentTime : Int) (h : Rep k v)
    (hsem : v.queue (some L.PSEUDO_CLOCK_SEMAPHORE) ≠ [] → v.sem L.PSEUDO_CLOCK_SEMAPHORE < 0)
    (hclean : CleanHead (v.queue (some L.PSEUDO_CLOCK_SEMAPHORE))) :
    ∃ k', k.tickPseudoClock L currentTime = some k' ∧ Rep k' (v.tick L) := by
  unfold Kernel.tickPseudoClock Sched.tick
  have hclock : k.PSEUDO_CLOCK = v.PSEUDO_CLOCK := h.clock_eq
  by_cases hc : v.PSEUDO_CLOCK ≥ 100000
  · rw [if_pos (hclock ▸ hc), if_pos hc]
    simp only [h.headBlocked_eq, Option.bind_eq_bind, Option.bind_some]
    by_cases hq : v.queue (some L.PSEUDO_CLOCK_SEMAPHORE) = []
    · have hhead : (v.procs (some L.PSEUDO_CLOCK_SEMAPHORE)).head? = none := by
        simp [Sched.procs, hq]
      rw [hhead, if_pos hq]
      exact ⟨_, rfl, h.change (h.mapEnv fun env => { env with PSEUDO_CLOCK := 0 })
        (SameKin.refl k) rfl rfl rfl⟩
    · obtain ⟨p, hhead⟩ : ∃ p, (v.procs (some L.PSEUDO_CLOCK_SEMAPHORE)).head? = some p := by
        refine ⟨_, List.head?_eq_some_head ?_⟩
        simpa [Sched.procs] using hq
      obtain ⟨r, hrun, hrep⟩ := signal_spec (L := L) currentTime h
        L.PSEUDO_CLOCK_SEMAPHORE (hsem hq) hclean
      rw [hhead, if_neg hq]
      simp only [hrun, Option.bind_some]
      exact ⟨_, rfl, hrep.change (hrep.mapEnv fun env => { env with PSEUDO_CLOCK := 0 })
        (SameKin.refl _) rfl rfl rfl⟩
  · rw [if_neg (hclock ▸ hc), if_neg hc]
    exact ⟨k, rfl, h⟩

theorem intclockhandler_spec (h : Rep k v) (ht : v.Neat) (tIn tOut : Int) (old : State)
    (hsem : v.queue (some L.PSEUDO_CLOCK_SEMAPHORE) ≠ [] → v.sem L.PSEUDO_CLOCK_SEMAPHORE < 0)
    (hclean : CleanHead (v.queue (some L.PSEUDO_CLOCK_SEMAPHORE))) :
    ∃ k', k.intclockhandler L tIn tOut old = some k' ∧
      Rep k' (v.intclockhandler L tIn tOut old) := by
  have hclock := h.mapEnv fun env => { env with PSEUDO_CLOCK := env.PSEUDO_CLOCK + QUANTUM }
  have hrep₀ := h.change hclock (SameKin.refl k) rfl rfl rfl
  obtain ⟨k₁, hpre, hrep₁⟩ := preempt_spec hrep₀ ⟨ht.once, ht.ready, ht.alone⟩ tIn old
  have hframe := Sched.frame_preempt { v with PSEUDO_CLOCK := v.PSEUDO_CLOCK + QUANTUM } tIn old
    L.PSEUDO_CLOCK_SEMAPHORE
  obtain ⟨k₂, htick, hrep₂⟩ := tick_spec (L := L) tOut hrep₁
    (by rw [hframe.1, hframe.2]; exact hsem) (by rw [hframe.1]; exact hclean)
  obtain ⟨k₃, hsched, hcore, hsame⟩ := schedule_spec (L := L) hrep₂.toCore tOut
  refine ⟨k₃, ?_, hrep₂.change hcore hsame (Sched.schedule_free ..) (Sched.schedule_parent ..)
    (Sched.schedule_children ..)⟩
  simp only [Kernel.intclockhandler, h.running_eq, Option.bind_eq_bind, Option.bind_some]
  rw [show Kernel.preempt _ tIn old v.running = some k₁ from hpre, Option.bind_some, htick,
    Option.bind_some, hsched]

end Clock

end Hoca
